import EmbCC.Debug.Zlib
import EmbCC.Lib.Lz

/-!
# What the zlib writer writes

The bits of a writer are those of its bytes and of its accumulator. Each routine
of the writer appends a fixed list of bits (`Puts`), and the main loop appends the
codes of tokens that expand to the section (`compress_spec`). The hash chains
only decide which of the possible matches are taken: all that is used about them
is that they lead back.
-/

namespace EmbCC.Debug

open List Bits Lz

namespace Zbits

/-! ## Bits put out -/

/-- What has been written so far. -/
def bits (z : Zbits) : List Bool := stream z.b ++ toBits z.n z.acc

/-- Less than a byte is kept back. -/
structure Ok (z : Zbits) : Prop where
  acc_lt : z.acc < 2 ^ z.n
  n_lt : z.n < 8

/-- The bits `l` are appended, and the bytes written before stay. -/
def Puts (f : Zbits → Zbits) (l : List Bool) : Prop :=
  ∀ z : Zbits, z.Ok → (f z).Ok ∧ (f z).bits = z.bits ++ l ∧ z.b <+: (f z).b

lemma Puts.comp {f g : Zbits → Zbits} {l m : List Bool} (hf : Puts f l) (hg : Puts g m) :
    Puts (fun z => g (f z)) (l ++ m) := by
  intro z hz
  obtain ⟨hok, hbits, hb⟩ := hf z hz
  obtain ⟨hok', hbits', hb'⟩ := hg (f z) hok
  exact ⟨hok', by rw [hbits', hbits, append_assoc], hb.trans hb'⟩

lemma bits_dbU8_shift {z : Zbits} (hn : 8 ≤ z.n) :
    ({ z.dbU8 (z.acc &&& 0xff) with acc := z.acc >>> 8, n := z.n - 8 } : Zbits).bits = z.bits := by
  have hbyte : toBits 8 (BitVec.ofNat 8 (z.acc &&& 0xff)).toNat = toBits 8 z.acc := by
    refine toBits_congr fun j hj => ?_
    rw [BitVec.toNat_ofNat, show 0xff = 2 ^ 8 - 1 from rfl, Nat.and_two_pow_sub_one_eq_mod,
      Nat.mod_mod, Nat.testBit_mod_two_pow]
    simp [hj]
  have hsplit : toBits z.n z.acc = toBits 8 z.acc ++ toBits (z.n - 8) (z.acc >>> 8) := by
    rw [← toBits_split, Nat.add_sub_cancel' hn]
  simp only [bits, dbU8, stream_append, stream_cons, stream_nil, hbyte, hsplit, append_nil, append_assoc]

/-- Flushing whole bytes keeps the bits. -/
lemma flush_spec {k : ℕ} {z : Zbits} (hacc : z.acc < 2 ^ z.n) (hk : z.n ≤ 8 * k + 7) :
    (flush k z).Ok ∧ (flush k z).bits = z.bits ∧ z.b <+: (flush k z).b := by
  induction k generalizing z with
  | zero => exact ⟨⟨hacc, show z.n < 8 by omega⟩, rfl, prefix_rfl⟩
  | succ k ih =>
    rw [flush]
    split_ifs with hn
    · have hacc' : z.acc >>> 8 < 2 ^ (z.n - 8) := shiftRight_lt (by rwa [Nat.add_sub_cancel' hn])
      obtain ⟨hok, hbits, hb⟩ :=
        @ih { z.dbU8 (z.acc &&& 0xff) with acc := z.acc >>> 8, n := z.n - 8 }
          hacc' (show z.n - 8 ≤ 8 * k + 7 by omega)
      exact ⟨hok, hbits.trans (bits_dbU8_shift hn), (prefix_append _ _).trans hb⟩
    · exact ⟨⟨hacc, by omega⟩, rfl, prefix_rfl⟩

lemma zput_puts {v n : ℕ} (hv : v < 2 ^ n) : Puts (fun z => z.zput v n) (toBits n v) := by
  intro z hz
  obtain ⟨hok, hbits, hb⟩ := @flush_spec (z.n + n)
    { z with acc := z.acc ||| v <<< z.n, n := z.n + n } (or_shiftLeft_lt hz.acc_lt hv)
    (show z.n + n ≤ 8 * (z.n + n) + 7 by omega)
  refine ⟨hok, hbits.trans ?_, hb⟩
  simp only [bits, toBits_or_shiftLeft hz.acc_lt, append_assoc]

lemma testBit_foldl_or (f : ℕ → ℕ) (l : List ℕ) (r j : ℕ) :
    (l.foldl (fun r k => r ||| f k) r).testBit j = (r.testBit j || l.any fun k => (f k).testBit j) := by
  induction l generalizing r with
  | nil => simp
  | cons k l ih => simp [ih, Bool.or_assoc]

lemma testBit_shifted_bit (v k m j : ℕ) : ((v >>> k &&& 1) <<< m).testBit j = (decide (j = m) && v.testBit k) := by
  rw [Nat.testBit_shiftLeft, Nat.and_one_is_mod, Nat.shiftRight_eq_div_pow, ← Nat.toNat_testBit,
    Nat.testBit_bool_toNat, ← Bool.and_assoc]
  congr 1
  rw [← Bool.decide_and, decide_eq_decide]
  omega

lemma testBit_reversed (v : ℕ) {n j : ℕ} (hj : j < n) : (reversed v n).testBit j = v.testBit (n - 1 - j) := by
  simp only [reversed, testBit_foldl_or, testBit_shifted_bit, Nat.zero_testBit, Bool.false_or]
  rw [Bool.eq_iff_iff, any_eq_true]
  constructor
  · rintro ⟨k, hk, hbit⟩
    obtain ⟨h, hv⟩ := by simpa using hbit
    rwa [show n - 1 - j = k by have := List.mem_range.1 hk; omega]
  · intro hv
    refine ⟨n - 1 - j, List.mem_range.2 (by omega), ?_⟩
    simpa [hv] using show j = n - 1 - (n - 1 - j) by omega

lemma reversed_lt (v n : ℕ) : reversed v n < 2 ^ n := by
  refine Nat.lt_pow_two_of_testBit _ fun j hj => ?_
  simp only [reversed, testBit_foldl_or, testBit_shifted_bit, Nat.zero_testBit, Bool.false_or]
  rw [any_eq_false]
  intro k hk
  have := List.mem_range.1 hk
  simp [show j ≠ n - 1 - k by omega]

lemma toBits_reversed (v n : ℕ) : toBits n (reversed v n) = (toBits n v).reverse := by
  refine ext_getElem (by simp) fun j hj hj' => ?_
  have hj : j < n := by simpa using hj
  simp [toBits, testBit_reversed v hj]

lemma zputRev_puts (v n : ℕ) : Puts (fun z => z.zputRev v n) (toBits n v).reverse := by
  rw [← toBits_reversed]
  exact zput_puts (reversed_lt v n)

/-! ## Codes -/

/-- The fixed Huffman code of a symbol, as it lies in the stream. -/
def codeBits (c : ℕ) : List Bool :=
  if c < 144 then (toBits 8 (0x30 + c)).reverse
  else if c < 256 then (toBits 9 (0x190 + (c - 144))).reverse
  else if c < 280 then (toBits 7 (c - 256)).reverse
  else (toBits 8 (0xc0 + (c - 280))).reverse

lemma zlit_puts (c : ℕ) : Puts (fun z => z.zlit c) (codeBits c) := by
  unfold zlit codeBits
  split_ifs
  all_goals exact zputRev_puts _ _

end Zbits

open Zbits
variable {base : List ℕ} {v len dist : ℕ}

lemma findCode_spec {k c : ℕ} (hc : base.getD c 0 ≤ v) : findCode base v k c ≤ c + k ∧ base.getD (findCode base v k c) 0 ≤ v
    ∧ (findCode base v k c < c + k → v < base.getD (findCode base v k c + 1) 0) := by
  induction k generalizing c with
  | zero => exact ⟨le_rfl, hc, fun h => absurd h (lt_irrefl _)⟩
  | succ k ih =>
    rw [findCode]
    split_ifs with h
    · obtain ⟨hle, hbase, hnext⟩ := ih h
      exact ⟨by omega, hbase, fun hlt => hnext (by omega)⟩
    · exact ⟨by omega, hc, fun _ => by omega⟩

lemma findCode_fits {ext : List ℕ} {last : ℕ} (h0 : base.getD 0 0 ≤ v)
    (hgap : ∀ c < last, base.getD (c + 1) 0 ≤ base.getD c 0 + 2 ^ ext.getD c 0)
    (hlast : v < base.getD last 0 + 2 ^ ext.getD last 0) : findCode base v last 0 ≤ last ∧ base.getD
    (findCode base v last 0) 0 ≤ v ∧ v - base.getD (findCode base v last 0) 0 < 2 ^ ext.getD (findCode base v last 0) 0 := by
  obtain ⟨hle, hbase, hnext⟩ := @findCode_spec base v last 0 h0
  rw [Nat.zero_add] at hle hnext
  refine ⟨hle, hbase, ?_⟩
  rcases hle.lt_or_eq with hlt | heq
  · have := hnext hlt
    have := hgap _ hlt
    omega
  · rw [heq] at hbase ⊢
    omega

lemma lcode_spec (h3 : 3 ≤ len) (h258 : len ≤ 258) : lcode len ≤ 28 ∧ zLbase.getD (lcode len) 0 ≤ len ∧
      len - zLbase.getD (lcode len) 0 < 2 ^ zLext.getD (lcode len) 0 :=
  findCode_fits h3 (by decide) (show len < 258 + 1 by omega)

lemma dcode_spec (h1 : 1 ≤ dist) (hwin : dist ≤ 32768) : dcode dist ≤ 29 ∧ zDbase.getD (dcode dist) 0 ≤ dist ∧
      dist - zDbase.getD (dcode dist) 0 < 2 ^ zDext.getD (dcode dist) 0 :=
  findCode_fits h1 (by decide) (show dist < 24577 + 8192 by omega)

/-- The lengths and distances that deflate has codes for. -/
structure Coded (len dist : ℕ) : Prop where
  len_ge : 3 ≤ len
  len_le : len ≤ 258
  dist_pos : 1 ≤ dist
  dist_le : dist ≤ 32768

/-- The bits of a token. -/
def tokenBits : Token (BitVec 8) → List Bool
  | .lit c => codeBits c.toNat
  | .copy len dist =>
    codeBits (257 + lcode len) ++
      (toBits (zLext.getD (lcode len) 0) (len - zLbase.getD (lcode len) 0) ++
        ((toBits 5 (dcode dist)).reverse ++
          toBits (zDext.getD (dcode dist) 0) (dist - zDbase.getD (dcode dist) 0)))

lemma zmatch_puts (h : Coded len dist) : Puts (fun z => z.zmatch len dist) (tokenBits (.copy len dist)) := by
  have hl := (lcode_spec h.len_ge h.len_le).2.2
  have hd := (dcode_spec h.dist_pos h.dist_le).2.2
  exact (zlit_puts _).comp ((zput_puts hl).comp ((zputRev_puts _ _).comp (zput_puts hd)))

/-- A copy has codes. -/
def CodedToken : Token (BitVec 8) → Prop
  | .lit _ => True
  | .copy len dist => Coded len dist

/-! ## Matches -/

section
variable {p : List (BitVec 8)} {c i : ℕ} {ch : Chains}

/-- The `best` bytes at `i` stand `dist` bytes in front of it too. -/
structure Match (p : List (BitVec 8)) (i best dist : ℕ) : Prop where
  best_le : best ≤ 258
  fits : i + best ≤ p.length
  dist_pos : 1 ≤ dist
  dist_le : dist ≤ 32768
  back : dist ≤ i
  same : ∀ t < best, p.getD (i - dist + t) 0 = p.getD (i + t) 0

/-- The length found is one at which the two places agree. -/
lemma matchLen_spec (k : ℕ) {l : ℕ} (h : ∀ t < l, p.getD (c + t) 0 = p.getD (i + t) 0) :
    matchLen p c i k l ≤ l + k ∧ ∀ t < matchLen p c i k l, p.getD (c + t) 0 = p.getD (i + t) 0 := by
  induction k generalizing l with
  | zero => exact ⟨le_rfl, h⟩
  | succ k ih =>
    rw [matchLen]
    split_ifs with heq
    · obtain ⟨hle, hsame⟩ := @ih (l + 1) fun t ht => by
        rcases Nat.lt_succ_iff_lt_or_eq.1 ht with h' | rfl
        · exact h t h'
        · exact heq
      exact ⟨by omega, hsame⟩
    · exact ⟨by omega, h⟩

lemma match_of_matchLen (hi : i < p.length) (hc : c < i) (hwin : i - c ≤ 32768) :
    Match p i (matchLen p c i (maxLen p i) 0) (i - c) := by
  have hmax : maxLen p i ≤ 258 ∧ maxLen p i ≤ p.length - i := by
    rw [maxLen]
    split_ifs <;> omega
  obtain ⟨hlen, hsame⟩ := @matchLen_spec p c i (maxLen p i) 0 fun t ht => absurd ht (by omega)
  refine ⟨by omega, by omega, by omega, hwin, by omega, fun t ht => ?_⟩
  rw [show i - (i - c) = c by omega]
  exact hsame t ht

/-- What the walk over the chain returns is a match, or nothing. -/
lemma walkChain_match {prev : ℕ → Option ℕ} (hi : i < p.length) (hprev : ∀ j c, prev j = some c → c < i) (k : ℕ)
    {o : Option ℕ} {best dist : ℕ} (ho : ∀ c, o = some c → c < i) (h : best = 0 ∨ Match p i best dist) :
    (walkChain p prev i k o best dist).1 = 0 ∨ Match p i (walkChain p prev i k o best dist).1
    (walkChain p prev i k o best dist).2 := by
  induction k generalizing o best dist with
  | zero => exact h
  | succ k ih =>
    cases o with
    | none => exact h
    | some c =>
      rw [walkChain]
      dsimp only
      split_ifs with hwin hbest hmax
      · exact .inr (match_of_matchLen hi (ho c rfl) hwin)
      · exact ih (hprev c) (.inr (match_of_matchLen hi (ho c rfl) hwin))
      · exact ih (hprev c) h
      · exact h

/-- Every entry of the chains lies in front of `i`. -/
structure Chains.Back (ch : Chains) (i : ℕ) : Prop where
  head : ∀ h c, ch.head h = some c → c < i
  prev : ∀ j c, ch.prev j = some c → c < i

lemma findMatch_match (hi : i < p.length) (hch : ch.Back i) :
    (findMatch p ch i).1 = 0 ∨ Match p i (findMatch p ch i).1 (findMatch p ch i).2 := by
  rw [findMatch]
  split_ifs
  · exact walkChain_match hi hch.prev 64 (hch.head _) (.inl rfl)
  · exact .inl rfl

lemma enter_back (hch : ch.Back i) : (enter p ch i).Back (i + 1) := by
  have hmono : ch.Back (i + 1) :=
    ⟨fun h c hc => (hch.head h c hc).trans (Nat.lt_succ_self i), fun j c hc => (hch.prev j c hc).trans (Nat.lt_succ_self i)⟩
  rw [enter]
  split_ifs
  · constructor
    · intro h c hc
      rcases eq_or_ne h (zhash p i) with rfl | hne
      · simp only [Function.update_self, Option.some.injEq] at hc
        omega
      · exact hmono.head h c (by simpa [Function.update_of_ne hne] using hc)
    · intro j c hc
      rcases eq_or_ne j i with rfl | hne
      · exact hmono.head _ c (by simpa using hc)
      · exact hmono.prev j c (by simpa [Function.update_of_ne hne] using hc)
  · exact hmono

lemma foldl_enter_back (hch : ch.Back i) (adv : ℕ) : ((List.range' i adv).foldl (enter p) ch).Back (i + adv) := by
  induction adv generalizing i ch with
  | zero => exact hch
  | succ adv ih =>
    rw [range'_succ, foldl_cons, show i + (adv + 1) = i + 1 + adv by omega]
    exact ih (enter_back hch)

lemma puts_nothing (hi : i = p.length) : ∃ ts, Expands 0 (p.take i) ts p ∧ (∀ t ∈ ts, CodedToken t) ∧
      Puts (fun z => z) (ts.flatMap tokenBits) := by
  subst hi
  refine ⟨[], ?_, by simp, fun z hz => ⟨hz, by simp, prefix_rfl⟩⟩
  rw [take_length]
  exact .nil

/-! ## The search -/

/-- A turn of the main loop that takes no match. -/
lemma compress_lit {k i : ℕ} {ch : Chains} (hi : i < p.length) (h3 : ¬(findMatch p ch i).1 ≥ 3) :
    compress p (k + 1) i ch =
      fun z => compress p k (i + 1) ((range' i 1).foldl (enter p) ch) (z.zlit (p.getD i 0).toNat) := by
  funext z
  rw [compress, if_pos hi]
  simp only [if_neg h3]

/-- The whole search, by induction over what is left: the tokens put out expand to the input. -/
lemma compress_spec {k i : ℕ} {ch : Chains} (hk : p.length ≤ i + k) (hi : i ≤ p.length) (hch : ch.Back i) :
    ∃ ts, Expands 0 (p.take i) ts p ∧ (∀ t ∈ ts, CodedToken t) ∧ Puts (compress p k i ch) (ts.flatMap tokenBits) := by
  induction k generalizing i ch with
  | zero => exact puts_nothing (by omega)
  | succ k ih =>
    rcases hi.eq_or_lt with heq | hlt
    · have hstop : compress p (k + 1) i ch = fun z => z := by
        funext z
        rw [compress, if_neg (by omega)]
      rw [hstop]
      exact puts_nothing heq
    · have hmatch := findMatch_match hlt hch
      rcases hfind : findMatch p ch i with ⟨best, dist⟩
      rw [hfind] at hmatch
      by_cases h3 : best ≥ 3
      · -- a match: the copy carries the section on by `best` bytes
        have hm : Match p i best dist := hmatch.resolve_left (show best ≠ 0 by omega)
        have hcoded : Coded best dist := ⟨h3, hm.best_le, hm.dist_pos, hm.dist_le⟩
        have hcopy : copyBack 0 dist best (p.take i) = p.take (i + best) :=
          copyBack_take hm.dist_pos hm.back hm.fits hm.same
        obtain ⟨ts, hexp, hts, hputs⟩ := ih (by omega) hm.fits (foldl_enter_back hch best)
        refine ⟨.copy best dist :: ts, ?_, List.forall_mem_cons.2 ⟨hcoded, hts⟩, ?_⟩
        · refine .copy ?_ (hcopy ▸ hexp)
          rw [length_take_of_le hi]
          exact hm.back
        · have hstep : compress p (k + 1) i ch = fun z => compress p k (i + best)
              ((range' i best).foldl (enter p) ch) (z.zmatch best dist) := by
            funext z
            rw [compress, if_pos hlt, hfind]
            simp only [if_pos h3]
          rw [hstep]
          exact (zmatch_puts hcoded).comp hputs
      · -- no match of three bytes: the byte itself
        obtain ⟨ts, hexp, hts, hputs⟩ := ih (by omega) hlt (foldl_enter_back hch 1)
        refine ⟨.lit (p.getD i 0) :: ts, ?_, List.forall_mem_cons.2 ⟨trivial, hts⟩, ?_⟩
        · exact .lit (by rwa [take_concat p 0 hlt])
        · rw [compress_lit hlt (by rwa [hfind])]
          exact (zlit_puts _).comp hputs

lemma stream_pad {z : Zbits} (hz : z.Ok) : ∃ l, stream (if z.n ≠ 0 then z.zput 0 (8 - z.n) else z).b = z.bits ++ l ∧
      z.b <+: (if z.n ≠ 0 then z.zput 0 (8 - z.n) else z).b := by
  split_ifs with hn
  · obtain ⟨hok, hbits, hb⟩ := zput_puts (Nat.two_pow_pos (8 - z.n)) z hz
    have hlen := congrArg length hbits
    have hn' : (z.zput 0 (8 - z.n)).n = 0 := by
      have := hz.n_lt
      have := hok.n_lt
      simp only [bits, length_append, length_toBits, length_stream] at hlen this
      omega
    exact ⟨_, by rw [← hbits, bits, hn', toBits_zero, append_nil], hb⟩
  · have hn : z.n = 0 := not_not.1 hn
    exact ⟨[], by simp [bits, hn], prefix_rfl⟩

lemma foldl_dbU8 (f : ℕ → ℕ) (l : List ℕ) (z : Zbits) :
    (l.foldl (fun z k => z.dbU8 (f k)) z).b = z.b ++ l.map fun k => BitVec.ofNat 8 (f k) := by
  induction l generalizing z with
  | nil => simp
  | cons k l ih =>
    rw [foldl_cons, ih, map_cons]
    simp [dbU8]

/-- The bytes written, when the main loop puts the bits `m`. -/
lemma zlibBytes_of_puts {m : List Bool} (hputs : Puts (compress p p.length 0 {}) m) :
    ∃ body l, zlibBytes p = 0x78 :: 0x9c :: body ∧
      stream body = toBits 1 1 ++ (toBits 2 1 ++ (m ++ (codeBits 256 ++ l))) := by
  have hall := (zput_puts (show 1 < 2 ^ 1 by decide)).comp
    ((zput_puts (show 1 < 2 ^ 2 by decide)).comp (hputs.comp (zlit_puts 256)))
  obtain ⟨hok, hbits, hb⟩ := hall { b := [0x78, 0x9c] } ⟨by decide, by decide⟩
  obtain ⟨pad, hpad, hb'⟩ := stream_pad hok
  obtain ⟨body, hbody⟩ := hb.trans hb'
  obtain ⟨sums, hsums⟩ : ∃ sums, zlibBytes p = [0x78, 0x9c] ++ body ++ sums := by
    rw [hbody, zlibBytes]
    exact ⟨_, foldl_dbU8 _ _ _⟩
  rw [← hbody, hbits, bits, stream_append, toBits_zero, append_nil, append_assoc] at hpad
  refine ⟨body ++ sums, pad ++ stream sums, hsums, ?_⟩
  rw [stream_append, append_cancel_left hpad]
  simp only [append_assoc]

lemma back_empty : ({} : Chains).Back 0 := ⟨fun _ _ h => (nomatch h), fun _ _ h => (nomatch h)⟩

lemma zlibBytes_spec (p : List (BitVec 8)) : ∃ ts body l, Expands 0 [] ts p ∧ (∀ t ∈ ts, CodedToken t) ∧
      zlibBytes p = 0x78 :: 0x9c :: body ∧
      stream body = toBits 1 1 ++ (toBits 2 1 ++ (ts.flatMap tokenBits ++ (codeBits 256 ++ l))) := by
  obtain ⟨ts, hexp, hts, hputs⟩ := @compress_spec p p.length 0 {} (by omega) (Nat.zero_le _) back_empty
  obtain ⟨body, l, hz, hbody⟩ := zlibBytes_of_puts hputs
  exact ⟨ts, body, l, hexp, hts, hz, hbody⟩

end

/-! ## What fits the buffer -/

/-- The capacity is 0 or a power of two from 64 to `2 ^ 30`, and holds the bytes. -/
def Dbuf.Ok (b : Dbuf) : Prop :=
  (b.p = [] ∧ b.cap = 0) ∨ ∃ j ≤ 24, b.cap = 64 * 2 ^ j ∧ b.p.length ≤ 64 * 2 ^ j

lemma dbNeed_full : ∀ j ≤ 24, dbNeed (64 * 2 ^ j) 1 (64 * 2 ^ j) =
    if j < 24 then some (64 * 2 ^ (j + 1)) else none := by
  decide

/-- One more byte is taken while there are less than `2 ^ 30`; then `db_need` does not return. -/
lemma Dbuf.dbU8_spec {b : Dbuf} (hb : b.Ok) (v : BitVec 8) :
    if b.p.length < 2 ^ 30 then ∃ b', b.dbU8 v = some b' ∧ b'.p = b.p ++ [v] ∧ b'.Ok else b.dbU8 v = none := by
  rcases hb with ⟨hp, hcap⟩ | ⟨j, hj, hcap, hle⟩
  · rw [if_pos (by simp [hp])]
    exact ⟨⟨b.p ++ [v], 64⟩, by simp [dbU8, hp, hcap, dbNeed, doubled], rfl, .inr ⟨0, by simp [hp]⟩⟩
  · rcases hle.lt_or_eq with hlt | heq
    · have hroom : 64 * 2 ^ j ≤ 2 ^ 30 := by
        have := Nat.pow_le_pow_right (show 0 < 2 by decide) hj
        omega
      rw [if_pos (hlt.trans_le hroom)]
      refine ⟨⟨b.p ++ [v], b.cap⟩, ?_, rfl, .inr ⟨j, hj, hcap, by simpa [Nat.succ_le_iff] using hlt⟩⟩
      rw [dbU8, dbNeed, if_neg (by rw [hcap]; exact_mod_cast Nat.not_lt.2 hlt)]
      rfl
    · have hneed : dbNeed b.p.length 1 b.cap = if j < 24 then some (64 * 2 ^ (j + 1)) else none := by
        rw [hcap, heq, ← dbNeed_full j hj]
        norm_cast
      rw [dbU8, hneed, heq]
      rcases hj.lt_or_eq with hj | rfl
      · have := Nat.pow_le_pow_right (show 0 < 2 by decide) (show j ≤ 23 by omega)
        rw [if_pos (by omega), if_pos hj]
        refine ⟨_, rfl, rfl, .inr ⟨j + 1, hj, rfl, ?_⟩⟩
        have hpos := Nat.two_pow_pos j
        rw [List.length_append, List.length_singleton, heq, pow_succ]
        omega
      · simp

/-- A run of bytes is taken just where it fits `2 ^ 30` with those there are. -/
lemma Dbuf.foldlM_dbU8 (l : List (BitVec 8)) {b : Dbuf} (hb : b.Ok) (hlen : b.p.length ≤ 2 ^ 30) :
    (l.foldlM dbU8 b).map p = if b.p.length + l.length ≤ 2 ^ 30 then some (b.p ++ l) else none := by
  induction l generalizing b with
  | nil => simpa using hlen
  | cons v l ih =>
    have hstep := dbU8_spec hb v
    rw [foldlM_cons]
    split_ifs at hstep with hlt
    · obtain ⟨b', hb', hp, hok⟩ := hstep
      rw [hb', Option.bind_eq_bind, Option.bind_some, ih hok (by simp [hp]; omega), hp]
      simp [Nat.add_right_comm _ 1, Nat.add_assoc]
    · rw [hstep, if_neg (by simp; omega)]
      rfl

lemma dwarfZlib_eq (p : List (BitVec 8)) : dwarfZlib p =
    if p.length + 1 < 2 ^ 31 ∧ (zlibBytes p).length ≤ 2 ^ 30 then some (zlibBytes p) else none := by
  have h := Dbuf.foldlM_dbU8 (zlibBytes p) (b := {}) (.inl ⟨rfl, rfl⟩) (by simp)
  simp only [List.length_nil, Nat.zero_add, List.nil_append] at h
  rw [dwarfZlib, h, ite_and]

/-! ## A section that does not compress -/

/-- The number in two of every three bytes, which are told apart by their first bit. -/
def spreadByte (i : ℕ) : ℕ :=
  if i % 3 = 0 then i / 3 % 128 else if i % 3 = 1 then 128 + i / 384 % 128 else 128

/-- Three bytes come back only after 49152 others, behind the window. -/
lemma spreadByte_new {i d : ℕ} (hd : 0 < d) (hwin : d ≤ 32768) (hi : d ≤ i) :
    ¬∀ t < 3, spreadByte (i - d + t) = spreadByte (i + t) := by
  intro h
  obtain ⟨j, rfl⟩ := Nat.exists_eq_add_of_le hi
  have h0 := h 0 (by decide)
  have h1 := h 1 (by decide)
  have h2 := h 2 (by decide)
  simp only [Nat.add_sub_cancel_left, Nat.add_zero, spreadByte] at h0 h1 h2
  rcases (by omega : j % 3 = 0 ∨ j % 3 = 1 ∨ j % 3 = 2) with hj | hj | hj <;>
    rcases (by omega : (d + j) % 3 = 0 ∨ (d + j) % 3 = 1 ∨ (d + j) % 3 = 2) with hi | hi | hi <;>
    simp [hj, hi, Nat.add_mod j, Nat.add_mod (d + j)] at h0 h1 h2 <;> omega

def spread (n : ℕ) : List (BitVec 8) := (List.range n).map fun i => .ofNat 8 (spreadByte i)

lemma spread_getD {n i : ℕ} (hi : i < n) : ((spread n).getD i 0).toNat = spreadByte i := by
  have hlt : spreadByte i < 256 := by
    unfold spreadByte
    split_ifs <;> omega
  simp [spread, hi, Nat.mod_eq_of_lt hlt]

lemma spread_no_match {n i best dist : ℕ} (h : Match (spread n) i best dist) : ¬best ≥ 3 := by
  intro h3
  have hlen : (spread n).length = n := by simp [spread]
  have hfits := h.fits
  refine spreadByte_new h.dist_pos h.dist_le h.back fun t ht => ?_
  rw [← spread_getD (n := n) (by omega), ← spread_getD (n := n) (by omega), h.same t (by omega)]

/-- Nothing but literals is written, each of eight bits or more. -/
lemma compress_spread {n k i : ℕ} {ch : Chains} (hk : n ≤ i + k) (hi : i ≤ n) (hch : ch.Back i) :
    ∃ m, Puts (compress (spread n) k i ch) m ∧ 8 * (n - i) ≤ m.length := by
  have hlen : (spread n).length = n := by simp [spread]
  induction k generalizing i ch with
  | zero => exact ⟨[], fun z hz => ⟨hz, by simp [compress], prefix_rfl⟩, by simp; omega⟩
  | succ k ih =>
    rcases hi.eq_or_lt with rfl | hlt
    · refine ⟨[], fun z hz => ?_, by simp⟩
      rw [compress, if_neg (by omega)]
      exact ⟨hz, by simp, prefix_rfl⟩
    · have hnone : ¬(findMatch (spread n) ch i).1 ≥ 3 := by
        rcases findMatch_match (p := spread n) (by omega) hch with h | h
        · omega
        · exact spread_no_match h
      obtain ⟨m, hputs, hm⟩ := ih (by omega) hlt (foldl_enter_back hch 1)
      rw [compress_lit (by omega) hnone]
      refine ⟨_, (zlit_puts _).comp hputs, ?_⟩
      have hcode : 8 ≤ (codeBits ((spread n).getD i 0).toNat).length := by
        have := ((spread n).getD i 0).isLt
        unfold codeBits
        split_ifs <;> simp
      rw [length_append]
      omega

/-- The section of `2 ^ 30` such bytes is longer when compressed. -/
lemma length_zlibBytes_spread (n : ℕ) : n < (zlibBytes (spread n)).length := by
  have hlen : (spread n).length = n := by simp [spread]
  obtain ⟨m, hputs, hm⟩ := compress_spread (n := n) (k := n) (i := 0) (by omega) (by omega) back_empty
  obtain ⟨body, l, hz, hbody⟩ := zlibBytes_of_puts (p := spread n) (by rwa [hlen])
  have := congrArg length hbody
  simp only [length_stream, length_append] at this
  rw [hz, length_cons, length_cons]
  omega

end EmbCC.Debug
