import EmbCC.Debug.Deflate
import EmbCC.Link.Inflate

/-!
# Compressed sections come back

What is left of a stream is the bits of the reader's buffer and those of the bytes
behind it. Each routine of the reader takes the bits that the writer's routine puts
(`Reads`), so the reader meets the writer's tokens one after the other and its
output grows as they say (`codesLoop_expands`). With `zlibBytes_spec` this gives
the round trip: `inflate_zlib` returns what `dwarf_zlib` was given, where the
compressed bytes fit the buffer (`inflateZlib_dwarfZlib`).
-/

namespace EmbCC.Link

open List Bits Lz Debug

namespace Infl

/-- What is left to read. -/
def rest (s : Infl) : List Bool := toBits s.bitcnt s.bitbuf ++ stream (s.input.drop s.inpos)

/-- The buffer holds its bits and no more, and nothing went wrong. -/
structure Ok (s : Infl) : Prop where
  bitbuf_lt : s.bitbuf < 2 ^ s.bitcnt
  not_bad : s.bad = false

/-- The bits `l` are taken, nothing else changes. -/
structure Reads (s : Infl) (l : List Bool) (s' : Infl) : Prop where
  ok : s'.Ok
  rest : s.rest = l ++ s'.rest
  out : s'.out = s.out
  input : s'.input = s.input

variable {s s' : Infl} {l r : List Bool} {len dist : ℕ}

lemma Reads.rest_eq (h : Reads s l s') (hr : s.rest = l ++ r) : s'.rest = r :=
  append_cancel_left (h.rest.symm.trans hr)

lemma Reads.trans {s'' : Infl} {m : List Bool} (h : Reads s l s') (h' : Reads s' m s'') : Reads s (l ++ m) s'' :=
  ⟨h'.ok, by rw [h.rest, h'.rest, append_assoc], h'.out.trans h.out, h'.input.trans h.input⟩

/-- Filling takes bytes until enough bits are there, and loses none. -/
lemma fill_spec {need k val : ℕ} {s : Infl} (hval : val < 2 ^ s.bitcnt) (hk : need ≤ s.bitcnt + 8 * k)
    (hneed : need ≤ (toBits s.bitcnt val ++ stream (s.input.drop s.inpos)).length) :
    ∃ val' s', fill need k val s = (some val', s') ∧ val' < 2 ^ s'.bitcnt ∧ need ≤ s'.bitcnt ∧
      toBits s'.bitcnt val' ++ stream (s'.input.drop s'.inpos) = toBits s.bitcnt val ++ stream (s.input.drop s.inpos) ∧
      s'.bad = s.bad ∧ s'.out = s.out ∧ s'.input = s.input := by
  induction k generalizing val s with
  | zero => exact ⟨val, s, rfl, hval, by omega, rfl, rfl, rfl, rfl⟩
  | succ k ih =>
    rw [fill]
    split_ifs with hlt hend
    · rw [drop_of_length_le hend] at hneed
      simp at hneed
      omega
    · have hpos : s.inpos < s.input.length := not_le.1 hend
      have hbits : toBits (s.bitcnt + 8) (val ||| (s.input.getD s.inpos 0).toNat <<< s.bitcnt) ++
          stream (s.input.drop (s.inpos + 1)) = toBits s.bitcnt val ++ stream (s.input.drop s.inpos) := by
        rw [toBits_or_shiftLeft hval, drop_eq_getElem_cons hpos, stream_cons, getD_eq_getElem _ _ hpos, append_assoc]
      obtain ⟨val', s', hfill, h1, h2, h3, h4⟩ :=
        @ih (val ||| (s.input.getD s.inpos 0).toNat <<< s.bitcnt)
          { s with inpos := s.inpos + 1, bitcnt := s.bitcnt + 8 }
          (or_shiftLeft_lt hval (s.input.getD s.inpos 0).isLt)
          (show need ≤ s.bitcnt + 8 + 8 * k by omega) (hbits ▸ hneed)
      exact ⟨val', s', hfill, h1, h2, h3.trans hbits, h4⟩
    · exact ⟨val, s, rfl, hval, by omega, rfl, rfl, rfl, rfl⟩

lemma inflBits_reads {s : Infl} {need : ℕ} {l r : List Bool} (hs : s.Ok) (hrest : s.rest = l ++ r) (hl : l.length = need) :
    ∃ s', s.inflBits need = (ofBits l, s') ∧ Reads s l s' := by
  obtain ⟨val, s', hfill, hval, hneed, hbits, hbad, hout, hinput⟩ :=
    @fill_spec need need s.bitbuf s hs.bitbuf_lt (by omega) (by
      change need ≤ s.rest.length
      rw [hrest, length_append]
      omega)
  have hsplit : toBits s'.bitcnt val = toBits need val ++ toBits (s'.bitcnt - need) (val >>> need) := by
    rw [← toBits_split, Nat.add_sub_cancel' hneed]
  change _ = s.rest at hbits
  rw [hsplit, append_assoc] at hbits
  have hl' : toBits need val = l :=
    (append_inj (hbits.trans hrest) ((length_toBits _ _).trans hl.symm)).1
  refine ⟨{ s' with bitbuf := val >>> need, bitcnt := s'.bitcnt - need }, ?_, ?_, ?_, hout, hinput⟩
  · rw [inflBits, hfill, ← hl', ofBits_toBits]
    simp only [Nat.one_shiftLeft, Nat.and_two_pow_sub_one_eq_mod]
  · exact ⟨shiftRight_lt (by rwa [Nat.add_sub_cancel' hneed]), hbad.trans hs.not_bad⟩
  · rw [← hbits, hl']
    rfl

lemma inflBits_toBits {s : Infl} {need v : ℕ} {r : List Bool} (hs : s.Ok) (hv : v < 2 ^ need)
    (hrest : s.rest = toBits need v ++ r) : ∃ s', s.inflBits need = (v, s') ∧ Reads s (toBits need v) s' := by
  obtain ⟨s', hread, hreads⟩ := inflBits_reads hs hrest (length_toBits _ _)
  rw [ofBits_toBits_of_lt hv] at hread
  exact ⟨s', hread, hreads⟩

/-- The symbol whose code these bits are: `decodeFrom` on a list. -/
def symbolOf (h : Inhuff) : ℕ → ℕ → ℕ → ℕ → ℕ → List Bool → Option ℕ
  | k + 1, len, code, first, index, b :: l =>
    let code := code ||| b.toNat
    let count := h.count.getD len 0
    if code < first + count then
      if l = [] then some (h.symbol.getD (index + code - first) 0) else none
    else symbolOf h k (len + 1) (code <<< 1) ((first + count) <<< 1) (index + count) l
  | _, _, _, _, _, _ => none

lemma decodeFrom_reads {h : Inhuff} {k len code first index sym : ℕ} {s : Infl} {l r : List Bool} (hs : s.Ok)
    (hsym : symbolOf h k len code first index l = some sym) (hrest : s.rest = l ++ r) : ∃ s',
    decodeFrom h k len code first index s = (some sym, s') ∧ Reads s l s' := by
  induction k generalizing len code first index s l with
  | zero => simp [symbolOf] at hsym
  | succ k ih =>
    cases l with
    | nil => simp [symbolOf] at hsym
    | cons b l =>
      obtain ⟨s1, hbit, hreads⟩ := @inflBits_reads s 1 [b] (l ++ r) hs hrest rfl
      have hval : ofBits [b] = b.toNat := by cases b <;> rfl
      rw [hval] at hbit
      rw [symbolOf] at hsym
      rw [decodeFrom, hbit]
      dsimp only at ⊢
      split_ifs at hsym ⊢ with hmatch hl hbad
      · subst hl
        exact ⟨s1, by rw [Option.some.inj hsym], hreads⟩
      · rw [hreads.ok.not_bad] at hbad
        cases hbad
      · obtain ⟨s', hdec, hreads'⟩ := ih hreads.ok hsym (hreads.rest_eq hrest)
        exact ⟨s', hdec, hreads.trans hreads'⟩

lemma fixedLc_eq : fixedLc =
    { count := [0, 0, 0, 0, 0, 0, 0, 24, 152, 112, 0, 0, 0, 0, 0, 0],
      symbol := range' 256 24 ++ List.range 144 ++ range' 280 8 ++ range' 144 112 ++ List.replicate 32 0 } := by
  decide +kernel

lemma symbolOf_codeBits {c : ℕ} (hc : c < 288) : symbolOf fixedLc 15 1 0 0 0 (Zbits.codeBits c) = some c := by
  rw [fixedLc_eq]
  have hall : ∀ c : Fin 288, symbolOf
      { count := [0, 0, 0, 0, 0, 0, 0, 24, 152, 112, 0, 0, 0, 0, 0, 0],
        symbol := range' 256 24 ++ range 144 ++ range' 280 8 ++ range' 144 112 ++
          replicate 32 0 } 15 1 0 0 0 (Zbits.codeBits c) = some c.val := by decide +kernel
  exact hall ⟨c, hc⟩

lemma symbolOf_dist {c : ℕ} (hc : c < 30) : symbolOf fixedDc 15 1 0 0 0 (toBits 5 c).reverse = some c := by
  have hall : ∀ c : Fin 30, symbolOf fixedDc 15 1 0 0 0 (toBits 5 c).reverse = some c.val := by
    decide +kernel
  exact hall ⟨c, hc⟩

lemma inflDecode_lc {s : Infl} {c : ℕ} {r : List Bool} (hs : s.Ok) (hc : c < 288) (hrest : s.rest = Zbits.codeBits c ++ r) :
    ∃ s', s.inflDecode fixedLc = (some c, s') ∧ Reads s (Zbits.codeBits c) s' :=
  decodeFrom_reads hs (symbolOf_codeBits hc) hrest

lemma copyBack_eq (dist len : ℕ) (s : Infl) :
    copyBack dist len s = { s with out := Lz.copyBack 0 dist len s.out } := by
  induction len generalizing s with
  | zero => rfl
  | succ len ih => rw [copyBack, ih]; rfl

/-- A match read back copies what it says. -/
lemma inflMatch_spec (hs : s.Ok) (hc : Coded len dist) (hd : dist ≤ s.out.length)
    (hrest : s.rest = toBits (zLext.getD (lcode len) 0) (len - zLbase.getD (lcode len) 0) ++
      ((toBits 5 (dcode dist)).reverse ++ (toBits (zDext.getD (dcode dist) 0) (dist - zDbase.getD (dcode dist) 0) ++ r))) :
    ∃ s', s.inflMatch fixedDc (lcode len) = (true, s') ∧ s'.Ok ∧ s'.rest = r ∧ s'.out = Lz.copyBack 0 dist len s.out := by
  obtain ⟨hlc, hlbase, hlext⟩ := lcode_spec hc.len_ge hc.len_le
  obtain ⟨hdc, hdbase, hdext⟩ := dcode_spec hc.dist_pos hc.dist_le
  obtain ⟨s1, hbits1, hreads1⟩ := inflBits_toBits hs hlext hrest
  obtain ⟨s2, (hdec : s1.inflDecode fixedDc = _), hreads2⟩ :=
    decodeFrom_reads hreads1.ok (symbolOf_dist (show _ < 30 by omega)) (hreads1.rest_eq hrest)
  have hrest2 := hreads2.rest_eq (hreads1.rest_eq hrest)
  obtain ⟨s3, hbits3, hreads3⟩ := inflBits_toBits hreads2.ok hdext hrest2
  have hout : s3.out = s.out := hreads3.out.trans (hreads2.out.trans hreads1.out)
  refine ⟨copyBack dist len s3, ?_, ?_, ?_, ?_⟩
  · change s.inflBits (inLext.getD (lcode len) 0) = _ at hbits1
    change s2.inflBits (inDext.getD (dcode dist) 0) = _ at hbits3
    have hlen : inLbase.getD (lcode len) 0 + (len - zLbase.getD (lcode len) 0) = len :=
      Nat.add_sub_cancel' hlbase
    have hdist : inDbase.getD (dcode dist) 0 + (dist - zDbase.getD (dcode dist) 0) = dist :=
      Nat.add_sub_cancel' hdbase
    have hbad : ¬(s2.bad = true ∨ dcode dist ≥ 30) := by
      rw [hreads2.ok.not_bad]
      simp
      omega
    rw [inflMatch, if_neg (by omega), hbits1]
    dsimp only
    rw [hdec]
    dsimp only
    rw [if_neg hbad, hbits3]
    rw [hdist, hlen, if_neg (by rw [hout]; omega)]
  · rw [copyBack_eq]
    exact ⟨hreads3.ok.bitbuf_lt, hreads3.ok.not_bad⟩
  · rw [copyBack_eq]
    exact hreads3.rest_eq hrest2
  · rw [copyBack_eq, hout]

lemma codesLoop_lit {c : BitVec 8} (k : ℕ) (hs : s.Ok) (hrest : s.rest = tokenBits (.lit c) ++ r) : ∃ s',
    codesLoop fixedLc fixedDc (k + 1) s = codesLoop fixedLc fixedDc k s' ∧ s'.Ok ∧ s'.rest = r ∧ s'.out = s.out ++ [c] := by
  have hc : c.toNat < 256 := c.isLt
  obtain ⟨s', hdec, hreads⟩ := inflDecode_lc hs (by omega) hrest
  refine ⟨s'.inflPut c, ?_, ⟨hreads.ok.bitbuf_lt, hreads.ok.not_bad⟩, hreads.rest_eq hrest, ?_⟩
  · conv_lhs => unfold codesLoop
    rw [hdec]
    simp [hreads.ok.not_bad, hc]
  · rw [inflPut, hreads.out]

lemma codesLoop_copy (k : ℕ) (hs : s.Ok) (hc : Coded len dist) (hd : dist ≤ s.out.length)
    (hrest : s.rest = tokenBits (.copy len dist) ++ r) : ∃ s', codesLoop fixedLc fixedDc
    (k + 1) s = codesLoop fixedLc fixedDc k s' ∧ s'.Ok ∧ s'.rest = r ∧ s'.out = Lz.copyBack 0 dist len s.out := by
  have hlc := (lcode_spec hc.len_ge hc.len_le).1
  simp only [tokenBits, append_assoc] at hrest
  obtain ⟨s1, hdec, hreads⟩ := inflDecode_lc hs (by omega) hrest
  obtain ⟨s', hmatch, hok, hrest', hout⟩ :=
    inflMatch_spec hreads.ok hc (by rwa [hreads.out]) (hreads.rest_eq hrest)
  refine ⟨s', ?_, hok, hrest', by rw [hout, hreads.out]⟩
  conv_lhs => unfold codesLoop
  rw [hdec]
  simp [hreads.ok.not_bad, hmatch, show ¬257 + lcode len < 256 by omega, show ¬257 + lcode len = 256 by omega]

/-- The decoding loop, by induction over the tokens. -/
lemma codesLoop_expands {out res : List (BitVec 8)} {ts : List (Token (BitVec 8))} (hexp : Expands 0 out ts res)
    (hts : ∀ t ∈ ts, CodedToken t) {k : ℕ} (hs : s.Ok) (hout : s.out = out) (hk : ts.length < k)
    (hrest : s.rest = ts.flatMap tokenBits ++ (Zbits.codeBits 256 ++ r)) : (codesLoop fixedLc fixedDc k s).bad = false
    ∧ (codesLoop fixedLc fixedDc k s).out = res := by
  obtain ⟨k, rfl⟩ : ∃ j, k = j + 1 := ⟨k - 1, by omega⟩
  induction hexp generalizing k s with
  | nil =>
    obtain ⟨s', hdec, hreads⟩ := @inflDecode_lc s 256 r hs (by omega) hrest
    unfold codesLoop
    rw [hdec]
    simp [hreads.ok.not_bad, hreads.out, hout]
  | @lit out res ts c _ ih =>
    rw [flatMap_cons, append_assoc] at hrest
    obtain ⟨s', hstep, hok, hrest', hout'⟩ := codesLoop_lit k hs hrest
    obtain ⟨k, rfl⟩ : ∃ j, k = j + 1 := ⟨k - 1, by simp at hk; omega⟩
    rw [hstep]
    exact ih (fun t ht => hts t (mem_cons_of_mem _ ht)) hok (by rw [hout', hout]) hrest' k (by simpa using hk)
  | @copy out res ts len dist hd _ ih =>
    rw [flatMap_cons, append_assoc] at hrest
    obtain ⟨s', hstep, hok, hrest', hout'⟩ :=
      codesLoop_copy k hs (hts _ mem_cons_self) (hout ▸ hd) hrest
    obtain ⟨k, rfl⟩ : ∃ j, k = j + 1 := ⟨k - 1, by simp at hk; omega⟩
    rw [hstep]
    exact ih (fun t ht => hts t (mem_cons_of_mem _ ht)) hok (by rw [hout', hout]) hrest' k (by simpa using hk)

end Infl

lemma length_flatMap_tokenBits (ts : List (Token (BitVec 8))) : ts.length ≤ (ts.flatMap tokenBits).length := by
  have hcode : ∀ c, 1 ≤ (Zbits.codeBits c).length := fun c => by
    rw [Zbits.codeBits]
    split_ifs <;> simp
  induction ts with
  | nil => simp
  | cons t ts ih =>
    have ht : 1 ≤ (tokenBits t).length := by
      cases t with
      | lit c => exact hcode _
      | copy len dist =>
        have := hcode (257 + lcode len)
        simp only [tokenBits, length_append]
        omega
    simp only [flatMap_cons, length_append, length_cons]
    omega

lemma blocks_fixed {p body : List (BitVec 8)} {ts : List (Token (BitVec 8))} {l : List Bool}
    (hexp : Expands 0 [] ts p) (hts : ∀ t ∈ ts, CodedToken t)
    (hbody : stream body = toBits 1 1 ++ (toBits 2 1 ++ (ts.flatMap tokenBits ++ (Zbits.codeBits 256 ++ l)))) (k : ℕ) :
    (Infl.blocks (k + 1) { input := body }).bad = false ∧
      (Infl.blocks (k + 1) { input := body }).out = p := by
  have hrest : ({ input := body } : Infl).rest = stream body := by simp [Infl.rest]
  obtain ⟨s1, hlast, hreads1⟩ := @Infl.inflBits_toBits { input := body } 1 1 _
    ⟨Nat.one_pos, rfl⟩ (by decide) (hrest.trans hbody)
  have hrest1 := hreads1.rest_eq (hrest.trans hbody)
  obtain ⟨s2, htype, hreads2⟩ := Infl.inflBits_toBits hreads1.ok (show 1 < 2 ^ 2 by decide) hrest1
  have hinput : s2.input = body := hreads2.input.trans hreads1.input
  have hturns : ts.length < 8 * s2.input.length + 1 := by
    have hlen := congrArg length hbody
    have := length_flatMap_tokenBits ts
    simp only [length_stream, length_append] at hlen
    rw [hinput]
    omega
  have hcodes := Infl.codesLoop_expands hexp hts hreads2.ok (hreads2.out.trans hreads1.out) hturns (hreads2.rest_eq hrest1)
  have hstop : Infl.blocks (k + 1) { input := body } = s2.inflCodes fixedLc fixedDc := by
    unfold Infl.blocks
    rw [hlast]
    dsimp only
    rw [htype]
    simp
  rw [hstop]
  exact hcodes

lemma inflateZlib_zlibBytes (p : List (BitVec 8)) : inflateZlib (zlibBytes p) = some p := by
  obtain ⟨ts, body, l, hexp, hts, hz, hbody⟩ := zlibBytes_spec p
  obtain ⟨hbad, hout⟩ := blocks_fixed hexp hts hbody (8 * (zlibBytes p).length)
  have hbody' : (zlibBytes p).drop 2 = body := by rw [hz]; rfl
  have hheader : ¬((zlibBytes p).length < 2 ∨ ((zlibBytes p).getD 0 0).toNat &&& 0x0f ≠ 8 ∨
      (((zlibBytes p).getD 0 0).toNat <<< 8 ||| ((zlibBytes p).getD 1 0).toNat) % 31 ≠ 0) := by
    rw [hz]
    simp
  rw [inflateZlib]
  simp only [if_neg hheader, hbody', hbad, hout]
  rfl

/-- What `dwarf_zlib` compresses, `inflate_zlib` returns, exactly when an `int` counts one more than
the bytes and the compressed bytes fit the buffer. -/
theorem inflateZlib_dwarfZlib (p : List (BitVec 8)) : (dwarfZlib p).bind inflateZlib = some p ↔
    p.length + 1 < 2 ^ 31 ∧ (zlibBytes p).length ≤ 2 ^ 30 := by
  rw [dwarfZlib_eq]
  split_ifs with h
  · simpa [inflateZlib_zlibBytes] using h
  · simpa using h

/-- A section of `2 ^ 30` bytes does not come back: its compressed bytes do not fit the buffer. -/
theorem dwarfZlib_spread : dwarfZlib (spread (2 ^ 30)) = none := by
  rw [dwarfZlib_eq, if_neg fun h => ?_]
  exact absurd h.2 (Nat.not_le.2 (length_zlibBytes_spread _))

end EmbCC.Link
