import Mathlib

/-!
# Multibyte strings

The UTF-8 decoder of `utf8.h`, which takes one byte at a time and keeps the bits so far, the bytes
still to come and the least code point of that length, and `mbrtowc` and `mbsrtowcs` over it. What the
encoder writes is read back (`mbrtowc_utf8Put`).
-/

namespace EmbCC.Libc.Utf8

/-- `struct __utf8`. -/
structure State where
  wch : ℕ := 0
  want : ℕ := 0
  taken : ℕ := 0
  lowbound : ℕ := 0
  deriving DecidableEq

/-- What a byte leads to: 0, 1 with the character, or -1. -/
inductive Res
  | more
  | char (c : ℕ)
  | bad
  deriving DecidableEq

def utf8Bad (c last : ℕ) : Bool := (0xD800 ≤ c ∧ c ≤ 0xDFFF) ∨ c > last

/-- `__utf8_step_to`. -/
def stepTo (last : ℕ) (k : State) (byte : UInt8) : State × Res :=
  let b := byte.toNat
  if k.want = 0 then
    if b < 0x80 then (k, .char b)
    else if b < 0xC2 ∨ b > 0xF4 then (k, .bad)
    else if b < 0xE0 then (⟨b &&& 0x1F, 1, 1, 0x80⟩, .more)
    else if b < 0xF0 then (⟨b &&& 0x0F, 2, 1, 0x800⟩, .more)
    else (⟨b &&& 0x07, 3, 1, 0x10000⟩, .more)
  else
    let c := k.wch <<< 6 ||| b &&& 0x3F
    let cont := b &&& 0xC0 = 0x80
    if cont ∧ k.want - 1 ≠ 0 then (⟨c, k.want - 1, k.taken + 1, k.lowbound⟩, .more)
    else ({}, if ¬cont ∨ c < k.lowbound ∨ utf8Bad c last then .bad else .char c)

/-- `mbrtowc` on at most `n` bytes of `s`: what they lead to and how many were read, and `none` past the
end of `s`. -/
def mbrtowc (last : ℕ) (k : State) : List UInt8 → ℕ → Option (State × Res × ℕ)
  | _, 0 => some (k, .more, 0)
  | [], _ + 1 => none
  | b :: s, n + 1 =>
    match stepTo last k b with
    | (k, .more) => (mbrtowc last k s n).map fun q => (q.1, q.2.1, q.2.2 + 1)
    | (k, r) => some (k, r, 1)

/-- What `mbsrtowcs` leaves: the characters stored, `*s` as the bytes from it on (`none` for null), the
state, and the result (`none` for -1). -/
structure Out where
  d : List ℕ
  src : Option (List UInt8)
  ps : State
  ret : Option ℕ
  deriving DecidableEq

/-- The loop of `mbsrtowcs`; `d` says whether there is a destination. -/
def mbsrtowcsLoop (last : ℕ) (d : Bool) (n : ℕ) : ℕ → State → List UInt8 → List ℕ → Option (List UInt8) → ℕ → Option Out
  | 0, _, _, _, _, _ => none
  | fuel + 1, ps, p, out, src, made =>
    (mbrtowc last ps p 4).bind fun q =>
      match q.2.1 with
      | .more | .bad => some ⟨out, src, q.1, none⟩
      | .char wc =>
        if d ∧ made ≥ n then some ⟨out, some p, q.1, some made⟩
        else
          let out := if d then out ++ [wc] else out
          if wc = 0 then some ⟨out, if d then none else src, q.1, some made⟩
          else
            let p := p.drop q.2.2
            mbsrtowcsLoop last d n fuel q.1 p out (if d then some p else src) (made + 1)

def mbsrtowcs (last : ℕ) (d : Bool) (s : List UInt8) (n : ℕ) (ps : State) : Option Out :=
  mbsrtowcsLoop last d n (s.length + 1) ps s [] (some s) 0

lemma stepTo_nul (last : ℕ) (k : State) : (stepTo last k 0).2 = .bad ∨ (stepTo last k 0).2 = .char 0 := by
  simp [stepTo]
  split_ifs <;> simp

/-- A call stops at the terminator. -/
lemma mbrtowc_nul {last : ℕ} (n : ℕ) {k : State} {s : List UInt8} (hs : 0 ∈ s) :
    ∃ k' r used, mbrtowc last k s n = some (k', r, used) ∧ ∀ c, r = .char c → c ≠ 0 → used ≠ 0 ∧ 0 ∈ s.drop used := by
  induction n generalizing k s with
  | zero => exact ⟨k, .more, 0, by simp [mbrtowc], by simp⟩
  | succ n ih =>
    cases s with
    | nil => simp at hs
    | cons b s =>
      rcases hb : stepTo last k b with ⟨k1, r⟩
      by_cases hr : r = .more
      · subst hr
        have hs' : 0 ∈ s := by
          rcases List.mem_cons.1 hs with rfl | hs
          · have := stepTo_nul last k
            simp [hb] at this
          · exact hs
        obtain ⟨k', r, used, h, hr⟩ := ih (k := k1) hs'
        exact ⟨k', r, used + 1, by simp [mbrtowc, hb, h], fun c hc h0 => ⟨by simp, (hr c hc h0).2⟩⟩
      · refine ⟨k1, r, 1, by cases r <;> simp_all [mbrtowc], ?_⟩
        rintro c rfl h0
        rcases List.mem_cons.1 hs with rfl | hs
        · have := stepTo_nul last k
          simp [hb, h0] at this
        · exact ⟨by simp, hs⟩

/-- No call reads past the terminator, and the loop ends. -/
lemma mbsrtowcsLoop_isSome {last n fuel made : ℕ} {d : Bool} {k : State} {p : List UInt8} {out : List ℕ}
    {src : Option (List UInt8)} (hp : 0 ∈ p) (hf : p.length < fuel) :
    (mbsrtowcsLoop last d n fuel k p out src made).isSome := by
  induction fuel generalizing k p out src made with
  | zero => omega
  | succ fuel ih =>
    obtain ⟨k', r, used, h, hr⟩ := mbrtowc_nul 4 hp
    rw [mbsrtowcsLoop, h]
    cases r with
    | more => rfl
    | bad => rfl
    | char c =>
      dsimp only [Option.bind]
      by_cases hmade : d ∧ made ≥ n
      · simp [hmade]
      by_cases h0 : c = 0
      · simp [hmade, h0]
      rw [if_neg hmade, if_neg h0]
      obtain ⟨-, hp⟩ := hr c rfl h0
      exact ih hp (by grind)

/-- After a character the state is initial. -/
lemma stepTo_char {last c : ℕ} {k k' : State} {b : UInt8} (h : stepTo last k b = (k', .char c)) : k'.want = 0 := by
  unfold stepTo at h
  split_ifs at h <;> grind

lemma mbrtowc_char {last n c used : ℕ} {k k' : State} {s : List UInt8}
    (h : mbrtowc last k s n = some (k', .char c, used)) : k'.want = 0 ∧ 0 < used ∧ used ≤ s.length := by
  induction n generalizing k s used with
  | zero => simp [mbrtowc] at h
  | succ n ih =>
    cases s with
    | nil => cases h
    | cons b s =>
      rw [mbrtowc] at h
      split at h
      · obtain ⟨⟨k1, r, used⟩, hq, h⟩ := Option.map_eq_some_iff.1 h
        cases h
        obtain ⟨hk, -, hle⟩ := ih hq
        exact ⟨hk, by simp, by simpa using hle⟩
      · rename_i hb
        cases h
        exact ⟨stepTo_char hb, by simp⟩

/-- Calls of `mbrtowc` decode the characters, none of them the terminator. -/
inductive Decodes (last : ℕ) : State → List UInt8 → List ℕ → State → List UInt8 → Prop
  | nil {k s} : Decodes last k s [] k s
  | cons {k k' k'' s s' c cs u} : mbrtowc last k s 4 = some (k', .char c, u) → c ≠ 0 →
      Decodes last k' (s.drop u) cs k'' s' → Decodes last k s (c :: cs) k'' s'

/-- The loop after the characters: they are stored, and it goes on with what follows them. -/
lemma mbsrtowcsLoop_decodes {last n f : ℕ} {k k' : State} {s s' : List UInt8} {cs o : List ℕ}
    {r : Option (List UInt8)} (h : Decodes last k s cs k' s') (hn : o.length + cs.length = n)
    (hr : r = some s) (hf : s.length < f) :
    ∃ f', mbsrtowcsLoop last true n f k s o r o.length =
      mbsrtowcsLoop last true n (f' + 1) k' s' (o ++ cs) (some s') n := by
  induction h generalizing f o r with
  | nil =>
    obtain ⟨f, rfl⟩ := Nat.exists_eq_succ_of_ne_zero (Nat.ne_zero_of_lt hf)
    exact ⟨f, by simp_all⟩
  | cons hcall h0 _ ih =>
    obtain ⟨f, rfl⟩ := Nat.exists_eq_succ_of_ne_zero (Nat.ne_zero_of_lt hf)
    obtain ⟨-, hpos, hle⟩ := mbrtowc_char hcall
    simp only [List.length_cons] at hn
    rename_i c _ _ _
    obtain ⟨f', hloop⟩ := ih (f := f) (o := o ++ [c]) (by simp; omega) rfl (by simp; omega)
    refine ⟨f', ?_⟩
    rw [mbsrtowcsLoop, hcall]
    simpa [h0, show ¬n ≤ o.length by omega] using hloop

/-- Reading stays in the string; and the `n` characters in front of it are stored, with `*src` behind
them and the state initial, exactly where what follows them is a character too. -/
theorem mbsrtowcs_stores {last : ℕ} {k k' : State} {s s' : List UInt8} {cs : List ℕ}
    (h : Decodes last k s cs k' s') :
    (∀ d str m ps, (mbsrtowcs last d (str ++ [0]) m ps).isSome) ∧
    ((∃ ps, mbsrtowcs last true s cs.length k = some ⟨cs, some s', ps, some cs.length⟩ ∧ ps.want = 0) ↔
      ∃ ps c used, mbrtowc last k' s' 4 = some (ps, .char c, used)) := by
  refine ⟨fun _ _ _ _ => mbsrtowcsLoop_isSome (by simp) (by simp), ?_⟩
  obtain ⟨f, hloop⟩ := mbsrtowcsLoop_decodes (o := []) h (Nat.zero_add _) rfl (Nat.lt_succ_self _)
  rw [mbsrtowcs, show 0 = ([] : List ℕ).length from rfl, hloop, mbsrtowcsLoop]
  rcases hnext : mbrtowc last k' s' 4 with _ | ⟨ps, r, used⟩
  · simp
  · cases r with
    | more => simp
    | bad => simp
    | char c => simpa using (mbrtowc_char hnext).1

theorem mbsrtowcs_stores_euro :
    ∃ ps, mbsrtowcs 0x10FFFF true [0xE2, 0x82, 0xAC, 0x61, 0] 1 {} =
      some ⟨[0x20AC], some [0x61, 0], ps, some 1⟩ ∧ ps.want = 0 :=
  (mbsrtowcs_stores (.cons (u := 3) rfl (by decide) .nil)).2.2 ⟨_, _, _, rfl⟩

/-- One character is asked for, and the byte after it makes the call fail. -/
theorem mbsrtowcs_fails :
    mbsrtowcs 0x10FFFF true [0x61, 0xFF, 0] 1 {} = some ⟨[0x61], some [0xFF, 0], {}, none⟩ := by
  decide

/-- `__utf8_put`: the bytes of a character that has any. -/
def utf8Put (c : ℕ) : Option (List UInt8) :=
  if utf8Bad c 0x10FFFF then none
  else some (.map .ofNat
    (if c < 0x80 then [c]
    else if c < 0x800 then [0xC0 ||| c >>> 6, 0x80 ||| c &&& 0x3F]
    else if c < 0x10000 then [0xE0 ||| c >>> 12, 0x80 ||| c >>> 6 &&& 0x3F, 0x80 ||| c &&& 0x3F]
    else [0xF0 ||| c >>> 18, 0x80 ||| c >>> 12 &&& 0x3F, 0x80 ||| c >>> 6 &&& 0x3F, 0x80 ||| c &&& 0x3F]))

lemma stepTo_lead (last x : ℕ) : (2 ≤ x → x < 32 → stepTo last {} (.ofNat (0xC0 ||| x)) = (⟨x, 1, 1, 0x80⟩, .more)) ∧
    (x < 16 → stepTo last {} (.ofNat (0xE0 ||| x)) = (⟨x, 2, 1, 0x800⟩, .more)) ∧
    (x < 5 → stepTo last {} (.ofNat (0xF0 ||| x)) = (⟨x, 3, 1, 0x10000⟩, .more)) := by
  refine ⟨fun _ _ => ?_, fun _ => ?_, fun _ => ?_⟩ <;> interval_cases x <;> rfl

/-- A byte that goes on with a character: one before the last, and the last. -/
lemma stepTo_cont (last w t low c : ℕ) : let b := .ofNat (0x80 ||| c &&& 0x3F); let d := w * 64 + c % 64
    (∀ j, stepTo last ⟨w, j + 2, t, low⟩ b = (⟨d, j + 1, t + 1, low⟩, .more)) ∧
      stepTo last ⟨w, 1, t, low⟩ b = ({}, if d < low ∨ utf8Bad d last then .bad else .char d) := by
  have hlt : c % 64 < 2 ^ 6 := Nat.mod_lt c (by simp)
  have hbits := (by decide : ∀ x < 64, (UInt8.ofNat (0x80 ||| x)).toNat &&& 0xC0 = 0x80 ∧
    (UInt8.ofNat (0x80 ||| x)).toNat &&& 0x3F = x) _ hlt
  have hor : w <<< 6 ||| c % 64 = w * 64 + c % 64 := by
    rw [← Nat.shiftLeft_add_eq_or_of_lt hlt, Nat.shiftLeft_eq]
  simp only [stepTo, Nat.and_two_pow_sub_one_eq_mod c 6, hbits, hor]
  simp

/-- What `__utf8_put` makes of a character, `mbrtowc` reads as that character, whatever follows. -/
theorem mbrtowc_utf8Put {last c : ℕ} {bs : List UInt8} (h : utf8Put c = some bs) (hc : c ≤ last) (rest : List UInt8)
    (n : ℕ) : mbrtowc last {} (bs ++ rest) (n + bs.length) = some ({}, .char c, bs.length) := by
  unfold utf8Put at h
  split_ifs at h with hbad h1 h2 h3 <;> obtain rfl := Option.some.inj h
  · have : (UInt8.ofNat c).toNat = c := by simp; omega
    simp [mbrtowc, stepTo, this, h1]
  all_goals
    simp [utf8Bad] at hbad
    simp only [List.map, List.cons_append, List.length, mbrtowc, Nat.shiftRight_eq_div_pow]
  · rw [(stepTo_lead ..).1 (by omega) (by omega)]
    simp only [stepTo_cont, zero_add]
    grind [utf8Bad]
  · rw [(stepTo_lead ..).2.1 (by omega)]
    simp only [stepTo_cont, zero_add]
    grind [utf8Bad]
  · rw [(stepTo_lead ..).2.2 (by omega)]
    simp only [stepTo_cont, zero_add]
    grind [utf8Bad]

theorem mbrtowc_utf8Put_euro : mbrtowc 0xFFFF {} ([0xE2, 0x82, 0xAC] ++ [0x61]) (1 + 3) = some ({}, .char 0x20AC, 3) :=
  mbrtowc_utf8Put (c := 0x20AC) (by decide) (by decide) _ 1

end EmbCC.Libc.Utf8
