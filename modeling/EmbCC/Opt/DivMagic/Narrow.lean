import EmbCC.Opt.DivMagic.Correct

/-!
# A short dividend

`dm_narrow_magic` looks for a shift up to 32, but a shift at width 4 takes its count
modulo 32. `dmNarrowMagic_spec` is what acceptance means; with a shift below 32 the
code divides (`runShort_of_lt`), and a shift of 32 is one that shifts by nothing.
The first shift that is accepted is below 32 exactly when the error bound holds at 31
(`shiftFits_iff`), or the product is too long at 32.
-/

namespace EmbCC.Opt.DivMagic

open Nat List Ir Reciprocal Function

/-- The quotient the code for a short dividend computes from `x`. -/
def runShort (M s x : ℕ) : Option Val :=
  let r := quotient16 ⟨[], 1⟩ 0 M s
  (execSeq (update (fun _ => none) 0 (some (ofLong (word x)))) r.2.nb).bind fun temps =>
    temps r.1

/-- The multiplier for a shift: `2 ^ s / D` rounded up. -/
def narrowMul (D s : ℕ) : ℕ := (2 ^ s + D - 1) / D

/-- How far the multiplier is above `2 ^ s / D`. -/
def narrowExcess (D s : ℕ) : ℕ := narrowMul D s * D - 2 ^ s

lemma tryNarrow_eq (D B s : ℕ) : tryNarrow D B s = if B * narrowExcess D s < 2 ^ s
    ∧ B * narrowMul D s ≤ 0xffffffff then some (narrowMul D s, s) else none := rfl

variable {D B M s r x : ℕ}

lemma narrowMul_mul (hD : 0 < D) (s : ℕ) : narrowMul D s * D = 2 ^ s + narrowExcess D s := by
  have h : 2 ^ s ≤ narrowMul D s * D := by
    have := lt_div_mul_add (a := 2 ^ s + D - 1) hD
    rw [narrowMul]
    omega
  rw [narrowExcess]
  omega

/-- What acceptance of a shift means, and that the shifts before it were refused. -/
lemma dmNarrowMagic_spec (h : dmNarrowMagic D B = some (M, s)) : s ≤ 32 ∧ M = narrowMul D s ∧ B * narrowExcess D s < 2 ^ s
    ∧ B * M ≤ 0xffffffff ∧ ∀ r < s, ¬(B * narrowExcess D r < 2 ^ r ∧ B * narrowMul D r ≤ 0xffffffff) := by
  obtain ⟨before, k, after, hlist, hk, hbefore⟩ := List.findSome?_eq_some_iff.1 h
  rw [tryNarrow_eq] at hk
  split_ifs at hk with hc
  obtain ⟨rfl, rfl⟩ := Prod.mk.inj (Option.some.inj hk)
  have hlen : before = range k ∧ k < 33 := by
    have hidx : (range 33)[before.length]? = some k := by simp [hlist]
    obtain ⟨hlt, hval⟩ := List.getElem?_eq_some_iff.1 hidx
    rw [getElem_range] at hval
    rw [length_range, hval] at hlt
    refine ⟨?_, hlt⟩
    have htake : before = (range 33).take before.length := by simp [hlist]
    rw [htake, hval, take_range, min_eq_left hlt.le]
  refine ⟨by omega, rfl, hc.1, hc.2, fun r hr hacc => ?_⟩
  have := hbefore r (hlen.1 ▸ List.mem_range.2 hr)
  rw [tryNarrow_eq, if_pos hacc] at this
  cases this

lemma excess_succ (hD : 0 < D) (s : ℕ) : narrowExcess D (s + 1) ≤ 2 * narrowExcess D s := by
  have h1 := narrowMul_mul hD s
  have h2 := narrowMul_mul hD (s + 1)
  have hle : narrowMul D (s + 1) ≤ 2 * narrowMul D s := by
    refine le_of_lt_succ (Nat.div_lt_of_lt_mul ?_)
    have : 2 ^ (s + 1) ≤ D * (2 * narrowMul D s) := by
      rw [pow_succ]
      nlinarith
    rw [mul_succ]
    omega
  rw [pow_succ] at h2
  nlinarith

lemma error_mono (hD : 0 < D) (hr : B * narrowExcess D s < 2 ^ s) (hle : s ≤ r) : B * narrowExcess D r < 2 ^ r := by
  induction r, hle using le_induction with
  | base => exact hr
  | succ r _ ih =>
    calc B * narrowExcess D (r + 1) ≤ B * (2 * narrowExcess D r) :=
          Nat.mul_le_mul_left B (excess_succ hD r)
      _ = 2 * (B * narrowExcess D r) := by ring
      _ < 2 ^ (r + 1) := by rw [pow_succ]; omega

lemma narrowMul_mono (D : ℕ) {s : ℕ} (h : r ≤ s) : narrowMul D r ≤ narrowMul D s := by
  have : 2 ^ r ≤ 2 ^ s := Nat.pow_le_pow_right (by norm_num) h
  exact Nat.div_le_div_right (by omega)

/-- What the code computes; a shift of 32 shifts by nothing. -/
lemma runShort_eq (hx : x * M < 2 ^ 32) (hs : s ≤ 32) :
    runShort M s x = some (ofLong (word (x * M / 2 ^ (s % 32) : ℕ))) := by
  set temps : ℤ → Option Val := update (fun _ => none) 0 (some (ofLong (word x)))
  have hX : Holds temps ⟨[], 1⟩ ⟨[], 1⟩ 0 (word x) := ⟨temps, .refl _ _, by norm_num, by simp [temps]⟩
  have hmul := mul_gives hX M false
  have hprod : word (s32 (word x) * s32 (word M)) = word (x * M : ℕ) := by
    exact word_congr ((s32_word_modEq _).mul (s32_word_modEq _))
  rw [hprod] at hmul
  have hshr : Gives temps ⟨[], 1⟩ ⟨[], 1⟩ (quotient16 ⟨[], 1⟩ 0 M s) (word (x * M / 2 ^ (s % 32) : ℕ)) := by
    refine hmul.trans ?_
    simp only [quotient16, dmShr]
    split_ifs with h0
    · refine dmOpC_gives hmul.holds rfl (.inl rfl) ?_
      rw [norm_ofInt, foldBin_shru4, u32_word_of_lt hx, u32_word_of_lt (by omega)]
    · obtain rfl : s = 0 := not_not.1 h0
      simpa using Gives.of_holds hmul.holds
  obtain ⟨temps', hran, -, hval⟩ := hshr.holds
  obtain ⟨code, hcode, hexec⟩ := hran.exec
  rw [nil_append] at hcode
  simp only [runShort, hcode] at ⊢
  rw [hexec, Option.bind_some, hval]

lemma runShort_of_lt (hD : 0 < D) (h : dmNarrowMagic D B = some (M, s)) (hs : s < 32)
    (hx : x ≤ B) : runShort M s x = some (ofLong (word (x / D : ℕ))) := by
  obtain ⟨-, rfl, herr, hprod, -⟩ := dmNarrowMagic_spec h
  have hxM : x * narrowMul D s < 2 ^ 32 := by
    have := Nat.mul_le_mul_right (narrowMul D s) hx
    omega
  rw [runShort_eq hxM hs.le, mod_eq_of_lt hs, mul_div_eq (narrowMul_mul hD s)]
  have hxe := Nat.mul_le_mul_right (narrowExcess D s) hx
  calc x % D * 2 ^ s + x * narrowExcess D s < x % D * 2 ^ s + 2 ^ s := by omega
    _ = (x % D + 1) * 2 ^ s := by ring
    _ ≤ D * 2 ^ s := Nat.mul_le_mul_right _ (mod_lt x hD)

lemma narrowMul_lt (h2 : 2 ≤ D) (hs : s ≤ 32) : narrowMul D s < 2 ^ 32 := by
  have hpow : 2 ^ s ≤ 2 ^ 32 := Nat.pow_le_pow_right (by norm_num) hs
  refine Nat.div_lt_of_lt_mul ?_
  omega

/-- A product that can be as long as `2 ^ 32` at the last shift, or an error that is small one shift
before. -/
def ShiftFits (D B : ℕ) : Prop :=
  2 ^ 32 ≤ B * narrowMul D 32 ∨ B * narrowExcess D 31 < 2 ^ 31

instance (D B : ℕ) : Decidable (ShiftFits D B) := inferInstanceAs (Decidable (_ ∨ _))

lemma shiftFits_iff (hD : 0 < D) (h : dmNarrowMagic D B = some (M, s)) : ShiftFits D B ↔ s < 32 := by
  obtain ⟨hs, rfl, herr, hprod, hfirst⟩ := dmNarrowMagic_spec h
  constructor
  · intro hfit
    by_contra hge
    obtain rfl : s = 32 := by omega
    rcases hfit with hlong | herr31
    · omega
    · have hmono := Nat.mul_le_mul_left B (narrowMul_mono D (show 31 ≤ 32 by norm_num))
      exact hfirst 31 (by norm_num) ⟨herr31, by omega⟩
  · intro hlt
    exact .inr (error_mono hD herr (by omega))

/-- The code for a dividend up to any bound `B` divides all of them by `D` exactly when the shift can
stay below 32. -/
theorem runShort_iff (h2 : 2 ≤ D) (h : dmNarrowMagic D B = some (M, s)) :
    (∀ x ≤ B, runShort M s x = some (ofLong (word (x / D : ℕ)))) ↔ ShiftFits D B := by
  have hpos : 0 < D := by omega
  obtain ⟨hs, hM, -, -, hfirst⟩ := dmNarrowMagic_spec h
  have hlt : M < 2 ^ 32 := hM ▸ narrowMul_lt h2 hs
  rw [shiftFits_iff hpos h]
  constructor
  · intro hall
    by_contra hge
    obtain rfl : s = 32 := by omega
    have hB1 : 1 ≤ B := by
      by_contra hB0
      obtain rfl : B = 0 := by omega
      exact hfirst 0 (by norm_num) (by simp)
    have hone := hall 1 hB1
    rw [runShort_eq (by omega) hs, div_eq_of_lt (show 1 < D by omega)] at hone
    have hword : word M = word (0 : ℕ) := by
      have := congrArg toLong (Option.some.inj hone)
      simpa using this
    have hzero := congrArg u32 hword
    rw [u32_word_of_lt hlt, u32_word_of_lt (by norm_num)] at hzero
    have := narrowMul_mul hpos 32
    rw [← hM, hzero] at this
    omega
  · intro hlt32 x hx
    exact runShort_of_lt hpos h hlt32 hx

/-- `x / 10` for two bytes: the multiplier 52429 and the shift 19. -/
theorem runShort_iff_ten : dmNarrowMagic 10 0xffff = some (52429, 19) ∧
    ((∀ x ≤ 0xffff, runShort 52429 19 x = some (ofLong (word (x / 10 : ℕ)))) ↔ ShiftFits 10 0xffff) :=
  ⟨by decide, runShort_iff (by decide) (by decide)⟩

/-- `(x & 46405) / 46410` is 0, and the code leaves 92545 for `x = 1`. -/
theorem runShort_last_shift : dmNarrowMagic 46410 46405 = some (92545, 32) ∧
    runShort 92545 32 1 = some (ofLong 92545) ∧ 1 ≤ 46405 ∧
    runShort 92545 32 1 ≠ some (ofLong (word (1 / 46410 : ℕ))) := by
  decide

end EmbCC.Opt.DivMagic
