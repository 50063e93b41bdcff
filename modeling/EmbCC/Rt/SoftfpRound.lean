import EmbCC.Lib.Sticky
import EmbCC.Rt.Softfp

/-!
# `round_pack` rounds

The value of a finite bit pattern is a rational, and `Rounds` says what IEEE 754 asks of
a result: the sign, and the pattern of the nearest value, or of infinity where that is
too large. `roundPack_rounds` is the one lemma the operations need: a significand
that stands for `y`, exactly or with a sticky last bit and no more than one bit to
bring up, is rounded as `y` itself would be.
-/

namespace EmbCC.Rt

open Rounding Bool

/-! ## Numbers and their fields -/

/-- The exponent field. -/
def expField (u : BitVec 64) : ℕ := u.toNat / 2 ^ 52 % 2 ^ 11

/-- The fraction field. -/
def fracField (u : BitVec 64) : ℕ := u.toNat % 2 ^ 52

/-- Neither an infinity nor a NaN. -/
def Finite (u : BitVec 64) : Prop := expField u ≠ 0x7ff

instance (u : BitVec 64) : Decidable (Finite u) := inferInstanceAs (Decidable (_ ≠ _))

/-- The magnitude of a finite pattern. -/
def magnitude (u : BitVec 64) : ℚ :=
  if expField u = 0 then fracField u * 2 ^ (-1074 : ℤ)
  else (2 ^ 52 + fracField u) * 2 ^ ((expField u : ℤ) - 1075)

/-- Minus one for a set sign bit. -/
def signFactor (s : Bool) : ℚ := if s then -1 else 1

/-- The value of a finite pattern. -/
def value (u : BitVec 64) : ℚ := signFactor u.msb * magnitude u

/-- Binary64 without a largest exponent. -/
def binary64 : Fmt := ⟨53, -1074, by norm_num⟩

/-- The pattern `u` is the exact result `x` rounded, with the sign bit `neg`: the nearest value, or
infinity if that is `2 ^ 1024` or more. -/
structure Rounds (neg : Bool) (x : ℚ) (u : BitVec 64) : Prop where
  sign : u.msb = neg
  nearest : ∃ v, binary64.NearestEven x v ∧
    if |v| < 2 ^ 1024 then Finite u ∧ value u = v else expField u = 0x7ff ∧ fracField u = 0

variable {s : Bool} {S e frac : ℕ} {y v x : ℚ}

lemma packRaw_toNat (he : e < 2 ^ 11) (hf : frac < 2 ^ 52) :
    (packRaw s e frac).toNat = s.toNat * 2 ^ 63 + (e * 2 ^ 52 + frac) := by
  have hs := toNat_le s
  have h1 : e <<< 52 ||| frac = 2 ^ 52 * e + frac := by
    rw [Nat.shiftLeft_eq, mul_comm, ← Nat.two_pow_add_eq_or_of_lt hf]
  have h2 : s.toNat <<< 63 ||| (2 ^ 52 * e + frac) = 2 ^ 63 * s.toNat + (2 ^ 52 * e + frac) := by
    rw [Nat.shiftLeft_eq, mul_comm s.toNat, ← Nat.two_pow_add_eq_or_of_lt (show 2 ^ 52 * e + frac < 2 ^ 63 by omega)]
  rw [packRaw, Nat.or_assoc, h1, h2, BitVec.toNat_ofNat, Nat.mod_eq_of_lt (by omega)]
  omega

section
variable {s : Bool} {e frac : ℕ} (he : e < 2 ^ 11) (hf : frac < 2 ^ 52)
include he hf

lemma packRaw_msb : (packRaw s e frac).msb = s := by
  rw [BitVec.msb_eq_decide, packRaw_toNat he hf]
  cases s
  · simp
    omega
  · simp

lemma packRaw_expField : expField (packRaw s e frac) = e := by
  rw [expField, packRaw_toNat he hf]
  omega

lemma packRaw_fracField : fracField (packRaw s e frac) = frac := by
  rw [fracField, packRaw_toNat he hf]
  omega

end

lemma and_two_pow_ne_zero {n k : ℕ} (h : n < 2 ^ (k + 1)) : n &&& 2 ^ k ≠ 0 ↔ 2 ^ k ≤ n := by
  have hpos : 0 < 2 ^ k := by positivity
  have hbit : n.testBit k = true ↔ 2 ^ k ≤ n := by
    rw [Nat.testBit_eq_decide_div_mod_eq, decide_eq_true_eq]
    have hlt : n / 2 ^ k < 2 := Nat.div_lt_of_lt_mul (by rw [pow_succ] at h; omega)
    constructor
    · intro h1
      by_contra hc
      rw [Nat.div_eq_of_lt (by omega)] at h1
      omega
    · intro hle
      have := Nat.div_pos hle hpos
      omega
  rw [Nat.and_two_pow, ← hbit]
  cases n.testBit k <;> simp

lemma shiftSticky_eq (sig shift : ℕ) : shiftSticky sig shift = jam shift sig := by
  simp only [shiftSticky, jam, Nat.one_shiftLeft, Nat.and_two_pow_sub_one_eq_mod, Nat.shiftRight_eq_div_pow, ne_eq, ite_not]

lemma shiftOne_eq (sig : ℕ) : (sig >>> 1) ||| (sig &&& 1) = jam 1 sig := by
  rw [jam, Nat.shiftRight_eq_div_pow, Nat.and_one_is_mod, pow_one]
  rcases Nat.mod_two_eq_zero_or_one sig with h | h <;> simp [h]

lemma two_pow_ne_zero (k : ℤ) : (2 : ℚ) ^ k ≠ 0 := zpow_ne_zero k (by norm_num)

/-- Shifting up to the leading bit. -/
lemma normUp_spec (fuel : ℕ) (exp : ℤ) (h0 : 0 < S) (hlt : S < 2 ^ 56) (hfuel : 2 ^ 55 ≤ S * 2 ^ fuel) :
    ∃ j : ℕ, normUp fuel exp S = (exp - j, S * 2 ^ j) ∧ 2 ^ 55 ≤ S * 2 ^ j ∧ S * 2 ^ j < 2 ^ 56 ∧
      (j = 0 ∨ S * 2 ^ (j - 1) < 2 ^ 55) := by
  induction fuel generalizing exp S with
  | zero => exact ⟨0, by simp [normUp], by simpa using hfuel, by simpa using hlt, .inl rfl⟩
  | succ k ih =>
    have hbit : S &&& 1 <<< sigbit ≠ 0 ↔ 2 ^ 55 ≤ S := by exact and_two_pow_ne_zero hlt
    rw [normUp]
    split_ifs with h
    · have hsmall : S < 2 ^ 55 := by
        by_contra hc
        exact hbit.2 (by omega) h
      have hu : u64 (S <<< 1) = S * 2 := by
        rw [u64, Nat.shiftLeft_eq, Nat.mod_eq_of_lt (by omega), pow_one]
      obtain ⟨j, heq, hlow, hhigh, hlast⟩ :=
        ih (exp - 1) (S := S * 2) (by omega) (by omega) (by rw [mul_assoc, ← pow_succ']; exact hfuel)
      have hpow : S * 2 ^ (j + 1) = S * 2 * 2 ^ j := by rw [mul_assoc, ← pow_succ']
      refine ⟨j + 1, ?_, by rw [hpow]; exact hlow, by rw [hpow]; exact hhigh, .inr ?_⟩
      · rw [hu, heq, hpow]
        push_cast
        rw [sub_sub, add_comm (1 : ℤ)]
      · rcases hlast with rfl | hlast
        · simpa using hsmall
        · rw [Nat.add_sub_cancel]
          rcases Nat.eq_zero_or_pos j with rfl | hj
          · simpa using hsmall
          · rwa [mul_assoc, ← pow_succ', Nat.sub_add_cancel hj] at hlast
    · exact ⟨0, by simp, by simpa using hbit.1 h, by simpa using hlt, .inl rfl⟩

/-- Shifting down to the leading bit, with what is lost in the last one. -/
lemma normDown_spec (fuel : ℕ) (exp : ℤ) (h0 : 0 < S) (ht : Tight 2 S y) (hfuel : S < 2 ^ (56 + fuel)) : ∃ j : ℕ, ∃ S' : ℕ,
    normDown fuel exp S = (exp + j, S') ∧ Tight 2 S' (y / 2 ^ j) ∧ S' < 2 ^ 56 ∧ 0 < S' ∧ (j = 0 ∧ S' = S ∨ 2 ^ 55 ≤ S') := by
  induction fuel generalizing exp S y with
  | zero => exact ⟨0, S, by simp [normDown], by simpa using ht, by simpa using hfuel, h0, .inl ⟨rfl, rfl⟩⟩
  | succ k ih =>
    rw [normDown, shiftOne_eq, sigbit, Nat.one_shiftLeft]
    split_ifs with h
    · have hlow : 2 ^ 55 ≤ jam 1 S := le_jam (by omega)
      have hhigh : jam 1 S < 2 ^ (56 + k) := by
        have hsplit : 2 ^ (56 + (k + 1)) = 2 ^ 1 * (2 * 2 ^ (55 + k)) := by ring
        have hk : 2 ^ (56 + k) = 2 * 2 ^ (55 + k) := by ring
        rw [hk]
        exact jam_lt (hsplit ▸ hfuel)
      obtain ⟨j, S', heq, ht', hlt, hpos, hcase⟩ := ih (exp + 1) (by omega) ((ht.mul_left 2 (by norm_num)).jam le_rfl) hhigh
      refine ⟨j + 1, S', ?_, ?_, hlt, hpos, .inr ?_⟩
      · rw [heq]
        push_cast
        rw [add_assoc, add_comm (1 : ℤ)]
      · rwa [pow_succ', ← div_div, ← pow_one (2 : ℚ)]
      · rcases hcase with ⟨-, rfl⟩ | hcase
        · exact hlow
        · exact hcase
    · exact ⟨0, S, by simp, by simpa using ht, by omega, h0, .inl ⟨rfl, rfl⟩⟩

/-! ## Normalising -/

/-- What the operations hand over: the significand stands for `y`, and where it does so only by a
sticky bit there is at most one bit to bring up. -/
structure Stands (S : ℕ) (y : ℚ) : Prop where
  pos : 0 < S
  lt : S < 2 ^ 64
  tight : Tight 2 S y
  room : y = S ∨ 2 ^ 54 ≤ S

/-- Both loops together put the leading bit at its place. -/
lemma normalise_spec (h : Stands S y) (exp : ℤ) :
    ∃ (exp' : ℤ) (S' : ℕ) (y' : ℚ), normUp 64 (normDown 64 exp S).1 (normDown 64 exp S).2 = (exp', S') ∧
      2 ^ 55 ≤ S' ∧ S' < 2 ^ 56 ∧ Tight 4 S' y' ∧ y' * 2 ^ (exp' - 55) = y * 2 ^ (exp - 55) := by
  obtain ⟨i, S1, hdown, ht1, hlt1, hpos1, hcase⟩ :=
    normDown_spec 64 exp h.pos h.tight (h.lt.trans_le (by norm_num))
  have hroom : y / 2 ^ i = S1 ∨ 2 ^ 54 ≤ S1 := by
    rcases hcase with ⟨rfl, rfl⟩ | hcase
    · simpa using h.room
    · exact .inr (by omega)
  obtain ⟨j, hup, hlow, hhigh, hlast⟩ := normUp_spec 64 (exp + i) hpos1 hlt1 (by omega)
  refine ⟨exp + i - j, S1 * 2 ^ j, y / 2 ^ i * 2 ^ j, by rw [hdown, hup], hlow, hhigh, ?_, ?_⟩
  · rcases hroom with hexact | hbig
    · exact .inl (by rw [hexact]; push_cast; rfl)
    · have hj : j = 0 ∨ j = 1 := by
        rcases hlast with rfl | hlast
        · exact .inl rfl
        · have : 2 ^ (j - 1) < 2 := by nlinarith
          have : j - 1 < 1 := (Nat.pow_lt_pow_iff_right (a := 2) (by norm_num)).1 (by simpa using this)
          omega
      rcases hj with rfl | rfl
      · simpa using ht1.mul_left 2 (by norm_num)
      · simpa [mul_comm] using ht1.double
  · have h2 : (2 : ℚ) ≠ 0 := by norm_num
    rw [show exp + i - j - 55 = (exp - 55) + i - j by ring, zpow_sub₀ h2, zpow_add₀ h2, zpow_natCast, zpow_natCast]
    field_simp

lemma zpow_le {a b : ℤ} (h : a ≤ b) : (2 : ℚ) ^ a ≤ 2 ^ b := zpow_le_zpow_right₀ (by norm_num) h

lemma two_pow_top {a : ℕ} {b : ℤ} (h : a + b = 1024) : (2 : ℚ) ^ (1024 : ℕ) = 2 ^ a * 2 ^ b := by
  rw [← zpow_natCast, ← zpow_natCast, ← zpow_add₀ (by norm_num), h]
  norm_num

lemma magnitude_lt {u : BitVec 64} (h : Finite u) : magnitude u < 2 ^ 1024 := by
  have he : expField u < 2 ^ 11 := Nat.mod_lt _ (by norm_num)
  have hne : expField u ≠ 0x7ff := h
  have hf : (fracField u : ℚ) < 2 ^ 52 := by exact_mod_cast Nat.mod_lt _ (by norm_num)
  rw [two_pow_top (a := 53) (b := 971) (by norm_num), magnitude]
  split_ifs with h0
  · have := zpow_le (show (-1074 : ℤ) ≤ 971 by norm_num)
    calc (fracField u : ℚ) * 2 ^ (-1074 : ℤ) < 2 ^ 53 * 2 ^ (-1074 : ℤ) := by gcongr; linarith
      _ ≤ _ := by gcongr
  · have := zpow_le (show (expField u : ℤ) - 1075 ≤ 971 by omega)
    calc (2 ^ 52 + fracField u : ℚ) * 2 ^ ((expField u : ℤ) - 1075)
        < 2 ^ 53 * 2 ^ ((expField u : ℤ) - 1075) := by gcongr; linarith
      _ ≤ _ := by gcongr

lemma magnitude_nonneg (u : BitVec 64) : 0 ≤ magnitude u := by
  rw [magnitude]
  split_ifs <;> positivity

lemma NearestEven.signFactor (s : Bool) (h : binary64.NearestEven x v) :
    binary64.NearestEven (signFactor s * x) (signFactor s * v) := by
  cases s
  · simpa [Rt.signFactor] using h
  · simpa [Rt.signFactor] using h.neg

lemma abs_signFactor_mul (s : Bool) (hv : 0 ≤ v) : |signFactor s * v| = v := by
  cases s <;> simp [signFactor, abs_of_nonneg hv]

lemma rounds_pack (he : e < 0x7ff) (hf : frac < 2 ^ 52) (h : binary64.NearestEven x (magnitude (packRaw s e frac))) :
    Rounds s (signFactor s * x) (packRaw s e frac) := by
  have he' : e < 2 ^ 11 := he.trans (by norm_num)
  have hmsb := packRaw_msb (s := s) he' hf
  have hfin : Finite (packRaw s e frac) := by
    rw [Finite, packRaw_expField he' hf]
    exact he.ne
  refine ⟨hmsb, _, NearestEven.signFactor s h, ?_⟩
  rw [abs_signFactor_mul s (magnitude_nonneg _), if_pos (magnitude_lt hfin), value, hmsb]
  exact ⟨hfin, rfl⟩

lemma rounds_inf (h : binary64.NearestEven x v) (hv : 2 ^ 1024 ≤ v) : Rounds s (signFactor s * x) (dInf s) := by
  have he : expmax < 2 ^ 11 := by decide
  have hf : 0 < 2 ^ 52 := by positivity
  refine ⟨packRaw_msb he hf, _, NearestEven.signFactor s h, ?_⟩
  rw [abs_signFactor_mul s (le_trans (by positivity) hv), if_neg (not_lt.2 hv)]
  exact ⟨packRaw_expField he hf, packRaw_fracField he hf⟩

lemma magnitude_subnormal (s : Bool) (hf : frac < 2 ^ 52) : magnitude (packRaw s 0 frac) = frac * 2 ^ (-1074 : ℤ) := by
  rw [magnitude, packRaw_expField (by norm_num) hf, packRaw_fracField (by norm_num) hf, if_pos rfl]

lemma magnitude_normal (s : Bool) (h0 : e ≠ 0) (he : e < 2 ^ 11) (hf : frac < 2 ^ 52) :
    magnitude (packRaw s e frac) = (2 ^ 52 + frac : ℕ) * 2 ^ ((e : ℤ) - 1075) := by
  rw [magnitude, packRaw_expField he hf, packRaw_fracField he hf, if_neg h0]
  push_cast
  rfl

/-! ## Rounding -/

/-- The decision to round up, as the code takes it on the three low bits. -/
def Up (S : ℕ) : Prop := S &&& 7 > 4 ∨ (S &&& 7 = 4 ∧ S >>> 3 &&& 1 ≠ 0)

instance (S : ℕ) : Decidable (Up S) := inferInstanceAs (Decidable (_ ∨ _))

lemma up_iff (S : ℕ) : Up S ↔ 4 < S % 8 ∨ (S % 8 = 4 ∧ S / 8 % 2 = 1) := by
  have h7 : S &&& 7 = S % 8 := Nat.and_two_pow_sub_one_eq_mod S 3
  rw [Up, h7, Nat.shiftRight_eq_div_pow, Nat.and_one_is_mod]
  norm_num

/-- The significand without its three low bits, rounded. -/
def rounded (S : ℕ) : ℕ := S / 8 + if Up S then 1 else 0

lemma rounded_eq (h : S < 2 ^ 64) :
    (if S &&& 7 > 4 ∨ (S &&& 7 = 4 ∧ S >>> 3 &&& 1 ≠ 0) then u64 (S >>> 3 + 1) else S >>> 3) = rounded S := by
  have h3 : S >>> 3 = S / 8 := Nat.shiftRight_eq_div_pow S 3
  by_cases hup : Up S
  · rw [rounded, if_pos hup]
    refine (if_pos hup).trans ?_
    rw [h3, u64, Nat.mod_eq_of_lt (by omega)]
  · rw [rounded, if_neg hup]
    exact (if_neg hup).trans h3

section
variable {S : ℕ} {y : ℚ} {exp : ℤ}

lemma nearestEven_rounded (ht : Tight 4 S y) {q : ℤ} (hq : -1074 ≤ q) (hlt : S < 2 ^ 56)
    (hnorm : 2 ^ 55 ≤ S ∨ q = -1074) : binary64.NearestEven (y / 8 * 2 ^ q) (rounded S * 2 ^ q) := by
  refine Fmt.nearestEven_of_floor hq ht.floor.1 ht.floor.2 ?_ ?_ (ht.halfEven (up_iff S))
  · show S / 8 < 2 ^ 53
    omega
  · show 2 ^ 52 ≤ S / 8 ∨ q = -1074
    omega

lemma nearestEven_zero {x : ℚ} (h0 : 0 ≤ x) (h : x < 2 ^ (-1075 : ℤ)) : binary64.NearestEven x 0 := by
  have hunit : (2 : ℚ) ^ (-1075 : ℤ) = 1 / 2 * 2 ^ (-1074 : ℤ) := by
    rw [show (-1075 : ℤ) = -1 + -1074 by norm_num, zpow_add₀ (by norm_num)]
    norm_num
  obtain ⟨y, rfl⟩ : ∃ y, x = y * 2 ^ (-1074 : ℤ) :=
    ⟨x / 2 ^ (-1074 : ℤ), (div_mul_cancel₀ _ (two_pow_ne_zero _)).symm⟩
  rw [hunit] at h
  have hpos : (0 : ℚ) < 2 ^ (-1074 : ℤ) := zpow_pos (by norm_num) _
  have hy : y < 1 / 2 := (mul_lt_mul_iff_left₀ hpos).1 h
  have hy0 : 0 ≤ y := nonneg_of_mul_nonneg_left h0 hpos
  have hhalf : Fmt.HalfEven y 0 0 := .inl ⟨rfl, .inl (by simpa using hy)⟩
  have := Fmt.nearestEven_of_floor (F := binary64) (q := -1074) le_rfl (by simpa using hy0)
    (by push_cast; linarith) (by positivity) (.inr rfl) hhalf
  rwa [Nat.cast_zero, zero_mul] at this

/-- Rounding below the least exponent. -/
lemma roundNorm_subnormal (s : Bool) (hlt : S < 2 ^ 56) (ht : Tight 4 S y) (hy : 0 ≤ y)
    (hexp : exp < -1022) : Rounds s (signFactor s * (y * 2 ^ (exp - 55))) (roundNorm s exp S) := by
  have hcond : exp < 1 - bias := by rw [bias]; omega
  simp only [roundNorm, if_pos hcond]
  obtain ⟨j, hj⟩ : ∃ j : ℕ, (j : ℤ) = 1 - bias - exp := ⟨(1 - bias - exp).toNat, by rw [bias] at *; omega⟩
  rw [← hj, Int.toNat_natCast]
  rw [bias] at hj
  by_cases hbig : j > 63
  · rw [if_pos hbig]
    have hy' : y < 2 ^ 56 := by
      have := (ht.lt_iff (2 ^ 54)).1 (by omega)
      exact_mod_cast this
    have hsmall : y * 2 ^ (exp - 55) < 2 ^ (-1075 : ℤ) := by
      calc y * 2 ^ (exp - 55) < 2 ^ 56 * 2 ^ (exp - 55) := by gcongr
        _ = 2 ^ (exp + 1) := by
          rw [← zpow_natCast, ← zpow_add₀ (by norm_num)]
          congr 1
          ring
        _ ≤ _ := zpow_le (by omega)
    refine rounds_pack (by norm_num) (by norm_num) ?_
    rw [magnitude_subnormal s (by norm_num), Nat.cast_zero, zero_mul]
    exact nearestEven_zero (by positivity) hsmall
  · rw [if_neg hbig, shiftSticky_eq]
    have ht' : Tight 4 (jam j S) (y / 2 ^ j) := (ht.jam (by omega)).mul_left 2 (by norm_num)
    have hlt' : jam j S < 2 * 2 ^ 54 := jam_lt (by
      have : 2 ^ 1 ≤ 2 ^ j := Nat.pow_le_pow_right (by norm_num) (by omega)
      nlinarith)
    have hle : rounded (jam j S) ≤ 2 ^ 52 := by
      rw [rounded]
      split_ifs <;> omega
    have hnear := nearestEven_rounded ht' le_rfl (by omega) (.inr rfl)
    have hx : y / 2 ^ j / 8 * 2 ^ (-1074 : ℤ) = y * 2 ^ (exp - 55) := by
      have h2 : (2 : ℚ) ≠ 0 := by norm_num
      rw [show exp - 55 = -1074 - j - 3 by omega, zpow_sub₀ h2, zpow_sub₀ h2, zpow_natCast]
      norm_num
      field_simp
    rw [hx] at hnear
    rw [rounded_eq (show jam j S < 2 ^ 64 by omega)]
    have hbit : rounded (jam j S) &&& 0x10000000000000 ≠ 0 ↔ 2 ^ 52 ≤ rounded (jam j S) :=
      and_two_pow_ne_zero (k := 52) (by omega)
    split_ifs with htop
    · have heq : rounded (jam j S) = 2 ^ 52 := le_antisymm hle (hbit.1 htop)
      rw [heq] at hnear
      rw [heq, show (2 ^ 52 : ℕ) &&& 0xfffffffffffff = 0 by decide]
      refine rounds_pack (by norm_num) (by norm_num) ?_
      rw [magnitude_normal s one_ne_zero (by norm_num) (by norm_num)]
      exact_mod_cast hnear
    · have hsmall : rounded (jam j S) < 2 ^ 52 := by
        by_contra hc
        exact htop (hbit.2 (by omega))
      refine rounds_pack (by norm_num) hsmall ?_
      rwa [magnitude_subnormal s hsmall]

/-- Rounding a normal number, to infinity if it is too large. -/
lemma roundNorm_normal (s : Bool) (hlow : 2 ^ 55 ≤ S) (hlt : S < 2 ^ 56) (ht : Tight 4 S y)
    (hexp : -1022 ≤ exp) : Rounds s (signFactor s * (y * 2 ^ (exp - 55))) (roundNorm s exp S) := by
  have hcond : ¬exp < 1 - bias := by rw [bias]; omega
  have hnear := nearestEven_rounded ht (q := exp - 52) (by omega) hlt (.inl hlow)
  have hx : y / 8 * 2 ^ (exp - 52) = y * 2 ^ (exp - 55) := by
    rw [show exp - 52 = exp - 55 + 3 by ring, zpow_add₀ (by norm_num)]
    norm_num
    field_simp
  rw [hx] at hnear
  -- the fraction and the exponent after the rounding: the carry goes into the exponent
  obtain ⟨frac, exp', hpair, hf1, hf2, hval, hle⟩ : ∃ (frac : ℕ) (exp' : ℤ),
      (if S &&& 7 > 4 ∨ (S &&& 7 = 4 ∧ S >>> 3 &&& 1 ≠ 0) then
        if u64 (S >>> 3 + 1) &&& 0x20000000000000 ≠ 0 then (u64 (S >>> 3 + 1) >>> 1, exp + 1)
        else (u64 (S >>> 3 + 1), exp)
      else (S >>> 3, exp)) = (frac, exp') ∧ 2 ^ 52 ≤ frac ∧ frac < 2 ^ 53 ∧
        (frac : ℚ) * 2 ^ (exp' - 52) = rounded S * 2 ^ (exp - 52) ∧ exp ≤ exp' := by
    have h3 : S >>> 3 = S / 8 := Nat.shiftRight_eq_div_pow S 3
    by_cases hup : Up S
    · have hu : u64 (S >>> 3 + 1) = rounded S := by
        rw [h3, u64, Nat.mod_eq_of_lt (by omega), rounded, if_pos hup]
      have hr : rounded S = S / 8 + 1 := by rw [rounded, if_pos hup]
      have hbit : rounded S &&& 0x20000000000000 ≠ 0 ↔ 2 ^ 53 ≤ rounded S :=
        and_two_pow_ne_zero (k := 53) (by omega)
      rw [hu]
      by_cases hcarry : rounded S &&& 0x20000000000000 ≠ 0
      · have heq : rounded S = 2 ^ 53 := by omega
        refine ⟨2 ^ 52, exp + 1, (if_pos hup).trans ((if_pos hcarry).trans (by rw [heq]; rfl)),
          le_rfl, by norm_num, ?_, by omega⟩
        rw [heq, show exp + 1 - 52 = exp - 52 + 1 by ring, zpow_add₀ (by norm_num)]
        ring
      · have : rounded S < 2 ^ 53 := by
          by_contra hc
          exact hcarry (hbit.2 (by omega))
        exact ⟨rounded S, exp, (if_pos hup).trans (if_neg hcarry), by omega, this, rfl, le_rfl⟩
    · have hr : rounded S = S / 8 := by rw [rounded, if_neg hup, Nat.add_zero]
      exact ⟨S >>> 3, exp, if_neg hup, by omega, by omega, by rw [hr, h3], le_rfl⟩
  rw [← hval] at hnear
  simp only [roundNorm, if_neg hcond, hpair]
  split_ifs with hinf
  · refine rounds_inf hnear ?_
    rw [bias, expmax] at hinf
    have hf : (2 : ℚ) ^ 52 ≤ frac := by exact_mod_cast hf1
    have := zpow_le (show (972 : ℤ) ≤ exp' - 52 by omega)
    rw [two_pow_top (a := 52) (b := 972) (by norm_num)]
    gcongr
  · rw [bias, expmax] at hinf
    have hmask : frac &&& 0xfffffffffffff = frac - 2 ^ 52 := by
      have : frac &&& 0xfffffffffffff = frac % 2 ^ 52 := Nat.and_two_pow_sub_one_eq_mod frac 52
      omega
    rw [hmask, bias]
    refine rounds_pack (by omega) (by omega) ?_
    rw [magnitude_normal s (by omega) (by omega) (by omega), Nat.add_sub_cancel' hf1]
    rwa [show (((exp' + 1023).toNat : ℕ) : ℤ) - 1075 = exp' - 52 by omega]

lemma roundPack_rounds (s : Bool) (exp : ℤ) (h : Stands S y) :
    Rounds s (signFactor s * (y * 2 ^ (exp - 55))) (roundPack s exp S) := by
  obtain ⟨exp', S', y', heq, hlow, hlt, ht, hval⟩ := normalise_spec h exp
  have hpack : roundPack s exp S = roundNorm s exp' S' := by
    simp only [roundPack, if_neg h.pos.ne', heq]
  rw [hpack, ← hval]
  rcases lt_or_ge exp' (-1022) with hexp | hexp
  · have hy : 0 ≤ y' := by
      have := (ht.lt_iff (2 ^ 53)).not.1 (by omega)
      exact le_trans (by positivity) (not_lt.1 this)
    exact roundNorm_subnormal s hlt ht hy hexp
  · exact roundNorm_normal s hlow hlt ht hexp

end
end EmbCC.Rt
