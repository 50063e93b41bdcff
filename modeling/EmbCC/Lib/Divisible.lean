import Mathlib

/-!
# Divisibility by a multiplication

Whether `D = d * 2 ^ K`, with `d` odd, divides an `n`-bit number can be told from its product
with an inverse `p` of `d` modulo `2 ^ n`: the product is then the quotient by `d`, so its low `K`
bits are zero and it is small. Rotating it right by `K` asks both at once (`rotr_le_iff`).
`dvd_iff_rotr` is the test for unsigned numbers, `dvd_iff_rotr_signed` for signed ones,
and `newton` doubles the bits of an inverse.
-/

namespace Divisible

open Int

/-- `y`, of `n` bits, rotated right by `k`. -/
def rotr (n k y : ℕ) : ℕ := y / 2 ^ k + y % 2 ^ k * 2 ^ (n - k)

lemma rotr_le_iff {n k y q : ℕ} (hq : q < 2 ^ (n - k)) : rotr n k y ≤ q ↔ 2 ^ k ∣ y ∧ y / 2 ^ k ≤ q := by
  unfold rotr
  constructor
  · intro h
    have hmod : y % 2 ^ k = 0 := by
      by_contra hne
      have htop : 2 ^ (n - k) ≤ y % 2 ^ k * 2 ^ (n - k) :=
        Nat.le_mul_of_pos_left _ (Nat.pos_of_ne_zero hne)
      exact absurd (hq.trans_le htop) (not_lt.2 ((Nat.le_add_left _ _).trans h))
    rw [hmod, Nat.zero_mul, Nat.add_zero] at h
    exact ⟨Nat.dvd_of_mod_eq_zero hmod, h⟩
  · rintro ⟨hdvd, hle⟩
    rw [Nat.mod_eq_zero_of_dvd hdvd, Nat.zero_mul, Nat.add_zero]
    exact hle

lemma newton {d p : ℤ} {k : ℕ} (h : d * p ≡ 1 [ZMOD 2 ^ k]) : d * (p * (2 - d * p)) ≡ 1 [ZMOD 2 ^ (2 * k)] := by
  obtain ⟨c, hc⟩ := h.symm.dvd
  refine Int.ModEq.symm (modEq_iff_dvd.2 ⟨-c ^ 2, ?_⟩)
  have hp : d * p = 1 + 2 ^ k * c := by linarith
  calc d * (p * (2 - d * p)) - 1 = d * p * (2 - d * p) - 1 := by ring
    _ = -(2 ^ k * c) ^ 2 := by rw [hp]; ring
    _ = 2 ^ (2 * k) * -c ^ 2 := by ring

lemma odd_mul_self {d : ℤ} (h : d % 2 = 1) : d * d ≡ 1 [ZMOD 2 ^ 3] := by
  have h8 : d % 8 = 1 ∨ d % 8 = 3 ∨ d % 8 = 5 ∨ d % 8 = 7 := by omega
  unfold Int.ModEq
  rcases h8 with h8 | h8 | h8 | h8 <;> rw [mul_emod] <;> norm_num [h8]

section
variable {n k d : ℕ} {p : ℤ} (hp : (d : ℤ) * p ≡ 1 [ZMOD 2 ^ n])
include hp

lemma mul_inverse_mul (x : ℤ) : x * p * d ≡ x [ZMOD 2 ^ n] := by
  have := hp.mul_left x
  rwa [mul_one, mul_comm (d : ℤ), ← mul_assoc] at this

lemma mul_mul_inverse (q : ℤ) : q * d * p ≡ q [ZMOD 2 ^ n] := by
  have := hp.mul_left q
  rwa [mul_one, ← mul_assoc] at this

lemma mul_eq_of_modEq {x q : ℤ} {y : ℤ} (hxy : y ≡ x * p [ZMOD 2 ^ n]) (hyq : y ≡ q [ZMOD 2 ^ n])
    (hsmall : |q * d - x| < 2 ^ n) : q * d = x := by
  have hmod : q * d ≡ x [ZMOD 2 ^ n] :=
    ((hyq.symm.trans hxy).mul_right d).trans (mul_inverse_mul hp x)
  have := eq_zero_of_abs_lt_dvd hmod.symm.dvd hsmall
  linarith

/-- The test for a divisor with its power of two rotated out. -/
lemma dvd_iff_rotr (hd : 0 < d) (hk : k ≤ n) {x y : ℕ} (hx : x < 2 ^ n) (hy : y < 2 ^ n)
    (hxy : (y : ℤ) ≡ x * p [ZMOD 2 ^ n]) : rotr n k y ≤ (2 ^ n - 1) / (d * 2 ^ k) ↔ d * 2 ^ k ∣ x := by
  have hpos : 0 < d * 2 ^ k := Nat.mul_pos hd (Nat.two_pow_pos k)
  have hq : (2 ^ n - 1) / (d * 2 ^ k) < 2 ^ (n - k) := by
    rw [Nat.div_lt_iff_lt_mul hpos]
    calc 2 ^ n - 1 < 2 ^ n := by omega
      _ = 2 ^ (n - k) * 2 ^ k := by rw [← pow_add, Nat.sub_add_cancel hk]
      _ ≤ 2 ^ (n - k) * (d * 2 ^ k) := Nat.mul_le_mul_left _ (Nat.le_mul_of_pos_left _ hd)
  rw [rotr_le_iff hq]
  constructor
  · rintro ⟨⟨c, rfl⟩, hle⟩
    rw [Nat.mul_div_cancel_left _ (Nat.two_pow_pos k), Nat.le_div_iff_mul_le hpos] at hle
    have hlt : 2 ^ k * c * d < 2 ^ n := by
      calc 2 ^ k * c * d = c * (d * 2 ^ k) := by ring
        _ < 2 ^ n := by omega
    have hx' : ((2 ^ k * c : ℕ) : ℤ) * d = x := by
      refine mul_eq_of_modEq hp hxy (Int.ModEq.refl _) ?_
      have h1 : ((2 ^ k * c : ℕ) : ℤ) * d < 2 ^ n := by exact_mod_cast hlt
      rw [abs_lt]
      constructor <;> linarith [show 0 ≤ ((2 ^ k * c : ℕ) : ℤ) * d by positivity]
    refine ⟨c, ?_⟩
    have : 2 ^ k * c * d = x := by exact_mod_cast hx'
    rw [← this]
    ring
  · rintro ⟨c, rfl⟩
    have hle : 2 ^ k * c ≤ d * 2 ^ k * c := by
      rw [Nat.mul_assoc]
      exact Nat.le_mul_of_pos_left _ hd
    have hyc : y ≡ (2 ^ k * c : ℕ) [ZMOD 2 ^ n] := by
      refine hxy.trans ?_
      have := mul_mul_inverse hp (2 ^ k * c : ℕ)
      rwa [show ((2 ^ k * c : ℕ) : ℤ) * d = (d * 2 ^ k * c : ℕ) by push_cast; ring] at this
    have hy' : y = 2 ^ k * c := by
      have : y ≡ 2 ^ k * c [MOD 2 ^ n] := natCast_modEq_iff.1 (by exact_mod_cast hyc)
      exact Nat.ModEq.eq_of_lt_of_lt this hy (hle.trans_lt hx)
    rw [hy', Nat.mul_div_cancel_left _ (Nat.two_pow_pos k), Nat.le_div_iff_mul_le hpos]
    refine ⟨Dvd.intro _ rfl, ?_⟩
    rw [Nat.mul_comm]
    omega

omit hp in
lemma natAbs_le_of_mul {x q : ℤ} (hd : 3 ≤ d) (hodd : d % 2 = 1)
    (hx : -2 ^ (n - 1) ≤ x ∧ x < 2 ^ (n - 1)) (hq : x = q * d) : q.natAbs ≤ (2 ^ (n - 1) - 1) / d := by
  rw [Nat.le_div_iff_mul_le (by omega)]
  have hle : q.natAbs * d ≤ 2 ^ (n - 1) := by
    have habs : |x| ≤ 2 ^ (n - 1) := abs_le.2 ⟨hx.1, hx.2.le⟩
    rw [hq, abs_mul, abs_eq_natAbs, Nat.abs_cast] at habs
    exact_mod_cast habs
  have hne : q.natAbs * d ≠ 2 ^ (n - 1) := by
    intro h
    have hcop : Nat.Coprime d (2 ^ (n - 1)) := (Nat.coprime_two_right.2 (Nat.odd_iff.2 hodd)).pow_right _
    have hone : d = 1 := hcop.eq_one_of_dvd (Dvd.intro_left _ h)
    omega
  omega

/-- The same for a signed number, moved up by a bound first. -/
lemma dvd_iff_rotr_signed (hd : 3 ≤ d) (hodd : d % 2 = 1) (hk : k ≤ n) (hn : 1 ≤ n) {x : ℤ} {A z : ℕ}
    (hx : -2 ^ (n - 1) ≤ x ∧ x < 2 ^ (n - 1)) (hA : A = (2 ^ (n - 1) - 1) / d / 2 ^ k * 2 ^ k) (hz : z < 2 ^ n)
    (hxz : (z : ℤ) ≡ x * p + A [ZMOD 2 ^ n]) : rotr n k z ≤ 2 * A / 2 ^ k ↔ ((d * 2 ^ k : ℕ) : ℤ) ∣ x := by
  have hk0 := Nat.two_pow_pos k
  have hdvdA : 2 ^ k ∣ A := hA ▸ Dvd.intro_left _ rfl
  have hAM : A ≤ (2 ^ (n - 1) - 1) / d := hA ▸ Nat.div_mul_le_self _ _
  have hAd : A * d < 2 ^ (n - 1) := by
    have := (Nat.le_div_iff_mul_le (by omega)).1 hAM
    have := Nat.two_pow_pos (n - 1)
    omega
  have htwo : 2 ^ n = 2 * 2 ^ (n - 1) := by rw [← pow_succ', Nat.sub_add_cancel hn]
  have hA2 : 2 * A < 2 ^ n := by
    have : A ≤ A * d := Nat.le_mul_of_pos_right _ (by omega)
    omega
  have hq : 2 * A / 2 ^ k < 2 ^ (n - k) := by
    rwa [Nat.div_lt_iff_lt_mul hk0, ← pow_add, Nat.sub_add_cancel hk]
  rw [rotr_le_iff hq]
  constructor
  · rintro ⟨hdvd, hle⟩
    have hz2 : z ≤ 2 * A := by
      rw [← Nat.div_mul_cancel hdvd]
      exact (Nat.mul_le_mul_right _ hle).trans (Nat.div_mul_le_self _ _)
    have habs : |(z - A : ℤ)| ≤ A := abs_le.2 ⟨by omega, by omega⟩
    have hx' : (z - A : ℤ) * d = x := by
      refine mul_eq_of_modEq hp ?_ (Int.ModEq.refl _) ?_
      · simpa using hxz.sub_right A
      · have h1 : |(z - A : ℤ) * d| < 2 ^ (n - 1) := by
          rw [abs_mul, Nat.abs_cast]
          calc |(z - A : ℤ)| * d ≤ A * d := by gcongr
            _ < 2 ^ (n - 1) := by exact_mod_cast hAd
        have h2 : |x| ≤ 2 ^ (n - 1) := abs_le.2 ⟨hx.1, hx.2.le⟩
        have h4 := abs_sub ((z - A : ℤ) * d) x
        linarith
    rw [← hx', Nat.cast_mul, mul_comm]
    refine mul_dvd_mul_right ?_ _
    exact dvd_sub (natCast_dvd_natCast.2 hdvd) (natCast_dvd_natCast.2 hdvdA)
  · rintro ⟨c, hc⟩
    have hxq : x = 2 ^ k * c * d := by
      rw [hc]
      push_cast
      ring
    have hqA : (2 ^ k * c).natAbs ≤ A := by
      have hM := natAbs_le_of_mul hd hodd hx hxq
      have h2 : 2 ^ k ∣ (2 ^ k * c).natAbs := by simp [natAbs_mul]
      rw [← Nat.div_mul_cancel h2, hA]
      exact Nat.mul_le_mul_right _ (Nat.div_le_div_right hM)
    have hzq : z ≡ 2 ^ k * c + A [ZMOD 2 ^ n] := by
      refine hxz.trans (Int.ModEq.add_right _ ?_)
      rw [hxq]
      exact mul_mul_inverse hp _
    have hz' : z = 2 ^ k * c + A := by
      have hlt : (2 ^ k * c + A : ℤ) < 2 ^ n := by
        have : (2 * A : ℤ) < 2 ^ n := by exact_mod_cast hA2
        omega
      calc (z : ℤ) = z % 2 ^ n := (emod_eq_of_lt (by omega) (by exact_mod_cast hz)).symm
        _ = (2 ^ k * c + A) % 2 ^ n := hzq
        _ = 2 ^ k * c + A := emod_eq_of_lt (by omega) hlt
    refine ⟨?_, Nat.div_le_div_right (by omega)⟩
    have : ((2 ^ k : ℕ) : ℤ) ∣ z := by
      rw [hz']
      exact dvd_add (by simp) (natCast_dvd_natCast.2 hdvdA)
    exact natCast_dvd_natCast.1 this

end
end Divisible
