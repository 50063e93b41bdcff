import Mathlib.Tactic.Ring
import Mathlib.Tactic.Linarith
import Mathlib.Data.Int.ModEq

/-!
# Division by multiplication

A divisor `d` and a number `m` a little above `P / d`, so that `m * d = P + e`
with a small excess `e`. `mul_div_eq` says when `x * m / P` is `x / d`, and
`neg_mul_ediv` does the same for a negated dividend, where the floor is one below the
truncated quotient. Both ask for one inequality, which `excess_lt` gives for all
`x` below a bound once it holds at the largest multiple of `d` less one.
-/

namespace Reciprocal

open Nat
variable {d m P e x : ℕ}

lemma mul_mul_eq (hm : m * d = P + e) : d * (x * m) = d * (x / d * P) + (x % d * P + x * e) := by
  calc d * (x * m) = x * (m * d) := by ring
    _ = (d * (x / d) + x % d) * P + x * e := by rw [hm, div_add_mod]; ring
    _ = _ := by ring

lemma mul_div_eq (hm : m * d = P + e) (h : x % d * P + x * e < d * P) : x * m / P = x / d := by
  have hd : 0 < d := Nat.pos_of_ne_zero fun h0 => by simp [h0] at h
  have hprod := @mul_mul_eq _ _ _ _ x hm
  generalize x / d = q at *
  refine Nat.div_eq_of_lt_le ?_ ?_
  · exact Nat.le_of_mul_le_mul_left (hprod ▸ Nat.le_add_right _ _) hd
  · refine Nat.lt_of_mul_lt_mul_left (a := d) ?_
    calc d * (x * m) < d * (q * P) + d * P := by omega
      _ = d * ((q + 1) * P) := by ring

lemma neg_mul_ediv (hm : m * d = P + e) (hx : 0 < x) (he : 0 < e)
    (h : x % d * P + x * e ≤ d * P) : (-(x * m : ℤ)) / P = -(x / d : ℕ) - 1 := by
  have hd : 0 < d := Nat.pos_of_ne_zero fun h0 => by
    simp [h0] at h
    omega
  have hxe := Nat.mul_pos hx he
  have hprod := @mul_mul_eq _ _ _ _ x hm
  generalize x / d = q at *
  have hlow : q * P < x * m := Nat.lt_of_mul_lt_mul_left (a := d) (by omega)
  have hhigh : x * m ≤ (q + 1) * P := by
    refine Nat.le_of_mul_le_mul_left ?_ hd
    calc d * (x * m) ≤ d * (q * P) + d * P := by omega
      _ = d * ((q + 1) * P) := by ring
  have hP : 0 < P := Nat.pos_of_ne_zero fun h0 => by simp [h0] at hlow hhigh; omega
  have hlow' : (q * P : ℤ) < x * m := by exact_mod_cast hlow
  have hP' : (0 : ℤ) < P := by exact_mod_cast hP
  refine Int.le_antisymm (Int.lt_add_one_iff.1 ?_) ?_
  · rw [Int.ediv_lt_iff_lt_mul hP']
    linarith
  · rw [Int.le_ediv_iff_mul_le hP']
    linarith

lemma excess_lt {nc : ℕ} (hd : 0 < d) (hnc : d ∣ nc + 1) (h : nc * e < P) (hx : x < nc + d) : x % d * P + x * e < d * P := by
  have hr : x % d < d := mod_lt x hd
  have hd1 : d ≤ nc + 1 := le_of_dvd (succ_pos nc) hnc
  rcases le_or_gt x nc with hle | hgt
  · have hxe : x * e < P := (Nat.mul_le_mul_right e hle).trans_lt h
    calc x % d * P + x * e < x % d * P + P := by omega
      _ = (x % d + 1) * P := by ring
      _ ≤ d * P := Nat.mul_le_mul_right P hr
  · -- `x` is in the block after `nc`, and its remainder is the distance to it
    obtain ⟨r, rfl⟩ : ∃ r, x = nc + 1 + r := ⟨x - (nc + 1), by omega⟩
    have hmod : (nc + 1 + r) % d = r := by
      obtain ⟨k, hk⟩ := hnc
      rw [hk, mul_add_mod, mod_eq_of_lt (by omega)]
    rw [hmod] at ⊢
    have hre : (r + 1) * e < P := (Nat.mul_le_mul_right e (by omega)).trans_lt h
    calc r * P + (nc + 1 + r) * e = r * P + (nc * e + (r + 1) * e) := by ring
      _ < r * P + (P + P) := by omega
      _ = (r + 2) * P := by ring
      _ ≤ d * P := Nat.mul_le_mul_right P (by omega)

lemma double_div (hd : 0 < d) {n b : ℕ} (hb : b ≤ 1) :
    (2 * n + b) / d = 2 * (n / d) + (if d ≤ 2 * (n % d) + b then 1 else 0) ∧
      (2 * n + b) % d = 2 * (n % d) + b - (if d ≤ 2 * (n % d) + b then d else 0) := by
  have hr : n % d < d := mod_lt n hd
  have hn := div_add_mod n d
  have hsplit : 2 * n + b = d * (2 * (n / d)) + (2 * (n % d) + b) := by
    conv_lhs => rw [← hn]
    ring
  rw [hsplit, mul_add_div hd, mul_add_mod]
  split_ifs with h
  · have hone : (2 * (n % d) + b) / d = 1 := Nat.div_eq_of_lt_le (by omega) (by omega)
    exact ⟨by rw [hone], by rw [mod_eq_sub_mod h, mod_eq_of_lt (by omega)]⟩
  · have hlt : 2 * (n % d) + b < d := by omega
    exact ⟨by rw [div_eq_of_lt hlt], by rw [mod_eq_of_lt hlt, Nat.sub_zero]⟩

end Reciprocal
