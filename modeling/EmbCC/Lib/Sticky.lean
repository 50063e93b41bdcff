import EmbCC.Lib.Rounding

/-!
# Sticky bits

An integer `S` stands for a value `y` that was cut off: either it is `y`, or both lie
strictly between the same two consecutive multiples of `w` (`Tight w S y`). With `w = 2` this
is an odd `S`, the last bit of which is sticky. A shift that jams the bits it drops into
the last one keeps this (`Tight.jam`), and dropping three bits with `w = 4` rounds `y` to
nearest even (`Tight.halfEven`).
-/

namespace Rounding

open Nat
variable {K : Type*} [Field K] [LinearOrder K] [IsStrictOrderedRing K] {k S c : ℕ}

/-- `S` is `y`, or lies with it strictly between two consecutive multiples of `w`. -/
def Tight (w S : ℕ) (y : K) : Prop :=
  y = S ∨ ∃ m : ℕ, w * m < S ∧ S < w * (m + 1) ∧ ((w * m : ℕ) : K) < y ∧ y < ((w * (m + 1) : ℕ) : K)

/-- A shift to the right that keeps whether a bit was lost in the last bit. -/
def jam (k S : ℕ) : ℕ := S / 2 ^ k ||| if S % 2 ^ k = 0 then 0 else 1

lemma or_one_eq (n : ℕ) : n ||| 1 = 2 * (n / 2) + 1 := by
  have hdiv : (n ||| 1) / 2 = n / 2 := by simp [or_div_two]
  have hmod : (n ||| 1) % 2 = 1 := by simp
  omega

lemma jam_of_dvd (h : S % 2 ^ k = 0) : jam k S = S / 2 ^ k := by rw [jam, if_pos h, or_zero]

lemma le_jam (h : 2 ^ k * c ≤ S) : c ≤ jam k S :=
  ((Nat.le_div_iff_mul_le (by positivity)).2 (by rwa [mul_comm])).trans left_le_or

lemma jam_lt (h : S < 2 ^ k * (2 * c)) : jam k S < 2 * c := by
  have hlt : S / 2 ^ k < 2 * c := Nat.div_lt_of_lt_mul h
  rw [jam]
  split_ifs
  · rwa [or_zero]
  · rw [or_one_eq]
    omega

lemma jam_between {m : ℕ} (h1 : 2 ^ (k + 1) * m < S) (h2 : S < 2 ^ (k + 1) * (m + 1)) : jam k S = 2 * m + 1 := by
  have hpos : 0 < 2 ^ k := by positivity
  rw [pow_succ, mul_assoc] at h1 h2
  have hS := div_add_mod S (2 ^ k)
  have hlow : 2 * m ≤ S / 2 ^ k := (Nat.le_div_iff_mul_le hpos).2 (by rw [mul_comm]; exact h1.le)
  have hhigh : S / 2 ^ k < 2 * (m + 1) := Nat.div_lt_of_lt_mul h2
  by_cases h : S % 2 ^ k = 0
  · rw [jam_of_dvd h]
    have : 2 * m ≠ S / 2 ^ k := fun heq => by rw [heq] at h1; omega
    omega
  · rw [jam, if_neg h, or_one_eq]
    omega

namespace Tight
variable {S k w a : ℕ} {y : K}

omit [IsStrictOrderedRing K] in
lemma exact (w S : ℕ) : Tight w S (S : K) := .inl rfl

lemma mul_left (c : ℕ) (hc : 0 < c) (h : Tight w S y) : Tight (w * c) S y := by
  rcases h with h | ⟨m, h1, h2, h3, h4⟩
  · exact .inl h
  · have hdiv := div_add_mod m c
    have hmod := mod_lt m hc
    have hlow : w * c * (m / c) ≤ w * m := by
      rw [mul_assoc]
      exact Nat.mul_le_mul_left w (mul_div_le m c)
    have hhigh : w * (m + 1) ≤ w * c * (m / c + 1) := by
      rw [mul_assoc]
      exact Nat.mul_le_mul_left w (by rw [mul_add]; omega)
    refine .inr ⟨m / c, by omega, by omega, lt_of_le_of_lt ?_ h3, lt_of_lt_of_le h4 ?_⟩
    · exact_mod_cast hlow
    · exact_mod_cast hhigh

lemma double (h : Tight 2 S y) : Tight 4 (2 * S) (2 * y) := by
  rcases h with rfl | ⟨m, h1, h2, h3, h4⟩
  · exact .inl (by push_cast; rfl)
  · refine .inr ⟨m, by omega, by omega, ?_, ?_⟩ <;> push_cast at * <;> linarith

/-- A shift that jams the lost bits into the last one is tight. -/
lemma jam_exact (k S : ℕ) : Tight 2 (jam k S) ((S : K) / 2 ^ k) := by
  have hpow : (0 : K) < 2 ^ k := by positivity
  by_cases h : S % 2 ^ k = 0
  · rw [jam_of_dvd h]
    have hS : S = S / 2 ^ k * 2 ^ k := (Nat.div_mul_cancel (dvd_of_mod_eq_zero h)).symm
    left
    rw [div_eq_iff hpow.ne']
    exact_mod_cast hS
  · have hpos : 0 < 2 ^ (k + 1) := by positivity
    have hne : S % 2 ^ (k + 1) ≠ 0 := fun h0 => h (by
      exact mod_eq_zero_of_dvd (dvd_of_mul_right_dvd (dvd_of_mod_eq_zero h0)))
    have hS := div_add_mod S (2 ^ (k + 1))
    have hr := mod_lt S hpos
    have h1 : 2 ^ (k + 1) * (S / 2 ^ (k + 1)) < S := by omega
    have h2 : S < 2 ^ (k + 1) * (S / 2 ^ (k + 1) + 1) := by rw [mul_add]; omega
    rw [jam_between h1 h2]
    refine .inr ⟨S / 2 ^ (k + 1), by omega, by omega, ?_, ?_⟩
    · rw [lt_div_iff₀ hpow]
      rw [pow_succ, mul_assoc, mul_comm] at h1
      exact_mod_cast h1
    · rw [div_lt_iff₀ hpow]
      rw [pow_succ, mul_assoc, mul_comm] at h2
      exact_mod_cast h2

lemma jam (h : Tight 4 S y) (hk : 1 ≤ k) : Tight 2 (Rounding.jam k S) (y / 2 ^ k) := by
  have hpow : (0 : K) < 2 ^ k := by positivity
  have hw : 4 * 2 ^ (k - 1) = 2 ^ (k + 1) := by
    obtain ⟨j, rfl⟩ : ∃ j, k = j + 1 := ⟨k - 1, by omega⟩
    rw [Nat.add_sub_cancel, pow_succ, pow_succ]
    ring
  have hwide := h.mul_left (2 ^ (k - 1)) (by positivity)
  rw [hw] at hwide
  rcases hwide with rfl | ⟨m, h1, h2, h3, h4⟩
  · exact jam_exact k S
  · rw [jam_between h1 h2]
    rw [pow_succ, mul_assoc, mul_comm, cast_mul] at h3 h4
    refine .inr ⟨m, by omega, by omega, ?_, ?_⟩
    · rw [lt_div_iff₀ hpow]
      exact_mod_cast h3
    · rw [div_lt_iff₀ hpow]
      exact_mod_cast h4

lemma add_left (ha : Even a) (h : Tight 2 S y) : Tight 2 (a + S) (a + y) := by
  obtain ⟨c, rfl⟩ := ha
  rcases h with rfl | ⟨m, h1, h2, h3, h4⟩
  · exact .inl (by push_cast; ring)
  · refine .inr ⟨c + m, by omega, by omega, ?_, ?_⟩ <;> push_cast at * <;> linarith

lemma sub_left (ha : Even a) (hle : S ≤ a) (h : Tight 2 S y) : Tight 2 (a - S) (a - y) := by
  obtain ⟨c, rfl⟩ := ha
  rcases h with rfl | ⟨m, h1, h2, h3, h4⟩
  · exact .inl (by push_cast [hle]; ring)
  · have hcm : m + 1 ≤ c := by omega
    refine .inr ⟨c - (m + 1), by omega, by omega, ?_, ?_⟩ <;> push_cast [hcm] at * <;> linarith

lemma lt_iff (h : Tight w S y) (c : ℕ) : S < w * c ↔ y < ((w * c : ℕ) : K) := by
  rcases h with rfl | ⟨m, h1, h2, h3, h4⟩
  · exact_mod_cast Iff.rfl
  · constructor
    · intro hlt
      have : m + 1 ≤ c := by
        by_contra hc
        have := Nat.mul_le_mul_left w (show c ≤ m by omega)
        omega
      exact lt_of_lt_of_le h4 (by exact_mod_cast Nat.mul_le_mul_left w this)
    · intro hlt
      by_contra hc
      have : c ≤ m := by
        by_contra hcm
        have := Nat.mul_le_mul_left w (show m + 1 ≤ c by omega)
        omega
      have : ((w * c : ℕ) : K) ≤ ((w * m : ℕ) : K) := by exact_mod_cast Nat.mul_le_mul_left w this
      linarith

lemma halfEven (h : Tight 4 S y) {up : Prop} [Decidable up] (hup : up ↔ 4 < S % 8 ∨ (S % 8 = 4 ∧ S / 8 % 2 = 1)) :
    Fmt.HalfEven (y / 8) (S / 8) (S / 8 + if up then 1 else 0) := by
  have hS : ((8 * (S / 8) + S % 8 : ℕ) : K) = S := by exact_mod_cast div_add_mod S 8
  push_cast at hS
  rcases h with rfl | ⟨m, h1, h2, h3, h4⟩
  · have hcmp : S % 8 < 4 ∨ S % 8 = 4 ∨ 4 < S % 8 := by omega
    rcases hcmp with hlt | heq | hgt
    · have : ((S % 8 : ℕ) : K) < 4 := by exact_mod_cast hlt
      rw [if_neg fun hu => by have := hup.1 hu; omega]
      exact .inl ⟨rfl, .inl (by linarith)⟩
    · have : ((S % 8 : ℕ) : K) = 4 := by exact_mod_cast heq
      rcases even_or_odd (S / 8) with hpar | hpar
      · rw [if_neg fun hu => by have := hup.1 hu; have := Nat.even_iff.1 hpar; omega]
        exact .inl ⟨rfl, .inr ⟨by linarith, hpar⟩⟩
      · rw [if_pos (hup.2 (.inr ⟨heq, Nat.odd_iff.1 hpar⟩))]
        exact .inr ⟨rfl, .inr ⟨by linarith, hpar⟩⟩
    · have : 4 < ((S % 8 : ℕ) : K) := by exact_mod_cast hgt
      rw [if_pos (hup.2 (.inl hgt))]
      exact .inr ⟨rfl, .inl (by linarith)⟩
  · -- the half way point is a multiple of 4, so both are on one side of it
    rcases mod_two_eq_zero_or_one m with hm | hm
    · have hhalf : 4 * (m + 1) = 8 * (S / 8) + 4 := by omega
      rw [if_neg fun hu => by have := hup.1 hu; omega]
      rw [hhalf] at h4
      push_cast at h4
      exact .inl ⟨rfl, .inl (by linarith)⟩
    · have hhalf : 4 * m = 8 * (S / 8) + 4 := by omega
      rw [if_pos (hup.2 (.inl (by omega)))]
      rw [hhalf] at h3
      push_cast at h3
      exact .inr ⟨rfl, .inl (by linarith)⟩

lemma floor (h : Tight 4 S y) : ((S / 8 : ℕ) : K) ≤ y / 8 ∧ y / 8 < ((S / 8 : ℕ) : K) + 1 := by
  have h8 := h.mul_left 2 (by norm_num)
  have hlow := (h8.lt_iff (S / 8)).not.1 (by omega)
  have hhigh := (h8.lt_iff (S / 8 + 1)).1 (by omega)
  push_cast at hlow hhigh
  constructor <;> linarith

end Tight
end Rounding
