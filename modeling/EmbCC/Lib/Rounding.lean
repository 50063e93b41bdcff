import Mathlib

/-!
# Rounding to nearest, ties to even

Binary floating-point formats over an arbitrary ordered field, and what it
means that a value is the correctly rounded one. A format has `p` significant
bits and a least quantum exponent (its subnormal spacing); it has no largest
exponent, so that overflow is decided on the rounded value, as IEEE 754 does.

`Fmt.nearestEven_of_floor` is the rule every implementation uses: on the grid of the right
quantum take the integer part, and go up when the rest is above a half, or is a half and the
integer part is odd.
-/

namespace Rounding

open Nat

/-- A binary format: precision, and the exponent of its finest quantum. -/
structure Fmt where
  p : ℕ
  lowq : ℤ
  two_le : 2 ≤ p

namespace Fmt
variable {K : Type*} [Field K] [LinearOrder K] [IsStrictOrderedRing K]

/-- The values of the format: `p`-bit multiples of a quantum it has. -/
def Mem (F : Fmt) (x : K) : Prop :=
  ∃ (m q : ℤ), |m| < 2 ^ F.p ∧ F.lowq ≤ q ∧ x = m * 2 ^ q

/-- The normalised significand of `x` is even. -/
def EvenSig (F : Fmt) (x : K) : Prop :=
  ∃ (m q : ℤ), |m| < 2 ^ F.p ∧ F.lowq ≤ q ∧ (2 ^ (F.p - 1) ≤ |m| ∨ q = F.lowq) ∧ Even m ∧
    x = m * 2 ^ q

/-- `v` is the value of the format nearest to `x`, the even one of two equally near. -/
structure NearestEven (F : Fmt) (x v : K) : Prop where
  mem : F.Mem v
  nearest : ∀ z : K, F.Mem z → |x - v| ≤ |x - z|
  even : ∀ z : K, F.Mem z → z ≠ v → |x - z| = |x - v| → F.EvenSig v

variable {F : Fmt} {x y δ : K} {q : ℤ} {n r N : ℕ}

omit [LinearOrder K] [IsStrictOrderedRing K] in
lemma Mem.neg (h : F.Mem x) : F.Mem (-x) := by
  obtain ⟨m, q, hm, hq, rfl⟩ := h
  exact ⟨-m, q, by rwa [abs_neg], hq, by push_cast; ring⟩

omit [LinearOrder K] [IsStrictOrderedRing K] in
lemma EvenSig.neg (h : F.EvenSig x) : F.EvenSig (-x) := by
  obtain ⟨m, q, hm, hq, hn, he, rfl⟩ := h
  exact ⟨-m, q, by rwa [abs_neg], hq, by rwa [abs_neg], he.neg, by push_cast; ring⟩

omit [IsStrictOrderedRing K] in
lemma NearestEven.neg {v : K} (h : F.NearestEven x v) : F.NearestEven (-x) (-v) := by
  have habs : ∀ z : K, |-x - z| = |x - -z| := fun z => by rw [← abs_neg]; ring_nf
  refine ⟨h.mem.neg, fun z hz => ?_, fun z hz hne heq => ?_⟩
  · rw [habs, habs, neg_neg]
    exact h.nearest _ hz.neg
  · rw [habs, habs, neg_neg] at heq
    exact (h.even _ hz.neg (fun h0 => hne (by rw [← h0, neg_neg])) heq).neg

lemma nearestEven_of_mem (h : F.Mem x) : F.NearestEven x x := by
  refine ⟨h, fun z _ => by simp, fun z _ hne heq => ?_⟩
  rw [sub_self, abs_zero, abs_eq_zero, sub_eq_zero] at heq
  exact absurd heq.symm hne

lemma mem_of_abs_le {m : ℤ} (hm : |m| ≤ 2 ^ F.p) (hq : F.lowq ≤ q) : F.Mem (m * 2 ^ q : K) := by
  rcases hm.lt_or_eq with hlt | heq
  · exact ⟨m, q, hlt, hq, rfl⟩
  · obtain ⟨p, hp⟩ := Nat.exists_eq_add_of_le' (one_le_two.trans F.two_le)
    rw [hp] at heq
    have h2 : m = m.sign * 2 ^ p * 2 := by
      conv_lhs => rw [← Int.sign_mul_abs m, heq, pow_succ, ← mul_assoc]
    refine ⟨m.sign * 2 ^ p, q + 1, ?_, by omega, ?_⟩
    · rw [abs_mul, abs_pow, hp]
      calc |m.sign| * |2| ^ p ≤ 1 * |2| ^ p := by
            gcongr
            rcases Int.sign_trichotomy m with h | h | h <;> simp [h]
        _ = 2 ^ p := by norm_num
        _ < 2 ^ (p + 1) := pow_lt_pow_right₀ (by norm_num) (by omega)
    · rw [zpow_add₀ two_ne_zero, zpow_one]
      conv_lhs => rw [h2]
      push_cast
      ring

lemma Mem.grid_or_small {z : K} (h : F.Mem z) (q : ℤ) :
    (∃ k : ℤ, z = k * 2 ^ q) ∨ (F.lowq < q ∧ |z| < 2 ^ (F.p - 1) * 2 ^ q) := by
  obtain ⟨m, q', hm, hq', rfl⟩ := h
  rcases le_or_gt q q' with hle | hlt
  · left
    obtain ⟨d, rfl⟩ := Int.le.dest hle
    exact ⟨m * 2 ^ d, by rw [zpow_add₀ two_ne_zero, zpow_natCast]; push_cast; ring⟩
  · right
    refine ⟨by omega, ?_⟩
    obtain ⟨p, hp⟩ := Nat.exists_eq_add_of_le' (one_le_two.trans F.two_le)
    have hm' : |(m : K)| < 2 ^ F.p := by exact_mod_cast hm
    rw [abs_mul, abs_of_pos (a := 2 ^ q') (by positivity), hp, Nat.add_sub_cancel]
    calc |(m : K)| * 2 ^ q' < 2 ^ F.p * 2 ^ q' := by gcongr
      _ ≤ 2 ^ F.p * 2 ^ (q - 1) := by gcongr <;> [norm_num; omega]
      _ = 2 ^ p * 2 ^ q := by
        rw [zpow_sub₀ two_ne_zero, zpow_one, hp, pow_succ]
        field_simp

/-- The integer that round-half-even picks between `n` and `n + 1` for `y` in `[n, n + 1)`. -/
def HalfEven (y : K) (n r : ℕ) : Prop :=
  (r = n ∧ (y < n + 1 / 2 ∨ (y = n + 1 / 2 ∧ Even n))) ∨
    (r = n + 1 ∧ (n + 1 / 2 < y ∨ (y = n + 1 / 2 ∧ Odd n)))

/-- Rounding half to even is nearest, and even in a tie. -/
lemma HalfEven.nearest (h : HalfEven y n r) (hn : n ≤ y) (hy : y < n + 1)
    (k : ℤ) : |y - r| ≤ |y - k| ∧ (k ≠ r → |y - k| = |y - r| → Even r) := by
  -- an integer other than the two around `y` is farther away on its side
  rcases le_or_gt k n with hk | hk
  · have hkn : (k : K) ≤ n := by exact_mod_cast hk
    rw [abs_of_nonneg (a := y - k) (by linarith)]
    rcases h with ⟨rfl, hlow⟩ | ⟨rfl, hhigh⟩
    · rw [abs_of_nonneg (by linarith)]
      refine ⟨by linarith, fun hne heq => absurd ?_ hne⟩
      have : k = (r : K) := by linarith
      exact_mod_cast this
    · push_cast
      rw [abs_of_nonpos (by linarith)]
      refine ⟨by rcases hhigh with h | h <;> linarith, fun _ heq => ?_⟩
      rcases hhigh with h | h
      · linarith
      · exact h.2.add_one
  · have hkn : (n : K) + 1 ≤ k := by exact_mod_cast hk
    rw [abs_of_nonpos (a := y - k) (by linarith)]
    rcases h with ⟨rfl, hlow⟩ | ⟨rfl, hhigh⟩
    · rw [abs_of_nonneg (by linarith)]
      refine ⟨by rcases hlow with h | h <;> linarith, fun _ heq => ?_⟩
      rcases hlow with h | h
      · linarith
      · exact h.2
    · push_cast
      rw [abs_of_nonpos (by linarith)]
      refine ⟨by linarith, fun hne heq => absurd ?_ hne⟩
      have : k = (((n + 1 : ℕ) : ℤ) : K) := by push_cast; linarith
      exact_mod_cast this

omit [IsStrictOrderedRing K] in
lemma HalfEven.le_succ (h : HalfEven y n r) : n ≤ r ∧ r ≤ n + 1 := by
  rcases h with ⟨rfl, -⟩ | ⟨rfl, -⟩ <;> omega

lemma floor_of_tail {k : ℕ} (h0 : 0 ≤ δ) (h1 : δ < 1) :
    ((N / 2 ^ k : ℕ) : K) ≤ (N + δ) / 2 ^ k ∧ (N + δ) / 2 ^ k < ((N / 2 ^ k : ℕ) : K) + 1 := by
  have hpos : (0 : K) < 2 ^ k := by positivity
  have hlow : ((N / 2 ^ k : ℕ) : K) * 2 ^ k ≤ N := by exact_mod_cast div_mul_le_self N (2 ^ k)
  have hhigh : N + 1 ≤ (((N / 2 ^ k : ℕ) : K) + 1) * 2 ^ k := by
    exact_mod_cast lt_mul_of_div_lt (lt_succ_self (N / 2 ^ k)) (Nat.two_pow_pos k)
  rw [le_div_iff₀ hpos, div_lt_iff₀ hpos]
  exact ⟨by linarith, by linarith⟩

/-- The guard bit and what is below it decide. -/
lemma HalfEven.of_guard {s : ℕ} (h0 : 0 ≤ δ) (h1 : δ < 1) {up : Prop} [Decidable up]
    (hup : up ↔ N / 2 ^ s % 2 = 1 ∧ ((0 < δ ∨ N % 2 ^ s ≠ 0) ∨ N / 2 ^ (s + 1) % 2 = 1)) :
    HalfEven ((N + δ) / 2 ^ (s + 1)) (N / 2 ^ (s + 1)) (N / 2 ^ (s + 1) + if up then 1 else 0) := by
  have hpos : (0 : K) < 2 ^ (s + 1) := by positivity
  have hlow := mod_lt N (Nat.two_pow_pos s)
  have hdiv : N / 2 ^ (s + 1) = N / 2 ^ s / 2 := by rw [pow_succ, Nat.div_div_eq_div_mul]
  generalize hn : N / 2 ^ (s + 1) = n at hup
  generalize hg : N / 2 ^ s % 2 = g at hup
  generalize hl : N % 2 ^ s = l at hup hlow
  have hN : N = 2 ^ s * (2 * n + g) + l := by
    have h2 := div_add_mod (N / 2 ^ s) 2
    rw [← hl, ← hn, ← hg, hdiv, h2, div_add_mod]
  have hg2 : g = 0 ∨ g = 1 := hg ▸ mod_two_eq_zero_or_one _
  have hN' : N + δ = n * 2 ^ (s + 1) + (g * 2 ^ s + (l + δ)) := by
    rw [hN]
    push_cast
    ring
  have hl1 : (l : K) + 1 ≤ 2 ^ s := by exact_mod_cast hlow
  have hhalf : (n + 1 / 2 : K) = (n * 2 ^ (s + 1) + 2 ^ s) / 2 ^ (s + 1) := by
    rw [pow_succ]
    field_simp
  rw [hN', HalfEven, hhalf, div_lt_div_iff_of_pos_right hpos, div_lt_div_iff_of_pos_right hpos, div_left_inj' hpos.ne']
  rcases hg2 with rfl | rfl
  · rw [if_neg (fun hu => by simpa using (hup.1 hu).1)]
    exact .inl ⟨rfl, .inl (by push_cast; linarith)⟩
  · by_cases htail : 0 < δ ∨ l ≠ 0
    · rw [if_pos (hup.2 ⟨rfl, .inl htail⟩)]
      have : 0 < l + δ := by
        rcases htail with h | h
        · positivity
        · have : (0 : K) < l := by exact_mod_cast Nat.pos_of_ne_zero h
          linarith
      exact .inr ⟨rfl, .inl (by push_cast; linarith)⟩
    · obtain ⟨hδ, rfl⟩ : δ = 0 ∧ l = 0 := by
        push Not at htail
        exact ⟨le_antisymm htail.1 h0, htail.2⟩
      have heq : (n * 2 ^ (s + 1) + ((1 : ℕ) * 2 ^ s + ((0 : ℕ) + δ)) : K) = n * 2 ^ (s + 1) + 2 ^ s := by
        rw [hδ]
        ring
      rw [heq]
      rcases even_or_odd n with hpar | hpar
      · rw [if_neg (fun hu => by
          rcases (hup.1 hu).2 with h | h
          · exact htail h
          · exact absurd (Nat.even_iff.1 hpar) (by omega))]
        exact .inl ⟨rfl, .inr ⟨rfl, hpar⟩⟩
      · rw [if_pos (hup.2 ⟨rfl, .inr (Nat.odd_iff.1 hpar)⟩)]
        exact .inr ⟨rfl, .inr ⟨rfl, hpar⟩⟩

lemma evenSig_of_grid (hq : F.lowq ≤ q) (hr : n ≤ r ∧ r ≤ n + 1) (hp : n < 2 ^ F.p) (hnorm : 2 ^ (F.p - 1) ≤ n ∨ q = F.lowq)
    (heven : Even r) : F.EvenSig (r * 2 ^ q : K) := by
  obtain ⟨p, hp'⟩ := Nat.exists_eq_add_of_le' F.two_le
  rcases (hr.2.trans hp).lt_or_eq with hlt | heq
  · refine ⟨r, q, ?_, hq, ?_, by exact_mod_cast heven, by push_cast; rfl⟩
    · rw [abs_cast]
      exact_mod_cast hlt
    · rw [abs_cast]
      exact hnorm.imp_left fun h => by exact_mod_cast h.trans hr.1
  · have h2 : (1 : ℤ) < 2 := by norm_num
    refine ⟨2 ^ (F.p - 1), q + 1, ?_, by omega, ?_, ?_, ?_⟩
    · rw [abs_of_pos (by positivity)]
      exact pow_lt_pow_right₀ h2 (by omega)
    · rw [abs_of_pos (by positivity)]
      exact .inl le_rfl
    · rw [hp', show p + 2 - 1 = p + 1 by omega, pow_succ]
      exact even_two.mul_left _
    · rw [heq, hp', zpow_add₀ two_ne_zero, show p + 2 - 1 = p + 1 by omega]
      push_cast
      ring

/-- Rounding the quotient by the quantum rounds in the format. -/
lemma nearestEven_of_floor (hq : F.lowq ≤ q) (hn : n ≤ y) (hy : y < n + 1) (hp : n < 2 ^ F.p)
    (hnorm : 2 ^ (F.p - 1) ≤ n ∨ q = F.lowq) (h : HalfEven y n r) : F.NearestEven (y * 2 ^ q) (r * 2 ^ q) := by
  have h2 : (0 : K) < 2 ^ q := by positivity
  have hr := h.le_succ
  have hrp : |(r : ℤ)| ≤ 2 ^ F.p := by exact_mod_cast hr.2.trans hp
  have hdist : ∀ w, |y * 2 ^ q - w * 2 ^ q| = |y - w| * 2 ^ q := fun w => by
    rw [← sub_mul, abs_mul, abs_of_pos h2]
  -- a value below the grid's binade is farther than the binade's first grid point
  have hsmall : ∀ z : K, F.lowq < q → |z| < 2 ^ (F.p - 1) * 2 ^ q →
      |y * 2 ^ q - r * 2 ^ q| < |y * 2 ^ q - z| := by
    intro z hlow hz
    have hfirst : (2 : K) ^ (F.p - 1) ≤ n := by exact_mod_cast hnorm.resolve_right hlow.ne'
    have hgrid := (h.nearest hn hy (2 ^ (F.p - 1))).1
    push_cast at hgrid
    rw [abs_of_nonneg (a := y - 2 ^ (F.p - 1)) (by linarith)] at hgrid
    rw [hdist]
    calc |y - r| * 2 ^ q ≤ (y - 2 ^ (F.p - 1)) * 2 ^ q := by gcongr
      _ = y * 2 ^ q - 2 ^ (F.p - 1) * 2 ^ q := sub_mul ..
      _ < y * 2 ^ q - z := by linarith [le_abs_self z]
      _ ≤ _ := le_abs_self _
  refine ⟨?_, fun z hz => ?_, fun z hz hne heq => ?_⟩
  · exact_mod_cast mem_of_abs_le (K := K) hrp hq
  · rcases hz.grid_or_small q with ⟨k, rfl⟩ | ⟨hlow, hlt⟩
    · rw [hdist, hdist]
      exact mul_le_mul_of_nonneg_right (h.nearest hn hy k).1 h2.le
    · exact (hsmall z hlow hlt).le
  · rcases hz.grid_or_small q with ⟨k, rfl⟩ | ⟨hlow, hlt⟩
    · rw [hdist, hdist, mul_left_inj' h2.ne'] at heq
      have heven : Even r := (h.nearest hn hy k).2 (fun h0 => hne (by rw [h0]; push_cast; rfl)) heq
      exact evenSig_of_grid hq hr hp hnorm heven
    · exact absurd heq (hsmall z hlow hlt).ne'

end Fmt
end Rounding
