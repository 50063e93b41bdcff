import Mathlib

/-!
# Positional numbers in a power-of-two base

General facts about `Nat.ofDigits` in base `2 ^ w` that a limb-by-limb
implementation of natural numbers needs: trailing zero limbs do not count
(`ofDigits_rdropWhile`), the top limb fixes the size (`size_ofDigits_concat`), single bits
are bits of one limb (`testBit_ofDigits`), dropping limbs divides
(`ofDigits_drop`) and the order is decided from the top limb
(`ofDigits_lt_of_top`).
-/

namespace Digits

open Nat List

/-- Every limb is below the base. -/
def Fits (b : ℕ) (l : List ℕ) : Prop := ∀ x ∈ l, x < b

@[simp] lemma fits_nil (b : ℕ) : Fits b [] := by simp [Fits]

variable {b w x i : ℕ} {l l' : List ℕ}

@[simp] lemma fits_cons : Fits b (x :: l) ↔ x < b ∧ Fits b l := by simp [Fits]

@[simp] lemma fits_append : Fits b (l ++ l') ↔ Fits b l ∧ Fits b l' := by
  simp only [Fits, mem_append]
  exact ⟨fun h => ⟨fun x hx => h x (.inl hx), fun x hx => h x (.inr hx)⟩, fun h x hx => hx.elim (h.1 x) (h.2 x)⟩

lemma fits_replicate_zero (hb : 0 < b) (n : ℕ) : Fits b (List.replicate n 0) := by
  intro x hx
  rw [eq_of_mem_replicate hx]
  exact hb

lemma Fits.of_sublist (h : Fits b l) (hs : l'.Sublist l) : Fits b l' :=
  fun x hx => h x (hs.subset hx)

lemma ofDigits_rdropWhile (b : ℕ) (l : List ℕ) : ofDigits b (l.rdropWhile (· == 0)) = ofDigits b l := by
  induction l using reverseRecOn with
  | nil => simp
  | append_singleton l x ih =>
    rw [rdropWhile_concat]
    split_ifs with hx
    · simp only [beq_iff_eq] at hx
      simp [ih, hx]
    · rfl

lemma ofDigits_lt (hb : 1 < b) (h : Fits b l) : ofDigits b l < b ^ l.length :=
  ofDigits_lt_base_pow_length hb h

lemma ofDigits_drop (hb : 1 < b) (h : Fits b l) (k : ℕ) : ofDigits b (l.drop k) = ofDigits b l / b ^ k := by
  induction k generalizing l with
  | zero => simp
  | succ k ih =>
    cases l with
    | nil => simp
    | cons x l =>
      rw [fits_cons] at h
      rw [drop_succ_cons, ih h.2, ofDigits_cons, pow_succ', ← Nat.div_div_eq_div_mul,
        add_mul_div_left _ _ (by omega), div_eq_of_lt h.1, zero_add]

lemma size_ofDigits_concat (hw : 0 < w) (h : Fits (2 ^ w) l)
    (hx : x ≠ 0) : (ofDigits (2 ^ w) (l ++ [x])).size = l.length * w + x.size := by
  have hb : 1 < 2 ^ w := Nat.one_lt_two_pow hw.ne'
  have hl := ofDigits_lt hb h
  rw [← pow_mul, mul_comm] at hl
  have hv : ofDigits (2 ^ w) (l ++ [x]) = 2 ^ (l.length * w) * x + ofDigits (2 ^ w) l := by
    rw [ofDigits_append, ← pow_mul, mul_comm w, ofDigits_singleton, add_comm]
  apply le_antisymm
  · rw [size_le, hv, pow_add]
    have h1 : x + 1 ≤ 2 ^ x.size := lt_size_self x
    calc 2 ^ (l.length * w) * x + ofDigits (2 ^ w) l < 2 ^ (l.length * w) * x + 2 ^ (l.length * w) := by omega
      _ = 2 ^ (l.length * w) * (x + 1) := by ring
      _ ≤ _ := Nat.mul_le_mul_left _ h1
  · have hs : x.size ≠ 0 := fun h0 => hx (Nat.size_eq_zero.1 h0)
    obtain ⟨s, hs'⟩ := exists_eq_succ_of_ne_zero hs
    have h1 : 2 ^ s ≤ x := Nat.lt_size.1 (by omega)
    have h2 : l.length * w + s < (ofDigits (2 ^ w) (l ++ [x])).size := by
      rw [lt_size, hv, pow_add]
      exact (Nat.mul_le_mul_left _ h1).trans (Nat.le_add_right _ _)
    omega

lemma testBit_ofDigits (hw : 0 < w) (h : Fits (2 ^ w) l) (i : ℕ) :
    (ofDigits (2 ^ w) l).testBit i = (l.getD (i / w) 0).testBit (i % w) := by
  induction l generalizing i with
  | nil => simp
  | cons x l ih =>
    rw [fits_cons] at h
    rw [ofDigits_cons, add_comm, testBit_two_pow_mul_add _ h.1]
    split_ifs with hi
    · simp [div_eq_of_lt hi, mod_eq_of_lt hi]
    · obtain ⟨j, rfl⟩ := Nat.exists_eq_add_of_le' (Nat.le_of_not_lt hi)
      rw [Nat.add_sub_cancel, ih h.2, add_div_right _ hw, add_mod_right]
      simp

lemma ofDigits_lt_of_top (hb : 1 < b) (hl : Fits b l) (hn : l.length = l'.length) {y : ℕ} (hxy : x < y) :
    ofDigits b (l ++ [x]) < ofDigits b (l' ++ [y]) := by
  have h := ofDigits_lt hb hl
  simp only [ofDigits_append, hn] at h ⊢
  calc ofDigits b l + b ^ l'.length * x < b ^ l'.length * (x + 1) := by linarith
    _ ≤ b ^ l'.length * y := Nat.mul_le_mul_left _ hxy
    _ ≤ _ := Nat.le_add_left _ _

lemma or_two_pow_of_testBit (h : x.testBit i = false) : x ||| 2 ^ i = x + 2 ^ i := by
  induction i generalizing x with
  | zero =>
    rw [testBit_zero, decide_eq_false_iff_not] at h
    have hor := two_pow_add_eq_or_of_lt (i := 1) (b := 1) (by norm_num) (x / 2)
    have hx : 2 ^ 1 * (x / 2) = x := by omega
    rw [hx] at hor
    simpa using hor.symm
  | succ i ih =>
    rw [testBit_succ] at h
    apply eq_of_testBit_eq
    rintro (_ | j)
    · simp [pow_succ]
    · rw [testBit_succ, testBit_succ, or_div_two, Nat.pow_succ,
        Nat.mul_div_cancel _ (by norm_num), ih h, add_mul_div_right _ _ (by norm_num)]

lemma fits_modify (h : Fits b l) (k : ℕ) {f : ℕ → ℕ} (hf : ∀ x < b, f x < b) : Fits b (l.modify k f) := by
  induction l generalizing k with
  | nil => simp
  | cons x l ih =>
    rw [fits_cons] at h
    cases k with
    | zero => simpa using ⟨hf x h.1, h.2⟩
    | succ k => simpa using ⟨h.1, ih h.2 k⟩

lemma ofDigits_modify_or (hw : 0 < w) (h : Fits (2 ^ w) l)
    (hi : i / w < l.length) (hbit : (ofDigits (2 ^ w) l).testBit i = false) :
    ofDigits (2 ^ w) (l.modify (i / w) (· ||| 1 <<< (i % w))) = ofDigits (2 ^ w) l + 2 ^ i := by
  rw [testBit_ofDigits hw h] at hbit
  have hpow : 2 ^ i = (2 ^ w) ^ (i / w) * 2 ^ (i % w) := by rw [← pow_mul, ← pow_add, div_add_mod]
  rw [hpow, one_shiftLeft]
  generalize i / w = k, i % w = j at hi hbit
  clear hpow h
  induction l generalizing k with
  | nil => simp at hi
  | cons x l ih =>
    cases k with
    | zero =>
      rw [getD_cons_zero] at hbit
      rw [modify_zero_cons, ofDigits_cons, ofDigits_cons, or_two_pow_of_testBit hbit]
      ring
    | succ k =>
      rw [modify_succ_cons, ofDigits_cons, ofDigits_cons, ih k (by simpa using hi) hbit]
      ring

end Digits
