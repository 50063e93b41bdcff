import Mathlib

/-!
# Binary heaps in an array

The children of position `i` are `2 * i + 1` and `2 * i + 2`. While an element
is sifted down, the heap is in order everywhere but at one hole, and one
exchange moves the hole to the larger child (`Hole.step`). Exchanges only move
elements about (`Moved`).
-/

namespace BinHeap

open Equiv Function List
variable {α : Type*} {le : α → α → Prop} {u v w : ℕ → α} {k n r c i j : ℕ}

/-- Position `j` is a child of `i`. -/
def Child (i j : ℕ) : Prop := j = 2 * i + 1 ∨ j = 2 * i + 2

/-- From position `k` on, no child before `n` is above its parent. -/
def HeapFrom (le : α → α → Prop) (v : ℕ → α) (k n : ℕ) : Prop :=
  ∀ i j, k ≤ i → Child i j → j < n → le (v j) (v i)

/-- The same but for the children of `r`, which are not above its own parent. -/
structure Hole (le : α → α → Prop) (v : ℕ → α) (k r n : ℕ) : Prop where
  off : ∀ i j, k ≤ i → i ≠ r → Child i j → j < n → le (v j) (v i)
  grand : ∀ i j, k ≤ i → Child i r → Child r j → j < n → le (v j) (v i)

lemma HeapFrom.hole (h : HeapFrom le v (k + 1) n) : Hole le v k k n where
  off i j hi hik := h i j (by omega)
  grand i j hi hik := by
    unfold Child at hik
    omega

lemma Hole.heapFrom (h : Hole le v k r n) (hr : ∀ j, Child r j → j < n → le (v j) (v r)) : HeapFrom le v k n := by
  intro i j hi hij hj
  by_cases hir : i = r
  · subst hir
    exact hr j hij hj
  · exact h.off i j hi hir hij hj

/-- The hole moves down to the larger child. -/
lemma Hole.step (h : Hole le v k r n) (hkr : k ≤ r) (hc : Child r c) (hcn : c < n) (hrc : le (v r) (v c))
    (hbig : ∀ j, Child r j → j < n → le (v j) (v c)) : Hole le (v ∘ swap r c) k c n where
  off i j hi hic hij hj := by
    unfold Child at *
    by_cases hir : i = r
    · subst hir
      rw [comp_apply, comp_apply, swap_apply_left]
      by_cases hjc : j = c
      · rwa [hjc, swap_apply_right]
      · rw [swap_apply_of_ne_of_ne (by omega) hjc]
        exact hbig j hij hj
    · rw [comp_apply, comp_apply, swap_apply_of_ne_of_ne hir hic]
      by_cases hjr : j = r
      · subst hjr
        rw [swap_apply_left]
        exact h.grand i c hi hij hc hcn
      · rw [swap_apply_of_ne_of_ne hjr (by omega)]
        exact h.off i j hi hir hij hj
  grand i j hi hic hcj hj := by
    unfold Child at *
    obtain rfl : i = r := by omega
    rw [comp_apply, comp_apply, swap_apply_left, swap_apply_of_ne_of_ne (by omega) (by omega)]
    exact h.off c j (by omega) (by omega) hcj hj

lemma HeapFrom.le_top (h : HeapFrom le v 0 n) (hrefl : ∀ a, le a a)
    (htrans : ∀ a b c, le a b → le b c → le a c) (hi : i < n) : le (v i) (v 0) := by
  induction i using Nat.strongRecOn with
  | ind i ih =>
    rcases Nat.eq_zero_or_pos i with rfl | hpos
    · exact hrefl _
    · have hchild : Child ((i - 1) / 2) i := by
        unfold Child
        omega
      exact htrans _ _ _ (h _ i (Nat.zero_le _) hchild hi) (ih _ (by omega) (by omega))

/-- The elements before `n` are moved about. -/
def Moved (n : ℕ) (v w : ℕ → α) : Prop :=
  ∃ σ : Perm ℕ, (∀ i, n ≤ i → σ i = i) ∧ w = v ∘ σ

lemma Moved.refl (n : ℕ) (v : ℕ → α) : Moved n v v := ⟨1, fun _ _ => rfl, rfl⟩

lemma Moved.trans (h : Moved n u v) (h' : Moved n v w) : Moved n u w := by
  obtain ⟨σ, hσ, rfl⟩ := h
  obtain ⟨τ, hτ, rfl⟩ := h'
  refine ⟨σ * τ, fun i hi => ?_, rfl⟩
  rw [Perm.mul_apply, hτ i hi, hσ i hi]

lemma Moved.mono (h : Moved k v w) (hkn : k ≤ n) : Moved n v w := by
  obtain ⟨σ, hσ, hw⟩ := h
  exact ⟨σ, fun i hi => hσ i (hkn.trans hi), hw⟩

lemma moved_swap (hi : i < n) (hj : j < n) : Moved n v (v ∘ swap i j) :=
  ⟨swap i j, fun _ hk => swap_apply_of_ne_of_ne (by omega) (by omega), rfl⟩

lemma Moved.eq (h : Moved n v w) (hi : n ≤ i) : w i = v i := by
  obtain ⟨σ, hσ, rfl⟩ := h
  rw [comp_apply, hσ i hi]

lemma lt_of_fixes {σ : Perm ℕ} (hσ : ∀ i, n ≤ i → σ i = i) (hi : i < n) : σ i < n := by
  by_contra hle
  have := σ.injective (hσ (σ i) (not_lt.1 hle))
  omega

lemma Moved.exists_lt (h : Moved n v w) (hi : i < n) : ∃ j < n, w i = v j := by
  obtain ⟨σ, hσ, rfl⟩ := h
  exact ⟨σ i, lt_of_fixes hσ hi, rfl⟩

lemma Moved.perm (h : Moved n v w) : ((range n).map w).Perm ((range n).map v) := by
  obtain ⟨σ, hσ, rfl⟩ := h
  have hsub : (range n).map σ ⊆ range n := by
    intro j hj
    obtain ⟨i, hi, rfl⟩ := mem_map.1 hj
    exact mem_range.2 (lt_of_fixes hσ (mem_range.1 hi))
  rw [← map_map]
  exact (((nodup_range.map σ.injective).subperm hsub).perm_of_length_le (by simp)).map v

end BinHeap
