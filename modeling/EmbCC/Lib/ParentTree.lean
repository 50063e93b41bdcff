import Mathlib

/-!
# Trees of numbers given by parents

A tree whose root is 0 and in which every other number has a smaller one as its parent. The
ancestors of a number are in the order of their numbers (`Anc.of_le`).
-/

namespace ParentTree

open Relation

/-- Every number but the root has a smaller parent. -/
def Down (p : ℕ → ℕ) : Prop := ∀ x, 0 < x → p x < x

/-- `a` is `x` or above it. -/
def Anc (p : ℕ → ℕ) (a x : ℕ) : Prop := ReflTransGen (fun x y => 0 < x ∧ p x = y) x a

variable {p q : ℕ → ℕ} {a b x y : ℕ}

@[refl] lemma Anc.refl (p : ℕ → ℕ) (x : ℕ) : Anc p x x := ReflTransGen.refl

lemma Anc.trans (h : Anc p a b) (h' : Anc p b x) : Anc p a x := ReflTransGen.trans h' h

lemma Anc.child (hx : 0 < x) (h : Anc p a (p x)) : Anc p a x := .head ⟨hx, rfl⟩ h

lemma anc_iff : Anc p a x ↔ a = x ∨ 0 < x ∧ Anc p a (p x) := by
  refine ⟨fun h => ?_, ?_⟩
  · rcases h.cases_head with h | ⟨y, ⟨hx, rfl⟩, hy⟩
    · exact .inl h.symm
    · exact .inr ⟨hx, hy⟩
  · rintro (rfl | ⟨hx, h⟩)
    · exact .refl p a
    · exact .child hx h

lemma Anc.of_ne (h : Anc p a x) (hne : a ≠ x) : 0 < x ∧ Anc p a (p x) := (anc_iff.1 h).resolve_left hne

lemma Anc.exists_child (h : Anc p a x) (hne : a ≠ x) : ∃ c, Anc p c x ∧ 0 < c ∧ p c = a := by
  rcases h.cases_tail with h | ⟨c, hc, hca⟩
  · exact absurd h hne
  · exact ⟨c, hc, hca⟩

lemma anc_parent (hx : 0 < x) : Anc p (p x) x := .child hx (.refl p _)

section
variable (hp : Down p)
include hp

lemma Anc.le (h : Anc p a x) : a ≤ x := by
  induction h with
  | refl => exact le_rfl
  | tail _ hs ih =>
    obtain ⟨hb, rfl⟩ := hs
    exact (hp _ hb).le.trans ih

lemma anc_zero (x : ℕ) : Anc p 0 x := by
  induction x using Nat.strong_induction_on with
  | _ x ih =>
    rcases Nat.eq_zero_or_pos x with rfl | hx
    · exact .refl p 0
    · exact .child hx (ih _ (hp x hx))

lemma Anc.of_le (ha : Anc p a x) (hb : Anc p b x) (hab : a ≤ b) : Anc p a b := by
  induction x using Nat.strong_induction_on with
  | _ x ih =>
    rcases anc_iff.1 hb with rfl | ⟨hx, hb'⟩
    · exact ha
    · rcases anc_iff.1 ha with rfl | ⟨-, ha'⟩
      · have := (hb'.le hp).trans_lt (hp _ hx)
        omega
      · exact ih _ (hp x hx) ha' hb'

lemma Anc.antisymm (h : Anc p a b) (h' : Anc p b a) : a = b := le_antisymm (h.le hp) (h'.le hp)

lemma anc_congr (h : ∀ y ≤ x, p y = q y) : Anc p a x ↔ Anc q a x := by
  induction x using Nat.strong_induction_on with
  | _ x ih =>
    rw [anc_iff, anc_iff (p := q), ← h x le_rfl]
    refine or_congr_right (and_congr_right fun hx => ?_)
    exact ih _ (hp x hx) fun y hy => h y (hy.trans (hp x hx).le)

end
end ParentTree
