import Mathlib

/-!
# Liveness along the paths of a graph

A point is live when some path from it comes to a use before it comes to a kill. A point that
kills what it uses is live: it uses first.
-/

namespace Liveness
variable {α : Type*}

/-- Some path comes to a use before a kill. -/
inductive Live (next : α → α → Prop) (use kill : α → Prop) : α → Prop
  | use {a : α} : use a → Live next use kill a
  | pass {a b : α} : ¬ kill a → next a b → Live next use kill b → Live next use kill a

variable {next next' : α → α → Prop} {use use' kill kill' : α → Prop} {a : α}

lemma Live.mono (hnext : ∀ {a b}, next a b → next' a b) (huse : ∀ {a}, use a → use' a)
    (hkill : ∀ {a}, kill' a → kill a) (h : Live next use kill a) : Live next' use' kill' a := by
  induction h with
  | use hu => exact .use (huse hu)
  | pass hk hn _ ih => exact .pass (fun hk' => hk (hkill hk')) (hnext hn) ih

lemma live_congr (hnext : ∀ a b, next a b ↔ next' a b) (huse : ∀ a, use a ↔ use' a)
    (hkill : ∀ a, kill a ↔ kill' a) : Live next use kill a ↔ Live next' use' kill' a :=
  ⟨.mono (hnext _ _).1 (huse _).1 (hkill _).2, .mono (hnext _ _).2 (huse _).2 (hkill _).1⟩

lemma Live.back {next : ℕ → ℕ → Prop} {use kill : ℕ → Prop} {m n : ℕ} (hmn : m ≤ n)
    (hnext : ∀ k, m ≤ k → k < n → next k (k + 1)) (hkill : ∀ k, m ≤ k → k < n → ¬ kill k)
    (h : Live next use kill n) : Live next use kill m := by
  induction n, hmn using Nat.le_induction with
  | base => exact h
  | succ n hmn ih =>
    exact ih (fun k hk hn => hnext k hk (hn.trans (Nat.lt_succ_self n)))
      (fun k hk hn => hkill k hk (hn.trans (Nat.lt_succ_self n)))
      (.pass (hkill n hmn (Nat.lt_succ_self n)) (hnext n hmn (Nat.lt_succ_self n)) h)

end Liveness
