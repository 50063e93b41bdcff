import Mathlib

/-!
# A pass over a list with a state

The loop of a pass that walks a list once, rewrites each element, and carries
a state from one to the next. `scan_getElem` reads off what it leaves at a position
from the state there. Searching for the last element that passes a test is such a
loop without the rewriting (`foldl_last_eq_some`).
-/

namespace Scan
variable {σ α β : Type*} {l : List α} {r : Option α}

/-- Rewrite the elements in order, each with the state the ones before it left. -/
def scan (f : σ → α → β × σ) : σ → List α → List β
  | _, [] => []
  | s, a :: l => (f s a).1 :: scan f (f s a).2 l

/-- The state before position `n`. -/
def stateAt (f : σ → α → β × σ) (s : σ) (l : List α) (n : ℕ) : σ :=
  (l.take n).foldl (fun s a => (f s a).2) s

lemma scan_getElem (f : σ → α → β × σ) (s : σ) (l : List α) (n : ℕ) :
    (scan f s l)[n]? = (l[n]?).map fun a => (f (stateAt f s l n) a).1 := by
  induction l generalizing s n with
  | nil => rfl
  | cons a l ih =>
    cases n with
    | zero => rfl
    | succ n => exact ih (f s a).2 n

@[simp] lemma length_scan (f : σ → α → β × σ) (s : σ) (l : List α) : (scan f s l).length = l.length := by
  induction l generalizing s with
  | nil => rfl
  | cons a l ih => simp [scan, ih]

lemma stateAt_succ (f : σ → α → β × σ) (s : σ) {n : ℕ} {a : α}
    (h : l[n]? = some a) : stateAt f s l (n + 1) = (f (stateAt f s l n) a).2 := by
  rw [stateAt, List.take_add_one, h, List.foldl_append]
  rfl

variable {p : α → Prop} [DecidablePred p]

lemma foldl_last_eq_some {b : α}
    (h : l.foldl (fun r b => if p b then some b else r) r = some b) : r = some b ∨ b ∈ l ∧ p b := by
  induction l generalizing r with
  | nil => exact .inl h
  | cons c l ih =>
    rcases ih h with hr | ⟨hb, hp⟩
    · dsimp only at hr
      split_ifs at hr with hc
      · cases hr
        exact .inr ⟨.head _, hc⟩
      · exact .inl hr
    · exact .inr ⟨.tail _ hb, hp⟩

/-- A scan for the last element finds one if there is one. -/
lemma foldl_last_isSome (h : r.isSome ∨ ∃ b ∈ l, p b) : (l.foldl (fun r b => if p b then some b else r) r).isSome := by
  induction l generalizing r with
  | nil => simpa using h
  | cons c l ih =>
    refine ih ?_
    dsimp only
    split
    · exact .inl rfl
    · rename_i hc
      rcases h with h | ⟨b, hb, hp⟩
      · exact .inl h
      · rcases List.mem_cons.1 hb with rfl | hb
        · exact absurd hp hc
        · exact .inr ⟨b, hb, hp⟩

end Scan
