import Mathlib

/-!
# Following a partial map to its end

From a point along a partial map until it stops (`Ends`). Where the map is extended by one
more arrow, what ended at its tail goes on (`Ends.update_of_eq`), and everything else ends
where it did. A stack that was filled on such a walk is `Down`: each element leads to the
one above it.
-/

namespace Chase

open Function Relation
variable {α : Type*}

/-- The arrows of a partial map. -/
def Arrow (S : α → Option α) (v w : α) : Prop := S v = some w

/-- From `v` along the map to the point where it stops. -/
inductive Ends (S : α → Option α) : α → α → Prop
  | stop {v : α} : S v = none → Ends S v v
  | step {v w r : α} : S v = some w → Ends S w r → Ends S v r

variable {S : α → Option α} {u v w r r' : α}

lemma Ends.unique (h : Ends S v r) (h' : Ends S v r') : r = r' := by
  induction h with
  | stop hv =>
    cases h' with
    | stop => rfl
    | step hv' => rw [hv] at hv'; cases hv'
  | step hv _ ih =>
    cases h' with
    | stop hv' => rw [hv] at hv'; cases hv'
    | step hv' h' =>
      obtain rfl := Option.some.inj (hv.symm.trans hv')
      exact ih h'

lemma Ends.reflTransGen (h : Ends S v r) : ReflTransGen (Arrow S) v r := by
  induction h with
  | stop => exact .refl
  | step hv _ ih => exact .head hv ih

section
variable [DecidableEq α] {a : α} (hu : S u = none)
include hu

lemma Ends.update_of_ne (h : Ends S v r) (hr : r ≠ u) : Ends (update S u (some a)) v r := by
  induction h with
  | stop hv => exact .stop (by rw [Function.update_of_ne hr, hv])
  | @step v w r hv _ ih =>
    have hne : v ≠ u := by
      rintro rfl
      rw [hu] at hv
      cases hv
    exact .step (by rw [Function.update_of_ne hne, hv]) (ih hr)

/-- An end that is sent on ends where its target does. -/
lemma Ends.update_of_eq (h : Ends S v u) (ha : Ends S a r) (hr : r ≠ u) : Ends (update S u (some a)) v r := by
  have hstep : Ends (update S u (some a)) u r := .step (update_self ..) (ha.update_of_ne hu hr)
  have key : ∀ v x, Ends S v x → x = u → Ends (update S u (some a)) v r := by
    intro v x hx
    induction hx with
    | stop =>
      rintro rfl
      exact hstep
    | @step v w x hv _ ih =>
      intro hxu
      have hne : v ≠ u := by
        rintro rfl
        rw [hu] at hv
        cases hv
      exact .step (by rw [Function.update_of_ne hne, hv]) (ih hxu)
  exact key v u h rfl

end

/-- Each element of the stack leads to the one above it, and the top to `u`. -/
def Down (S : α → Option α) : List α → α → Prop
  | [], _ => True
  | w :: stk, u => S w = some u ∧ Down S stk w

lemma Down.transGen {stk : List α} (h : Down S stk u) (hw : w ∈ stk) : TransGen (Arrow S) w u := by
  induction stk generalizing u with
  | nil => cases hw
  | cons x stk ih =>
    rcases List.mem_cons.1 hw with rfl | hw
    · exact .single h.1
    · exact (ih h.2 hw).tail h.1

end Chase
