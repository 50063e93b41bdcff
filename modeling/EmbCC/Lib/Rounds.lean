import EmbCC.Lib.Worklist

/-!
# Closing a set under two rules

A worklist closes the marked points under successors. A second rule marks a
point when the point it hangs on is marked, found by a scan over all points. The
two are run in turn until the scan finds nothing, and what is marked then is the
least set that contains the roots and is closed under both rules
(`rounds_isLeast`).
-/

namespace Worklist

open Finset List Option
variable {α : Type*} [DecidableEq α]

/-- Mark a point that hangs on a marked one. -/
def pullIn (pull : α → Option α) (s : List α × List α) (x : α) : List α × List α :=
  if (pull x).any (· ∈ s.1) then visit s x else s

/-- The worklist and the scan in turn, for at most so many rounds. -/
def rounds (succs : α → List α) (pull : α → Option α) (points : List α) :
    ℕ → List α × List α → List α
  | 0, s => s.1
  | k + 1, s =>
    let s := points.foldl (pullIn pull) (close succs points.length s, [])
    if s.2 = [] then s.1 else rounds succs pull points k s

/-- A set that contains the roots and is closed under both rules. -/
structure Closed (roots : Set α) (succs : α → Set α) (pull : α → Option α) (S : Set α) : Prop where
  roots : roots ⊆ S
  succs : ∀ x ∈ S, succs x ⊆ S
  pull : ∀ x y, pull x = some y → y ∈ S → x ∈ S

/-- One round over the points: what it adds is forced, and adding nothing means closed. -/
lemma foldl_pullIn (pull : α → Option α) (points r wl : List α) (hr : r.Nodup) : ∃ new : List α, points.foldl (pullIn pull)
    (r, wl) = (new ++ r, new ++ wl) ∧ (new ++ r).Nodup ∧ (∀ S : Set α, (∀ x y, pull x = some y → y ∈ S → x ∈ S) →
    (∀ x ∈ r, x ∈ S) → ∀ x ∈ new, x ∈ S) ∧ (new = [] → ∀ x ∈ points, ∀ y, pull x = some y → y ∈ r → x ∈ r) := by
  induction points generalizing r wl with
  | nil => exact ⟨[], rfl, hr, by simp, by simp⟩
  | cons x points ih =>
    rw [foldl_cons, pullIn, visit]
    by_cases hpull : ((pull x).any (· ∈ r)) = true ∧ x ∉ r
    · rw [if_pos hpull.1, if_neg hpull.2]
      obtain ⟨new, heq, hnd, hsub, -⟩ := ih (x :: r) (x :: wl) (List.nodup_cons.2 ⟨hpull.2, hr⟩)
      refine ⟨new ++ [x], by rw [heq]; simp, by simpa using hnd, fun S hS hrS => ?_, by simp⟩
      obtain ⟨y, hy, hyr⟩ := (any_eq_true _ _).1 hpull.1
      have hx : x ∈ S := hS x y hy (hrS y (by simpa using hyr))
      have hcons : ∀ z ∈ x :: r, z ∈ S := List.forall_mem_cons.2 ⟨hx, hrS⟩
      intro z hz
      rcases List.mem_append.1 hz with hz | hz
      · exact hsub S hS hcons z hz
      · rwa [List.mem_singleton.1 hz]
    · have hstay : (if (pull x).any (· ∈ (r, wl).1) = true then
          if x ∈ (r, wl).1 then (r, wl) else (x :: (r, wl).1, x :: (r, wl).2) else (r, wl)) = (r, wl) := by
        split
        · rename_i hany
          exact if_pos (by_contra fun hx => hpull ⟨hany, hx⟩)
        · rfl
      rw [hstay]
      obtain ⟨new, heq, hnd, hsub, hall⟩ := ih r wl hr
      refine ⟨new, heq, hnd, hsub, fun hnew z hz y hy hyr => ?_⟩
      rcases List.mem_cons.1 hz with rfl | hz
      · by_contra hzr
        exact hpull ⟨(any_eq_true _ _).2 ⟨y, hy, by simpa using hyr⟩, hzr⟩
      · exact hall hnew z hz y hy hyr

lemma close_nodup (succs : α → List α) (fuel : ℕ) (s : List α × List α) (h : s.1.Nodup) : (close succs fuel s).Nodup := by
  induction fuel generalizing s with
  | zero => exact h
  | succ fuel ih =>
    obtain ⟨r, _ | ⟨x, wl⟩⟩ := s
    · exact h
    · obtain ⟨new, heq, hnd, -⟩ := foldl_visit (succs x) r wl h
      rw [close, heq]
      exact ih _ hnd

lemma close_subset {succs : α → List α} {S : Set α} (hS : ∀ x ∈ S, ∀ y ∈ succs x, y ∈ S) (fuel : ℕ) (s : List α × List α)
    (hnd : s.1.Nodup) (hr : ∀ x ∈ s.1, x ∈ S) (hwl : ∀ x ∈ s.2, x ∈ S) : ∀ x ∈ close succs fuel s, x ∈ S := by
  induction fuel generalizing s with
  | zero => exact hr
  | succ fuel ih =>
    obtain ⟨r, _ | ⟨x, wl⟩⟩ := s
    · exact hr
    · obtain ⟨new, heq, hnd', hnew, -⟩ := foldl_visit (succs x) r wl hnd
      have hin : ∀ y ∈ new, y ∈ S := fun y hy => hS x (hwl x (.head _)) y (hnew y hy)
      rw [close, heq]
      refine ih _ hnd' (fun y hy => ?_) fun y hy => ?_
      · exact (List.mem_append.1 hy).elim (hin y) (hr y)
      · exact (List.mem_append.1 hy).elim (hin y) fun h => hwl y (.tail _ h)

variable {succs : α → List α} {pull : α → Option α} {points : List α}

lemma rounds_subset {S : Set α} (hsucc : ∀ x ∈ S, ∀ y ∈ succs x, y ∈ S) (hpull : ∀ x y, pull x = some y → y ∈ S → x ∈ S)
    (k : ℕ) (s : List α × List α) (hnd : s.1.Nodup) (hr : ∀ x ∈ s.1, x ∈ S) (hwl : ∀ x ∈ s.2, x ∈ S) :
    ∀ x ∈ rounds succs pull points k s, x ∈ S := by
  induction k generalizing s with
  | zero => exact hr
  | succ k ih =>
    have hin := close_subset hsucc points.length s hnd hr hwl
    have hnd' := close_nodup succs points.length s hnd
    obtain ⟨new, heq, hnd'', hsub, -⟩ := foldl_pullIn pull points _ [] hnd'
    have hnew := hsub S hpull hin
    rw [rounds, heq]
    have hall : ∀ x ∈ new ++ close succs points.length s, x ∈ S := fun x hx =>
      (List.mem_append.1 hx).elim (hnew x) (hin x)
    split
    · exact hall
    · exact ih _ hnd'' hall (by simpa using hnew)

variable [Fintype α]

/-- Enough rounds reach a closed set. -/
lemma rounds_closed (hpoints : ∀ x, x ∈ points) {k : ℕ} {s : List α × List α} (h : Inv succs univ s)
    (hle : s.2.length ≤ s.1.length) (hk : Fintype.card α - s.1.length < k) : (∀ x ∈ s.1, x ∈ rounds succs pull points k s)
    ∧ (∀ x ∈ rounds succs pull points k s, ∀ y ∈ succs x, y ∈ rounds succs pull points k s) ∧ ∀ x y, pull x = some y →
    y ∈ rounds succs pull points k s → x ∈ rounds succs pull points k s := by
  induction k generalizing s with
  | zero => omega
  | succ k ih =>
    have hcard : ∀ l : List α, l.Nodup → l.length ≤ Fintype.card α := fun l hl => hl.length_le_card
    have hfuel : Fintype.card α ≤ points.length := by
      exact (card_le_card fun x _ => List.mem_toFinset.2 (hpoints x)).trans (toFinset_card_le _)
    obtain ⟨hkeep, hclosed⟩ := close_closed (fun _ _ _ => mem_univ _) h
      (show univ.card - s.1.length + s.2.length ≤ points.length by
        have := hcard s.1 h.nodup
        rw [card_univ]
        omega)
    have hnd := close_nodup succs points.length s h.nodup
    generalize hr : close succs points.length s = r at hkeep hclosed hnd
    obtain ⟨new, heq, hnd', -, hall⟩ := foldl_pullIn pull points r [] hnd
    rw [rounds, hr]
    simp only [heq, append_nil]
    split_ifs with hnew
    · subst hnew
      exact ⟨hkeep, hclosed, fun x y hxy hy => hall rfl x (hpoints x) y hxy hy⟩
    · have hlen : s.1.length ≤ r.length := by
        rw [← toFinset_card_of_nodup h.nodup, ← toFinset_card_of_nodup hnd]
        exact card_le_card fun x hx => List.mem_toFinset.2 (hkeep x (List.mem_toFinset.1 hx))
      have hpos := length_pos_of_ne_nil hnew
      have hinv : Inv succs univ (new ++ r, new) :=
        ⟨hnd', fun _ _ => mem_univ _, fun x hx => mem_append_left _ hx, fun x hx =>
          (List.mem_append.1 hx).imp_right fun hx y hy => mem_append_right _ (hclosed x hx y hy)⟩
      have hlen' := hcard _ hnd'
      rw [length_append] at hlen'
      obtain ⟨hin, hrest⟩ := ih hinv (by simp) (by simp only [length_append]; omega)
      exact ⟨fun x hx => hin x (mem_append_right _ (hkeep x hx)), hrest⟩

/-- The rounds end with the least closed set. -/
lemma rounds_isLeast (hpoints : ∀ x, x ∈ points) (roots : List α) {k : ℕ} (hk : Fintype.card α < k) :
    IsLeast {S : Set α | Closed {x | x ∈ roots} (fun x => {y | y ∈ succs x}) pull S}
      {x | x ∈ rounds succs pull points k (roots.foldl visit ([], []))} := by
  obtain ⟨new, heq, hnd, hnew, hall⟩ := foldl_visit roots [] [] nodup_nil
  simp only [append_nil] at heq hnd hall
  rw [heq]
  refine ⟨?_, fun S hS x hx => ?_⟩
  · have hinv : Inv succs univ (new, new) :=
      ⟨hnd, fun _ _ => mem_univ _, fun _ hx => hx, fun _ hx => .inl hx⟩
    obtain ⟨hin, hsucc, hpull⟩ := @rounds_closed _ _ succs pull points _ hpoints k _ hinv le_rfl
      (show Fintype.card α - new.length < k by omega)
    exact ⟨fun x hx => hin x (hall x hx), hsucc, hpull⟩
  · have hroots : ∀ x ∈ new, x ∈ S := fun x hx => hS.roots (hnew x hx)
    exact rounds_subset (fun x hx y hy => hS.succs x hx hy) hS.pull k _ hnd hroots hroots x hx

end Worklist
