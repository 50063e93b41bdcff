import Mathlib

/-!
# Closing a set with a worklist

The loop that marks everything reachable from what is already marked: take a
point off the list, mark and put on the list the successors that are not
marked yet. Each point is put on the list once, so as many turns as there are
points are enough, and what is marked in the end is closed under successors
(`close_closed`).
-/

namespace Worklist

open List
variable {α : Type*} [DecidableEq α] {P : α → Prop} {r wl : List α} {fuel : ℕ} {s : List α × List α} {x : α}

/-- Mark a point and put it on the list, unless it is marked. -/
def visit (s : List α × List α) (t : α) : List α × List α :=
  if t ∈ s.1 then s else (t :: s.1, t :: s.2)

/-- The loop, for at most so many turns: the marked points and those on the list. -/
def close (succs : α → List α) : ℕ → List α × List α → List α
  | fuel + 1, (r, x :: wl) => close succs fuel ((succs x).foldl visit (r, wl))
  | _, (r, _) => r

/-- Visiting the successors adds the new ones, each once, to the marks and the list. -/
lemma foldl_visit (ts r wl : List α) (hr : r.Nodup) : ∃ new : List α, ts.foldl visit (r, wl) = (new ++ r, new ++ wl)
    ∧ (new ++ r).Nodup ∧ (∀ x ∈ new, x ∈ ts) ∧ ∀ t ∈ ts, t ∈ new ++ r := by
  induction ts generalizing r wl with
  | nil => exact ⟨[], rfl, hr, by simp, by simp⟩
  | cons t ts ih =>
    rw [foldl_cons, visit]
    split_ifs with ht
    · obtain ⟨new, heq, hnd, hnew, hall⟩ := ih r wl hr
      refine ⟨new, heq, hnd, fun x hx => .tail _ (hnew x hx), ?_⟩
      rintro x (_ | ⟨_, hx⟩)
      · exact mem_append_right _ ht
      · exact hall x hx
    · obtain ⟨new, heq, hnd, hnew, hall⟩ := ih (t :: r) (t :: wl) (List.nodup_cons.2 ⟨ht, hr⟩)
      refine ⟨new ++ [t], by rw [heq]; simp, by simpa using hnd, ?_, ?_⟩
      · intro x hx
        rcases List.mem_append.1 hx with hx | hx
        · exact .tail _ (hnew x hx)
        · rw [List.mem_singleton.1 hx]
          exact .head _
      · rintro x (_ | ⟨_, hx⟩)
        · simp
        · simpa using hall x hx

/-- Between two turns: no point is marked twice, the points on the list are marked, and the
successors of a marked point that has left the list are marked. -/
structure Inv (succs : α → List α) (univ : Finset α) (s : List α × List α) : Prop where
  nodup : s.1.Nodup
  sub : ∀ x ∈ s.1, x ∈ univ
  listed : ∀ x ∈ s.2, x ∈ s.1
  closed : ∀ x ∈ s.1, x ∈ s.2 ∨ ∀ y ∈ succs x, y ∈ s.1

variable {succs : α → List α}

lemma foldl_visit_forall {ts : List α} (ht : ∀ t ∈ ts, P t) (hr : ∀ x ∈ r, P x) (hwl : ∀ x ∈ wl, P x) :
    (∀ x ∈ (ts.foldl visit (r, wl)).1, P x) ∧ ∀ x ∈ (ts.foldl visit (r, wl)).2, P x := by
  induction ts generalizing r wl with
  | nil => exact ⟨hr, hwl⟩
  | cons t ts ih =>
    obtain ⟨ht, hts⟩ := List.forall_mem_cons.1 ht
    rw [foldl_cons, visit]
    split
    · exact ih hts hr hwl
    · exact ih hts (List.forall_mem_cons.2 ⟨ht, hr⟩) (List.forall_mem_cons.2 ⟨ht, hwl⟩)

lemma close_forall (hstep : ∀ x, P x → ∀ y ∈ succs x, P y)
    (hs : ∀ x ∈ s.1, P x) (hl : ∀ x ∈ s.2, P x) : ∀ x ∈ close succs fuel s, P x := by
  induction fuel generalizing s with
  | zero => exact hs
  | succ fuel ih =>
    obtain ⟨r, _ | ⟨x, wl⟩⟩ := s
    · exact hs
    · obtain ⟨hx, hwl⟩ := List.forall_mem_cons.1 hl
      obtain ⟨h1, h2⟩ := foldl_visit_forall (hstep x hx) hs hwl
      exact ih h1 h2

variable {univ : Finset α} (hsub : ∀ x, ∀ y ∈ succs x, y ∈ univ)
include hsub

/-- One turn of the worklist, and the measure that it takes one off. -/
lemma turn_inv (h : Inv succs univ (r, x :: wl)) : let s := (succs x).foldl visit (r, wl)
    Inv succs univ s ∧ (∀ y ∈ r, y ∈ s.1) ∧
      univ.card - s.1.length + s.2.length + 1 = univ.card - r.length + (x :: wl).length := by
  obtain ⟨new, heq, hnd, hnew, hall⟩ := foldl_visit (succs x) r wl h.nodup
  have hin : ∀ y ∈ new ++ r, y ∈ univ := by
    intro y hy
    rcases List.mem_append.1 hy with hy | hy
    · exact hsub x y (hnew y hy)
    · exact h.sub y hy
  have hcard : (new ++ r).length ≤ univ.card := by
    rw [← toFinset_card_of_nodup hnd]
    exact Finset.card_le_card fun y hy => hin y (List.mem_toFinset.1 hy)
  simp only [heq]
  refine ⟨⟨hnd, hin, ?_, ?_⟩, fun y hy => mem_append_right _ hy, ?_⟩
  · intro y hy
    rcases List.mem_append.1 hy with hy | hy
    · exact mem_append_left _ hy
    · exact mem_append_right _ (h.listed y (.tail _ hy))
  · intro y hy
    rcases List.mem_append.1 hy with hy | hy
    · exact .inl (mem_append_left _ hy)
    · rcases h.closed y hy with hl | hc
      · rcases List.mem_cons.1 hl with rfl | hl
        · exact .inr hall
        · exact .inl (mem_append_right _ hl)
      · exact .inr fun z hz => mem_append_right _ (hc z hz)
  · simp only [length_append, length_cons] at hcard ⊢
    omega

lemma close_closed (h : Inv succs univ s) (hf : univ.card - s.1.length + s.2.length ≤ fuel) :
    (∀ x ∈ s.1, x ∈ close succs fuel s) ∧ ∀ x ∈ close succs fuel s, ∀ y ∈ succs x, y ∈ close succs fuel s := by
  induction fuel generalizing s with
  | zero =>
    obtain ⟨r, wl⟩ := s
    obtain rfl : wl = [] := eq_nil_of_length_eq_zero (by simp only at hf; omega)
    exact ⟨fun x hx => hx, fun x hx => (h.closed x hx).resolve_left (by simp)⟩
  | succ fuel ih =>
    obtain ⟨r, _ | ⟨x, wl⟩⟩ := s
    · exact ⟨fun x hx => hx, fun x hx => (h.closed x hx).resolve_left (by simp)⟩
    · obtain ⟨hinv, hmono, hcount⟩ := turn_inv hsub h
      obtain ⟨hkeep, hclosed⟩ := ih hinv (by simp only at hf; omega)
      exact ⟨fun y hy => hkeep y (hmono y hy), hclosed⟩

lemma close_from (hx : x ∈ univ) : let r := close succs univ.card ([x], [x])
    x ∈ r ∧ ∀ y ∈ r, ∀ z ∈ succs y, z ∈ r := by
  have hinv : Inv succs univ ([x], [x]) :=
    ⟨nodup_singleton x, by simpa using hx, fun y hy => hy, fun y hy => .inl hy⟩
  have hpos : 0 < univ.card := Finset.card_pos.2 ⟨x, hx⟩
  have hfuel : univ.card - [x].length + [x].length ≤ univ.card := by
    rw [length_singleton]
    omega
  obtain ⟨hkeep, hclosed⟩ := close_closed hsub hinv hfuel
  exact ⟨hkeep x (by simp), hclosed⟩

end Worklist
