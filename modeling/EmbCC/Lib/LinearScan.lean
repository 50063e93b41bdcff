import Mathlib

/-!
# Places for intervals, by a linear scan

Intervals come in the order of their starts, and each is given a place. A place that its
interval may share goes to the free list once the interval has ended, and the next interval that may
share takes it from there; any other interval gets a new place for itself.

`Inv.take` is what one interval does: two intervals with one place may both share it, and the first has
ended before the second starts.
-/

namespace LinearScan

open List (mem_append mem_map mem_singleton perm_middle)

open scoped List

/-- The free places, the active intervals as their ends with their places, and how many places there are. -/
structure Pool where
  free : List ℕ := []
  act : List (ℕ × ℕ) := []
  size : ℕ := 0

/-- The rows after the one that is removed, with the last moved to the front. -/
def removed (rest : List (ℕ × ℕ)) : List (ℕ × ℕ) :=
  match rest.getLast? with
  | none => []
  | some x => x :: rest.dropLast

/-- Free the places of the intervals that end before `f`. `done` are the rows that are looked at already. -/
def expire (f : ℕ) : ℕ → List (ℕ × ℕ) → List (ℕ × ℕ) → List ℕ → List (ℕ × ℕ) × List ℕ
  | n + 1, done, x :: rest, free =>
    if x.1 < f then expire f n done (removed rest) (x.2 :: free)
    else expire f n (done ++ [x]) rest free
  | _, done, rest, free => (done ++ rest, free)

/-- The pool when an interval starts at `f`. -/
def Pool.expired (p : Pool) (f : ℕ) : Pool :=
  { p with
    act := (expire f p.act.length [] p.act p.free).1
    free := (expire f p.act.length [] p.act p.free).2 }

/-- A new place that is not given back. -/
def Pool.fresh (p : Pool) : ℕ × Pool := (p.size, { p with size := p.size + 1 })

/-- A place for an interval that ends at `last`. -/
def Pool.take (p : Pool) (share : Bool) (last : ℕ) : ℕ × Pool :=
  match share, p.free with
  | true, i :: free => (i, { p with free := free, act := p.act ++ [(last, i)] })
  | true, [] => (p.size, { p with size := p.size + 1, act := p.act ++ [(last, p.size)] })
  | false, _ => p.fresh

lemma removed_perm (rest : List (ℕ × ℕ)) : (removed rest).Perm rest := by
  unfold removed
  cases h : rest.getLast? with
  | none => rw [List.getLast?_eq_none_iff.1 h]
  | some x =>
    obtain ⟨l, rfl⟩ := List.getLast?_eq_some_iff.1 h
    rw [List.dropLast_concat]
    exact (List.perm_append_singleton x l).symm

/-- Expiring moves the intervals that have ended, and nothing else, to the free list. -/
lemma expire_spec (f n : ℕ) (done rest : List (ℕ × ℕ)) (free : List ℕ) : ∃ gone : List (ℕ × ℕ), (∀ x ∈ gone, x.1 < f) ∧
      (gone ++ (expire f n done rest free).1).Perm (done ++ rest) ∧
      (expire f n done rest free).2.Perm (gone.map (·.2) ++ free) := by
  induction n generalizing done rest free with
  | zero => exact ⟨[], by simp, by simp [expire], by simp [expire]⟩
  | succ n ih =>
    cases rest with
    | nil => exact ⟨[], by simp, by simp [expire], by simp [expire]⟩
    | cons x rest =>
      rw [expire]
      split_ifs with hx
      · obtain ⟨gone, hgone, hact, hfree⟩ := ih done (removed rest) (x.2 :: free)
        refine ⟨x :: gone, List.forall_mem_cons.2 ⟨hx, hgone⟩, ?_, ?_⟩
        · calc
            x :: gone ++ (expire f n done (removed rest) (x.2 :: free)).1
            _ ~ x :: (done ++ removed rest) := hact.cons x
            _ ~ x :: (done ++ rest) := ((removed_perm rest).append_left done).cons x
            _ ~ done ++ x :: rest := perm_middle.symm
        · exact hfree.trans perm_middle
      · obtain ⟨gone, hgone, hact, hfree⟩ := ih (done ++ [x]) rest free
        exact ⟨gone, hgone, by simpa using hact, hfree⟩

variable {κ : Type*}

/-- An interval, by its name, with its place. -/
structure Placed (κ : Type*) where
  key : κ
  first : ℕ
  last : ℕ
  share : Bool
  place : ℕ

/-- Two intervals with one place, one after the other. -/
def After (x y : Placed κ) : Prop := x.place = y.place → x.share ∧ y.share ∧ x.last < y.first

/-- The pool after the intervals `done`, when the next starts at `f` or later. -/
structure Inv (p : Pool) (done : List (Placed κ)) (f : ℕ) : Prop where
  lt : ∀ x ∈ done, x.place < p.size
  rows : (p.act.map (·.2) ++ p.free).Nodup ∧ ∀ i ∈ p.act.map (·.2) ++ p.free, i < p.size
  free : ∀ x ∈ done, x.place ∈ p.free → x.share ∧ x.last < f
  act : ∀ x ∈ done, ∀ y ∈ p.act, x.place = y.2 → x.share ∧ x.last ≤ y.1
  apart : done.Pairwise After

lemma inv_empty (f : ℕ) : @Inv κ {} [] f := ⟨by simp, by simp, by simp, by simp, .nil⟩

section
variable {p : Pool} {done : List (Placed κ)} {f : ℕ}

lemma Inv.mono (h : Inv p done f) {g : ℕ} (hg : f ≤ g) : Inv p done g :=
  { h with free := fun x hx hi => ⟨(h.free x hx hi).1, (h.free x hx hi).2.trans_le hg⟩ }

/-- Expiring keeps the invariant. -/
lemma Inv.expired (h : Inv p done f) : Inv (p.expired f) done f := by
  obtain ⟨gone, hgone, hact, hfree⟩ := expire_spec f p.act.length [] p.act p.free
  have hrows : ((p.expired f).act.map (·.2) ++ (p.expired f).free) ~ (p.act.map (·.2) ++ p.free) := by
    calc
      (p.expired f).act.map (·.2) ++ (p.expired f).free
      _ ~ (p.expired f).act.map (·.2) ++ (gone.map (·.2) ++ p.free) := hfree.append_left _
      _ ~ (gone ++ (p.expired f).act).map (·.2) ++ p.free := by
        rw [← List.append_assoc, List.map_append]
        exact List.perm_append_comm.append_right _
      _ ~ p.act.map (·.2) ++ p.free := (hact.map _).append_right _
  refine ⟨h.lt, ⟨hrows.nodup_iff.2 h.rows.1, fun i hi => h.rows.2 i (hrows.mem_iff.1 hi)⟩,
    fun x hx hi => ?_, fun x hx y hy hxy => ?_, h.apart⟩
  · rcases mem_append.1 (hfree.mem_iff.1 hi) with hi | hi
    · obtain ⟨y, hy, hxy⟩ := mem_map.1 hi
      obtain ⟨hshare, hle⟩ := h.act x hx y (hact.mem_iff.1 (List.mem_append_left _ hy)) hxy.symm
      exact ⟨hshare, hle.trans_lt (hgone y hy)⟩
    · exact h.free x hx hi
  · exact h.act x hx y (hact.mem_iff.1 (List.mem_append_right _ hy)) hxy

lemma Inv.ne_size (h : Inv p done f) {x : Placed κ} (hx : x ∈ done) : x.place ≠ p.size := (h.lt x hx).ne

section
variable (h : Inv p done f) {x : Placed κ} {i last : ℕ}
include h

/-- An interval in a place of its own. -/
lemma Inv.place (hx : x.place < p.size) (hrow : x.place ∉ p.act.map (·.2) ++ p.free)
    (hafter : ∀ y ∈ done, After y x) : Inv p (done ++ [x]) f := by
  refine ⟨fun y hy => ?_, h.rows, fun y hy hi => ?_, fun y hy z hz hyz => ?_, List.pairwise_append.2
    ⟨h.apart, List.pairwise_singleton _ x, fun y hy _ hz => mem_singleton.1 hz ▸ hafter y hy⟩⟩
  · rcases mem_append.1 hy with hy | hy
    · exact h.lt y hy
    · rwa [mem_singleton.1 hy]
  · rcases mem_append.1 hy with hy | hy
    · exact h.free y hy hi
    · rw [mem_singleton.1 hy] at hi
      exact absurd (List.mem_append_right _ hi) hrow
  · rcases mem_append.1 hy with hy | hy
    · exact h.act y hy z hz hyz
    · rw [mem_singleton.1 hy] at hyz
      exact absurd (List.mem_append_left _ (mem_map.2 ⟨z, hz, hyz.symm⟩)) hrow

lemma Inv.fresh (k : κ) (first last : ℕ) (share : Bool) :
    Inv p.fresh.2 (done ++ [⟨k, first, last, share, p.fresh.1⟩]) f := by
  have hgrown : Inv p.fresh.2 done f := ⟨fun x hx => Nat.lt_succ_of_lt (h.lt x hx),
    ⟨h.rows.1, fun i hi => Nat.lt_succ_of_lt (h.rows.2 i hi)⟩, h.free, h.act, h.apart⟩
  exact hgrown.place (Nat.lt_succ_self _) (fun hi => lt_irrefl _ (h.rows.2 _ hi)) fun x hx hxy => absurd hxy (h.ne_size hx)

/-- A free place is not in use. -/
lemma Inv.reuse {free : List ℕ} (hfree : p.free = i :: free) (k : κ)
    (last : ℕ) : i ∉ p.act.map (·.2) ++ free ∧ (∀ x ∈ done, x.place = i → x.share ∧ x.last < f) ∧
      Inv { p with free := free } (done ++ [⟨k, f, last, true, i⟩]) f := by
  have hrows := h.rows
  rw [hfree] at hrows
  obtain ⟨hi, hnd⟩ := List.nodup_cons.1 (perm_middle.nodup_iff.1 hrows.1)
  have hleft x (hx : x ∈ done) (hxi : x.place = i) : x.share ∧ x.last < f :=
    h.free x hx (hfree ▸ hxi ▸ .head _)
  have hpopped : Inv { p with free := free } done f :=
    ⟨h.lt, ⟨hnd, fun j hj => hrows.2 j (perm_middle.mem_iff.2 (.tail _ hj))⟩,
      fun x hx hxi => h.free x hx (hfree ▸ .tail _ hxi), h.act, h.apart⟩
  refine ⟨hi, hleft, hpopped.place (hrows.2 i (perm_middle.mem_iff.2 (.head _))) hi fun x hx hxi => ?_⟩
  obtain ⟨hshare, hlt⟩ := hleft x hx hxi
  exact ⟨hshare, rfl, hlt⟩

/-- A place becomes active up to the end of its interval. -/
lemma Inv.activate (hi : i < p.size) (hrow : i ∉ p.act.map (·.2) ++ p.free)
    (hdone : ∀ x ∈ done, x.place = i → x.share ∧ x.last ≤ last) : Inv { p with act := p.act ++ [(last, i)] } done f := by
  have hrows : (p.act ++ [(last, i)]).map (·.2) ++ p.free ~ i :: (p.act.map (·.2) ++ p.free) := by
    rw [List.map_append, List.append_assoc]
    exact perm_middle
  refine ⟨h.lt, ⟨hrows.nodup_iff.2 (List.nodup_cons.2 ⟨hrow, h.rows.1⟩), fun j hj => ?_⟩, h.free,
    fun x hx y hy hxy => ?_, h.apart⟩
  · rcases List.mem_cons.1 (hrows.mem_iff.1 hj) with rfl | hj
    · exact hi
    · exact h.rows.2 j hj
  · rcases mem_append.1 hy with hy | hy
    · exact h.act x hx y hy hxy
    · rw [mem_singleton.1 hy] at hxy ⊢
      exact hdone x hx hxy

/-- One interval of the scan. -/
lemma Inv.take (k : κ) (hlast : f ≤ last) (share : Bool) :
    Inv (p.take share last).2 (done ++ [⟨k, f, last, share, (p.take share last).1⟩]) f := by
  unfold Pool.take
  split
  · rename_i i free hfree
    obtain ⟨hrow, hleft, hinv⟩ := h.reuse hfree k last
    refine hinv.activate (h.rows.2 i (by simp [hfree])) hrow fun x hx hxi => ?_
    rcases mem_append.1 hx with hx | hx
    · exact ⟨(hleft x hx hxi).1, (hleft x hx hxi).2.le.trans hlast⟩
    · rw [mem_singleton.1 hx]
      exact ⟨rfl, le_rfl⟩
  · refine (h.fresh k f last true).activate (Nat.lt_succ_self _) (fun hi => ?_) fun x hx hxi => ?_
    · exact lt_irrefl _ (h.rows.2 _ hi)
    · rcases mem_append.1 hx with hx | hx
      · exact absurd hxi (h.ne_size hx)
      · rw [mem_singleton.1 hx]
        exact ⟨rfl, le_rfl⟩
  · exact h.fresh k f last false

lemma Inv.disjoint {y : Placed κ} (hx : x ∈ done) (hy : y ∈ done) (hxy : x ≠ y)
    (hplace : x.place = y.place) : x.share ∧ y.share ∧ (x.last < y.first ∨ y.last < x.first) := by
  have hsymm : Std.Symm fun a b : Placed κ => After a b ∨ After b a := ⟨fun _ _ => Or.symm⟩
  have hor : done.Pairwise fun a b => After a b ∨ After b a := h.apart.imp .inl
  rcases hor.forall hx hy hxy with ha | ha
  · exact ⟨(ha hplace).1, (ha hplace).2.1, .inl (ha hplace).2.2⟩
  · exact ⟨(ha hplace.symm).2.1, (ha hplace.symm).1, .inr (ha hplace.symm).2.2⟩

end
end
end LinearScan
