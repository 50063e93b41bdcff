import EmbCC.Lib.Dominators

/-!
# Depth-first search without recursion

The search keeps a stack of the points it is in, each with the successors that are still to be looked
at. Points are numbered as they are entered, and listed again as they are left. `Inv.step` is the invariant
of the loop. A search that has ended has been everywhere it could (`Ended.closed`), its numbers and
parents are a depth-first spanning tree (`Ended.spanTree`), and the two orders together tell the
ancestors (`Ended.anc_iff_orders`).
-/

namespace Dfs

open List ParentTree Dominators Prod
variable {α : Type*} [DecidableEq α]

/-! ## The search -/

/-- The points by number, the numbers of their parents, the points that are left, and the stack. -/
structure State (α : Type*) where
  vert : List α
  parent : List ℕ
  post : List α
  stack : List (α × List α)

/-- The number of a point. -/
def State.num (s : State α) (x : α) : ℕ := s.vert.idxOf x

/-- The parent of a number. -/
def State.par (s : State α) (i : ℕ) : ℕ := s.parent.getD i 0

/-- The points on the stack. -/
def State.inside (s : State α) : List α := s.stack.map fst

/-- The search enters `r`. -/
def start (succs : α → List α) (r : α) : State α := ⟨[r], [0], [], [(r, succs r)]⟩

/-- One turn of the loop. A successor is not entered if `skip` says so of it and the points entered. -/
def stepWith (skip : List α → α → Bool) (succs : α → List α) (s : State α) : State α :=
  match s.stack with
  | [] => s
  | (u, []) :: rest => { s with post := s.post ++ [u], stack := rest }
  | (u, w :: ws) :: rest =>
    if skip s.vert w then { s with stack := (u, ws) :: rest }
    else
      { s with
        vert := s.vert ++ [w]
        parent := s.parent ++ [s.num u]
        stack := (w, succs w) :: (u, ws) :: rest }

/-- So many turns. -/
def runWith (skip : List α → α → Bool) (succs : α → List α) : ℕ → State α → State α
  | 0, s => s
  | n + 1, s => runWith skip succs n (stepWith skip succs s)

/-- A point that was entered is not entered again. -/
def seen (vert : List α) (w : α) : Bool := w ∈ vert

section
variable {s : State α} {x y w : α} {i : ℕ}

lemma num_lt (h : x ∈ s.vert) : s.num x < s.vert.length := List.idxOf_lt_length_iff.2 h

lemma vert_num (h : x ∈ s.vert) : s.vert[s.num x]? = some x := getElem?_idxOf h

lemma num_inj (hx : x ∈ s.vert) (hy : y ∈ s.vert) (h : s.num x = s.num y) : x = y := by
  have := vert_num hx
  rw [h, vert_num hy] at this
  exact (Option.some.inj this).symm

lemma num_of_getElem? (hnd : s.vert.Nodup) (h : s.vert[i]? = some x) : s.num x = i := by
  obtain ⟨hi, rfl⟩ := List.getElem?_eq_some_iff.1 h
  exact hnd.idxOf_getElem i hi

omit [DecidableEq α] in
lemma par_of_ge (hlen : s.parent.length = s.vert.length) (h : s.vert.length ≤ i) : s.par i = 0 := by
  rw [State.par, getD_eq_default _ _ (by omega)]

end

/-! ## The stack -/

/-- The points on the stack are the way from the root: each is the parent of the one above it. -/
def Tower (num : α → ℕ) (par : ℕ → ℕ) : List α → Prop
  | [] => True
  | [u] => num u = 0
  | x :: y :: l => 0 < num x ∧ par (num x) = num y ∧ Tower num par (y :: l)

section
variable {num : α → ℕ} {par : ℕ → ℕ} {x y : α} {l : List α}

omit [DecidableEq α]

lemma Tower.tail (h : Tower num par (x :: l)) : Tower num par l := by
  cases l with
  | nil => trivial
  | cons y l => exact h.2.2

lemma Tower.anc (h : Tower num par (x :: l)) (hy : y ∈ x :: l) : Anc par (num y) (num x) := by
  induction l generalizing x with
  | nil => rw [mem_singleton.1 hy]
  | cons z l ih =>
    rcases mem_cons.1 hy with rfl | hy
    · exact .refl _ _
    · exact .child h.1 (h.2.1 ▸ ih h.2.2 hy)

lemma Tower.mem (h : Tower num par (x :: l)) {a : ℕ} (ha : Anc par a (num x)) : ∃ y ∈ x :: l, num y = a := by
  induction l generalizing x with
  | nil =>
    rcases anc_iff.1 ha with rfl | ⟨h0, -⟩
    · exact ⟨x, .head _, rfl⟩
    · rw [show num x = 0 from h] at h0
      exact absurd h0 (lt_irrefl 0)
  | cons z l ih =>
    rcases anc_iff.1 ha with rfl | ⟨-, ha⟩
    · exact ⟨x, .head _, rfl⟩
    · obtain ⟨y, hy, hya⟩ := ih h.2.2 (h.2.1 ▸ ha)
      exact ⟨y, .tail _ hy, hya⟩

lemma Tower.congr {num' : α → ℕ} {par' : ℕ → ℕ} (h : Tower num par l) (hnum : ∀ y ∈ l, num' y = num y)
    (hpar : ∀ y ∈ l, par' (num y) = par (num y)) : Tower num' par' l := by
  induction l with
  | nil => trivial
  | cons x l ih =>
    have hx := hnum x (.head _)
    cases l with
    | nil => exact hx.trans h
    | cons y l =>
      refine ⟨hx ▸ h.1, ?_, ih h.2.2 (fun z hz => hnum z (.tail _ hz)) fun z hz => hpar z (.tail _ hz)⟩
      rw [hx, hpar x (.head _), h.2.1, hnum y (.tail _ (.head _))]

end

/-! ## The invariant -/

/-- Between two turns. -/
structure Inv (succs : α → List α) (s : State α) : Prop where
  nodup : s.vert.Nodup
  len : s.parent.length = s.vert.length
  down : Down s.par
  edge : ∀ w ∈ s.vert, 0 < s.num w → ∃ u ∈ s.vert, s.num u = s.par (s.num w) ∧ w ∈ succs u
  inside_mem : ∀ u ∈ s.inside, u ∈ s.vert
  post_mem : ∀ u ∈ s.post, u ∈ s.vert
  cover : ∀ u ∈ s.vert, u ∈ s.post ∨ u ∈ s.inside
  once : (s.post ++ s.inside).Nodup
  tower : Tower s.num s.par s.inside
  below : ∀ u ∈ s.inside, ∀ y, s.num u ≤ y → y < s.vert.length → Anc s.par (s.num u) y
  fwd : ∀ v ∈ s.vert, ∀ w ∈ s.vert, w ∈ succs v → s.num v < s.num w → Anc s.par (s.num v) (s.num w)
  convex : ∀ u x y, Anc s.par u x → u ≤ y → y ≤ x → Anc s.par u y
  post_succs : ∀ v ∈ s.post, ∀ w ∈ succs v, w ∈ s.vert
  inside_succs : ∀ e ∈ s.stack, e.2 ⊆ succs e.1 ∧ ∀ w ∈ succs e.1, w ∈ s.vert ∨ w ∈ e.2
  post_anc : ∀ a ∈ s.post, ∀ b ∈ s.vert, Anc s.par (s.num a) (s.num b) →
    b ∈ s.post ∧ s.post.idxOf b ≤ s.post.idxOf a
  post_apart : ∀ a ∈ s.vert, ∀ b ∈ s.vert, s.num a ≤ s.num b → ¬ Anc s.par (s.num a) (s.num b) →
    a ∈ s.post ∧ (b ∈ s.post → s.post.idxOf a ≤ s.post.idxOf b)

section
variable {succs : α → List α} {s : State α} {u w : α} {ws : List α} {rest : List (α × List α)}

/-- A successor that was visited is passed over. -/
lemma Inv.skip (h : Inv succs s) (hs : s.stack = (u, w :: ws) :: rest) (hw : w ∈ s.vert) :
    Inv succs { s with stack := (u, ws) :: rest } := by
  have hin : State.inside { s with stack := (u, ws) :: rest } = s.inside := by
    simp only [State.inside, hs, map_cons]
  have hopen := h.inside_succs
  rw [hs, forall_mem_cons] at hopen
  refine { h with
    inside_mem := hin ▸ h.inside_mem
    cover := hin ▸ h.cover
    once := hin ▸ h.once
    tower := hin ▸ h.tower
    below := hin ▸ h.below
    inside_succs := forall_mem_cons.2 ⟨⟨fun x hx => hopen.1.1 (.tail _ hx), fun x hx => ?_⟩, hopen.2⟩ }
  rcases hopen.1.2 x hx with hx | hx
  · exact .inl hx
  · rcases mem_cons.1 hx with rfl | hx
    · exact .inl hw
    · exact .inr hx

/-- A vertex with no successor left is finished. -/
lemma Inv.leave (h : Inv succs s) (hs : s.stack = (u, []) :: rest) :
    Inv succs { s with post := s.post ++ [u], stack := rest } := by
  have hin : s.inside = u :: rest.map fst := by simp only [State.inside, hs, map_cons]
  have hu : u ∈ s.vert := h.inside_mem u (hin ▸ .head _)
  have honce := h.once
  rw [hin] at honce
  have hnot : u ∉ s.post := fun hp => (nodup_append.1 honce).2.2 u hp u (.head _) rfl
  have hlast : (s.post ++ [u]).idxOf u = s.post.length := by
    rw [idxOf_append_of_notMem hnot, idxOf_cons_self, Nat.add_zero]
  have hold {x : α} hx : (s.post ++ [u]).idxOf x = s.post.idxOf x := idxOf_append_of_mem hx
  have hlt {x : α} hx : s.post.idxOf x < s.post.length := List.idxOf_lt_length_iff.2 hx
  have hopen := h.inside_succs
  rw [hs, forall_mem_cons] at hopen
  have htower := h.tower
  rw [hin] at htower
  refine { h with
    inside_mem := fun x hx => h.inside_mem x (hin ▸ .tail _ hx)
    post_mem := ?post_mem, cover := ?cover, once := ?once, tower := htower.tail
    below := fun x hx => h.below x (hin ▸ .tail _ hx)
    post_succs := ?post_succs, inside_succs := hopen.2, post_anc := ?post_anc, post_apart := ?post_apart }
  case post_mem =>
    intro x hx
    rcases mem_append.1 hx with hx | hx
    · exact h.post_mem x hx
    · exact mem_singleton.1 hx ▸ hu
  case cover =>
    intro x hx
    rcases h.cover x hx with hx | hx
    · exact .inl (mem_append_left _ hx)
    · rw [hin] at hx
      rcases mem_cons.1 hx with rfl | hx
      · exact .inl (by simp)
      · exact .inr hx
  case once => rwa [append_assoc, singleton_append]
  case post_succs =>
    intro x hx y hy
    rcases mem_append.1 hx with hx | hx
    · exact h.post_succs x hx y hy
    · rw [mem_singleton.1 hx] at hy
      exact (hopen.1.2 y hy).resolve_right not_mem_nil
  case post_anc =>
    intro a ha b hb hab
    rcases mem_append.1 ha with ha | ha
    · obtain ⟨hbp, hle⟩ := h.post_anc a ha b hb hab
      exact ⟨mem_append_left _ hbp, by rwa [hold hbp, hold ha]⟩
    · obtain rfl := mem_singleton.1 ha
      rw [hlast]
      rcases h.cover b hb with hbp | hbi
      · exact ⟨mem_append_left _ hbp, by rw [hold hbp]; exact (hlt hbp).le⟩
      · obtain rfl := num_inj hu hb (hab.antisymm h.down (htower.anc (hin ▸ hbi)))
        exact ⟨by simp, hlast.le⟩
  case post_apart =>
    intro a ha b hb hab hn
    obtain ⟨hap, hle⟩ := h.post_apart a ha b hb hab hn
    refine ⟨mem_append_left _ hap, fun hbp => ?_⟩
    rw [hold hap]
    rcases mem_append.1 hbp with hbp | hbp
    · rw [hold hbp]
      exact hle hbp
    · rw [mem_singleton.1 hbp, hlast]
      exact (hlt hap).le

/-! ## Entering a vertex -/

/-- The state after entering `w` from `u`. -/
def State.entered (s : State α) (w u : α) (stack : List (α × List α)) : State α where
  vert := s.vert ++ [w]
  parent := s.parent ++ [s.num u]
  post := s.post
  stack := stack

section
variable {stack : List (α × List α)}

lemma num_entered_of_mem {x : α} (hx : x ∈ s.vert) : (s.entered w u stack).num x = s.num x :=
  idxOf_append_of_mem hx

lemma num_entered_self (hw : w ∉ s.vert) : (s.entered w u stack).num w = s.vert.length := by
  rw [State.num, State.entered, idxOf_append_of_notMem hw, idxOf_cons_self, Nat.add_zero]

lemma par_entered_of_lt (hlen : s.parent.length = s.vert.length) {i : ℕ} (hi : i < s.vert.length) :
    (s.entered w u stack).par i = s.par i := getD_append _ _ _ _ (hlen ▸ hi)

lemma par_entered_self (hlen : s.parent.length = s.vert.length) : (s.entered w u stack).par s.vert.length = s.num u := by
  rw [State.par, State.entered, getD_append_right _ _ _ _ hlen.le, hlen, Nat.sub_self]
  rfl

lemma mem_entered {x : α} : x ∈ (s.entered w u stack).vert ↔ x ∈ s.vert ∨ x = w := by simp [State.entered]

lemma length_entered : (s.entered w u stack).vert.length = s.vert.length + 1 := by simp [State.entered]

section
variable (h : Inv succs s) {a : ℕ}
include h

lemma down_entered (hu : u ∈ s.vert) : Down (s.entered w u stack).par := by
  intro i hi
  rcases lt_trichotomy i s.vert.length with hlt | rfl | hgt
  · rw [par_entered_of_lt h.len hlt]
    exact h.down i hi
  · rw [par_entered_self h.len]
    exact num_lt hu
  · rw [par_of_ge (by simp [State.entered, h.len]) (by simp [State.entered]; omega)]
    exact hi

lemma anc_entered_of_lt {x : ℕ} (hx : x < s.vert.length) : Anc (s.entered w u stack).par a x ↔ Anc s.par a x :=
  (anc_congr h.down fun _ hy => (par_entered_of_lt h.len (hy.trans_lt hx)).symm).symm

lemma anc_entered_self (hu : u ∈ s.vert) :
    Anc (s.entered w u stack).par a s.vert.length ↔ a = s.vert.length ∨ Anc s.par a (s.num u) := by
  rw [anc_iff, par_entered_self h.len, anc_entered_of_lt h (num_lt hu)]
  exact or_congr_right (and_iff_right ((Nat.zero_le _).trans_lt (num_lt hu)))

lemma Inv.anc_entered (hin : s.inside = u :: rest.map fst) {x : α}
    (hx : x ∈ s.inside) : Anc (s.entered w u stack).par (s.num x) s.vert.length := by
  have htower := h.tower
  rw [hin] at htower hx
  exact (anc_entered_self h (h.inside_mem u (hin ▸ .head _))).2 (.inr (htower.anc hx))

lemma Inv.inside_of_anc (hin : s.inside = u :: rest.map fst) (ha : a < s.vert.length)
    (hanc : Anc (s.entered w u stack).par a s.vert.length) : ∃ x ∈ s.inside, s.num x = a := by
  have htower := h.tower
  rw [hin] at htower
  rcases (anc_entered_self h (h.inside_mem u (hin ▸ .head _))).1 hanc with rfl | hanc
  · exact absurd ha (lt_irrefl _)
  · rw [hin]
    exact htower.mem hanc

section
variable (hw : w ∉ s.vert)
include hw

lemma Inv.edge_entered (hu : u ∈ s.vert) (hsucc : w ∈ succs u) {x : α} (hx : x ∈ (s.entered w u stack).vert)
    (hpos : 0 < (s.entered w u stack).num x) : ∃ y ∈ (s.entered w u stack).vert,
      (s.entered w u stack).num y = (s.entered w u stack).par ((s.entered w u stack).num x) ∧ x ∈ succs y := by
  rcases mem_entered.1 hx with hx | rfl
  · rw [num_entered_of_mem hx] at hpos ⊢
    obtain ⟨y, hy, hyx, hsucc⟩ := h.edge x hx hpos
    refine ⟨y, mem_entered.2 (.inl hy), ?_, hsucc⟩
    rw [num_entered_of_mem hy, par_entered_of_lt h.len (num_lt hx), hyx]
  · refine ⟨u, mem_entered.2 (.inl hu), ?_, hsucc⟩
    rw [num_entered_of_mem hu, num_entered_self hw, par_entered_self h.len]

lemma Inv.tower_entered (hu : u ∈ s.vert) (hin : s.inside = u :: rest.map fst) :
    Tower (s.entered w u stack).num (s.entered w u stack).par (w :: s.inside) := by
  rw [hin]
  refine ⟨by rw [num_entered_self hw]; exact (Nat.zero_le _).trans_lt (num_lt hu), ?_, ?_⟩
  · rw [num_entered_self hw, par_entered_self h.len, num_entered_of_mem hu]
  · rw [← hin]
    exact h.tower.congr (fun y hy => num_entered_of_mem (h.inside_mem y hy))
      fun y hy => par_entered_of_lt h.len (num_lt (h.inside_mem y hy))

section
variable (hin : s.inside = u :: rest.map fst)
include hin

lemma Inv.below_entered {x : α} (hx : x ∈ w :: s.inside) {y : ℕ} (hxy : (s.entered w u stack).num x ≤ y)
    (hy : y < (s.entered w u stack).vert.length) : Anc (s.entered w u stack).par ((s.entered w u stack).num x) y := by
  rw [length_entered] at hy
  rcases mem_cons.1 hx with rfl | hx
  · rw [num_entered_self hw] at hxy ⊢
    rw [le_antisymm hxy (Nat.le_of_lt_succ hy)]
  · rw [num_entered_of_mem (h.inside_mem x hx)] at hxy ⊢
    rcases Nat.lt_succ_iff_lt_or_eq.1 hy with hlt | rfl
    · exact (anc_entered_of_lt h hlt).2 (h.below x hx y hxy hlt)
    · exact h.anc_entered hin hx

lemma Inv.fwd_entered {v x : α} (hv : v ∈ (s.entered w u stack).vert) (hx : x ∈ (s.entered w u stack).vert)
    (hsucc : x ∈ succs v) (hlt : (s.entered w u stack).num v < (s.entered w u stack).num x) :
    Anc (s.entered w u stack).par ((s.entered w u stack).num v) ((s.entered w u stack).num x) := by
  rcases mem_entered.1 hx with hx | rfl
  · have hvold : v ∈ s.vert := (mem_entered.1 hv).resolve_right fun hvw => by
      rw [hvw, num_entered_self hw, num_entered_of_mem hx] at hlt
      exact absurd hlt (not_lt.2 (num_lt hx).le)
    rw [num_entered_of_mem hx, num_entered_of_mem hvold] at *
    exact (anc_entered_of_lt h (num_lt hx)).2 (h.fwd v hvold x hx hsucc hlt)
  · have hvold : v ∈ s.vert := (mem_entered.1 hv).resolve_right fun hvw => by
      rw [hvw] at hlt
      exact lt_irrefl _ hlt
    rw [num_entered_of_mem hvold, num_entered_self hw]
    rcases h.cover v hvold with hp | hi
    · exact absurd (h.post_succs v hp _ hsucc) hw
    · exact h.anc_entered hin hi

omit hw in
lemma Inv.convex_entered (hu : u ∈ s.vert) {x y : ℕ} (hax : Anc (s.entered w u stack).par a x) (hay : a ≤ y)
    (hyx : y ≤ x) : Anc (s.entered w u stack).par a y := by
  rcases lt_trichotomy x s.vert.length with hlt | rfl | hgt
  · rw [anc_entered_of_lt h hlt] at hax
    exact (anc_entered_of_lt h (hyx.trans_lt hlt)).2 (h.convex a x y hax hay hyx)
  · rcases hyx.eq_or_lt with rfl | hlt
    · exact hax
    · obtain ⟨z, hz, rfl⟩ := h.inside_of_anc hin (hay.trans_lt hlt) hax
      exact (anc_entered_of_lt h hlt).2 (h.below z hz y hay hlt)
  · -- numbers that are not given out have the root as their parent
    rcases anc_iff.1 hax with rfl | ⟨-, hax⟩
    · rw [le_antisymm hay hyx]
    · rw [par_of_ge (by simp [State.entered, h.len]) (length_entered.trans_le hgt)] at hax
      rw [Nat.le_zero.1 (hax.le (down_entered h hu))]
      exact anc_zero (down_entered h hu) y

lemma Inv.post_anc_entered {a b : α} (ha : a ∈ s.post) (hb : b ∈ (s.entered w u stack).vert)
    (hab : Anc (s.entered w u stack).par ((s.entered w u stack).num a) ((s.entered w u stack).num b)) :
    b ∈ s.post ∧ s.post.idxOf b ≤ s.post.idxOf a := by
  have hav := h.post_mem a ha
  rw [num_entered_of_mem hav] at hab
  rcases mem_entered.1 hb with hb | rfl
  · rw [num_entered_of_mem hb, anc_entered_of_lt h (num_lt hb)] at hab
    exact h.post_anc a ha b hb hab
  · rw [num_entered_self hw] at hab
    obtain ⟨x, hx, hxa⟩ := h.inside_of_anc hin (num_lt hav) hab
    obtain rfl := num_inj (h.inside_mem x hx) hav hxa
    exact absurd rfl ((nodup_append.1 h.once).2.2 x ha x hx)

lemma Inv.post_apart_entered {a b : α} (ha : a ∈ (s.entered w u stack).vert) (hb : b ∈ (s.entered w u stack).vert)
    (hab : (s.entered w u stack).num a ≤ (s.entered w u stack).num b)
    (hn : ¬ Anc (s.entered w u stack).par ((s.entered w u stack).num a) ((s.entered w u stack).num b)) :
    a ∈ s.post ∧ (b ∈ s.post → s.post.idxOf a ≤ s.post.idxOf b) := by
  rcases mem_entered.1 ha with hav | rfl
  · rw [num_entered_of_mem hav] at hab hn
    rcases mem_entered.1 hb with hbv | rfl
    · rw [num_entered_of_mem hbv] at hab hn
      exact h.post_apart a hav b hbv hab fun hanc => hn ((anc_entered_of_lt h (num_lt hbv)).2 hanc)
    · rw [num_entered_self hw] at hn
      refine ⟨(h.cover a hav).resolve_right fun hi => hn (h.anc_entered hin hi), fun hp => ?_⟩
      exact absurd (h.post_mem _ hp) hw
  · rw [num_entered_self hw] at hab
    rcases mem_entered.1 hb with hbv | rfl
    · rw [num_entered_of_mem hbv] at hab
      exact absurd hab (not_le.2 (num_lt hbv))
    · exact absurd (.refl _ _) hn

end
end

lemma Inv.inside_succs_entered (hs : s.stack = (u, w :: ws) :: rest) : ∀ e ∈ (w, succs w) :: (u, ws) :: rest,
    e.2 ⊆ succs e.1 ∧ ∀ x ∈ succs e.1, x ∈ (s.entered w u stack).vert ∨ x ∈ e.2 := by
  have hopen := h.inside_succs
  rw [hs, forall_mem_cons] at hopen
  refine forall_mem_cons.2 ⟨⟨fun _ => id, fun x hx => .inr hx⟩, forall_mem_cons.2 ⟨⟨?_, ?_⟩, ?_⟩⟩
  · exact fun x hx => hopen.1.1 (.tail _ hx)
  · intro x hx
    rcases hopen.1.2 x hx with hx | hx
    · exact .inl (mem_entered.2 (.inl hx))
    · rcases mem_cons.1 hx with rfl | hx
      · exact .inl (mem_entered.2 (.inr rfl))
      · exact .inr hx
  · exact fun e he => ⟨(hopen.2 e he).1, fun x hx => ((hopen.2 e he).2 x hx).imp_left fun hx => mem_entered.2 (.inl hx)⟩

/-- A successor that was not visited is entered. -/
lemma Inv.enter (hs : s.stack = (u, w :: ws) :: rest) (hw : w ∉ s.vert) :
    Inv succs (s.entered w u ((w, succs w) :: (u, ws) :: rest)) := by
  have hin : s.inside = u :: rest.map fst := by simp only [State.inside, hs, map_cons]
  have hin' : (s.entered w u ((w, succs w) :: (u, ws) :: rest)).inside = w :: s.inside := by
    rw [hin]
    rfl
  have hu : u ∈ s.vert := h.inside_mem u (hin ▸ .head _)
  have hsucc : w ∈ succs u := (h.inside_succs (u, w :: ws) (hs ▸ .head _)).1 (.head _)
  constructor
  case nodup =>
    refine nodup_append.2 ⟨h.nodup, nodup_singleton w, fun x hx y hy hxy => hw ?_⟩
    rwa [← mem_singleton.1 hy, ← hxy]
  case len => simp [State.entered, h.len]
  case down => exact down_entered h hu
  case edge => exact fun x hx hpos => h.edge_entered hw hu hsucc hx hpos
  case inside_mem =>
    rw [hin']
    exact forall_mem_cons.2 ⟨mem_entered.2 (.inr rfl), fun x hx => mem_entered.2 (.inl (h.inside_mem x hx))⟩
  case post_mem => exact fun x hx => mem_entered.2 (.inl (h.post_mem x hx))
  case cover =>
    intro x hx
    rw [hin']
    rcases mem_entered.1 hx with hx | rfl
    · exact (h.cover x hx).imp_right (.tail _)
    · exact .inr (.head _)
  case once =>
    rw [hin']
    refine List.perm_middle.nodup_iff.2 (List.nodup_cons.2 ⟨fun hx => hw ?_, h.once⟩)
    exact (mem_append.1 hx).elim (h.post_mem w) (h.inside_mem w)
  case tower =>
    rw [hin']
    exact h.tower_entered hw hu hin
  case below => exact fun x hx y hxy hy => h.below_entered hw hin (hin' ▸ hx) hxy hy
  case fwd => exact fun v hv x hx hsucc hlt => h.fwd_entered hw hin hv hx hsucc hlt
  case convex => exact fun a x y hax hay hyx => h.convex_entered hin hu hax hay hyx
  case post_succs => exact fun v hv x hx => mem_entered.2 (.inl (h.post_succs v hv x hx))
  case inside_succs => exact h.inside_succs_entered hs
  case post_anc => exact fun a ha b hb hab => h.post_anc_entered hw hin ha hb hab
  case post_apart => exact fun a ha b hb hab hn => h.post_apart_entered hw hin ha hb hab hn

end
end
end

/-- The root is entered first. -/
lemma inv_start (succs : α → List α) (r : α) : Inv succs (start succs r) := by
  have hnum {x : α} (hx : x ∈ (start succs r).vert) : (start succs r).num x = 0 := by
    rw [mem_singleton.1 hx]
    exact idxOf_cons_self
  have hpar i : (start succs r).par i = 0 := by
    cases i with
    | zero => rfl
    | succ i => exact par_of_ge rfl (by simp [start])
  have hdown : Down (start succs r).par := fun i hi => by
    rw [hpar]
    exact hi
  have hr : r ∈ (start succs r).vert := .head _
  constructor
  case nodup => exact nodup_singleton r
  case len => rfl
  case down => exact hdown
  case edge =>
    intro w hw hpos
    rw [hnum hw] at hpos
    exact absurd hpos (lt_irrefl 0)
  case inside_mem => exact fun u hu => hu
  case post_mem => exact fun u hu => absurd hu not_mem_nil
  case cover => exact fun u hu => .inr hu
  case once => exact nodup_singleton r
  case tower => exact hnum hr
  case below =>
    intro u hu y hy _
    rw [hnum hu]
    exact anc_zero hdown y
  case fwd =>
    intro v hv w hw _ hlt
    rw [hnum hv, hnum hw] at hlt
    exact absurd hlt (lt_irrefl 0)
  case convex =>
    intro a x y hax hay hyx
    rcases anc_iff.1 hax with rfl | ⟨-, hax⟩
    · rw [le_antisymm hay hyx]
    · rw [hpar] at hax
      rw [Nat.le_zero.1 (hax.le hdown)]
      exact anc_zero hdown y
  case post_succs => exact fun u hu => absurd hu not_mem_nil
  case inside_succs =>
    intro e he
    rw [mem_singleton.1 he]
    exact ⟨fun _ => id, fun w hw => .inr hw⟩
  case post_anc => exact fun a ha => absurd ha not_mem_nil
  case post_apart =>
    intro a ha b hb _ hn
    rw [hnum ha, hnum hb] at hn
    exact absurd (.refl _ _) hn

/-- The four things a turn of the search can do. -/
lemma stepWith_cases (skip : List α → α → Bool) (succs : α → List α) (s : State α) :
    s.stack = [] ∧ stepWith skip succs s = s ∨
    (∃ u rest, s.stack = (u, []) :: rest ∧
      stepWith skip succs s = { s with post := s.post ++ [u], stack := rest }) ∨
    (∃ u w ws rest, s.stack = (u, w :: ws) :: rest ∧ skip s.vert w = true ∧
      stepWith skip succs s = { s with stack := (u, ws) :: rest }) ∨
    ∃ u w ws rest, s.stack = (u, w :: ws) :: rest ∧ skip s.vert w = false ∧
      stepWith skip succs s = s.entered w u ((w, succs w) :: (u, ws) :: rest) := by
  rcases hs : s.stack with _ | ⟨⟨u, _ | ⟨w, ws⟩⟩, rest⟩
  · exact .inl ⟨rfl, by simp only [stepWith, hs]⟩
  · exact .inr (.inl ⟨u, rest, rfl, by simp only [stepWith, hs]⟩)
  · cases hw : skip s.vert w with
    | true => exact .inr (.inr (.inl ⟨u, w, ws, rest, rfl, hw, by simp only [stepWith, hs, hw, if_true]⟩))
    | false =>
      refine .inr (.inr (.inr ⟨u, w, ws, rest, rfl, hw, ?_⟩))
      simp only [stepWith, hs, hw, Bool.false_eq_true, if_false, State.entered]

/-! ## The search ends -/

/-- A search has a finite set of points to stay in, and its test for entering a point is whether the point
was entered before. -/
structure Closed (skip : List α → α → Bool) (succs : α → List α) (univ : Finset α) : Prop where
  succs_mem : ∀ u ∈ univ, ∀ w ∈ succs u, w ∈ univ
  skip_iff : ∀ vert : List α, vert.Nodup → (∀ x ∈ vert, x ∈ univ) → ∀ w ∈ univ, skip vert w = true ↔ w ∈ vert

/-- Between two turns of a search from `r` in `univ`. -/
structure Searching (succs : α → List α) (univ : Finset α) (r : α) (s : State α) : Prop where
  inv : Inv succs s
  sub : ∀ x ∈ s.vert, x ∈ univ
  root : s.vert.head? = some r

/-- The turns that a search can still make. -/
def turns (succs : α → List α) (univ : Finset α) (s : State α) : ℕ :=
  ∑ x ∈ univ.filter (· ∉ s.vert), ((succs x).length + 1) + (s.stack.map fun e => e.2.length + 1).sum

section
variable {skip : List α → α → Bool} {succs : α → List α} {univ : Finset α} {r : α} {s : State α}

lemma Searching.start (hr : r ∈ univ) : Searching succs univ r (start succs r) := by
  refine ⟨inv_start succs r, fun x hx => ?_, rfl⟩
  rwa [mem_singleton.1 hx]

section
variable (hc : Closed skip succs univ) (h : Searching succs univ r s) {u w : α} {ws : List α} {rest : List (α × List α)}
include hc h

lemma Searching.open_mem (hs : s.stack = (u, w :: ws) :: rest) : w ∈ univ := by
  have hmem : (u, w :: ws) ∈ s.stack := hs ▸ mem_cons_self
  have hu : u ∈ s.vert := h.inv.inside_mem u (mem_map_of_mem hmem)
  exact hc.succs_mem u (h.sub u hu) w ((h.inv.inside_succs _ hmem).1 (.head _))

lemma Searching.mem_of_skip (hs : s.stack = (u, w :: ws) :: rest) : skip s.vert w = true ↔ w ∈ s.vert :=
  hc.skip_iff _ h.inv.nodup h.sub w (h.open_mem hc hs)

/-- One turn keeps the search's invariant. -/
lemma Searching.step : Searching succs univ r (stepWith skip succs s) := by
  rcases stepWith_cases skip succs s with ⟨-, he⟩ | ⟨u, rest, hs, he⟩ | ⟨u, w, ws, rest, hs, hw, he⟩ |
    ⟨u, w, ws, rest, hs, hw, he⟩ <;> rw [he]
  · exact h
  · exact ⟨h.inv.leave hs, h.sub, h.root⟩
  · exact ⟨h.inv.skip hs ((h.mem_of_skip hc hs).1 hw), h.sub, h.root⟩
  · refine ⟨h.inv.enter hs fun hmem => ?_, fun x hx => ?_, ?_⟩
    · rw [(h.mem_of_skip hc hs).2 hmem] at hw
      exact absurd hw (by simp)
    · rcases mem_append.1 hx with hx | hx
      · exact h.sub x hx
      · exact mem_singleton.1 hx ▸ h.open_mem hc hs
    · rw [State.entered, head?_append, h.root]
      rfl

/-- One turn is one turn less. -/
lemma Searching.turns_step (hne : s.stack ≠ []) : turns succs univ s = turns succs univ (stepWith skip succs s) + 1 := by
  rcases stepWith_cases skip succs s with ⟨hs, -⟩ | ⟨u, rest, hs, he⟩ | ⟨u, w, ws, rest, hs, hw, he⟩ |
    ⟨u, w, ws, rest, hs, hw, he⟩
  · exact absurd hs hne
  · simp only [he, turns, hs, map_cons, sum_cons, length_nil]
    omega
  · simp only [he, turns, hs, map_cons, sum_cons, length_cons]
    omega
  · have hmem : w ∈ univ.filter (· ∉ s.vert) := by
      refine Finset.mem_filter.2 ⟨h.open_mem hc hs, fun hmem => ?_⟩
      rw [(h.mem_of_skip hc hs).2 hmem] at hw
      exact absurd hw (by simp)
    have herase : univ.filter (· ∉ s.vert ++ [w]) = (univ.filter (· ∉ s.vert)).erase w := by
      ext x
      simp only [Finset.mem_filter, Finset.mem_erase, mem_append, mem_singleton]
      tauto
    rw [he, turns, turns, hs, State.entered, herase, ← Finset.add_sum_erase _ _ hmem]
    simp only [map_cons, sum_cons, length_cons]
    omega

end

lemma turns_start (hr : r ∈ univ) : turns succs univ (start succs r) = ∑ x ∈ univ, ((succs x).length + 1) := by
  have herase : univ.filter (· ∉ [r]) = univ.erase r := by
    ext x
    simp only [Finset.mem_filter, Finset.mem_erase, mem_singleton]
    tauto
  rw [turns, Dfs.start, herase, ← Finset.add_sum_erase _ _ hr]
  simp only [map_cons, sum_cons, map_nil, sum_nil]
  omega

lemma runWith_of_ended (hs : s.stack = []) (k : ℕ) : runWith skip succs k s = s := by
  induction k with
  | zero => rfl
  | succ k ih =>
    rw [runWith, show stepWith skip succs s = s by simp only [stepWith, hs]]
    exact ih

lemma Searching.run (hc : Closed skip succs univ) (k : ℕ) (h : Searching succs univ r s) :
    Searching succs univ r (runWith skip succs k s) := by
  induction k generalizing s with
  | zero => exact h
  | succ k ih => exact ih (h.step hc)

lemma Searching.run_ended (hc : Closed skip succs univ) {k : ℕ} (h : Searching succs univ r s)
    (hk : turns succs univ s ≤ k) : (runWith skip succs k s).stack = [] := by
  induction k generalizing s with
  | zero =>
    by_contra hne
    have := h.turns_step hc hne
    omega
  | succ k ih =>
    by_cases hne : s.stack = []
    · rwa [runWith_of_ended hne]
    · have := h.turns_step hc hne
      exact ih (h.step hc) (by omega)

end

/-! ## What the search has found -/

/-- A search from `r` that has ended. -/
structure Searched (succs : α → List α) (r : α) (s : State α) : Prop where
  inv : Inv succs s
  root : s.vert.head? = some r
  ended : s.stack = []

/-- The edges between the numbers. -/
def State.Edge (succs : α → List α) (s : State α) (i j : ℕ) : Prop :=
  ∃ a b, s.vert[i]? = some a ∧ s.vert[j]? = some b ∧ b ∈ succs a

section
variable {skip : List α → α → Bool} {succs : α → List α} {univ : Finset α} {r a b : α} {s : State α} {k : ℕ}

lemma searched_run (hc : Closed skip succs univ) (hr : r ∈ univ)
    (hk : ∑ x ∈ univ, ((succs x).length + 1) ≤ k) : Searched succs r (runWith skip succs k (start succs r)) := by
  have hs : Searching succs univ r (start succs r) := .start hr
  have hrun := hs.run hc k
  exact ⟨hrun.inv, hrun.root, hs.run_ended hc ((turns_start hr).trans_le hk)⟩

section
variable (h : Searched succs r s)
include h

lemma Searched.mem_post : a ∈ s.post ↔ a ∈ s.vert := by
  refine ⟨h.inv.post_mem a, fun ha => (h.inv.cover a ha).resolve_right ?_⟩
  rw [State.inside, h.ended]
  exact not_mem_nil

lemma Searched.post_nodup : s.post.Nodup := (nodup_append.1 h.inv.once).1

lemma Searched.root_mem : r ∈ s.vert := mem_of_head? h.root

lemma Searched.num_root : s.num r = 0 := by
  refine num_of_getElem? h.inv.nodup ?_
  rw [← head?_eq_getElem?, h.root]

lemma Searched.mem_of_path {l : List α} (hp : Path (fun u w => w ∈ succs u) a l b) (ha : a ∈ s.vert) : b ∈ s.vert := by
  induction hp with
  | nil => exact ha
  | cons he _ ih => exact ih (h.inv.post_succs _ (h.mem_post.2 ha) _ he)

lemma Searched.mem_of_closed {S : α → Prop} (hr : S r) (hS : ∀ u, S u → ∀ w ∈ succs u, S w) (ha : a ∈ s.vert) : S a := by
  induction hi : s.num a using Nat.strong_induction_on generalizing a with
  | _ i ih =>
    rcases Nat.eq_zero_or_pos i with rfl | hpos
    · rwa [num_inj ha h.root_mem (hi.trans h.num_root.symm)]
    · obtain ⟨u, hu, hup, hsucc⟩ := h.inv.edge a ha (hi ▸ hpos)
      have hlt : s.num u < i := by
        rw [hup, hi]
        exact h.inv.down i hpos
      exact hS u (ih _ hlt hu rfl) a hsucc

lemma Searched.spanTree : SpanTree s.vert.length (s.Edge succs) s.par where
  down := h.inv.down
  lt := by
    rintro i j ⟨a, b, ha, hb, -⟩
    exact ⟨(List.getElem?_eq_some_iff.1 ha).1, (List.getElem?_eq_some_iff.1 hb).1⟩
  edge := by
    intro x hx hlt
    have hv : s.vert[x]? = some (s.vert.get ⟨x, hlt⟩) := getElem?_eq_getElem hlt
    have hmem := mem_of_getElem? hv
    have hnum := num_of_getElem? h.inv.nodup hv
    obtain ⟨u, hu, hup, hsucc⟩ := h.inv.edge _ hmem (by rwa [hnum])
    rw [hnum] at hup
    exact ⟨u, _, hup ▸ vert_num hu, hv, hsucc⟩
  fwd := by
    rintro i j ⟨a, b, ha, hb, hab⟩ hij
    have hi := num_of_getElem? h.inv.nodup ha
    have hj := num_of_getElem? h.inv.nodup hb
    rw [← hi, ← hj] at hij ⊢
    exact h.inv.fwd a (mem_of_getElem? ha) b (mem_of_getElem? hb) hab hij
  convex := fun h1 h2 h3 => h.inv.convex _ _ _ h1 h2 h3

lemma Searched.anc_iff_orders (ha : a ∈ s.vert) (hb : b ∈ s.vert) :
    Anc s.par (s.num a) (s.num b) ↔ s.num a ≤ s.num b ∧ s.post.idxOf b ≤ s.post.idxOf a := by
  refine ⟨fun hab => ⟨hab.le h.inv.down, (h.inv.post_anc a (h.mem_post.2 ha) b hb hab).2⟩, ?_⟩
  rintro ⟨hnum, hpost⟩
  by_contra hn
  obtain ⟨hap, hle⟩ := h.inv.post_apart a ha b hb hnum hn
  have hbp := h.mem_post.2 hb
  obtain rfl : a = b := (idxOf_inj hap).1 (le_antisymm (hle hbp) hpost)
  exact hn (.refl _ _)

lemma Searched.avoids_num (ha : a ∈ s.vert)
    (hb : Avoids (fun u w => w ∈ succs u) r a b) : b ∈ s.vert ∧ Avoids (s.Edge succs) 0 (s.num a) (s.num b) := by
  induction hb with
  | root hr =>
    refine ⟨h.root_mem, ?_⟩
    rw [h.num_root]
    exact .root fun h0 => hr (num_inj h.root_mem ha (h.num_root.trans h0))
  | @step x y _ he hne ih =>
    obtain ⟨hx, hax⟩ := ih
    have hy : y ∈ s.vert := h.inv.post_succs x (h.mem_post.2 hx) y he
    exact ⟨hy, .step hax ⟨x, y, vert_num hx, vert_num hy, he⟩ fun heq => hne (num_inj hy ha heq)⟩

lemma Searched.avoids_of_num {j : ℕ} (hj : Avoids (s.Edge succs) 0 (s.num a) j) :
    ∃ b, s.vert[j]? = some b ∧ Avoids (fun u w => w ∈ succs u) r a b := by
  induction hj with
  | root h0 =>
    refine ⟨r, head?_eq_getElem?.symm.trans h.root, .root ?_⟩
    rintro rfl
    exact h0 h.num_root.symm
  | step _ he hne ih =>
    obtain ⟨x, y, hx, hy, hxy⟩ := he
    obtain ⟨x', hx', hav⟩ := ih
    obtain rfl : x = x' := Option.some.inj (hx.symm.trans hx')
    refine ⟨y, hy, .step hav hxy ?_⟩
    rintro rfl
    exact hne (num_of_getElem? h.inv.nodup hy).symm

lemma Searched.avoids_iff (ha : a ∈ s.vert) (hb : b ∈ s.vert) :
    Avoids (s.Edge succs) 0 (s.num a) (s.num b) ↔ Avoids (fun u w => w ∈ succs u) r a b := by
  refine ⟨fun hav => ?_, fun hav => (h.avoids_num ha hav).2⟩
  obtain ⟨b', hb', hav⟩ := h.avoids_of_num hav
  rwa [Option.some.inj ((vert_num hb).symm.trans hb')]

lemma Searched.dom_iff_num (ha : a ∈ s.vert) (hb : b ∈ s.vert) :
    Dom (fun u w => w ∈ succs u) r a b ↔ Dom (s.Edge succs) 0 (s.num a) (s.num b) := by
  rw [dom_iff, dom_iff, h.avoids_iff ha hb]

lemma Searched.mem_of_dom (hb : b ∈ s.vert) (hd : Dom (fun u w => w ∈ succs u) r a b) : a ∈ s.vert := by
  by_contra ha
  have hnum : s.num a = s.vert.length := List.idxOf_eq_length_iff.2 ha
  have hav : Avoids (s.Edge succs) 0 (s.num a) (s.num b) :=
    h.spanTree.avoids_of_not_anc (num_lt hb) fun hanc => by
      have := hanc.le h.inv.down
      have := num_lt hb
      omega
  obtain ⟨b', hb', hav⟩ := h.avoids_of_num hav
  rw [← Option.some.inj ((vert_num hb).symm.trans hb')] at hav
  exact dom_iff.1 hd hav

lemma Searched.num_lt_of_dom (hb : b ∈ s.vert) (hne : a ≠ b)
    (hd : Dom (fun u w => w ∈ succs u) r a b) : s.num a < s.num b := by
  have ha := h.mem_of_dom hb hd
  have hanc := h.spanTree.anc_of_dom (num_lt hb) ((h.dom_iff_num ha hb).1 hd)
  exact lt_of_le_of_ne (hanc.le h.inv.down) fun heq => hne (num_inj ha hb heq)

lemma Searched.isIdom (ha : a ∈ s.vert) (hb : b ∈ s.vert)
    (hd : IsIdom (s.Edge succs) 0 (s.num a) (s.num b)) : IsIdom (fun u w => w ∈ succs u) r a b := by
  refine ⟨fun hab => hd.ne (hab ▸ rfl), (h.dom_iff_num ha hb).2 hd.dom, fun c hc hcb => ?_⟩
  have hcm := h.mem_of_dom hb hcb
  exact (h.dom_iff_num hcm ha).2 (hd.least _ (fun heq => hc (num_inj hcm hb heq)) ((h.dom_iff_num hcm hb).1 hcb))

end
end
end Dfs
