import Mathlib

/-!
# A walk down a tree with a table that is undone on the way back

The nodes of a tree are visited from the root with an explicit stack. A visit adds entries at the end of
a table, and when a node is left, the table is cut back to what it was when the node was entered. So a
visit finds in the table the entries of the nodes above it and no others (`inv_turn`).
-/

namespace ScopedWalk

open List Function
variable {α β σ : Type*} [DecidableEq α]

/-- The state of a walk: what the visits make, the table, the nodes entered so far, how long the table was
when each was entered, and the stack. -/
structure State (α β σ : Type*) where
  out : σ
  tab : List β
  entered : List α
  mark : α → ℕ
  stk : List α

variable (kids : α → List α) (visit : α → σ → List β → σ × List β)

/-- One turn: the node on top is entered, and its children are pushed; or it is left. -/
def turn (s : State α β σ) : State α β σ :=
  match s.stk with
  | [] => s
  | b :: rest =>
    if b ∈ s.entered then { s with tab := s.tab.take (s.mark b), stk := rest }
    else
      let p := visit b s.out s.tab
      { out := p.1, tab := p.2, entered := b :: s.entered,
        mark := update s.mark b s.tab.length,
        stk := ((kids b).filter (· ∉ b :: s.entered)).reverse ++ b :: rest }

/-- The walk from `root`, for `n` turns. -/
def walk (root : α) (out : σ) (n : ℕ) : State α β σ :=
  (turn kids visit)^[n] ⟨out, [], [], fun _ => 0, [root]⟩

/-- Each node has one parent, and the root none. -/
structure Tree (root : α) : Prop where
  nodup : ∀ a, (kids a).Nodup
  parent : ∀ {a b c}, c ∈ kids a → c ∈ kids b → a = b
  root : ∀ a, root ∉ kids a

/-- `a` is above `b` in the tree. -/
def Above : α → α → Prop := Relation.TransGen fun a b => b ∈ kids a

/-- The table is made of the entries of the nodes on the stack that have been entered, each from its
mark on. -/
inductive Scoped (Owns : α → β → Prop) (entered : List α) (mark : α → ℕ) : List α → List β → Prop
  | nil : Scoped Owns entered mark [] []
  | waiting {b : α} {rest : List α} {tab : List β} : b ∉ entered → Scoped Owns entered mark rest tab →
      Scoped Owns entered mark (b :: rest) tab
  | scope {b : α} {rest : List α} {tab new : List β} : b ∈ entered → Scoped Owns entered mark rest tab →
      mark b = tab.length → (∀ e ∈ new, Owns b e) → Scoped Owns entered mark (b :: rest) (tab ++ new)

/-- What a walk keeps. -/
structure Inv (root : α) (Owns : α → β → Prop) (P : List α → σ → Prop) (s : State α β σ) : Prop where
  nodup : s.stk.Nodup
  pushed : ∀ c ∈ s.stk, c = root ∨ ∃ b ∈ s.entered, c ∈ kids b
  above : s.stk.Pairwise fun c a => a ∈ s.entered → Above kids a c
  scopes : Scoped Owns s.entered s.mark s.stk s.tab
  out : P s.entered s.out

variable {kids visit} {root : α} {Owns : α → β → Prop} {P : List α → σ → Prop} {s : State α β σ}
  {entered : List α} {mark : α → ℕ} {stk : List α} {tab : List β} {b : α}

omit [DecidableEq α] in
lemma Scoped.owner (h : Scoped Owns entered mark stk tab) {e : β} (he : e ∈ tab) : ∃ a ∈ stk, a ∈ entered ∧ Owns a e := by
  induction h with
  | nil => cases he
  | waiting _ _ ih =>
    obtain ⟨a, ha, hent, hown⟩ := ih he
    exact ⟨a, .tail _ ha, hent, hown⟩
  | scope hb _ _ hnew ih =>
    rcases List.mem_append.1 he with he | he
    · obtain ⟨a, ha, hent, hown⟩ := ih he
      exact ⟨a, .tail _ ha, hent, hown⟩
    · exact ⟨_, .head _, hb, hnew e he⟩

omit [DecidableEq α] in
lemma Scoped.leave (h : Scoped Owns entered mark (b :: stk) tab) (hb : b ∈ entered) :
    Scoped Owns entered mark stk (tab.take (mark b)) := by
  cases h with
  | waiting hnot => exact absurd hb hnot
  | scope _ hsc hmark => rwa [hmark, take_left]

omit [DecidableEq α] in
lemma Scoped.rest (h : Scoped Owns entered mark (b :: stk) tab) (hb : b ∉ entered) : Scoped Owns entered mark stk tab := by
  cases h with
  | waiting _ hsc => exact hsc
  | scope hmem => exact absurd hmem hb

lemma Scoped.enter (h : Scoped Owns entered mark stk tab) (hb : b ∉ stk) (n : ℕ) :
    Scoped Owns (b :: entered) (update mark b n) stk tab := by
  induction h with
  | nil => exact .nil
  | waiting hc _ ih =>
    obtain ⟨hne, hrest⟩ := not_or.1 (mem_cons.not.1 hb)
    refine .waiting (fun hmem => ?_) (ih hrest)
    exact (mem_cons.1 hmem).elim (fun h => hne h.symm) hc
  | scope hc _ hmark hnew ih =>
    obtain ⟨hne, hrest⟩ := not_or.1 (mem_cons.not.1 hb)
    refine .scope (.tail _ hc) (ih hrest) ?_ hnew
    rw [update_of_ne (Ne.symm hne), hmark]

omit [DecidableEq α] in
lemma Scoped.waitings (h : Scoped Owns entered mark stk tab) {l : List α} (hl : ∀ c ∈ l, c ∉ entered) :
    Scoped Owns entered mark (l ++ stk) tab := by
  induction l with
  | nil => exact h
  | cons c l ih => exact .waiting (hl c (.head _)) (ih fun c hc => hl c (.tail _ hc))

section
variable (hT : Tree kids root)
include hT

variable (hvisit : ∀ b entered out tab, P entered out → b ∉ entered →
      (b = root ∨ ∃ a ∈ entered, b ∈ kids a) → (∀ e ∈ tab, ∃ a, Above kids a b ∧ Owns a e) →
      P (b :: entered) (visit b out tab).1 ∧
        ∃ new, (visit b out tab).2 = tab ++ new ∧ ∀ e ∈ new, Owns b e)
include hvisit

/-- One turn of the walk keeps the invariant. -/
lemma inv_turn (h : Inv kids root Owns P s) : Inv kids root Owns P (turn kids visit s) := by
  unfold turn
  split
  · exact h
  · rename_i b rest hstk
    have hnodup := h.nodup
    have habove := h.above
    have hscoped := h.scopes
    rw [hstk] at hnodup habove hscoped
    obtain ⟨hbrest, hrest⟩ := List.nodup_cons.1 hnodup
    obtain ⟨htop, hbelow⟩ := List.pairwise_cons.1 habove
    split_ifs with hb
    · exact ⟨hrest, fun c hc => h.pushed c (hstk ▸ .tail _ hc), hbelow, hscoped.leave hb, h.out⟩
    · have hsc := hscoped.rest hb
      have hpushed := h.pushed b (hstk ▸ .head _)
      obtain ⟨hP, new, htab, hnew⟩ := hvisit b s.entered s.out s.tab h.out hb hpushed fun e he => by
        obtain ⟨a, ha, hent, hown⟩ := hsc.owner he
        exact ⟨a, htop a ha hent, hown⟩
      have hkid {c : α} (hc : c ∈ ((kids b).filter (· ∉ b :: s.entered)).reverse) : c ∈ kids b ∧ c ∉ b :: s.entered := by
        obtain ⟨hk, hne⟩ := List.mem_filter.1 (List.mem_reverse.1 hc)
        exact ⟨hk, of_decide_eq_true hne⟩
      -- what is below the node on the stack was entered before it, or is not entered yet
      have hpop {a : α} ha (hent : a ∈ b :: s.entered) : a ∈ s.entered :=
        (mem_cons.1 hent).resolve_left fun h => hbrest (h ▸ ha)
      have hold {c a : α} (ha : a ∈ b :: rest) (hent : a ∈ b :: s.entered) (hc : c ∈ kids b) : Above kids a c := by
        have hbc : Above kids b c := .single hc
        rcases mem_cons.1 ha with rfl | ha
        · exact hbc
        · exact (htop a ha (hpop ha hent)).trans hbc
      refine ⟨?_, ?_, ?_, ?_, hP⟩
      · refine List.nodup_append.2 ⟨List.nodup_reverse.2 ((hT.nodup b).filter _), hnodup, ?_⟩
        rintro c hc a ha rfl
        rcases h.pushed c (hstk ▸ ha) with rfl | ⟨a, ha, hca⟩
        · exact hT.root b (hkid hc).1
        · exact hb (hT.parent hca (hkid hc).1 ▸ ha)
      · intro c hc
        rcases List.mem_append.1 hc with hc | hc
        · exact .inr ⟨b, .head _, (hkid hc).1⟩
        · exact (h.pushed c (hstk ▸ hc)).imp_right fun ⟨a, ha, hca⟩ => ⟨a, .tail _ ha, hca⟩
      · refine List.pairwise_append.2 ⟨?_, ?_, fun c hc a ha hent => hold ha hent (hkid hc).1⟩
        · refine List.Pairwise.imp_of_mem (fun _ ha _ hent => absurd hent (hkid ha).2) (pairwise_of_forall fun _ _ => trivial)
        · refine List.pairwise_cons.2 ⟨fun a ha hent => htop a ha (hpop ha hent), ?_⟩
          exact List.Pairwise.imp_of_mem (fun _ ha hca hent => hca (hpop ha hent)) hbelow
      · refine Scoped.waitings ?_ fun c hc => (hkid hc).2
        dsimp only
        rw [htab]
        exact .scope (.head _) (hsc.enter hbrest _) (update_self ..) hnew

lemma inv_walk {out : σ} (hout : P [] out) (n : ℕ) : Inv kids root Owns P (walk kids visit root out n) := by
  induction n with
  | zero =>
    refine ⟨nodup_singleton root, fun c hc => .inl (List.mem_singleton.1 hc),
      pairwise_singleton _ _, .waiting not_mem_nil .nil, hout⟩
  | succ n ih =>
    rw [walk, iterate_succ_apply', ← walk]
    exact inv_turn hT hvisit ih

end
end ScopedWalk
