import EmbCC.Arch.Graph.Merge

/-!
# The graph and the bit matrix it replaced

The graph's comment calls it what a bit matrix was: nodes by nodes, an added edge sets two bits,
and a merge takes the union of two rows and clears the absorbed node's bits. The theorem of this
file is that on every sequence of calls the sparse graph answers as the matrix does:
`rg_has`, the neighbours `rg_nbrs` lists, and the degrees, with no access outside a list or
through freed storage on the way (`rgCalls_answers`).
-/

namespace EmbCC.Arch.Graph

open Finset Function Prod

/-! ## The matrix -/

/-- The nodes not absorbed yet, and a bit for each pair. -/
structure BitMatrix where
  live : Finset ℕ
  adj : ℕ → ℕ → Bool

/-- The matrix of a graph without edges. -/
def BitMatrix.empty (n : ℕ) : BitMatrix := ⟨range n, fun _ _ => false⟩

/-- An edge sets two bits. -/
def BitMatrix.add (M : BitMatrix) (a b : ℕ) : BitMatrix where
  live := M.live
  adj u v := M.adj u v || a != b && (u == a && v == b || u == b && v == a)

/-- Row `x` and column `x` take in those of `y`, and the bits of `y` are cleared. -/
def BitMatrix.merge (M : BitMatrix) (x y : ℕ) : BitMatrix where
  live := M.live.erase y
  adj u v := u != y && v != y && (M.adj u v || u == x && M.adj y v || v == x && M.adj u y)

/-- The matrix after a call. -/
def BitMatrix.call (M : BitMatrix) : Call → BitMatrix
  | .add a b => M.add a b
  | .merge x y => M.merge x y

/-- The matrix after a sequence of calls. -/
def BitMatrix.calls (M : BitMatrix) (cs : List Call) : BitMatrix := cs.foldl BitMatrix.call M

/-- The neighbours in the matrix. -/
def BitMatrix.nbrs (M : BitMatrix) (u : ℕ) : Finset ℕ := M.live.filter fun v => M.adj u v = true

/-- A merge is of two live nodes that do not interfere. -/
def MergeOk (M : BitMatrix) : Call → Prop
  | .add _ _ => True
  | .merge x y => x ∈ M.live ∧ y ∈ M.live ∧ x ≠ y ∧ M.adj x y = false

/-- An edge is added between live nodes. -/
def AddOk (M : BitMatrix) : Call → Prop
  | .add a b => a ∈ M.live ∧ b ∈ M.live
  | .merge _ _ => True

instance (M : BitMatrix) : ∀ c, Decidable (MergeOk M c)
  | .add _ _ => isTrue trivial
  | .merge x y => inferInstanceAs (Decidable (x ∈ M.live ∧ y ∈ M.live ∧ x ≠ y ∧ M.adj x y = false))

instance (M : BitMatrix) : ∀ c, Decidable (AddOk M c)
  | .add a b => inferInstanceAs (Decidable (a ∈ M.live ∧ b ∈ M.live))
  | .merge _ _ => isTrue trivial

/-- Every call of a sequence is made in a state it is meant for. -/
def Along (P : BitMatrix → Call → Prop) : BitMatrix → List Call → Prop
  | _, [] => True
  | M, c :: cs => P M c ∧ Along P (M.call c) cs

instance decidableAlong {P : BitMatrix → Call → Prop} [∀ M c, Decidable (P M c)] :
    ∀ M cs, Decidable (Along P M cs)
  | _, [] => isTrue trivial
  | M, c :: cs =>
    have := decidableAlong (P := P) (M.call c) cs
    inferInstanceAs (Decidable (P M c ∧ Along P (M.call c) cs))

/-- Bits are set in pairs, off the diagonal, for live nodes only. -/
structure BitMatrix.WF (M : BitMatrix) : Prop where
  symm : ∀ u v, M.adj u v = M.adj v u
  irrefl : ∀ u, M.adj u u = false
  live : ∀ u v, M.adj u v = true → u ∈ M.live ∧ v ∈ M.live

lemma BitMatrix.wf_empty (n : ℕ) : (BitMatrix.empty n).WF :=
  ⟨fun _ _ => rfl, fun _ => rfl, fun _ _ h => nomatch h⟩

lemma BitMatrix.adj_add (M : BitMatrix) (a b u v : ℕ) : (M.add a b).adj u v = true ↔
      M.adj u v = true ∨ a ≠ b ∧ (u = a ∧ v = b ∨ u = b ∧ v = a) := by simp [BitMatrix.add]

lemma BitMatrix.adj_merge (M : BitMatrix) (x y u v : ℕ) : (M.merge x y).adj u v = true ↔
      u ≠ y ∧ v ≠ y ∧ (M.adj u v = true ∨ u = x ∧ M.adj y v = true ∨ v = x ∧ M.adj u y = true) := by
  simp [BitMatrix.merge, and_assoc, or_assoc]

open BitMatrix
variable {g : RaGraph} {M : BitMatrix} {a x u b y : ℕ}

lemma BitMatrix.WF.add (h : M.WF) (ha : a ∈ M.live) (hb : b ∈ M.live) : (M.add a b).WF where
  symm u v := by
    rw [Bool.eq_iff_iff, adj_add, adj_add, h.symm u v]
    tauto
  irrefl u := by
    rw [Bool.eq_false_iff, ne_eq, adj_add, h.irrefl u]
    rintro (hu | ⟨hab, ⟨rfl, rfl⟩ | ⟨rfl, rfl⟩⟩)
    · exact nomatch hu
    · exact hab rfl
    · exact hab rfl
  live u v huv := by
    rcases (adj_add M a b u v).1 huv with huv | ⟨-, ⟨rfl, rfl⟩ | ⟨rfl, rfl⟩⟩
    · exact h.live u v huv
    · exact ⟨ha, hb⟩
    · exact ⟨hb, ha⟩

lemma BitMatrix.WF.merge (h : M.WF) (hx : x ∈ M.live) (hxy : x ≠ y) (hno : M.adj x y = false) : (M.merge x y).WF where
  symm u v := by
    rw [Bool.eq_iff_iff, adj_merge, adj_merge, h.symm u v, h.symm y v, h.symm u y]
    tauto
  irrefl u := by
    rw [Bool.eq_false_iff, ne_eq, adj_merge, h.irrefl u]
    rintro ⟨-, -, hu | ⟨rfl, hu⟩ | ⟨rfl, hu⟩⟩
    · exact nomatch hu
    · rw [h.symm, hno] at hu
      exact nomatch hu
    · rw [hno] at hu
      exact nomatch hu
  live u v huv := by
    obtain ⟨hu, hv, hbit⟩ := (adj_merge M x y u v).1 huv
    have hboth : u ∈ M.live ∧ v ∈ M.live := by
      rcases hbit with hbit | ⟨rfl, hbit⟩ | ⟨rfl, hbit⟩
      · exact h.live u v hbit
      · exact ⟨hx, (h.live y v hbit).2⟩
      · exact ⟨(h.live u y hbit).1, hx⟩
    exact ⟨mem_erase.2 ⟨hu, hboth.1⟩, mem_erase.2 ⟨hv, hboth.2⟩⟩

/-! ## Nodes and their slots -/

/-- The neighbours of a slot the matrix asks for. -/
def slotAdj (g : RaGraph) (M : BitMatrix) (a : ℕ) : Finset ℕ :=
  (M.nbrs (g.owner a).toNat).image g.slot

lemma slotAdj_subset (g : RaGraph) (M : BitMatrix) (a : ℕ) : slotAdj g M a ⊆ M.live.image g.slot :=
  image_subset_image (filter_subset _ _)

lemma slot_mem (g : RaGraph) (hu : u ∈ M.live) : g.slot u ∈ M.live.image g.slot :=
  mem_image_of_mem g.slot hu

/-- Every live node owns its slot. -/
def Owned (g : RaGraph) (M : BitMatrix) : Prop := ∀ u ∈ M.live, g.owner (g.slot u) = u

section
variable {g : RaGraph} {M : BitMatrix} (h : Owned g M)
include h

lemma Owned.slot_inj {u v : ℕ} (hu : u ∈ M.live) (hv : v ∈ M.live) (heq : g.slot u = g.slot v) : u = v := by
  have hou := h u hu
  rw [heq, h v hv] at hou
  exact_mod_cast hou.symm

lemma Owned.slot_eq_iff {u v : ℕ} (hu : u ∈ M.live) (hv : v ∈ M.live) : g.slot u = g.slot v ↔ u = v :=
  ⟨h.slot_inj hu hv, fun heq => heq ▸ rfl⟩

lemma Owned.slotAdj_slot {u : ℕ} (hu : u ∈ M.live) : slotAdj g M (g.slot u) = (M.nbrs u).image g.slot := by
  rw [slotAdj, h u hu, Int.toNat_natCast]

lemma Owned.mem_slotAdj {u v : ℕ} (hu : u ∈ M.live) (hv : v ∈ M.live) :
    g.slot v ∈ slotAdj g M (g.slot u) ↔ M.adj u v = true := by
  rw [h.slotAdj_slot hu, mem_image]
  constructor
  · rintro ⟨w, hw, heq⟩
    obtain ⟨hwl, hwa⟩ := mem_filter.1 hw
    rwa [← h.slot_inj hwl hv heq]
  · exact fun huv => ⟨v, mem_filter.2 ⟨hv, huv⟩, rfl⟩

lemma Owned.card_slotAdj {u : ℕ} (hu : u ∈ M.live) : (slotAdj g M (g.slot u)).card = (M.nbrs u).card := by
  rw [h.slotAdj_slot hu]
  refine card_image_of_injOn fun v hv w hw heq => ?_
  exact h.slot_inj (mem_filter.1 hv).1 (mem_filter.1 hw).1 heq

lemma Owned.slotAdj_eq {E : ℕ → Finset ℕ} {u : ℕ} (hu : u ∈ M.live) (hsub : E (g.slot u) ⊆ M.live.image g.slot)
    (hbit : ∀ v ∈ M.live, g.slot v ∈ E (g.slot u) ↔ M.adj u v = true) : slotAdj g M (g.slot u) = E (g.slot u) := by
  ext d
  rw [h.slotAdj_slot hu, mem_image]
  constructor
  · rintro ⟨v, hv, rfl⟩
    obtain ⟨hvl, huv⟩ := mem_filter.1 hv
    exact (hbit v hvl).2 huv
  · intro hd
    obtain ⟨v, hv, rfl⟩ := mem_image.1 (hsub hd)
    exact ⟨v, mem_filter.2 ⟨hv, (hbit v hv).1 hd⟩, rfl⟩

end

/-! ## The graph keeps the matrix -/

/-- The graph keeps the matrix: every live node owns its slot, the slots keep the rows, and the
degrees count them. -/
structure Keeps (g : RaGraph) (M : BitMatrix) : Prop where
  wf : M.WF
  lt : ∀ u ∈ M.live, g.slot u < g.n
  owner : Owned g M
  slots : Slots g.store (M.live.image g.slot) (slotAdj g M)
  deg : ∀ u ∈ M.live, g.deg u = (M.nbrs u).card

section
variable {g : RaGraph} {M : BitMatrix} (h : Keeps g M)
include h

lemma Keeps.rgHas_eq {a b : ℕ} (ha : a ∈ M.live) (hb : b ∈ M.live) : rgHas g a b = M.adj a b := by
  rw [Bool.eq_iff_iff, rgHas, h.slots.has_iff (slot_mem g ha) (slot_mem g hb), h.owner.mem_slotAdj ha hb]

lemma Keeps.slotAdj_lt (u : ℕ) : ∀ b ∈ slotAdj g M (g.slot u), b < g.n := by
  intro b hb
  obtain ⟨v, hv, rfl⟩ := mem_image.1 (slotAdj_subset g M _ hb)
  exact h.lt v hv

/-- The neighbours listed are those of the matrix, each once. -/
lemma Keeps.rgNbrs_spec {u : ℕ} (hu : u ∈ M.live) :
    (rgNbrs g u).Nodup ∧ ∀ z, z ∈ rgNbrs g u ↔ ∃ v ∈ M.live, M.adj u v = true ∧ z = v := by
  obtain ⟨hnd, hmem⟩ := rgSmall_spec (h.slots.holds _ (slot_mem g hu)) (h.slotAdj_lt u)
  have hnode : ∀ b ∈ (rgSmall g (g.slot u)).map fst, ∃ v ∈ M.live, M.adj u v = true ∧ g.slot v = b := by
    intro b hb
    rw [hmem, h.owner.slotAdj_slot hu, mem_image] at hb
    obtain ⟨v, hv, rfl⟩ := hb
    exact ⟨v, (mem_filter.1 hv).1, (mem_filter.1 hv).2, rfl⟩
  rw [rgNbrs_eq]
  refine ⟨List.Nodup.map_on (fun b hb c hc heq => ?_) hnd, fun z => ?_⟩
  · obtain ⟨v, hv, -, rfl⟩ := hnode b hb
    obtain ⟨w, hw, -, rfl⟩ := hnode c hc
    rw [h.owner v hv, h.owner w hw] at heq
    rw [show v = w by exact_mod_cast heq]
  · rw [List.mem_map]
    constructor
    · rintro ⟨b, hb, rfl⟩
      obtain ⟨v, hv, huv, rfl⟩ := hnode b hb
      exact ⟨v, hv, huv, h.owner v hv⟩
    · rintro ⟨v, hv, huv, rfl⟩
      exact ⟨g.slot v, (hmem _).2 ((h.owner.mem_slotAdj hu hv).2 huv), h.owner v hv⟩

end

/-- The empty graph keeps the empty matrix. -/
lemma keeps_init (n : ℕ) : Keeps (rgInit n) (BitMatrix.empty n) where
  wf := BitMatrix.wf_empty n
  lt u hu := Finset.mem_range.1 hu
  owner _ _ := rfl
  slots := by
    have hadj : ∀ a, slotAdj (rgInit n) (empty n) a = ∅ := by simp [slotAdj, nbrs, empty]
    refine ⟨⟨fun a _ b _ hb => ?_, fun a _ ha => ?_⟩, fun a _ => ?_, fun a _ i e he => ?_⟩
    · simp [hadj] at hb
    · simp [hadj] at ha
    · rw [hadj]
      exact ⟨Nat.zero_le _, List.nodup_nil, fun b => by simp⟩
    · exact nomatch he
  deg u _ := by simp [nbrs, empty, rgInit]

lemma Slots.congr {st st' : ℕ → Store} {L : Finset ℕ} {adj adj' : ℕ → Finset ℕ} (h : Slots st L adj)
    (hst : ∀ a ∈ L, st' a = st a) (hadj : ∀ a ∈ L, adj' a = adj a) : Slots st' L adj' where
  symm a ha b hb hmem := by
    rw [hadj b hb]
    exact h.symm a ha b hb (hadj a ha ▸ hmem)
  irrefl a ha := hadj a ha ▸ h.irrefl a ha
  holds a ha := hst a ha ▸ hadj a ha ▸ h.holds a ha
  backs a ha i e he hv hl := by
    rw [Ent, hst a ha] at he
    rw [hst _ hv] at hl
    obtain ⟨m, hm, hrev⟩ := h.backs a ha i e he hv hl
    exact ⟨m, hm, by rwa [Ent, hst _ hv]⟩

lemma BitMatrix.add_self (M : BitMatrix) (a : ℕ) : M.add a a = M := by simp [add]

lemma BitMatrix.WF.add_of_adj (h : M.WF) (hab : M.adj a b = true) : M.add a b = M := by
  have hadj : (M.add a b).adj = M.adj := by
    funext u v
    rw [Bool.eq_iff_iff, adj_add]
    refine ⟨?_, .inl⟩
    rintro (huv | ⟨-, ⟨rfl, rfl⟩ | ⟨rfl, rfl⟩⟩)
    · exact huv
    · exact hab
    · exact (h.symm _ _).trans hab
  exact congrArg (BitMatrix.mk M.live) hadj

lemma BitMatrix.nbrs_add (M : BitMatrix) (hab : a ≠ b) (hb : b ∈ M.live) : (M.add a b).nbrs a = insert b (M.nbrs a) := by
  ext v
  rw [nbrs, mem_filter, adj_add, mem_insert, nbrs, mem_filter]
  constructor
  · rintro ⟨hv, hav | ⟨-, ⟨-, rfl⟩ | ⟨rfl, -⟩⟩⟩
    · exact .inr ⟨hv, hav⟩
    · exact .inl rfl
    · exact (hab rfl).elim
  · rintro (rfl | ⟨hv, hav⟩)
    · exact ⟨hb, .inr ⟨hab, .inl ⟨rfl, rfl⟩⟩⟩
    · exact ⟨hv, .inl hav⟩

lemma BitMatrix.nbrs_add_of_ne (M : BitMatrix) (hua : u ≠ a) (hub : u ≠ b) : (M.add a b).nbrs u = M.nbrs u := by
  ext v
  rw [nbrs, mem_filter, adj_add, nbrs, mem_filter]
  simp [hua, hub, add]

lemma BitMatrix.add_comm (M : BitMatrix) (a b : ℕ) : M.add a b = M.add b a := by
  have hadj : (M.add a b).adj = (M.add b a).adj := by
    funext u v
    rw [Bool.eq_iff_iff, adj_add, adj_add, ne_comm]
    tauto
  exact congrArg (BitMatrix.mk M.live) hadj

/-- `rg_add` keeps the matrix with the edge added. -/
lemma Keeps.add (h : Keeps g M) (ha : a ∈ M.live)
    (hb : b ∈ M.live) : ∃ g', rgAdd g a b = some g' ∧ Keeps g' (M.add a b) := by
  by_cases hab : a = b
  · subst hab
    rw [M.add_self a]
    exact ⟨g, if_pos rfl, h⟩
  have hhas := h.rgHas_eq ha hb
  by_cases hbit : M.adj a b = true
  · rw [h.wf.add_of_adj hbit]
    refine ⟨g, ?_, h⟩
    rw [rgAdd, if_neg hab]
    exact if_pos (hhas.trans hbit)
  have hno : g.slot b ∉ slotAdj g M (g.slot a) := fun hmem => hbit ((h.owner.mem_slotAdj ha hb).1 hmem)
  have hne : g.slot a ≠ g.slot b := fun heq => hab (h.owner.slot_inj ha hb heq)
  obtain ⟨g1, ka, st, k, hput, hput', hslots⟩ :=
    h.slots.put_put (slot_mem g ha) (slot_mem g hb) hne hno
  have hnhas : ¬rgSlotHas g (g.slot a) (g.slot b) = true := fun hh => hbit (hhas.symm.trans hh)
  obtain ⟨deg, hdeg⟩ : ∃ deg, deg = update (update g.deg a (g.deg a + 1)) b (update g.deg a (g.deg a + 1) b + 1) := ⟨_, rfl⟩
  refine ⟨{ g with store := st, deg := deg }, ?_, h.wf.add ha hb, h.lt, h.owner, ?_, fun u hu => ?_⟩
  · simp only [rgAdd, if_neg hab, if_neg hnhas, hput, hput', Option.bind_eq_bind, Option.bind_some, hdeg]
  · refine hslots.congr (fun _ _ => rfl) fun s hs => ?_
    obtain ⟨u, hu, rfl⟩ := mem_image.1 hs
    refine @Owned.slotAdj_eq { g with store := st, deg := deg } (M.add a b) h.owner _ u hu
      (fun d hd => ?_) fun v hv => ?_
    · rcases (mem_link hne _ d).1 hd with hd | ⟨-, rfl⟩ | ⟨-, rfl⟩
      · exact slotAdj_subset g M _ hd
      · exact slot_mem g hb
      · exact slot_mem g ha
    · have hinj := @h.owner.slot_eq_iff
      rw [adj_add, mem_link hne, h.owner.mem_slotAdj hu hv, hinj hu ha, hinj hu hb, hinj hv ha, hinj hv hb]
      exact ⟨fun hc => hc.imp id fun hc => ⟨hab, hc⟩, fun hc => hc.imp id And.right⟩
  · have hba : b ∉ M.nbrs a := fun hmem => hbit (mem_filter.1 hmem).2
    have hab' : a ∉ M.nbrs b := fun hmem => hbit ((h.wf.symm a b).trans (mem_filter.1 hmem).2)
    show deg u = _
    rw [hdeg]
    by_cases hub : u = b
    · subst hub
      rw [update_self, update_of_ne (Ne.symm hab), M.add_comm, M.nbrs_add (Ne.symm hab) ha,
        card_insert_of_notMem hab', h.deg u hu]
      rfl
    by_cases hua : u = a
    · subst hua
      rw [update_of_ne hub, update_self, M.nbrs_add hab hb, card_insert_of_notMem hba, h.deg u hu]
      rfl
    · rw [update_of_ne hub, update_of_ne hua, M.nbrs_add_of_ne hua hub, h.deg u hu]

/-! ## Merging -/

/-- The graph `rg_merge` ends with, after the loop. -/
def rgMerged (g : RaGraph) (x y big small : ℕ) (dx : ℤ) : RaGraph :=
  { g with
    store := update g.store small .freed
    slot := update g.slot x big
    owner := update (update g.owner big x) small (-1)
    deg := update (update g.deg x dx) y 0 }

/-- The slots in use once that of `q` is freed. -/
abbrev slotsLeft (g : RaGraph) (M : BitMatrix) (q : ℕ) : Finset ℕ := (M.live.image g.slot).erase (g.slot q)

section
variable {g : RaGraph} {M : BitMatrix} {x y p q : ℕ}

/-- The node kept and the node folded in. -/
structure Sides (M : BitMatrix) (x y p q : ℕ) : Prop where
  eq : p = x ∧ q = y ∨ p = y ∧ q = x
  left : x ∈ M.live
  right : y ∈ M.live
  ne : x ≠ y
  no : M.adj x y = false

section
variable (h : Sides M x y p q)
include h

lemma Sides.kept : p ∈ M.live := by
  obtain ⟨⟨rfl, -⟩ | ⟨rfl, -⟩, hx, hy, -⟩ := h
  · exact hx
  · exact hy

lemma Sides.folded : q ∈ M.live := by
  obtain ⟨⟨-, rfl⟩ | ⟨-, rfl⟩, hx, hy, -⟩ := h
  · exact hy
  · exact hx

lemma Sides.ne' : p ≠ q := by
  obtain ⟨⟨rfl, rfl⟩ | ⟨rfl, rfl⟩, -, -, hne, -⟩ := h
  · exact hne
  · exact hne.symm

lemma Sides.no' (hwf : M.WF) : M.adj q p = false := by
  obtain ⟨⟨rfl, rfl⟩ | ⟨rfl, rfl⟩, -, -, -, hno⟩ := h
  · exact (hwf.symm _ _).trans hno
  · exact hno

lemma Sides.of_ne {u : ℕ} (hux : u ≠ x) (huy : u ≠ y) : u ≠ p ∧ u ≠ q := by
  obtain ⟨⟨rfl, rfl⟩ | ⟨rfl, rfl⟩, -, -, -⟩ := h
  · exact ⟨hux, huy⟩
  · exact ⟨huy, hux⟩

lemma Sides.adj_iff (hwf : M.WF) {u v : ℕ} (huy : u ≠ y) (hvy : v ≠ y) :
    (M.merge x y).adj u v = true ↔ M.adj u v = true ∧ u ≠ x ∧ v ≠ x ∨ u ≠ x ∧ v = x ∧ (M.adj u p = true ∨ M.adj q u = true) ∨
      u = x ∧ v ≠ x ∧ (M.adj p v = true ∨ M.adj q v = true) := by
  have hxx := hwf.irrefl x
  have hyx := (hwf.symm y x).trans h.no
  have hor : ∀ P : ℕ → Prop, P p ∨ P q ↔ P x ∨ P y := by
    intro P
    obtain ⟨rfl, rfl⟩ | ⟨rfl, rfl⟩ := h.eq
    · exact Iff.rfl
    · exact or_comm
  rw [adj_merge, hwf.symm q u, hor fun z => M.adj u z = true, hor fun z => M.adj z v = true]
  by_cases hux : u = x
  · by_cases hvx : v = x
    · simp [hux, hvx, hxx, hyx, h.no]
    · simp [hux, hvx, h.ne, hvy]
  · by_cases hvx : v = x
    · simp [hux, hvx, huy, h.ne]
    · simp [hux, hvx, huy, hvy]

end

variable (h : Keeps g M) (hs : Sides M x y p q)
include h hs

lemma Sides.slot_ne : g.slot p ≠ g.slot q :=
  fun heq => hs.ne' (h.owner.slot_inj hs.kept hs.folded heq)

lemma Sides.notMem_slotAdj : g.slot p ∉ slotAdj g M (g.slot q) := by
  rw [h.owner.mem_slotAdj hs.folded hs.kept, hs.no' h.wf]
  exact Bool.false_ne_true

lemma Sides.mem_exchanges_iff {vs : List ℕ} (hvs : ∀ b, b ∈ vs ↔ b ∈ slotAdj g M (g.slot q)) {u v : ℕ} (hu : u ∈ M.live)
    (hv : v ∈ M.live) : g.slot v ∈ vs.foldl (exchange (g.slot q) (g.slot p)) (slotAdj g M) (g.slot u) ↔ M.adj u v = true
    ∧ ¬(M.adj q u = true ∧ v = q) ∨ M.adj q u = true ∧ v = p ∨ u = p ∧ M.adj q v = true := by
  have hinj := @h.owner.slot_eq_iff
  rw [mem_exchanges fun hp => hs.notMem_slotAdj h ((hvs _).1 hp), hvs, hvs, h.owner.mem_slotAdj hu hv,
    h.owner.mem_slotAdj hs.folded hu, h.owner.mem_slotAdj hs.folded hv, hinj hv hs.folded, hinj hv hs.kept, hinj hu hs.kept]

lemma Sides.image_slot : (M.live.erase y).image (update g.slot x (g.slot p)) = slotsLeft g M q := by
  ext d
  rw [mem_erase, mem_image, mem_image]
  constructor
  · rintro ⟨u, hu, rfl⟩
    obtain ⟨huy, hul⟩ := mem_erase.1 hu
    by_cases hux : u = x
    · rw [hux, update_self]
      exact ⟨hs.slot_ne h, p, hs.kept, rfl⟩
    · rw [update_of_ne hux]
      exact ⟨fun heq => (hs.of_ne hux huy).2 (h.owner.slot_inj hul hs.folded heq), u, hul, rfl⟩
  · rintro ⟨hdq, u, hul, rfl⟩
    by_cases hup : u = p
    · exact ⟨x, mem_erase.2 ⟨hs.ne, hs.left⟩, by rw [update_self, hup]⟩
    · have huq : u ≠ q := fun heq => hdq (heq ▸ rfl)
      have hxy : u ≠ x ∧ u ≠ y := by
        obtain ⟨rfl, rfl⟩ | ⟨rfl, rfl⟩ := hs.eq
        · exact ⟨hup, huq⟩
        · exact ⟨huq, hup⟩
      exact ⟨u, mem_erase.2 ⟨hxy.2, hul⟩, update_of_ne hxy.1 _ _⟩

lemma Sides.slot_far {u : ℕ} (hu : u ∈ (M.merge x y).live) (hux : u ≠ x) :
    g.slot u ≠ g.slot p ∧ g.slot u ≠ g.slot q := by
  obtain ⟨huy, hul⟩ := mem_erase.1 hu
  obtain ⟨hup, huq⟩ := hs.of_ne hux huy
  exact ⟨fun heq => hup (h.owner.slot_inj hul hs.kept heq), fun heq => huq (h.owner.slot_inj hul hs.folded heq)⟩

lemma Sides.owned_merged {st : ℕ → Store} {deg : ℕ → ℤ} {d : ℤ} :
    Owned (rgMerged { g with store := st, deg := deg } x y (g.slot p) (g.slot q) d) (M.merge x y) := by
  intro u hu
  have hslot : (rgMerged { g with store := st, deg := deg } x y (g.slot p) (g.slot q) d).slot =
    update g.slot x (g.slot p) := rfl
  rw [hslot]
  by_cases hux : u = x
  · rw [hux, update_self]
    exact (update_of_ne (hs.slot_ne h) _ _).trans (update_self _ _ _)
  · obtain ⟨hup, huq⟩ := hs.slot_far h hu hux
    rw [update_of_ne hux]
    exact (update_of_ne huq _ _).trans ((update_of_ne hup _ _).trans (h.owner u (mem_of_mem_erase hu)))

section
variable {vs : List ℕ} (hvs : ∀ b, b ∈ vs ↔ b ∈ slotAdj g M (g.slot q))
include hvs

/-- The exchanges leave, at the slots of the merged graph, the rows of the merged matrix. -/
lemma Sides.mem_merged_iff {u v : ℕ} (hu : u ∈ (M.merge x y).live) (hv : v ∈ (M.merge x y).live) :
    update g.slot x (g.slot p) v ∈
        vs.foldl (exchange (g.slot q) (g.slot p)) (slotAdj g M) (update g.slot x (g.slot p) u) ↔
      (M.merge x y).adj u v = true := by
  obtain ⟨huy, hul⟩ := mem_erase.1 hu
  obtain ⟨hvy, hvl⟩ := mem_erase.1 hv
  have hqp := hs.no' h.wf
  have hpp := h.wf.irrefl p
  rw [hs.adj_iff h.wf huy hvy]
  by_cases hux : u = x
  · by_cases hvx : v = x
    · rw [hux, hvx, update_self, hs.mem_exchanges_iff h hvs hs.kept hs.kept]
      simp [hqp, hpp]
    · obtain ⟨hvp, hvq⟩ := hs.of_ne hvx hvy
      rw [hux, update_self, update_of_ne hvx, hs.mem_exchanges_iff h hvs hs.kept hvl]
      simp [hqp, hvx]
  · obtain ⟨hup, huq⟩ := hs.of_ne hux huy
    by_cases hvx : v = x
    · rw [hvx, update_self, update_of_ne hux, hs.mem_exchanges_iff h hvs hul hs.kept]
      simp [hs.ne', hux, hup]
    · obtain ⟨hvp, hvq⟩ := hs.of_ne hvx hvy
      rw [update_of_ne hux, update_of_ne hvx, hs.mem_exchanges_iff h hvs hul hvl]
      simp [hux, hvx, hup, hvp, hvq]

lemma Sides.exchanges_subset {c : ℕ} (hc : c ∈ M.live.image g.slot) :
    vs.foldl (exchange (g.slot q) (g.slot p)) (slotAdj g M) c ⊆ slotsLeft g M q := by
  intro d hd
  have hq := slot_mem g hs.folded
  rw [mem_exchanges fun hp => hs.notMem_slotAdj h ((hvs _).1 hp)] at hd
  rcases hd with ⟨hd, hno⟩ | ⟨-, rfl⟩ | ⟨-, hd⟩
  · refine mem_erase.2 ⟨?_, slotAdj_subset g M c hd⟩
    rintro rfl
    exact hno ⟨(hvs c).2 (h.slots.symm c hc _ hq hd), rfl⟩
  · exact mem_erase.2 ⟨hs.slot_ne h, slot_mem g hs.kept⟩
  · rw [hvs] at hd
    refine mem_erase.2 ⟨?_, slotAdj_subset g M _ hd⟩
    rintro rfl
    exact h.slots.irrefl _ hq hd

lemma Sides.keeps_merged {st : ℕ → Store} {deg : ℕ → ℤ} {r : ℤ} (hslots : Slots st (slotsLeft g M q)
      (vs.foldl (exchange (g.slot q) (g.slot p)) (slotAdj g M)))
    (hdegs : Degs { g with store := st, deg := deg } (slotsLeft g M q)
      (g.slot p) (vs.foldl (exchange (g.slot q) (g.slot p)) (slotAdj g M)))
    (hr : r - (vs.foldl (exchange (g.slot q) (g.slot p)) (slotAdj g M) (g.slot p)).card = 0 - (slotAdj g M (g.slot p)).card) :
    Keeps (rgMerged { g with store := st, deg := deg } x y (g.slot p) (g.slot q) (g.deg p + r))
      (M.merge x y) := by
  obtain ⟨G, hG⟩ : ∃ G, G = rgMerged { g with store := st, deg := deg } x y (g.slot p) (g.slot q)
    (g.deg p + r) := ⟨_, rfl⟩
  rw [← hG]
  have hslotG : G.slot = update g.slot x (g.slot p) := hG ▸ rfl
  have howner : Owned G (M.merge x y) := hG ▸ hs.owned_merged h
  have hL : (M.merge x y).live.image G.slot = slotsLeft g M q := by
    rw [hslotG]
    exact hs.image_slot h
  have hin : ∀ u ∈ (M.merge x y).live, G.slot u ∈ slotsLeft g M q := by
    intro u hu
    rw [← hL]
    exact slot_mem G hu
  have hadj : ∀ u ∈ (M.merge x y).live, slotAdj G (M.merge x y) (G.slot u) =
      vs.foldl (exchange (g.slot q) (g.slot p)) (slotAdj g M) (G.slot u) := by
    intro u hu
    refine howner.slotAdj_eq hu ?_ fun v hv => ?_
    · rw [hL]
      exact hs.exchanges_subset h hvs (mem_of_mem_erase (hin u hu))
    · rw [hslotG]
      exact hs.mem_merged_iff h hvs hu hv
  refine ⟨h.wf.merge hs.left hs.ne hs.no, fun u hu => ?_, howner, ?_, fun u hu => ?_⟩
  · obtain ⟨w, hw, hwu⟩ := mem_image.1 (mem_of_mem_erase (hin u hu))
    rw [← hwu, hG]
    exact h.lt w hw
  · rw [hL]
    refine hslots.congr (fun a ha => ?_) fun a ha => ?_
    · rw [hG]
      exact update_of_ne (ne_of_mem_erase ha) _ _
    · rw [← hL] at ha
      obtain ⟨u, hu, rfl⟩ := mem_image.1 ha
      exact hadj u hu
  · rw [← howner.card_slotAdj hu, hadj u hu]
    obtain ⟨huy, hul⟩ := mem_erase.1 hu
    have hdeg : G.deg u = update deg x (g.deg p + r) u := hG ▸ update_of_ne huy _ _
    have hinu := hin u hu
    rw [hslotG] at hinu ⊢
    by_cases hux : u = x
    · rw [hdeg, hux, update_self, update_self, h.deg p hs.kept, ← h.owner.card_slotAdj hs.kept]
      omega
    · rw [update_of_ne hux] at hinu ⊢
      obtain ⟨w, hw, hdw⟩ := hdegs (g.slot u) hinu (hs.slot_far h hu hux).1
      obtain rfl : u = w := by exact_mod_cast (h.owner u hul).symm.trans hw
      rw [hdeg, update_of_ne hux]
      exact hdw

end

/-- The merge loop ends, and the graph keeps the merged matrix. -/
lemma Sides.merge : ∃ st deg r, (rgSmall g (g.slot q)).foldlM (rgRename (g.slot p) (g.slot q)) (g, 0) =
        some ({ g with store := st, deg := deg }, r) ∧
      Keeps (rgMerged { g with store := st, deg := deg } x y (g.slot p) (g.slot q) (g.deg p + r))
        (M.merge x y) := by
  have hq := slot_mem g hs.folded
  obtain ⟨hnd, hvs⟩ := rgSmall_spec (h.slots.holds _ hq) (h.slotAdj_lt q)
  have hbig : g.slot p ∈ slotsLeft g M q := mem_erase.2 ⟨hs.slot_ne h, slot_mem g hs.kept⟩
  have hnode : ∀ a ∈ slotsLeft g M q, ∃ u ∈ M.live, g.slot u = a :=
    fun a ha => mem_image.1 (mem_of_mem_erase ha)
  have hsub : ∀ a ∈ slotsLeft g M q, slotAdj g M a ⊆ insert (g.slot q) (slotsLeft g M q) := by
    intro a _
    rw [insert_erase hq]
    exact slotAdj_subset g M a
  have hturn : ∀ v ∈ (rgSmall g (g.slot q)).map fst, v ∈ slotsLeft g M q ∧ v ≠ g.slot p ∧ g.slot q ∈ slotAdj g M v := by
    intro v hv
    rw [hvs] at hv
    have hvL := slotAdj_subset g M _ hv
    refine ⟨mem_erase.2 ⟨?_, hvL⟩, ?_, h.slots.symm _ hq v hvL hv⟩
    · rintro rfl
      exact h.slots.irrefl _ hq hv
    · rintro rfl
      exact hs.notMem_slotAdj h hv
  have hinj : ∀ a ∈ slotsLeft g M q, ∀ b ∈ slotsLeft g M q, g.owner a = g.owner b → a = b := by
    intro a ha b hb heq
    obtain ⟨u, hu, rfl⟩ := hnode a ha
    obtain ⟨v, hv, rfl⟩ := hnode b hb
    rw [h.owner u hu, h.owner v hv] at heq
    rw [show u = v by exact_mod_cast heq]
  have hdeg : Degs g (slotsLeft g M q) (g.slot p) (slotAdj g M) := by
    intro a ha _
    obtain ⟨u, hu, rfl⟩ := hnode a ha
    exact ⟨u, h.owner u hu, by rw [h.deg u hu, h.owner.card_slotAdj hu]⟩
  obtain ⟨st, deg, r, hfold, hslots, hdegs, hr⟩ := Slots.turns hbig (notMem_erase _ _) (rgSmall g (g.slot q)) g
    (slotAdj g M) 0 (h.slots.mono (erase_subset _ _)) hsub hnd hturn hinj hdeg
  exact ⟨st, deg, r, hfold, hs.keeps_merged h hvs hslots hdegs hr⟩

end

/-- `rg_merge` keeps the matrix with the two nodes made one. -/
lemma Keeps.merge (h : Keeps g M) (hx : x ∈ M.live) (hy : y ∈ M.live) (hxy : x ≠ y) (hno : M.adj x y = false) :
    ∃ g', rgMerge g x y = some g' ∧ Keeps g' (M.merge x y) := by
  by_cases hswap : g.deg x < g.deg y
  · have hs : Sides M x y y x := ⟨.inr ⟨rfl, rfl⟩, hx, hy, hxy, hno⟩
    obtain ⟨st, deg, r, hfold, hkeeps⟩ := hs.merge h
    refine ⟨_, ?_, hkeeps⟩
    simp only [rgMerge, if_pos hswap, hfold]
    rfl
  · have hs : Sides M x y x y := ⟨.inl ⟨rfl, rfl⟩, hx, hy, hxy, hno⟩
    obtain ⟨st, deg, r, hfold, hkeeps⟩ := hs.merge h
    refine ⟨_, ?_, hkeeps⟩
    simp only [rgMerge, if_neg hswap, hfold]
    rfl

lemma Keeps.call (h : Keeps g M) {c : Call} (hm : MergeOk M c)
    (ha : AddOk M c) : ∃ g', g.call c = some g' ∧ Keeps g' (M.call c) := by
  cases c with
  | add a b => exact h.add ha.1 ha.2
  | merge x y => exact h.merge hm.1 hm.2.1 hm.2.2.1 hm.2.2.2

/-! ## Runs of calls -/

lemma Keeps.calls (h : Keeps g M) {cs : List Call} (hcs : Along (fun M c => MergeOk M c ∧ AddOk M c) M cs) :
    ∃ g', g.calls cs = some g' ∧ Keeps g' (M.calls cs) := by
  induction cs generalizing g M with
  | nil => exact ⟨g, rfl, h⟩
  | cons c cs ih =>
    obtain ⟨⟨hm, ha⟩, hcs⟩ := hcs
    obtain ⟨g1, hg1, h1⟩ := h.call hm ha
    obtain ⟨g', hg', h'⟩ := ih h1 hcs
    refine ⟨g', ?_, h'⟩
    rw [RaGraph.calls, List.foldlM_cons, hg1]
    exact hg'

/-- On every sequence of edges added between live nodes and merges of live nodes that do not
interfere, the sparse graph answers as the bit matrix: `rg_has` for every pair of live nodes,
each neighbour listed once and under a live node's number, and the degrees. -/
theorem rgCalls_answers (n : ℕ) (cs : List Call)
    (hcs : Along (fun M c => MergeOk M c ∧ AddOk M c) (BitMatrix.empty n) cs) :
    ∃ g, (rgInit n).calls cs = some g ∧
      let M := (BitMatrix.empty n).calls cs
      (∀ a ∈ M.live, ∀ b ∈ M.live, rgHas g a b = M.adj a b) ∧
      (∀ u ∈ M.live, (rgNbrs g u).Nodup ∧ ∀ z, z ∈ rgNbrs g u ↔ ∃ v ∈ M.live, M.adj u v = true ∧ z = v) ∧
      ∀ u ∈ M.live, g.deg u = (M.nbrs u).card := by
  obtain ⟨g, hg, h⟩ := (keeps_init n).calls hcs
  exact ⟨g, hg, fun a ha b hb => h.rgHas_eq ha hb, fun u hu => h.rgNbrs_spec hu, h.deg⟩

theorem rgCalls_answers_path : Along (fun M c => MergeOk M c ∧ AddOk M c) (BitMatrix.empty 4)
        [.add 0 1, .add 1 2, .add 2 3, .merge 0 2] ∧
      ∃ g, (rgInit 4).calls [.add 0 1, .add 1 2, .add 2 3, .merge 0 2] = some g ∧
        rgHas g 0 3 = true ∧ g.deg 0 = 2 ∧ g.deg 1 = 1 := by
  have hcs : Along (fun M c => MergeOk M c ∧ AddOk M c) (empty 4) [.add 0 1, .add 1 2, .add 2 3, .merge 0 2] := by decide
  obtain ⟨g, hg, hhas, -, hdeg⟩ := rgCalls_answers 4 _ hcs
  refine ⟨hcs, g, hg, ?_, ?_, ?_⟩
  · rw [hhas 0 (by decide) 3 (by decide)]
    decide
  · rw [hdeg 0 (by decide)]
    decide
  · rw [hdeg 1 (by decide)]
    decide

/-- An edge added at an absorbed node may be an edge of the node that absorbed it: node 1's slot
was the larger one, so node 0 took it over, and node 1 still leads there. -/
theorem rgCalls_absorbed : Along MergeOk (BitMatrix.empty 4) [.add 1 2, .merge 0 1, .add 3 1] ∧
      ∃ g, (rgInit 4).calls [.add 1 2, .merge 0 1, .add 3 1] = some g ∧
        let M := (BitMatrix.empty 4).calls [.add 1 2, .merge 0 1, .add 3 1]
        3 ∈ M.live ∧ 0 ∈ M.live ∧ rgHas g 3 0 = true ∧ M.adj 3 0 = false ∧ g.deg 0 = 1 :=
  ⟨by decide, _, rfl, by decide, by decide, by decide, by decide, by decide⟩

end EmbCC.Arch.Graph
