import EmbCC.Arch.Graph.Pass

/-!
# Slots and their neighbours

What the storage means: slot `a` keeps the set `adj a`, in a list or in a row (`Holds`), and
between two slots with lists the `back` fields lead from each entry to its reverse (`Backs`).
`rg_slot_has` and the listing of neighbours read `adj`, a put inserts, and the two puts of
`rg_add` make an edge, whatever the storage (`Slots.put_put`).
-/

namespace EmbCC.Arch.Graph

open List BitRow Function Prod

lemma rgDb_bit : ∀ k < 64, rgDb.getD (((1#64 <<< k) * 0x03f79d71b4cb0a89#64) >>> 58).toNat 0 = k := by
  decide +kernel

lemma rgLow_lowest (x : BitVec 64) (k : ℕ) (h : Lowest x k) : rgLow x = k := by
  have hneg : 0 - x = -x := BitVec.zero_sub x
  rw [rgLow, hneg, h.and_neg]
  exact rgDb_bit k h.lt

/-- The storage keeps the slots of `A`. -/
def Holds : Store → Finset ℕ → Prop
  | .list l, A => l.length ≤ rgRow ∧ (l.map (·.v)).Nodup ∧ ∀ b, b ∈ l.map (·.v) ↔ b ∈ A
  | .row r, A => ∀ b, has r b = true ↔ b ∈ A
  | .freed, _ => False

/-- The slot still has a list. -/
def IsList (s : Store) : Prop := ∃ l, s = .list l

lemma not_isList_row (r : Row) : ¬IsList (.row r) := fun ⟨_, h⟩ => nomatch h

lemma has_rowOf (l : List RgEnt) (b : ℕ) : has (rowOf l) b = true ↔ b ∈ l.map (·.v) := by
  have hfold : ∀ (l : List RgEnt) r, has (l.foldl (fun r e => set r e.v) r) b = true ↔ has r b = true ∨ b ∈ l.map (·.v) := by
    intro l
    induction l with
    | nil => simp
    | cons e l ih => intro r; simp [ih, or_assoc]
  rw [rowOf, hfold]
  simp

variable {g : RaGraph} {st st' : ℕ → Store} {L A : Finset ℕ} {adj : ℕ → Finset ℕ} {l : List RgEnt} {a b i j : ℕ} {e : RgEnt}

lemma any_v_iff : l.any (·.v == b) = true ↔ b ∈ l.map (·.v) := by simp

lemma rgSlotHas_iff {B : Finset ℕ} (ha : Holds (g.store a) A)
    (hb : Holds (g.store b) B) (hab : b ∈ A ↔ a ∈ B) : rgSlotHas g a b = true ↔ b ∈ A := by
  unfold rgSlotHas
  match hsa : g.store a, hsb : g.store b with
  | .row r, _ => exact (hsa ▸ ha : Holds (.row r) A) b
  | .list l, .row r => exact ((hsb ▸ hb : Holds (.row r) B) a).trans hab.symm
  | .list l, .list m =>
    have hl := (hsa ▸ ha : Holds (.list l) A).2.2 b
    have hm := (hsb ▸ hb : Holds (.list m) B).2.2 a
    show (if m.length < l.length then _ else _) = true ↔ _
    split
    · exact any_v_iff.trans (hm.trans hab.symm)
    · exact any_v_iff.trans hl
  | .freed, _ => exact (hsa ▸ ha : Holds .freed A).elim
  | .list _, .freed => exact (hsb ▸ hb : Holds .freed B).elim

lemma rgRowSlots_spec {r : Row} (h : Holds (.row r) A)
    (hn : ∀ b ∈ A, b < g.n) : (rgRowSlots g r).Nodup ∧ ∀ b, b ∈ rgRowSlots g r ↔ b ∈ A := by
  obtain ⟨hnd, hmem⟩ := members_spec rgLow_lowest g.words r
  refine ⟨hnd, fun b => (hmem b).trans ⟨fun hb => (h b).1 hb.2, fun hb => ⟨?_, (h b).2 hb⟩⟩⟩
  have := hn b hb
  unfold RaGraph.words
  omega

lemma rgSmall_spec (h : Holds (g.store a) A) (hn : ∀ b ∈ A, b < g.n) :
    ((rgSmall g a).map fst).Nodup ∧ ∀ b, b ∈ (rgSmall g a).map fst ↔ b ∈ A := by
  unfold rgSmall
  match hs : g.store a with
  | .row r =>
    rw [hs] at h
    simpa [comp_def] using rgRowSlots_spec h hn
  | .list l =>
    rw [hs] at h
    simpa [Store.nb, comp_def] using h.2
  | .freed => exact (hs ▸ h : Holds .freed A).elim

lemma rgNbrs_eq (g : RaGraph) (u : ℕ) : rgNbrs g u = ((rgSmall g (g.slot u)).map fst).map g.owner := by
  unfold rgNbrs rgSmall
  match g.store (g.slot u) with
  | .row r => simp
  | .list l => simp
  | .freed => rfl

/-- `rg_put` adds one neighbour, to the list or, once that is full, to a row. -/
lemma rgPut_spec {g : RaGraph} {a v : ℕ} {A : Finset ℕ} (h : Holds (g.store a) A) (hv : v ∉ A)
    (back : ℤ) : ∃ s k, rgPut g a v back = some (g.keep a s, k) ∧ Holds s (insert v A) ∧
      (IsList s → ∃ l, g.store a = .list l ∧ l.length ≠ rgRow ∧ s = .list (l ++ [⟨v, back⟩]) ∧ k = l.length) := by
  unfold rgPut
  match hs : g.store a with
  | .freed => exact (hs ▸ h : Holds .freed A).elim
  | .row r =>
    rw [hs] at h
    refine ⟨_, _, rfl, fun b => ?_, fun hl => (not_isList_row _ hl).elim⟩
    have hb := h b
    simp [← hb, or_comm]
  | .list l =>
    rw [hs] at h
    obtain ⟨hlen, hnd, hmem⟩ := h
    by_cases hfull : l.length = rgRow
    · refine ⟨.row (set (rowOf l) v), -1, by simp only [if_pos hfull], fun b => ?_, fun hl => (not_isList_row _ hl).elim⟩
      rw [has_set, Bool.or_eq_true, has_rowOf, hmem, decide_eq_true_iff, Finset.mem_insert, or_comm]
    · refine ⟨.list (l ++ [⟨v, back⟩]), l.length, by simp only [if_neg hfull], ⟨?_, ?_, fun b => ?_⟩,
        fun _ => ⟨l, rfl, hfull, rfl, rfl⟩⟩
      · rw [length_append, length_singleton]
        omega
      · rw [map_append, map_singleton, nodup_append]
        refine ⟨hnd, nodup_singleton _, fun x hx y hy => ?_⟩
        have hyv : y = v := List.mem_singleton.1 hy
        rintro rfl
        exact hv (hyv ▸ (hmem x).1 hx)
      · rw [map_append, mem_append, hmem, map_singleton, mem_singleton, Finset.mem_insert, or_comm]

lemma rgFind_list (hs : g.store a = .list l) (v : ℕ) (hint : ℤ) : rgFind g a v hint =
      if 0 ≤ hint ∧ l[hint.toNat]?.any (·.v == v) = true then hint else match l.findIdx? (·.v == v) with
        | some k => k
        | none => -1 := by
  unfold rgFind
  rw [hs]
  rfl

/-- `rg_find` finds an entry of the neighbour, with the hint or without. -/
lemma rgFind_spec {v : ℕ} (hs : g.store a = .list l) (hv : v ∈ l.map (·.v)) (hint : ℤ) :
    ∃ (j : ℕ) (e : RgEnt), rgFind g a v hint = j ∧ l[j]? = some e ∧ e.v = v := by
  rw [rgFind_list hs]
  by_cases hh : 0 ≤ hint ∧ l[hint.toNat]?.any (·.v == v) = true
  · rw [if_pos hh]
    obtain ⟨e, he, hev⟩ := (Option.any_eq_true _ _).1 hh.2
    exact ⟨hint.toNat, e, by omega, he, by simpa using hev⟩
  · rw [if_neg hh]
    match hf : l.findIdx? (·.v == v) with
    | some k =>
      obtain ⟨hk, hek, -⟩ := List.findIdx?_eq_some_iff_getElem.1 hf
      exact ⟨k, l[k], by rw [hf], getElem?_eq_getElem hk, by simpa using hek⟩
    | none =>
      rw [findIdx?_eq_none_iff] at hf
      obtain ⟨e, he, hev⟩ := List.mem_map.1 hv
      simpa [hev] using hf e he

/-- Entry `i` of slot `a`'s list. -/
def Ent (st : ℕ → Store) (a i : ℕ) (e : RgEnt) : Prop := (st a).nb[i]? = some e

lemma isList_of_nb {s : Store} (h : s.nb[i]? = some e) : IsList s := by
  cases s with
  | list l => exact ⟨l, rfl⟩
  | row r => simp [Store.nb] at h
  | freed => simp [Store.nb] at h

/-- Between the lists of slots in `L`, each entry says where its reverse is. -/
def Backs (st : ℕ → Store) (L : Finset ℕ) : Prop :=
  ∀ a ∈ L, ∀ i e, Ent st a i e → e.v ∈ L → IsList (st e.v) →
    ∃ m : ℕ, e.back = m ∧ Ent st e.v m ⟨a, i⟩

lemma Backs.renumber (h : Backs st L) (π : ℕ → ℕ → ℕ) (hlist : ∀ d ∈ L, IsList (st' d) → IsList (st d))
    (hold : ∀ c ∈ L, ∀ i' e', Ent st' c i' e' → e'.v ∈ L → IsList (st' e'.v) → ∃ i e, Ent st c i e ∧ i' = π c i ∧ e.v = e'.v
    ∧ ∀ m : ℕ, e.back = m → e'.back = π e.v m) (hmove : ∀ c ∈ L, IsList (st' c) → ∀ d ∈ L, ∀ i m : ℕ, Ent st c i ⟨d, m⟩ →
    Ent st' c (π c i) ⟨d, π d m⟩) : Backs st' L := by
  intro c hc i' e' he' hd hdl
  obtain ⟨i, e, he, rfl, hv, hback⟩ := hold c hc i' e' he' hd hdl
  rw [← hv] at hd hdl ⊢
  obtain ⟨m, hm, hrev⟩ := h c hc i e he hd (hlist _ hd hdl)
  exact ⟨π e.v m, hback m hm, hmove e.v hd hdl c hc m i hrev⟩

/-- Where a list is left, it was there before and has entry `x` at index `i` now; it keeps its
other entries, those for slots of `L` at least. -/
def Gains (L : Finset ℕ) (s s' : Store) (i : ℕ) (x : RgEnt) : Prop :=
  IsList s' → IsList s ∧ s'.nb[i]? = some x ∧
    (∀ i' e, s'.nb[i']? = some e → s.nb[i']? = some e ∨ i' = i ∧ e = x) ∧
    ∀ (i' : ℕ) (e : RgEnt), e.v ∈ L → s.nb[i']? = some e → s'.nb[i']? = some e

lemma gains_append (L : Finset ℕ) (l : List RgEnt) (x : RgEnt) : Gains L (.list l) (.list (l ++ [x])) l.length x := by
  refine fun _ => ⟨⟨l, rfl⟩, getElem?_concat_length, fun i' e he => ?_, fun i' e _ he => ?_⟩
  · rw [Store.nb, getElem?_append] at he
    split at he
    · exact .inl he
    · obtain ⟨hi, hx⟩ := List.getElem?_eq_some_iff.1 he
      rw [length_singleton] at hi
      refine .inr ⟨by omega, ?_⟩
      rw [← hx]
      simp
  · exact (getElem?_append_left (List.getElem?_eq_some_iff.1 he).1).trans he

lemma gains_set (he : l[j]? = some e) (hv : e.v ∉ L) (x : RgEnt) : Gains L (.list l) (.list (l.set j x)) j x := by
  have hlt := (List.getElem?_eq_some_iff.1 he).1
  refine fun _ => ⟨⟨l, rfl⟩, getElem?_set_self hlt, fun i' e' he' => ?_, fun i' e' hL he' => ?_⟩
  · by_cases hij : i' = j
    · subst hij
      rw [Store.nb, getElem?_set_self hlt] at he'
      exact .inr ⟨rfl, (Option.some.inj he').symm⟩
    · rw [Store.nb, getElem?_set_ne (Ne.symm hij)] at he'
      exact .inl he'
  · have hij : j ≠ i' := by
      rintro rfl
      obtain rfl : e = e' := Option.some.inj (he.symm.trans he')
      exact hv hL
    exact (getElem?_set_ne hij).trans he'

/-- Two entries that name each other's place keep the rest as it was. -/
lemma Backs.pair {ka kb : ℤ} (h : Backs st L) (hother : ∀ c, c ≠ a → c ≠ b → st' c = st c)
    (ha : Gains L (st a) (st' a) i ⟨b, kb⟩) (hb : Gains L (st b) (st' b) j ⟨a, ka⟩)
    (hka : IsList (st' a) → ka = i) (hkb : IsList (st' b) → kb = j) : Backs st' L := by
  have hlist : ∀ d, IsList (st' d) → IsList (st d) := by
    intro d hd
    by_cases hda : d = a
    · exact hda ▸ (ha (hda ▸ hd)).1
    by_cases hdb : d = b
    · exact hdb ▸ (hb (hdb ▸ hd)).1
    · exact hother d hda hdb ▸ hd
  have hstay : ∀ c i' e, IsList (st' c) → e.v ∈ L → Ent st c i' e → Ent st' c i' e := by
    intro c i' e hc hv he
    by_cases hca : c = a
    · subst hca
      exact (ha hc).2.2.2 i' e hv he
    by_cases hcb : c = b
    · subst hcb
      exact (hb hc).2.2.2 i' e hv he
    · rwa [Ent, hother c hca hcb]
  have hcome : ∀ c i' e, Ent st' c i' e → Ent st c i' e ∨ c = a ∧ i' = i ∧ e = ⟨b, kb⟩ ∨ c = b ∧ i' = j ∧ e = ⟨a, ka⟩ := by
    intro c i' e he
    by_cases hca : c = a
    · subst hca
      exact ((ha (isList_of_nb he)).2.2.1 i' e he).imp id fun h => .inl ⟨rfl, h⟩
    by_cases hcb : c = b
    · subst hcb
      exact ((hb (isList_of_nb he)).2.2.1 i' e he).imp id fun h => .inr ⟨rfl, h⟩
    · exact .inl (by rwa [Ent, hother c hca hcb] at he)
  intro c hc i' e he hv hl
  rcases hcome c i' e he with hold | ⟨rfl, rfl, rfl⟩ | ⟨rfl, rfl, rfl⟩
  · obtain ⟨m, hm, hrev⟩ := h c hc i' e hold hv (hlist _ hl)
    exact ⟨m, hm, hstay _ m _ hl hc hrev⟩
  · exact ⟨j, hkb hl, hka (isList_of_nb he) ▸ (hb hl).2.1⟩
  · exact ⟨i, hka hl, hkb (isList_of_nb he) ▸ (ha hl).2.1⟩

/-- A graph on the slots of `L`. -/
structure Sym (L : Finset ℕ) (adj : ℕ → Finset ℕ) : Prop where
  symm : ∀ a ∈ L, ∀ b ∈ L, b ∈ adj a → a ∈ adj b
  irrefl : ∀ a ∈ L, a ∉ adj a

/-- The slots of `L` keep the graph `adj`. -/
structure Slots (st : ℕ → Store) (L : Finset ℕ) (adj : ℕ → Finset ℕ) : Prop extends
    Sym L adj where
  holds : ∀ a ∈ L, Holds (st a) (adj a)
  backs : Backs st L

lemma Slots.has_iff (h : Slots g.store L adj) (ha : a ∈ L) (hb : b ∈ L) : rgSlotHas g a b = true ↔ b ∈ adj a :=
  rgSlotHas_iff (h.holds a ha) (h.holds b hb) ⟨h.symm a ha b hb, h.symm b hb a ha⟩

lemma Slots.mono {L' : Finset ℕ} (h : Slots st L adj) (hL : L' ⊆ L) : Slots st L' adj where
  holds a ha := h.holds a (hL ha)
  backs a ha i e he hv hl := h.backs a (hL ha) i e he (hL hv) hl
  symm a ha b hb := h.symm a (hL ha) b (hL hb)
  irrefl a ha := h.irrefl a (hL ha)

lemma gains_put {s s' : Store} {k : ℤ} {x : RgEnt} (h : IsList s' → ∃ l, s = .list l ∧ l.length ≠ rgRow ∧ s' = .list
    (l ++ [x]) ∧ k = l.length) : Gains L s s' s.nb.length x := by
  intro hl
  obtain ⟨l, rfl, -, rfl, -⟩ := h hl
  exact gains_append L l x hl

/-- The neighbours with an edge between `a` and `b`. -/
def link (adj : ℕ → Finset ℕ) (a b : ℕ) : ℕ → Finset ℕ :=
  update (update adj a (insert b (adj a))) b (insert a (adj b))

lemma mem_link (hab : a ≠ b) (c d : ℕ) : d ∈ link adj a b c ↔ d ∈ adj c ∨ c = a ∧ d = b ∨ c = b ∧ d = a := by
  unfold link
  by_cases hcb : c = b
  · subst hcb
    simp [hab.symm, or_comm]
  · by_cases hca : c = a
    · subst hca
      simp [hcb, or_comm]
    · simp [hca, hcb]

lemma link_left (hab : a ≠ b) : link adj a b a = insert b (adj a) := by
  rw [link, update_of_ne hab, update_self]

lemma link_right (adj : ℕ → Finset ℕ) (a b : ℕ) : link adj a b b = insert a (adj b) :=
  update_self _ _ _

lemma link_of_mem (hb : b ∈ adj a) (ha : a ∈ adj b) : link adj a b = adj := by
  rw [link, Finset.insert_eq_self.2 hb, update_eq_self, Finset.insert_eq_self.2 ha, update_eq_self]

lemma Sym.link (h : Sym L adj) (hab : a ≠ b) : Sym L (link adj a b) where
  symm c hc d hd hmem := by
    rw [mem_link hab] at hmem ⊢
    rcases hmem with h' | ⟨rfl, rfl⟩ | ⟨rfl, rfl⟩
    · exact .inl (h.symm c hc d hd h')
    · exact .inr (.inr ⟨rfl, rfl⟩)
    · exact .inr (.inl ⟨rfl, rfl⟩)
  irrefl c hc hmem := by
    rcases (mem_link hab c c).1 hmem with h' | ⟨rfl, rfl⟩ | ⟨rfl, rfl⟩
    · exact h.irrefl c hc h'
    · exact hab rfl
    · exact hab rfl

section
variable {st st' : ℕ → Store} {L : Finset ℕ} {adj : ℕ → Finset ℕ} {a b i j : ℕ} {ka kb : ℤ}

lemma slots_linked (hsym : Sym L adj) (hab : a ≠ b) (hholds : ∀ c ∈ L, c ≠ a → c ≠ b → Holds (st c) (adj c))
    (hbacks : Backs st L) (hother : ∀ c, c ≠ a → c ≠ b → st' c = st c) (hsa : Holds (st' a) (insert b (adj a)))
    (hsb : Holds (st' b) (insert a (adj b))) (hga : Gains L (st a) (st' a) i ⟨b, kb⟩) (hgb : Gains L (st b) (st' b) j ⟨a, ka⟩)
    (hka : IsList (st' a) → ka = i) (hkb : IsList (st' b) → kb = j) : Slots st' L (link adj a b) where
  toSym := hsym.link hab
  holds c hc := by
    by_cases hcb : c = b
    · rw [hcb, link_right]
      exact hsb
    by_cases hca : c = a
    · rw [hca, link_left hab]
      exact hsa
    rw [hother c hca hcb, link, update_of_ne hcb, update_of_ne hca]
    exact hholds c hc hca hcb
  backs := hbacks.pair hother hga hgb hka hkb

end

lemma Slots.put_put (h : Slots g.store L adj) (ha : a ∈ L) (hb : b ∈ L) (hab : a ≠ b) (hno : b ∉ adj a) :
    ∃ g1 ka st k, rgPut g a b (rgNext (g.store b)) = some (g1, ka) ∧
      rgPut g1 b a ka = some ({ g with store := st }, k) ∧ Slots st L (link adj a b) := by
  have hno' : a ∉ adj b := fun hmem => hno (h.symm b hb a ha hmem)
  obtain ⟨sa, ka, hputa, hsa, hla⟩ := rgPut_spec (h.holds a ha) hno (rgNext (g.store b))
  have hstb : (g.keep a sa).store b = g.store b := update_of_ne hab.symm _ _
  obtain ⟨sb, k, hputb, hsb, hlb⟩ := @rgPut_spec (g.keep a sa) b a _ (hstb ▸ h.holds b hb) hno' ka
  rw [hstb] at hlb
  have hb' : update (update g.store a sa) b sb b = sb := update_self _ _ _
  have ha' : update (update g.store a sa) b sb a = sa := by rw [update_of_ne hab, update_self]
  refine ⟨_, ka, _, k, hputa, hputb, slots_linked h.toSym hab (fun c hc _ _ => h.holds c hc) h.backs
    (fun c hca hcb => (update_of_ne hcb _ _).trans (update_of_ne hca _ _)) (ha'.symm ▸ hsa) (hb'.symm ▸ hsb)
    (ha'.symm ▸ gains_put hla) (hb'.symm ▸ gains_put hlb) (fun hl => ?_) fun hl => ?_⟩
  · obtain ⟨l, hs, -, -, hk⟩ := hla (ha' ▸ hl)
    rw [hk, hs, Store.nb]
  · obtain ⟨l, hs, hfull, -⟩ := hlb (hb' ▸ hl)
    rw [hs]
    exact if_neg hfull

end EmbCC.Arch.Graph
