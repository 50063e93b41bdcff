import EmbCC.Opt.Idom.Correct

/-!
# Dominance frontiers

`compute_df`: from each predecessor of a join the walk goes up the dominators to that of the join, and puts the join on the
frontier of each block on the way. It stops early at a block that has the join on its frontier already, as its
last entry. `dfWalk_eq` is what one walk adds: what an early stop leaves out an earlier walk has added.
`computeDf_frontier`: the lists are the dominance frontiers.
-/

namespace EmbCC.Opt.Idom

open Function List Dominators Dfs

/-- The walk up from `r` for the join `b`. The dominators of a block are at most as many as the blocks. -/
def dfWalk (bb : Blocks) (b : ℕ) : ℕ → ℤ → (ℕ → List ℕ) → ℕ → List ℕ
  | 0, _, df => df
  | k + 1, r, df =>
    if r ≥ 0 ∧ r ≠ bb.idom b then
      if (df r.toNat).getLast? = some b then df
      else dfWalk bb b k (bb.idom r.toNat) (Function.update df r.toNat (df r.toNat ++ [b]))
    else df

/-- The walks for `b`. -/
def dfBlock (g : Graph) (bb : Blocks) (df : ℕ → List ℕ) (b : ℕ) : ℕ → List ℕ :=
  if (g.pred b).length < 2 then df else (g.pred b).foldl (fun df (r : ℕ) => dfWalk bb b g.nbb r df) df

def computeDf (g : Graph) (bb : Blocks) : ℕ → List ℕ := (List.range g.nbb).foldl (dfBlock g bb) fun _ => []

variable {g : Graph} {bb : Blocks} {x y b d e r : ℕ} {df : ℕ → List ℕ}

lemma dom_idom_iff (hb : b ∈ order g) (hd : d ∈ order g) (h : IsIdom g.Edge 0 d b) :
    Dom g.Edge 0 x d ↔ x ≠ b ∧ Dom g.Edge 0 x b := by
  refine ⟨fun hx => ⟨?_, hx.trans h.dom⟩, fun hx => h.least x hx.1 hx.2⟩
  rintro rfl
  exact h.ne (dom_antisymm hd hb h.dom hx)

/-- `x` is on the way up from `r` to `e`. -/
def OnWay (g : Graph) (e r x : ℕ) : Prop := Dom g.Edge 0 x r ∧ ¬ Dom g.Edge 0 x e

lemma OnWay.trans (h : OnWay g e r x) (h' : OnWay g e x y) : OnWay g e r y := ⟨h'.1.trans h.1, h'.2⟩

/-- `b` is added where `P` holds, and nothing else changes. -/
def Adds (b : ℕ) (P : ℕ → Prop) (df df' : ℕ → List ℕ) : Prop :=
  ∀ x, (P x → df' x = df x ++ [b]) ∧ (¬ P x → df' x = df x)

lemma eq_zero_of_dom_zero (h : Dom g.Edge 0 x 0) : x = 0 := List.mem_singleton.1 (h [0] (.nil 0))

lemma onWay_iff (hr : r ∈ order g) (hd : d ∈ order g) (h : IsIdom g.Edge 0 d r) (hxr : x ≠ r) :
    OnWay g e r x ↔ OnWay g e d x := by
  rw [OnWay, OnWay, dom_idom_iff hr hd h]
  tauto

/-- One walk puts the join on every block up to its dominator, once. -/
lemma dfWalk_adds (he : e ∈ order g) (hbe : bb.idom b = (e : ℕ)) (hidom : ∀ r ∈ order g, r ≠ 0 → ∃ d ∈ order g,
    bb.idom r = (d : ℕ) ∧ IsIdom g.Edge 0 d r) {k : ℕ} (hr : r ∈ order g) (her : Dom g.Edge 0 e r) (hk : (tree g).num r < k)
    (hlast : ∀ x, OnWay g e r x → b ∈ df x → (df x).getLast? = some b)
    (hup : ∀ x, OnWay g e r x → b ∈ df x → ∀ y, OnWay g e x y → b ∈ df y) : Adds b (fun x => OnWay g e r x ∧ b ∉ df x) df
    (dfWalk bb b k r df) := by
  induction k generalizing r df with
  | zero => exact absurd hk (Nat.not_lt_zero _)
  | succ k ih =>
    rw [dfWalk, hbe]
    by_cases hre : r = e
    · subst hre
      rw [if_neg (by simp)]
      exact fun x => ⟨fun ⟨hway, _⟩ => absurd hway.1 hway.2, fun _ => rfl⟩
    · rw [if_pos ⟨Int.natCast_nonneg r, fun h => hre (Int.ofNat.inj h)⟩, Int.toNat_natCast]
      have hself : OnWay g e r r := ⟨Dom.refl _ _ _, fun h => hre (dom_antisymm hr he h her)⟩
      by_cases hbr : b ∈ df r
      · rw [if_pos (hlast r hself hbr)]
        exact fun x => ⟨fun ⟨hway, hx⟩ => absurd (hup r hself hbr x hway) hx, fun _ => rfl⟩
      · rw [if_neg fun h => hbr (mem_of_getLast? h)]
        have hr0 : r ≠ 0 := fun h0 => hre (h0 ▸ (eq_zero_of_dom_zero (h0 ▸ her)).symm)
        obtain ⟨d, hd, hval, hdom⟩ := hidom r hr hr0
        rw [hval]
        have hnotr {x : ℕ} (hx : OnWay g e d x) : x ≠ r := fun h => hdom.ne (dom_antisymm hd hr hdom.dom (h ▸ hx.1))
        have hold {x : ℕ} hx : update df r (df r ++ [b]) x = df x := update_of_ne hx _ _
        have hnum := (searched_spanning g).num_lt_of_dom (mem_tree.2 hr) hdom.ne hdom.dom
        have hrest := @ih d (update df r (df r ++ [b])) hd (hdom.least e (Ne.symm hre) her) (by omega)
          (fun x hx hbx => ?_) fun x hx hbx y hy => ?_
        · intro x
          by_cases hxr : x = r
          · rw [hxr]
            have hnot := (hrest r).2 fun h => hnotr h.1 rfl
            rw [update_self] at hnot
            exact ⟨fun _ => hnot, fun h => absurd ⟨hself, hbr⟩ h⟩
          · have hx := hrest x
            beta_reduce at hx ⊢
            rw [hold hxr] at hx
            rwa [onWay_iff hr hd hdom hxr]
        · rw [hold (hnotr hx)] at hbx ⊢
          exact hlast x ((onWay_iff hr hd hdom (hnotr hx)).2 hx) hbx
        · rw [hold (hnotr hx)] at hbx
          have hyd : OnWay g e d y := hx.trans hy
          rw [hold (hnotr hyd)]
          exact hup x ((onWay_iff hr hd hdom (hnotr hx)).2 hx) hbx y hy

lemma num_lt_nbb (hr : r ∈ order g) : (tree g).num r < g.nbb := by
  have hcard : (tree g).vert.toFinset.card ≤ (Finset.range g.nbb).card := by
    refine Finset.card_le_card fun x hx => Finset.mem_range.2 ?_
    exact lt_of_mem_order (mem_tree.1 (List.mem_toFinset.1 hx))
  rw [toFinset_card_of_nodup (searched_spanning g).inv.nodup, Finset.card_range] at hcard
  exact (num_lt (mem_tree.2 hr)).trans_le hcard

/-- So do the walks from all predecessors. -/
lemma foldl_dfWalk_adds (he : e ∈ order g) (hbe : bb.idom b = (e : ℕ))
    (hidom : ∀ r ∈ order g, r ≠ 0 → ∃ d ∈ order g, bb.idom r = (d : ℕ) ∧ IsIdom g.Edge 0 d r)
    (hnew : ∀ x, b ∉ df x) {l : List ℕ} (hl : ∀ r ∈ l, r ∈ order g ∧ Dom g.Edge 0 e r) :
    Adds b (fun x => ∃ r ∈ l, OnWay g e r x) df (l.foldl (fun df (r : ℕ) => dfWalk bb b g.nbb r df) df) := by
  induction l using reverseRecOn with
  | nil => exact fun x => ⟨fun ⟨r, hr, _⟩ => absurd hr not_mem_nil, fun _ => rfl⟩
  | append_singleton l r ih =>
    have hbefore := ih fun r hr => hl r (mem_append_left _ hr)
    rw [foldl_append, foldl_cons, foldl_nil]
    generalize l.foldl (fun df (r : ℕ) => dfWalk bb b g.nbb r df) df = df1 at hbefore
    obtain ⟨hr, her⟩ := hl r (by simp)
    have hmem x : b ∈ df1 x ↔ ∃ r ∈ l, OnWay g e r x := by
      by_cases hx : ∃ r ∈ l, OnWay g e r x
      · rw [(hbefore x).1 hx]
        simp [hx]
      · rw [(hbefore x).2 hx]
        simp only [hnew x, hx]
    have hlast x (hbx : b ∈ df1 x) : (df1 x).getLast? = some b := by
      rw [(hbefore x).1 ((hmem x).1 hbx)]
      simp
    have hup x (hbx : b ∈ df1 x) y (hy : OnWay g e x y) : b ∈ df1 y := by
      obtain ⟨q, hq, hway⟩ := (hmem x).1 hbx
      exact (hmem y).2 ⟨q, hq, hway.trans hy⟩
    have hwalk : Adds b (fun x => OnWay g e r x ∧ b ∉ df1 x) df1 (dfWalk bb b g.nbb r df1) :=
      dfWalk_adds he hbe hidom hr her (num_lt_nbb hr) (fun x _ => hlast x) fun x _ => hup x
    intro x
    have hxw := hwalk x
    beta_reduce at hxw
    rw [hmem] at hxw
    simp only [mem_append, mem_singleton]
    by_cases hx : ∃ r ∈ l, OnWay g e r x
    · refine ⟨fun _ => ?_, fun hn => absurd ?_ hn⟩
      · rw [hxw.2 fun h => h.2 hx, (hbefore x).1 hx]
      · obtain ⟨q, hq, hway⟩ := hx
        exact ⟨q, .inl hq, hway⟩
    · rw [(hbefore x).2 hx] at hxw
      refine ⟨fun ⟨q, hq, hway⟩ => hxw.1 ⟨?_, hx⟩, fun hn => hxw.2 fun h => hn ⟨r, .inr rfl, h.1⟩⟩
      rcases hq with hq | rfl
      · exact absurd ⟨q, hq, hway⟩ hx
      · exact hway

/-- `j` is on the dominance frontier of `b`: `b` dominates a predecessor of `j` and does not strictly dominate `j`. -/
def InFrontier (g : Graph) (b j : ℕ) : Prop :=
  ∃ q ∈ g.pred j, Dom g.Edge 0 b q ∧ ¬ (b ≠ j ∧ Dom g.Edge 0 b j)

lemma dom_of_pred (h : IsIdom g.Edge 0 e b) {q : ℕ} (hq : q ∈ g.pred b) : Dom g.Edge 0 e q := by
  intro l hl
  have hmem := h.dom _ (hl.concat (mem_pred.1 hq).2)
  exact (List.mem_append.1 hmem).resolve_right fun hb => h.ne (List.mem_singleton.1 hb)

lemma not_inFrontier_of_lt_two (hb : b ∈ order g) (hb0 : b ≠ 0) (hlen : (g.pred b).length < 2) : ¬ InFrontier g x b := by
  have ht := searched_spanning g
  have hmem := mem_tree.2 hb
  have hpos : 0 < (tree g).num b := Nat.pos_of_ne_zero fun h0 =>
    hb0 (num_inj hmem ht.root_mem (h0.trans ht.num_root.symm))
  obtain ⟨u, hu, hup, hsucc⟩ := ht.inv.edge b hmem hpos
  have hub : u ≠ b := by
    rintro rfl
    exact absurd (ht.inv.down _ hpos) (by omega)
  have hupred : u ∈ g.pred b := mem_pred.2 ⟨lt_of_mem_order (mem_tree.1 hu), hsucc⟩
  have hone {q : ℕ} (hq : q ∈ g.pred b) : q = u := by
    obtain ⟨c, hc⟩ := List.length_eq_one_iff.1 (le_antisymm (Nat.lt_succ_iff.1 hlen) (length_pos_of_mem hq))
    rw [hc, mem_singleton] at hq hupred
    exact hq.trans hupred.symm
  have hdom : Dom g.Edge 0 u b := by
    rw [dom_iff]
    intro hav
    cases hav with
    | root => exact hb0 rfl
    | @step a _ ha he _ =>
      have hain := mem_tree.1 (ht.avoids_num hu ha).1
      rw [hone (mem_pred.2 ⟨lt_of_mem_order hain, he⟩)] at ha
      exact dom_iff.1 (Dom.refl _ _ _) ha
  rintro ⟨q, hq, hxq, hn⟩
  rw [hone hq] at hxq
  refine hn ⟨?_, hxq.trans hdom⟩
  rintro rfl
  exact hub (dom_antisymm (mem_tree.1 hu) hb hdom hxq)

lemma dfBlock_adds (hreach : ∀ b < g.nbb, b ∈ order g) (hentry : g.pred 0 = []) (hb : b < g.nbb)
    (hnew : ∀ x, b ∉ df x) : Adds b (fun x => InFrontier g x b) df (dfBlock g (dominators g bb) df b) := by
  have hnone (h : ∀ x, ¬ InFrontier g x b) : Adds b (fun x => InFrontier g x b) df df :=
    fun x => ⟨fun hx => absurd hx (h x), fun _ => rfl⟩
  rw [dfBlock]
  by_cases hb0 : b = 0
  · rw [hb0, hentry, if_pos (by decide), ← hb0]
    refine hnone fun x hx => ?_
    obtain ⟨q, hq, -⟩ := hx
    rw [hb0, hentry] at hq
    exact not_mem_nil hq
  · split_ifs with hlen
    · exact hnone fun x => not_inFrontier_of_lt_two (hreach b hb) hb0 hlen
    · have hidom := fun b hb hb0 => @dominators_isIdom g bb b hb hb0
      obtain ⟨e, he, hval, hdom⟩ := hidom b (hreach b hb) hb0
      have hadds := foldl_dfWalk_adds he hval hidom hnew fun r hr =>
        ⟨hreach r (mem_pred.1 hr).1, dom_of_pred hdom hr⟩
      intro x
      have hiff : InFrontier g x b ↔ ∃ r ∈ g.pred b, OnWay g e r x := by
        simp only [InFrontier, OnWay, dom_idom_iff (hreach b hb) he hdom]
      beta_reduce
      rw [hiff]
      exact hadds x

/-- The frontiers when the blocks up to `k` are done. -/
lemma foldl_dfBlock (hreach : ∀ b < g.nbb, b ∈ order g) (hentry : g.pred 0 = []) {k : ℕ} (hk : k ≤ g.nbb) (x : ℕ) :
    ((List.range k).foldl (dfBlock g (dominators g bb)) (fun _ => []) x).Nodup ∧
      ∀ j, j ∈ (List.range k).foldl (dfBlock g (dominators g bb)) (fun _ => []) x ↔ j < k ∧ InFrontier g x j := by
  induction k generalizing x with
  | zero => exact ⟨nodup_nil, fun j => ⟨fun h => absurd h not_mem_nil, fun h => by omega⟩⟩
  | succ k ih =>
    rw [range_succ, foldl_append, foldl_cons, foldl_nil]
    have hbefore := ih (Nat.le_of_succ_le hk)
    generalize (range k).foldl (dfBlock g (dominators g bb)) (fun _ => []) = df at hbefore
    have hnew x : k ∉ df x := fun h => by
      have := ((hbefore x).2 k).1 h
      omega
    have hadds := @dfBlock_adds g bb k df hreach hentry hk hnew x
    obtain ⟨hnd, hmem⟩ := hbefore x
    by_cases hx : InFrontier g x k
    · rw [hadds.1 hx]
      refine ⟨List.nodup_append.2 ⟨hnd, nodup_singleton k, ?_⟩, fun j => ?_⟩
      · intro y hy z hz hyz
        exact hnew x (List.mem_singleton.1 hz ▸ hyz ▸ hy)
      · rw [mem_append, mem_singleton, hmem]
        constructor
        · rintro (⟨hj, hf⟩ | rfl)
          · exact ⟨by omega, hf⟩
          · exact ⟨by omega, hx⟩
        · rintro ⟨hj, hf⟩
          rcases (Nat.lt_succ_iff.1 hj).eq_or_lt with rfl | hlt
          · exact .inr rfl
          · exact .inl ⟨hlt, hf⟩
    · rw [hadds.2 hx]
      refine ⟨hnd, fun j => (hmem j).trans ⟨fun ⟨hj, hf⟩ => ⟨by omega, hf⟩, fun ⟨hj, hf⟩ => ⟨?_, hf⟩⟩⟩
      exact lt_of_le_of_ne (Nat.lt_succ_iff.1 hj) fun h => hx (h ▸ hf)

/-- In a graph whose blocks are all reachable and whose entry has no predecessor `compute_df` gives each block its
dominance frontier, each block on it once. -/
theorem computeDf_frontier (g : Graph) (bb : Blocks) (hreach : ∀ b < g.nbb, ∃ l, Path g.Edge 0 l b)
    (hentry : g.pred 0 = []) (b : ℕ) : (computeDf g (dominators g bb) b).Nodup ∧
      ∀ j, j ∈ computeDf g (dominators g bb) b ↔
        j < g.nbb ∧ ∃ q ∈ g.pred j, Dom g.Edge 0 b q ∧ ¬ (b ≠ j ∧ Dom g.Edge 0 b j) :=
  foldl_dfBlock (fun b hb => mem_order_of_reachable (hreach b hb)) hentry le_rfl b

theorem computeDf_frontier_twoWays :
    (∀ b < (buildCfg twoWays).nbb, ∃ l, Path (buildCfg twoWays).Edge 0 l b) ∧ (buildCfg twoWays).pred 0 = [] ∧
    ∃ q ∈ (buildCfg twoWays).pred 2, Dom (buildCfg twoWays).Edge 0 3 q ∧
      ¬ (3 ≠ 2 ∧ Dom (buildCfg twoWays).Edge 0 3 2) := by
  have hentry : (buildCfg twoWays).pred 0 = [] := by decide +kernel
  have hmem : 2 ∈ computeDf (buildCfg twoWays) (dominators (buildCfg twoWays) unset) 3 := by decide +kernel
  refine ⟨twoWays_reachable, hentry, ?_⟩
  exact (((computeDf_frontier (buildCfg twoWays) unset twoWays_reachable hentry 3).2 2).1 hmem).2

end EmbCC.Opt.Idom
