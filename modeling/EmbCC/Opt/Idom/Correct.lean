import EmbCC.Opt.Idom.Semi

/-!
# The dominators are the dominators

`searched_rpo` and `searched_spanning`: the searches of `compute_rpo` and `compute_idom` reach the same blocks. `ltIdom_isIdom`: over
these the last loop of `compute_idom` leaves the immediate dominators. `anc_iff_dom`: the tree they make
is dominance, so the numbers that `bb_dominates` compares tell it (`bbDominates_iff_dom`).
-/

namespace EmbCC.Opt.Idom

open Nat List ParentTree Dominators Dfs Function Bool
variable {g : Graph} {s₀ : Lt} {bb : Blocks}

lemma fuel_eq (nbb : ℕ) (succs : ℕ → List ℕ) : fuel nbb succs = ∑ b ∈ Finset.range nbb, ((succs b).length + 1) := rfl

lemma closed_seen {succs : ℕ → List ℕ} {univ : Finset ℕ} (h : ∀ u ∈ univ, ∀ w ∈ succs u, w ∈ univ) :
    Closed seen succs univ := ⟨h, fun _ _ _ _ _ => decide_eq_true_iff⟩

/-! ## The two searches -/

/-- The search of `compute_rpo`. -/
def rpoSearch (g : Graph) : State ℕ := runWith seen g.succ (fuel g.nbb g.succ) (start g.succ 0)

lemma closed_blocks (g : Graph) : Closed seen g.succ (Finset.range g.nbb) :=
  closed_seen fun u hu w hw => Finset.mem_range.2 (g.succ_lt u (Finset.mem_range.1 hu) w hw)

lemma searched_rpo (g : Graph) : Searched g.succ 0 (rpoSearch g) :=
  searched_run (closed_blocks g) (Finset.mem_range.2 g.nbb_pos) (fuel_eq _ _).ge

/-- The blocks in the order of `compute_rpo`. -/
def order (g : Graph) : List ℕ := (rpoSearch g).post.reverse

variable {x nbb w b y u : ℕ} {l : List ℕ} {idom : ℕ → ℤ}

lemma mem_order : b ∈ order g ↔ b ∈ (rpoSearch g).vert := by
  rw [order, mem_reverse, (searched_rpo g).mem_post]

lemma order_nodup (g : Graph) : (order g).Nodup := List.nodup_reverse.2 (searched_rpo g).post_nodup

lemma zero_mem_order (g : Graph) : 0 ∈ order g := mem_order.2 (searched_rpo g).root_mem

lemma succ_mem_order {t : ℕ} (hb : b ∈ order g) (ht : t ∈ g.succ b) : t ∈ order g := by
  rw [mem_order] at hb ⊢
  exact (searched_rpo g).inv.post_succs b ((searched_rpo g).mem_post.2 hb) t ht

lemma lt_of_mem_order (hb : b ∈ order g) : b < g.nbb :=
  Finset.mem_range.1 (((Searching.start (Finset.mem_range.2 g.nbb_pos)).run (closed_blocks g) _).sub b (mem_order.1 hb))

lemma lt_foldl_bound (l : List ℕ) (k : ℕ) : k ≤ l.foldl (fun nbb b => if b + 1 > nbb then b + 1 else nbb) k ∧
      ∀ b ∈ l, b < l.foldl (fun nbb b => if b + 1 > nbb then b + 1 else nbb) k := by
  induction l generalizing k with
  | nil => exact ⟨le_rfl, fun b hb => absurd hb not_mem_nil⟩
  | cons c l ih =>
    obtain ⟨hle, hlt⟩ := ih (if c + 1 > k then c + 1 else k)
    refine ⟨le_trans (by split <;> omega) hle, fun b hb => ?_⟩
    rcases List.mem_cons.1 hb with rfl | hb
    · exact lt_of_lt_of_le (by split <;> omega) hle
    · exact hlt b hb

lemma lt_orderBound (hb : b ∈ l) : b < orderBound l := (lt_foldl_bound l 0).2 b hb

/-- The spanning tree of `compute_idom`. -/
def tree (g : Graph) : State ℕ := spanning g (orderBound (order g)) (order g).length

lemma closed_spanning (g : Graph) :
    Closed (enterSkip (orderBound (order g)) (order g).length) g.succ (order g).toFinset := by
  refine ⟨fun u hu w hw => ?_, fun vert hnd hsub w hw => ?_⟩
  · exact mem_toFinset.2 (succ_mem_order (mem_toFinset.1 hu) hw)
  · have hlt := lt_orderBound (mem_toFinset.1 hw)
    simp only [enterSkip, or_eq_true, decide_eq_true_eq]
    refine ⟨?_, fun hmem => .inl (.inr hmem)⟩
    rintro ((hge | hmem) | hlen)
    · exact absurd hge (not_le.2 hlt)
    · exact hmem
    · have hcard : vert.toFinset.card = (order g).toFinset.card := by
        rw [toFinset_card_of_nodup hnd, toFinset_card_of_nodup (order_nodup g), hlen]
      have heq : vert.toFinset = (order g).toFinset :=
        Finset.eq_of_subset_of_card_le (fun x hx => hsub x (mem_toFinset.1 hx)) hcard.ge
      rw [← heq] at hw
      exact mem_toFinset.1 hw

lemma searched_spanning (g : Graph) : Searched g.succ 0 (tree g) := by
  refine searched_run (closed_spanning g) (mem_toFinset.2 (zero_mem_order g)) ?_
  rw [fuel_eq]
  refine Finset.sum_le_sum_of_subset fun b hb => ?_
  exact Finset.mem_range.2 (lt_of_mem_order (mem_toFinset.1 hb))

lemma mem_tree : b ∈ (tree g).vert ↔ b ∈ order g := by
  have ht := searched_spanning g
  refine ⟨fun hb => ?_, fun hb => ?_⟩
  · exact ht.mem_of_closed (zero_mem_order g) (fun _ hu _ hw => succ_mem_order hu hw) hb
  · exact (searched_rpo g).mem_of_closed ht.root_mem
      (fun u hu w hw => ht.inv.post_succs u (ht.mem_post.2 hu) w hw) (mem_order.1 hb)

lemma mem_pred {a : ℕ} : a ∈ g.pred b ↔ a < g.nbb ∧ b ∈ g.succ a := by
  simp only [Graph.pred, mem_flatMap, mem_range, mem_map, mem_filter, decide_eq_true_eq]
  constructor
  · rintro ⟨i, hi, t, ⟨ht, rfl⟩, rfl⟩
    exact ⟨hi, ht⟩
  · rintro ⟨ha, hb⟩
    exact ⟨a, ha, b, ⟨hb, rfl⟩, rfl⟩

/-! ## Predecessors in the numbering -/

/-- The numbers of the blocks in `l` that were reached. -/
def reached (nbb : ℕ) (vert l : List ℕ) : List ℕ := (l.filter fun b => b < nbb ∧ b ∈ vert).map vert.idxOf

lemma foldl_ltPred (nbb : ℕ) (vert : List ℕ) (w : ℕ) (l : List ℕ) (s : Lt) :
    l.foldl (ltPred nbb vert w) s = (reached nbb vert l).foldl (ltSemi w) s := by
  induction l generalizing s with
  | nil => rfl
  | cons b l ih =>
    have hskip : (b ≥ nbb ∨ b ∉ vert) ↔ ¬ (b < nbb ∧ b ∈ vert) := by rw [not_and_or, not_lt]
    rw [foldl_cons, ltPred, ih, reached, reached]
    by_cases hb : b < nbb ∧ b ∈ vert
    · rw [if_neg (fun h => hskip.1 h hb), filter_cons_of_pos (by simpa using hb), map_cons, foldl_cons]
    · rw [if_pos (hskip.2 hb), filter_cons_of_neg (by simpa using hb)]

lemma block_of_lt {t : State ℕ} (hw : w < t.vert.length) : t.vert[w]? = some (t.vert.getD w 0) := by
  rw [getD_eq_getElem?_getD, getElem?_eq_getElem hw, Option.getD_some]

lemma mem_reached {v : ℕ} (hw : w < (tree g).vert.length) :
    v ∈ reached (orderBound (order g)) (tree g).vert (g.pred ((tree g).vert.getD w 0)) ↔ (tree g).Edge g.succ v w := by
  simp only [reached, mem_map, mem_filter, mem_pred, decide_eq_true_eq]
  constructor
  · rintro ⟨a, ⟨⟨-, hsucc⟩, -, ha⟩, rfl⟩
    exact ⟨a, _, vert_num ha, block_of_lt hw, hsucc⟩
  · rintro ⟨a, b, ha, hb, hsucc⟩
    rw [block_of_lt hw, Option.some.injEq] at hb
    have hmem := mem_of_getElem? ha
    have hord := mem_tree.1 hmem
    refine ⟨a, ⟨⟨lt_of_mem_order hord, hb ▸ hsucc⟩, lt_orderBound hord, hmem⟩, ?_⟩
    exact num_of_getElem? (searched_spanning g).inv.nodup ha

lemma main_ltMain (g : Graph) :
    Main (tree g).par (tree g).vert.length ((tree g).Edge g.succ) 1 (ltMain g (orderBound (order g)) (tree g)) := by
  have hpos : 0 < (tree g).vert.length := length_pos_of_mem (searched_spanning g).root_mem
  have hturns : ∀ k s, k < (tree g).vert.length → Main (tree g).par (tree g).vert.length ((tree g).Edge g.succ) (k + 1) s →
      Main (tree g).par (tree g).vert.length ((tree g).Edge g.succ) 1
        ((range' 1 k).reverse.foldl (ltVertex g (orderBound (order g)) (tree g)) s) := by
    intro k
    induction k with
    | zero => exact fun s _ h => h
    | succ k ih =>
      intro s hk h
      rw [range'_concat, reverse_append, reverse_singleton, singleton_append, foldl_cons, Nat.one_mul, Nat.add_comm 1 k]
      refine ih _ (lt_of_succ_lt hk) ?_
      rw [ltVertex, foldl_ltPred]
      exact h.turn (searched_spanning g).spanTree (succ_pos k) hk fun v => mem_reached hk
  exact hturns _ _ (sub_lt hpos one_pos) (main_init (by omega))

/-! ## The last loop -/

/-- Before the turn of `w` in the last loop, from the arrays `s₀` and the dominators `idom`. -/
structure Finished (g : Graph) (s₀ : Lt) (idom : ℕ → ℤ) (w : ℕ) (r : Lt × (ℕ → ℤ)) : Prop where
  semi : r.1.semi = s₀.semi
  low : ∀ x, 0 < x → x < w → IsIdom ((tree g).Edge g.succ) 0 (r.1.idom x) x
  high : ∀ x, w ≤ x → r.1.idom x = s₀.idom x
  blocks : ∀ x, 0 < x → x < w → r.2 ((tree g).vert.getD x 0) = ((tree g).vert.getD (r.1.idom x) 0 : ℕ)
  zero : r.2 0 = idom 0

lemma isIdom_of_settled {n : ℕ} {E : ℕ → ℕ → Prop} {p idom : ℕ → ℕ} {s : Lt} (hT : SpanTree n E p)
    (hsemi : ∀ x, 1 ≤ x → x < n → IsSemi E x (s.semi x)) (hw : 0 < w) (hn : w < n)
    (hset : Settled p 1 s.semi s.idom w) (hlow : ∀ x, 0 < x → x < w → IsIdom E 0 (idom x) x) :
    IsIdom E 0 (if s.idom w ≠ s.semi w then idom (s.idom w) else s.idom w) w := by
  have hle {y : ℕ} hy hlt x hx : s.semi y ≤ x :=
    (hsemi y (hset.linked y hy hlt) ((hy.le hT.down).trans_lt hn)).le x hx
  rcases hset.value with ⟨heq, hmin⟩ | ⟨hanc, hgt, hlt, hmin⟩
  · rw [if_neg (not_not.2 heq), heq]
    exact hT.isIdom_of_semi hw hn (hsemi w hw hn) fun u hu hsu x hx => (hmin u hu hsu).trans (hle hu hsu x hx)
  · rw [if_pos hgt.ne']
    have hpos : 0 < s.idom w := (Nat.zero_le _).trans_lt hgt
    have hne : s.idom w ≠ w := fun heq => by
      rw [heq] at hlt
      exact lt_irrefl _ hlt
    have hltw : s.idom w < w := lt_of_le_of_ne (hanc.le hT.down) hne
    exact hT.isIdom_of_least hn (hsemi w hw hn) hanc hgt (hsemi _ hpos (hltw.trans hn))
      (fun y hy hsy x hx => (hmin y hy hsy).trans (hle hy hsy x hx)) (hlow _ hpos hltw)

lemma block_inj (hx : x < (tree g).vert.length) (hy : y < (tree g).vert.length)
    (h : (tree g).vert.getD x 0 = (tree g).vert.getD y 0) : x = y := by
  have hnd := (searched_spanning g).inv.nodup
  rw [← num_of_getElem? hnd (block_of_lt hx), ← num_of_getElem? hnd (block_of_lt hy), h]

lemma block_zero (g : Graph) : (tree g).vert.getD 0 0 = 0 := by
  rw [getD_eq_getElem?_getD, ← head?_eq_getElem?, (searched_spanning g).root]
  rfl

/-- One vertex of the last loop gets its dominator. -/
lemma Finished.step {idom : ℕ → ℤ} {w : ℕ} {r : Lt × (ℕ → ℤ)} (hmain : Main (tree g).par (tree g).vert.length
    ((tree g).Edge g.succ) 1 s₀) (h : Finished g s₀ idom w r) (hw : 0 < w) (hn : w < (tree g).vert.length) :
    Finished g s₀ idom (w + 1) (ltFinish (tree g).vert r w) := by
  have hT := (searched_spanning g).spanTree
  generalize hr : ltFinish (tree g).vert r w = r'
  have hsemi : r'.1.semi = r.1.semi := by rw [← hr]; rfl
  have hself : r'.1.idom w = if r.1.idom w ≠ r.1.semi w then r.1.idom (r.1.idom w) else r.1.idom w := by
    rw [← hr, ltFinish]
    split
    · exact update_self _ _ _
    · rfl
  have hother x (hx : x ≠ w) : r'.1.idom x = r.1.idom x := by
    rw [← hr, ltFinish]
    split
    · exact update_of_ne hx _ _
    · rfl
  have hblocks : r'.2 = update r.2 ((tree g).vert.getD w 0) ((tree g).vert.getD (r'.1.idom w) 0 : ℕ) := by
    rw [← hr]
    rfl
  have hdom : IsIdom ((tree g).Edge g.succ) 0 (r'.1.idom w) w := by
    rw [hself, h.high w le_rfl, h.semi]
    exact isIdom_of_settled hT hmain.semis.high hw hn (hmain.settled hT hw hn) h.low
  have hcases {x : ℕ} (hx : x < w + 1) : x = w ∨ x < w := by omega
  refine ⟨hsemi.trans h.semi, fun x hx0 hx => ?_, fun x hx => ?_, fun x hx0 hx => ?_, ?_⟩
  · rcases hcases hx with rfl | hlt
    · exact hdom
    · rw [hother x hlt.ne]
      exact h.low x hx0 hlt
  · rw [hother x (by omega)]
    exact h.high x (by omega)
  · rcases hcases hx with rfl | hlt
    · rw [hblocks, update_self]
    · rw [hblocks, hother x hlt.ne, update_of_ne fun heq => hlt.ne (block_inj (hlt.trans hn) hn heq)]
      exact h.blocks x hx0 hlt
  · rw [hblocks, update_of_ne fun heq => hw.ne (block_inj (by omega) hn ((block_zero g).trans heq))]
    exact h.zero

lemma finished_foldl (g : Graph) (idom : ℕ → ℤ) (hmain : Main (tree g).par (tree g).vert.length ((tree g).Edge g.succ) 1 s₀)
    {k : ℕ} (hk : k < (tree g).vert.length) : Finished g s₀ idom (k + 1)
    ((range' 1 k).foldl (ltFinish (tree g).vert) (s₀, idom)) := by
  induction k with
  | zero => exact ⟨rfl, fun x hx hlt => by omega, fun _ _ => rfl, fun x hx hlt => by omega, rfl⟩
  | succ k ih =>
    rw [range'_concat, foldl_append, Nat.one_mul, Nat.add_comm 1 k]
    exact (ih (lt_of_succ_lt hk)).step hmain (succ_pos k) hk

lemma ltIdom_isIdom (hb : b ∈ order g) (hb0 : b ≠ 0) :
    ∃ d ∈ order g, ltIdom g (orderBound (order g)) (order g).length idom b = (d : ℕ) ∧ IsIdom g.Edge 0 d b := by
  have ht := searched_spanning g
  have hmem := mem_tree.2 hb
  have hn := num_lt hmem
  have hpos : 0 < (tree g).num b := by
    refine Nat.pos_of_ne_zero fun h0 => hb0 ?_
    exact num_inj hmem ht.root_mem (h0.trans ht.num_root.symm)
  have hblock : (tree g).vert.getD ((tree g).num b) 0 = b := by
    have := block_of_lt hn
    rw [vert_num hmem] at this
    exact (Option.some.inj this).symm
  have hfin := finished_foldl g idom (main_ltMain g) (sub_lt (zero_lt_of_lt hn) one_pos)
  have hdom := hfin.low _ hpos (by omega)
  have hval := hfin.blocks _ hpos (by omega)
  rw [hblock] at hval
  have hd := ht.spanTree.anc_of_dom hn hdom.dom
  have hblockd := block_of_lt ((hd.le ht.inv.down).trans_lt hn)
  have hdmem := mem_of_getElem? hblockd
  refine ⟨_, mem_tree.1 hdmem, hval, ht.isIdom hdmem hmem ?_⟩
  rw [num_of_getElem? ht.inv.nodup hblockd]
  exact hdom

lemma ltIdom_zero (g : Graph) (idom : ℕ → ℤ) : ltIdom g (orderBound (order g)) (order g).length idom 0 = idom 0 :=
  (finished_foldl g idom (main_ltMain g) (sub_lt (length_pos_of_mem (searched_spanning g).root_mem) one_pos)).zero

lemma kidOf_eq_some : kidOf nbb idom b = some u ↔ b ≠ 0 ∧ idom b = u ∧ u < nbb := by
  rw [kidOf]
  split <;> simp only [Option.some.injEq, reduceCtorEq, false_iff] <;> omega

lemma kids_eq (nbb : ℕ) (l : List ℕ) (idom : ℕ → ℤ) (u : ℕ) : kids nbb l idom u = l.filter (kidOf nbb idom · = some u) := by
  have hkey : ∀ b ∈ l, ∀ u, kidOf nbb idom b = some u → u < nbb := fun b _ u h => (kidOf_eq_some.1 h).2.2
  rcases Nat.lt_or_ge u nbb with hu | hu
  · exact CountingSort.slice_eq hkey _ hu
  · exact CountingSort.slice_of_ge hkey _ hu

lemma mem_kids : b ∈ kids nbb l idom u ↔ b ∈ l ∧ b ≠ 0 ∧ idom b = u ∧ u < nbb := by
  rw [kids_eq, mem_filter, decide_eq_true_eq, kidOf_eq_some]

/-! ## The dominator tree -/

section
variable {idom : ℕ → ℤ} {a b : ℕ}
  (hidom : ∀ b ∈ order g, b ≠ 0 → ∃ d ∈ order g, idom b = (d : ℕ) ∧ IsIdom g.Edge 0 d b)

/-- The search of the dominator tree. -/
def domTree (g : Graph) (idom : ℕ → ℤ) : State ℕ := domSearch (orderBound (order g)) (order g) idom

lemma searched_domTree (g : Graph) (idom : ℕ → ℤ) :
    Searched (kids (orderBound (order g)) (order g) idom) 0 (domTree g idom) := by
  have hclosed : Closed seen (kids (orderBound (order g)) (order g) idom) (order g).toFinset := by
    refine closed_seen fun u hu w hw => mem_toFinset.2 ?_
    exact (mem_kids.1 hw).1
  rw [domTree, domSearch, if_pos (length_pos_of_mem (zero_mem_order g))]
  refine searched_run hclosed (mem_toFinset.2 (zero_mem_order g)) ?_
  rw [fuel_eq]
  refine Finset.sum_le_sum_of_subset fun b hb => ?_
  exact Finset.mem_range.2 (lt_orderBound (mem_toFinset.1 hb))

include hidom in
lemma mem_domTree (hb : b ∈ order g) : b ∈ (domTree g idom).vert := by
  have ht := searched_spanning g
  have hs := searched_domTree g idom
  -- by the numbers of the spanning tree, along which dominators come first
  induction hi : (tree g).num b using Nat.strong_induction_on generalizing b with
  | _ i ih =>
    by_cases hb0 : b = 0
    · exact hb0 ▸ hs.root_mem
    · obtain ⟨d, hd, hval, hdom⟩ := hidom b hb hb0
      have hlt : (tree g).num d < i := hi ▸ ht.num_lt_of_dom (mem_tree.2 hb) hdom.ne hdom.dom
      have hdmem := ih _ hlt hd rfl
      exact hs.inv.post_succs d (hs.mem_post.2 hdmem) b (mem_kids.2 ⟨hb, hb0, hval, lt_orderBound hd⟩)

include hidom in
/-- The numbering of the dominator tree answers whether one block dominates another. -/
lemma anc_iff_dom (ha : a ∈ (domTree g idom).vert) (hb : b ∈ (domTree g idom).vert) :
    Anc (domTree g idom).par ((domTree g idom).num a) ((domTree g idom).num b) ↔ Dom g.Edge 0 a b := by
  have hs := searched_domTree g idom
  induction hi : (domTree g idom).num b using Nat.strong_induction_on generalizing b with
  | _ i ih =>
    subst hi
    rcases Nat.eq_zero_or_pos ((domTree g idom).num b) with h0 | hpos
    · obtain rfl : b = 0 := num_inj hb hs.root_mem (h0.trans hs.num_root.symm)
      rw [h0]
      refine ⟨fun hanc => ?_, fun hdom => ?_⟩
      · rw [num_inj ha hb ((Nat.le_zero.1 (hanc.le hs.inv.down)).trans h0.symm)]
        exact Dom.refl _ _ _
      · rw [List.mem_singleton.1 (hdom [0] (.nil 0)), h0]
    · obtain ⟨d, hd, hdp, hkid⟩ := hs.inv.edge b hb hpos
      obtain ⟨hord, hb0, hval, -⟩ := mem_kids.1 hkid
      obtain ⟨d', -, hval', hdom⟩ := hidom b hord hb0
      obtain rfl : d = d' := Int.ofNat.inj (hval.symm.trans hval')
      have hlt : (domTree g idom).num d < (domTree g idom).num b := by
        rw [hdp]
        exact hs.inv.down _ hpos
      have hiff : Anc _ _ _ ↔ Dom g.Edge 0 a d := ih _ hlt hd rfl
      rw [anc_iff, ← hdp, hiff]
      refine ⟨?_, fun hab => ?_⟩
      · rintro (heq | ⟨-, had⟩)
        · rw [num_inj ha hb heq]
          exact Dom.refl _ _ _
        · exact had.trans hdom.dom
      · by_cases hne : a = b
        · exact .inl (hne ▸ rfl)
        · exact .inr ⟨hpos, hdom.least a hne hab⟩

end

/-- `compute_rpo` and `compute_idom`, as the passes call them. -/
def dominators (g : Graph) (bb : Blocks) : Blocks :=
  let (order, bb) := computeRpo g bb
  computeIdom g order bb

lemma dominators_eq (g : Graph) (bb : Blocks) : dominators g bb = computeIdom g (order g) (computeRpo g bb).2 := rfl

lemma dominators_zero (g : Graph) (bb : Blocks) : (dominators g bb).idom 0 = 0 := by
  rw [dominators_eq, computeIdom]
  dsimp only
  split
  · rw [ltIdom_zero, update_self]
  · exact update_self _ _ _

lemma dominators_isIdom {b : ℕ} (hb : b ∈ order g) (hb0 : b ≠ 0) :
    ∃ d ∈ order g, (dominators g bb).idom b = (d : ℕ) ∧ IsIdom g.Edge 0 d b := by
  have hlen : (order g).length > 1 := by
    by_contra hle
    have h1 : (order g).length = 1 := le_antisymm (not_lt.1 hle) (length_pos_of_mem hb)
    obtain ⟨c, hc⟩ := List.length_eq_one_iff.1 h1
    have h0 := zero_mem_order g
    rw [hc, mem_singleton] at hb h0
    exact hb0 (hb.trans h0.symm)
  rw [dominators_eq, computeIdom]
  rw [if_pos hlen]
  exact ltIdom_isIdom hb hb0

lemma renumber_of_mem {listed : List ℕ} {old : ℕ → ℤ} (hb : b ∈ listed) :
    renumber l listed old b = (listed.idxOf b : ℕ) := if_pos hb

lemma bbDominates_iff_dom {s : ℕ} (hs : s ∈ order g) (hb : b ∈ order g) :
    bbDominates (dominators g bb) s b = true ↔ Dom g.Edge 0 s b := by
  have hidom := fun b hb hb0 => @dominators_isIdom g bb b hb hb0
  have ht := searched_domTree g (dominators g bb).idom
  have hsm := mem_domTree hidom hs
  have hbm := mem_domTree hidom hb
  have hpre {x : ℕ} (hx : x ∈ (domTree g (dominators g bb).idom).vert) :
      (dominators g bb).dpre x = ((domTree g (dominators g bb).idom).num x : ℕ) := renumber_of_mem hx
  have hpost {x : ℕ} hx : (dominators g bb).dpost x = ((domTree g (dominators g bb).idom).post.idxOf x : ℕ) :=
    renumber_of_mem (ht.mem_post.2 hx)
  rw [← anc_iff_dom hidom hsm hbm, ht.anc_iff_orders hsm hbm, bbDominates, hpre hsm, hpre hbm, hpost hsm, hpost hbm]
  by_cases hbs : b = s
  · rw [if_pos hbs, hbs]
    exact ⟨fun _ => ⟨le_rfl, le_rfl⟩, fun _ => rfl⟩
  · rw [if_neg hbs, if_neg (by omega), and_eq_true, decide_eq_true_iff, decide_eq_true_iff, cast_le, cast_le]

lemma dom_antisymm (ha : x ∈ order g) (hb : y ∈ order g) (h : Dom g.Edge 0 x y) (h' : Dom g.Edge 0 y x) : x = y := by
  have ht := searched_spanning g
  by_contra hne
  have := ht.num_lt_of_dom (mem_tree.2 hb) hne h
  have := ht.num_lt_of_dom (mem_tree.2 ha) (Ne.symm hne) h'
  omega

lemma mem_order_of_length (h : (order g).length = g.nbb) : ∀ b < g.nbb, b ∈ order g := by
  intro b hb
  have hsub : order g ⊆ range g.nbb := fun c hc => mem_range.2 (lt_of_mem_order hc)
  have hperm := (subperm_of_subset (order_nodup g) hsub).perm_of_length_le (by rw [length_range, h])
  exact hperm.mem_iff.2 (mem_range.2 hb)

lemma path_of_mem_order (h : b ∈ order g) : ∃ l, Path g.Edge 0 l b := by
  refine (searched_rpo g).mem_of_closed (S := fun b => ∃ l, Path g.Edge 0 l b) ⟨_, .nil 0⟩ ?_ (mem_order.1 h)
  rintro u ⟨l, hl⟩ w hw
  exact ⟨_, hl.concat hw⟩

lemma mem_order_of_reachable (h : ∃ l, Path g.Edge 0 l b) : b ∈ order g := by
  obtain ⟨l, hl⟩ := h
  exact mem_order.2 ((searched_rpo g).mem_of_path hl (searched_rpo g).root_mem)

/-- In a graph whose blocks are all reachable `compute_idom` sets each block's `idom` to its immediate dominator, the entry's to the
entry, and `bb_dominates` holds where every path from the entry passes through the block. -/
theorem computeIdom_dominators (g : Graph) (bb : Blocks) (hreach : ∀ b < g.nbb, ∃ l, Path g.Edge 0 l b) :
    (dominators g bb).idom 0 = 0 ∧
    (∀ b < g.nbb, b ≠ 0 → ∃ d < g.nbb, (dominators g bb).idom b = (d : ℕ) ∧ IsIdom g.Edge 0 d b) ∧
    ∀ s < g.nbb, ∀ b < g.nbb, bbDominates (dominators g bb) s b = true ↔ ∀ l, Path g.Edge 0 l b → s ∈ l := by
  have hord {b : ℕ} hb : b ∈ order g := mem_order_of_reachable (hreach b hb)
  refine ⟨dominators_zero g bb, fun b hb hb0 => ?_, fun s hs b hb => bbDominates_iff_dom (hord hs) (hord hb)⟩
  obtain ⟨d, hd, hval, hdom⟩ := @dominators_isIdom g bb b (hord hb) hb0
  exact ⟨d, lt_of_mem_order hd, hval, hdom⟩

/-- Two ways into a loop: blocks 2 and 3 branch to each other, and are entered from 0 and from 1. -/
def twoWays : Ir.Func where
  ins := [{ op := .const, dst := 0, w := 4, imm := 1 }, { op := .brz, a := 0, w := 4, label := 0 },
    { op := .jmp, label := 1 }, { op := .label, label := 0 }, { op := .label, label := 1 },
    { op := .brnz, a := 0, w := 4, label := 0 }, { op := .ret }]
  nvregs := 1
  nlabels := 2

/-- No block has been numbered. -/
def unset : Blocks := ⟨fun _ => -1, fun _ => -1, fun _ => -1, fun _ => -1⟩

lemma twoWays_reachable : ∀ b < (buildCfg twoWays).nbb, ∃ l, Path (buildCfg twoWays).Edge 0 l b := by
  have hnbb : (buildCfg twoWays).nbb = 5 := by decide +kernel
  have h2 : (buildCfg twoWays).Edge 0 2 := by unfold Graph.Edge; decide +kernel
  have h1 : (buildCfg twoWays).Edge 0 1 := by unfold Graph.Edge; decide +kernel
  have h3 : (buildCfg twoWays).Edge 2 3 := by unfold Graph.Edge; decide +kernel
  have h4 : (buildCfg twoWays).Edge 3 4 := by unfold Graph.Edge; decide +kernel
  intro b hb
  rw [hnbb] at hb
  interval_cases b
  · exact ⟨_, .nil 0⟩
  · exact ⟨_, .cons h1 (.nil 1)⟩
  · exact ⟨_, .cons h2 (.nil 2)⟩
  · exact ⟨_, .cons h2 (.cons h3 (.nil 3))⟩
  · exact ⟨_, .cons h2 (.cons h3 (.cons h4 (.nil 4)))⟩

theorem computeIdom_dominators_twoWays :
    (∀ b < (buildCfg twoWays).nbb, ∃ l, Path (buildCfg twoWays).Edge 0 l b) ∧
    IsIdom (buildCfg twoWays).Edge 0 3 4 ∧ ¬ ∀ l, Path (buildCfg twoWays).Edge 0 l 3 → 2 ∈ l := by
  obtain ⟨-, hidom, hdom⟩ := computeIdom_dominators (buildCfg twoWays) unset twoWays_reachable
  refine ⟨twoWays_reachable, ?_, ?_⟩
  · obtain ⟨d, -, hval, hd⟩ := hidom 4 (by decide +kernel) (by decide)
    have h3 : (dominators (buildCfg twoWays) unset).idom 4 = 3 := by decide +kernel
    rw [Int.ofNat.inj (h3.symm.trans hval)]
    exact hd
  · rw [← hdom 2 (by decide +kernel) 3 (by decide +kernel)]
    decide +kernel

end EmbCC.Opt.Idom
