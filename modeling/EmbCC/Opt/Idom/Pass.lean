import EmbCC.Lib.CountingSort
import EmbCC.Lib.Dfs
import EmbCC.Opt.Cfg

/-!
# The dominators of the control-flow graph

`compute_rpo`, `compute_idom` and `bb_dominates`. The immediate dominators are found by Lengauer and
Tarjan's method: the blocks are numbered along a depth-first spanning tree, and then from the highest
number down each gets its semidominator, by `lt_eval` over the forest of the numbers that were
linked. The dominator tree is numbered once more, so that dominance is two comparisons.
-/

namespace EmbCC.Opt

open List Ir
open Function (update)

/-- The graph `build_cfg` makes: the successors of a block are blocks, each once. -/
structure Graph where
  nbb : ℕ
  succ : ℕ → List ℕ
  nbb_pos : 0 < nbb
  succ_lt : ∀ b < nbb, ∀ t ∈ succ b, t < nbb
  succ_nodup : ∀ b < nbb, (succ b).Nodup

/-- `bb[t].pred`: by source block, then by successor. -/
def Graph.pred (g : Graph) (t : ℕ) : List ℕ :=
  (List.range g.nbb).flatMap fun i => ((g.succ i).filter (· = t)).map fun _ => i

/-- There is an edge from `a` to `b`. -/
def Graph.Edge (g : Graph) (a b : ℕ) : Prop := b ∈ g.succ a

lemma mem_succCands_lt {fn : Func} {b t : ℕ} (h : t ∈ succCands fn b) : t < nbb fn := by
  have hl2b {l : ℤ} (h : t ∈ (l2b fn l).toList) : t < nbb fn := (l2b_spec (Option.mem_toList.1 h)).1
  have hl2bIn {l : ℤ} (h : t ∈ (l2bIn fn l).toList) : t < nbb fn := by
    rw [l2bIn] at h
    split at h
    · exact hl2b h
    · exact absurd h not_mem_nil
  have hnext (h : t ∈ bbNext fn b) : t < nbb fn := by
    rw [bbNext] at h
    split at h
    · rwa [List.mem_singleton.1 h]
    · exact absurd h not_mem_nil
  rw [succCands] at h
  split at h
  · exact absurd h not_mem_nil
  · split at h
    · exact absurd h not_mem_nil
    · exact absurd h not_mem_nil
    · exact hl2b h
    · exact (List.mem_append.1 h).elim hl2b hnext
    · exact (List.mem_append.1 h).elim hl2b hnext
    · refine (List.mem_append.1 h).elim hl2bIn fun h => ?_
      obtain ⟨l, -, hl⟩ := List.mem_flatMap.1 h
      exact hl2bIn hl
    · obtain ⟨l, -, hl⟩ := List.mem_flatMap.1 h
      split at hl
      · exact hl2b hl
      · exact absurd hl not_mem_nil
    · exact hnext h

lemma nodup_foldl_cfgSucc (l : List ℕ) {acc : List ℕ} (h : acc.Nodup) : (l.foldl cfgSucc acc).Nodup := by
  induction l generalizing acc with
  | nil => exact h
  | cons t l ih =>
    refine ih ?_
    rw [cfgSucc]
    split
    · exact h
    · rename_i ht
      exact List.nodup_append.2 ⟨h, nodup_singleton t, fun x hx y hy hxy =>
        ht (List.mem_singleton.1 hy ▸ hxy ▸ hx)⟩

def buildCfg (fn : Func) : Graph where
  nbb := nbb fn
  succ := succ fn
  nbb_pos := nbb_pos fn
  succ_lt := fun _ _ _ ht => mem_succCands_lt (mem_succ.1 ht)
  succ_nodup := fun _ _ => nodup_foldl_cfgSucc _ List.nodup_nil

namespace Idom

/-- What the analyses note of each block: `idom`, `rpo`, `dpre` and `dpost`, where -1 is none. -/
structure Blocks where
  idom : ℕ → ℤ
  rpo : ℕ → ℤ
  dpre : ℕ → ℤ
  dpost : ℕ → ℤ

/-- The turns of a search of the blocks below `nbb`: each is entered once and left once, and each of its edges is
looked at once. -/
def fuel (nbb : ℕ) (succs : ℕ → List ℕ) : ℕ := ((List.range nbb).map fun b => (succs b).length + 1).sum

/-- `compute_rpo`: the reachable blocks in reverse postorder. -/
def computeRpo (g : Graph) (bb : Blocks) : List ℕ × Blocks :=
  let order := (Dfs.runWith Dfs.seen g.succ (fuel g.nbb g.succ) (Dfs.start g.succ 0)).post.reverse
  (order, { bb with rpo := fun b => if b ∈ order then order.idxOf b else bb.rpo b })

/-- The arrays of `compute_idom`, by number. `anc` is the link to above, and `bucket` the list that starts at `bhead` and
goes on by `bnext`. -/
structure Lt where
  semi : ℕ → ℕ
  label : ℕ → ℕ
  anc : ℕ → Option ℕ
  bucket : ℕ → List ℕ
  idom : ℕ → ℕ

/-- The first loop of `lt_eval`: what is on the way up from `x` and not right below a root, the highest first. Links go to smaller
numbers, so `x` turns are enough. -/
def ltChain (anc : ℕ → Option ℕ) : ℕ → ℕ → List ℕ → List ℕ
  | 0, _, stk => stk
  | k + 1, x, stk =>
    match anc x with
    | none => stk
    | some a => if (anc a).isSome then ltChain anc k a (x :: stk) else stk

/-- A turn of the second loop of `lt_eval`: `x` takes over the better label and the link of the one above it. -/
def ltCompress (s : Lt) (x : ℕ) : Lt :=
  match s.anc x with
  | none => s
  | some a =>
    { s with
      label := if s.semi (s.label a) < s.semi (s.label x) then update s.label x (s.label a) else s.label
      anc := update s.anc x (s.anc a) }

def ltEval (s : Lt) (v : ℕ) : ℕ × Lt :=
  match s.anc v with
  | none => (v, s)
  | some _ =>
    let s' := (ltChain s.anc v v []).foldl ltCompress s
    (s'.label v, s')

/-- What the predecessor `v` gives for the semidominator of `w`. -/
def ltSemi (w : ℕ) (s : Lt) (v : ℕ) : Lt :=
  let (u, s) := ltEval s v
  if s.semi u < s.semi w then { s with semi := update s.semi w (s.semi u) } else s

/-- A predecessor block, if it was reached. -/
def ltPred (nbb : ℕ) (vert : List ℕ) (w : ℕ) (s : Lt) (pb : ℕ) : Lt :=
  if pb ≥ nbb ∨ pb ∉ vert then s else ltSemi w s (vert.idxOf pb)

/-- `v` in the bucket of the parent `p` of the one that was just linked. -/
def ltBucket (p : ℕ) (s : Lt) (v : ℕ) : Lt :=
  let (u, s) := ltEval s v
  { s with idom := update s.idom v (if s.semi u < s.semi v then u else p) }

/-- Into the bucket of its semidominator. -/
def ltAdd (s : Lt) (w : ℕ) : Lt :=
  { s with bucket := update s.bucket (s.semi w) (w :: s.bucket (s.semi w)) }

/-- `w` is linked to its parent. -/
def ltLink (p : ℕ) (s : Lt) (w : ℕ) : Lt := { s with anc := update s.anc w (some p) }

/-- The bucket of `p` is emptied. -/
def ltEmpty (p : ℕ) (s : Lt) : Lt := { s with bucket := update s.bucket p [] }

/-- A turn of the main loop after the predecessors: `w`, with the parent `p`. -/
def ltDrain (p : ℕ) (s : Lt) (w : ℕ) : Lt :=
  let s := ltLink p (ltAdd s w) w
  ltEmpty p ((s.bucket p).foldl (ltBucket p) s)

/-- A turn of the main loop. -/
def ltVertex (g : Graph) (nbb : ℕ) (t : Dfs.State ℕ) (s : Lt) (w : ℕ) : Lt :=
  ltDrain (t.par w) ((g.pred (t.vert.getD w 0)).foldl (ltPred nbb t.vert w) s) w

/-- The arrays before the main loop. -/
def ltInit : Lt where
  semi := id
  label := id
  anc _ := none
  bucket _ := []
  idom _ := 0

/-- A turn of the last loop, which also writes the blocks. -/
def ltFinish (vert : List ℕ) (s : Lt × (ℕ → ℤ)) (w : ℕ) : Lt × (ℕ → ℤ) :=
  let idom := if s.1.idom w ≠ s.1.semi w then update s.1.idom w (s.1.idom (s.1.idom w)) else s.1.idom
  ({ s.1 with idom := idom }, update s.2 (vert.getD w 0) (vert.getD (idom w) 0 : ℕ))

/-- The successor `w` is not entered: it is out of range, or has a number, or there are no more numbers. -/
def enterSkip (nbb n : ℕ) (vert : List ℕ) (w : ℕ) : Bool := w ≥ nbb || w ∈ vert || vert.length = n

/-- The spanning tree. -/
def spanning (g : Graph) (nbb n : ℕ) : Dfs.State ℕ :=
  Dfs.runWith (enterSkip nbb n) g.succ (fuel g.nbb g.succ) (Dfs.start g.succ 0)

/-- The numbers 1 and up. -/
def numbers (cnt : ℕ) : List ℕ := List.range' 1 (cnt - 1)

/-- The arrays after the main loop. -/
def ltMain (g : Graph) (nbb : ℕ) (t : Dfs.State ℕ) : Lt :=
  (numbers t.vert.length).reverse.foldl (ltVertex g nbb t) ltInit

/-- The immediate dominators over two blocks and more. -/
def ltIdom (g : Graph) (nbb n : ℕ) (idom : ℕ → ℤ) : ℕ → ℤ :=
  let t := spanning g nbb n
  ((numbers t.vert.length).foldl (ltFinish t.vert) (ltMain g nbb t, idom)).2

/-- One more than the largest block. -/
def orderBound (order : List ℕ) : ℕ := order.foldl (fun nbb b => if b + 1 > nbb then b + 1 else nbb) 0

/-- The block a block is a child of, if it is counted. -/
def kidOf (nbb : ℕ) (idom : ℕ → ℤ) (b : ℕ) : Option ℕ :=
  if b ≠ 0 ∧ 0 ≤ idom b ∧ idom b < nbb then some (idom b).toNat else none

/-- The children of a block, between `kid[u]` and `kid[u + 1]` in `kids`. -/
def kids (nbb : ℕ) (order : List ℕ) (idom : ℕ → ℤ) (u : ℕ) : List ℕ :=
  let kid := CountingSort.sums nbb (CountingSort.counts (kidOf nbb idom) order)
  let fill := order.foldl (CountingSort.put (kidOf nbb idom)) ⟨kid, fun _ => 0⟩
  CountingSort.slice fill.kids (kid u) (kid (u + 1))

/-- The search of the dominator tree. -/
def domSearch (nbb : ℕ) (order : List ℕ) (idom : ℕ → ℤ) : Dfs.State ℕ :=
  if order.length > 0 then
    Dfs.runWith Dfs.seen (kids nbb order idom) (fuel nbb (kids nbb order idom)) (Dfs.start (kids nbb order idom) 0)
  else ⟨[], [], [], []⟩

/-- The number of a block in the order it is listed in; -1 for the others that are renumbered. -/
def renumber (order listed : List ℕ) (old : ℕ → ℤ) (b : ℕ) : ℤ :=
  if b ∈ listed then listed.idxOf b else if b ∈ order then -1 else old b

def computeIdom (g : Graph) (order : List ℕ) (bb : Blocks) : Blocks :=
  let nbb := orderBound order
  let idom := update bb.idom 0 0
  let idom := if order.length > 1 then ltIdom g nbb order.length idom else idom
  let t := domSearch nbb order idom
  { bb with
    idom := idom
    dpre := renumber order t.vert bb.dpre
    dpost := renumber order t.post bb.dpost }

def bbDominates (bb : Blocks) (s b : ℕ) : Bool :=
  if b = s then true
  else if bb.dpre b < 0 ∨ bb.dpre s < 0 then false
  else bb.dpre s ≤ bb.dpre b && bb.dpost b ≤ bb.dpost s

end Idom
end EmbCC.Opt
