import EmbCC.Ir.Straight
import EmbCC.Lib.ParallelMove

/-!
# Out of SSA on an edge

`emit_edge_copies` of `mem2reg.c`: the phis of a block as copies on an edge into it. Where a value that comes
in is itself a phi of the block all values are read into fresh temps first; otherwise they
are copied directly. Either way the copies do what the phis mean, an assignment to all
of them at once (`emitEdgeCopies_parallel`).
-/

namespace EmbCC.Opt.Mem2reg

open Function List Ir ParallelMove

/-- A phi: the local it stands for and the temp of its result. -/
structure Phi where
  loc : ℕ
  res : ℤ
deriving DecidableEq, Repr

/-- A block's predecessors, its phis, and for each predecessor the values that come in from it. -/
structure PhiBlock where
  pred : List ℕ
  phis : List Phi
  inc : List (List ℤ)
  rows : inc.length = pred.length
  row_length : ∀ row ∈ inc, row.length = phis.length

/-- The loop of `bb_pred_index`. -/
def predSearch (pred : List ℕ) (p : ℕ) : ℕ → ℤ → ℤ → Option ℕ
  | 0, _, _ => none
  | fuel + 1, lo, hi =>
    if lo ≤ hi then
      let mid := lo + (hi - lo) / 2
      match pred[mid.toNat]? with
      | none => none
      | some q =>
        if q = p then some mid.toNat
        else if q < p then predSearch pred p fuel (mid + 1) hi
        else predSearch pred p fuel lo (mid - 1)
    else none

/-- `bb_pred_index`: where `p` is in the list, found by binary search. -/
def bbPredIndex (pred : List ℕ) (p : ℕ) : Option ℕ :=
  predSearch pred p pred.length 0 (pred.length - 1)

def m2rW (size : ℕ) : ℕ := if size = 16 then 16 else if size = 8 then 8 else 4

/-- A copy as it is pushed: what `ins_blank` leaves, with the fields of the move. -/
def copyIns (dst a : ℤ) (w : ℕ) : Ins := { op := .mov, dst, a, w, label := -1 }

/-- `emit_edge_copies`: the copies and the number of registers after it. `size` is that of a
local. -/
def emitEdgeCopies (size : ℕ → ℕ) (S : PhiBlock) (p nvregs : ℕ) : List Ins × ℕ :=
  if S.phis = [] then ([], nvregs)
  else
    match bbPredIndex S.pred p with
    | none => ([], nvregs)
    | some pi =>
      let phis := S.phis.zip (S.inc.getD pi [])
      let conflict := phis.any fun k => S.phis.any fun j => k.2 == j.res
      if !conflict then (phis.map fun k => copyIns k.1.res k.2 (m2rW (size k.1.loc)), nvregs)
      else
        let reads := phis.zipIdx.map fun k => copyIns (nvregs + k.2 : ℕ) k.1.2 (m2rW (size k.1.1.loc))
        let writes :=
          phis.zipIdx.map fun k => copyIns k.1.1.res (nvregs + k.2 : ℕ) (m2rW (size k.1.1.loc))
        (reads ++ writes, nvregs + phis.length)

variable {pred : List ℕ} {p k : ℕ}

lemma predSearch_eq (hs : pred.Pairwise (· < ·)) (hk : pred[k]? = some p)
    (fuel : ℕ) {lo hi : ℤ} (h0 : 0 ≤ lo) (hhi : hi < pred.length) (hlo : lo ≤ k) (hkhi : (k : ℤ) ≤ hi)
    (hf : hi - lo < fuel) : predSearch pred p fuel lo hi = some k := by
  induction fuel generalizing lo hi with
  | zero => omega
  | succ fuel ih =>
    obtain ⟨hklt, rfl⟩ := List.getElem?_eq_some_iff.1 hk
    have hmid : (lo + (hi - lo) / 2).toNat < pred.length := by omega
    rw [predSearch, if_pos (by omega)]
    dsimp only
    rw [getElem?_eq_getElem hmid]
    dsimp only
    rcases Nat.lt_trichotomy (lo + (hi - lo) / 2).toNat k with hlt | heq | hgt
    · have hq := List.pairwise_iff_getElem.1 hs _ _ hmid hklt hlt
      rw [if_neg (by omega), if_pos hq]
      exact ih (by omega) hhi (by omega) hkhi (by omega)
    · subst heq
      rw [if_pos rfl]
    · have hq := List.pairwise_iff_getElem.1 hs _ _ hklt hmid hgt
      rw [if_neg (by omega), if_neg (by omega)]
      exact ih h0 (by omega) hlo (by omega) (by omega)

lemma bbPredIndex_eq (hs : pred.Pairwise (· < ·)) (hk : pred[k]? = some p) : bbPredIndex pred p = some k := by
  have hlt := getElem?_lt hk
  exact predSearch_eq hs hk _ le_rfl (by omega) (by omega) (by omega) (by omega)

lemma execSeq_copies {ι : Type} {l : List ι} {m : ι → Move ℤ} {w : ι → ℕ} {temps : ℤ → Option Val}
    (hdst : ∀ k ∈ l, 0 ≤ (m k).dst) (hsrc : ∀ k ∈ l, (temps (m k).src).isSome) :
    execSeq temps (l.map fun k => copyIns (m k).dst (m k).src (w k)) = some (run (l.map m) temps) := by
  induction l generalizing temps with
  | nil => rfl
  | cons k l ih =>
    obtain ⟨v, hv⟩ := Option.isSome_iff_exists.1 (hsrc k (.head _))
    have hone : execIns temps (copyIns (m k).dst (m k).src (w k)) = some (update temps (m k).dst (temps (m k).src)) := by
      have hneg : ¬(m k).dst < 0 := not_lt.2 (hdst k (.head _))
      simp [execIns, isCore, copyIns, valueOpnds, eachRead, hv, evalCore, setTemp, hneg]
    have hset : ∀ j ∈ l, (update temps (m k).dst (temps (m k).src) (m j).src).isSome := by
      intro j hj
      by_cases he : (m j).src = (m k).dst
      · rw [he, update_self]
        exact hsrc k (.head _)
      · rw [update_of_ne he]
        exact hsrc j (.tail _ hj)
    rw [map_cons, map_cons, execSeq, foldlM_cons, hone]
    exact ih (fun j hj => hdst j (.tail _ hj)) hset

/-- The moves that read the values that come in into fresh temps. -/
def readMoves (nvregs : ℕ) (phis : List (Phi × ℤ)) : List (Move ℤ) :=
  phis.zipIdx.map fun k => ⟨(nvregs + k.2 : ℕ), k.1.2⟩

/-- The moves that write the results from there. -/
def writeMoves (nvregs : ℕ) (phis : List (Phi × ℤ)) : List (Move ℤ) :=
  phis.zipIdx.map fun k => ⟨k.1.1.res, (nvregs + k.2 : ℕ)⟩

section
variable {α : Type} {phis : List (Phi × ℤ)} {nvregs : ℕ} {m : Move ℤ}

lemma mem_map_zipIdx {f : (Phi × ℤ) × ℕ → Move ℤ} : m ∈ phis.zipIdx.map f ↔
    ∃ (i : ℕ) (k : Phi × ℤ), phis[i]? = some k ∧ m = f (k, i) := by
  rw [mem_map]
  constructor
  · rintro ⟨k, hk, rfl⟩
    exact ⟨k.2, k.1, List.mem_zipIdx_iff_getElem?.1 hk, rfl⟩
  · rintro ⟨i, k, hk, rfl⟩
    exact ⟨(k, i), List.mem_zipIdx_iff_getElem?.2 hk, rfl⟩

lemma mem_readMoves : m ∈ readMoves nvregs phis ↔ ∃ (i : ℕ) (k : Phi × ℤ), phis[i]? = some k ∧ m = ⟨(nvregs + i : ℕ), k.2⟩ :=
  mem_map_zipIdx

lemma mem_writeMoves : m ∈ writeMoves nvregs phis ↔
    ∃ (i : ℕ) (k : Phi × ℤ), phis[i]? = some k ∧ m = ⟨k.1.res, (nvregs + i : ℕ)⟩ := mem_map_zipIdx

lemma nodup_readMoves (nvregs : ℕ) (phis : List (Phi × ℤ)) : ((readMoves nvregs phis).map Move.dst).Nodup := by
  have hmap : (readMoves nvregs phis).map Move.dst = (phis.zipIdx.map Prod.snd).map fun i => ((nvregs + i : ℕ) : ℤ) := by
    rw [readMoves, map_map, map_map]
    rfl
  rw [hmap, zipIdx_map_snd]
  refine List.Nodup.map (fun a b h => ?_) nodup_range'
  omega

/-- The moves that read: every source is in its temporary, and nothing else has changed. -/
lemma run_readMoves (hsrc : ∀ k ∈ phis, k.2 < nvregs) (regs : ℤ → α) :
    (∀ (i : ℕ) k, phis[i]? = some k → run (readMoves nvregs phis) regs (nvregs + i : ℕ) = regs k.2) ∧
      ∀ t : ℤ, t < nvregs → run (readMoves nvregs phis) regs t = regs t := by
  constructor
  · intro i k hk
    have hdis : ∀ m ∈ readMoves nvregs phis, ∀ n ∈ readMoves nvregs phis, m.src ≠ n.dst := by
      intro m hm n hn he
      obtain ⟨j, l, hl, rfl⟩ := mem_readMoves.1 hm
      obtain ⟨j', l', -, rfl⟩ := mem_readMoves.1 hn
      have := hsrc l (mem_of_getElem? hl)
      dsimp only at he
      omega
    exact run_of_disjoint (nodup_readMoves nvregs phis) hdis regs _ (mem_readMoves.2 ⟨i, k, hk, rfl⟩)
  · intro t ht
    refine run_of_notMem (fun m hm he => ?_) regs
    obtain ⟨j, l, -, rfl⟩ := mem_readMoves.1 hm
    dsimp only at he
    omega

/-- The moves that write: every result has its temporary. -/
lemma run_writeMoves (hres : (phis.map fun k => k.1.res).Nodup) (hlt : ∀ k ∈ phis, k.1.res < nvregs)
    (regs : ℤ → α) : (∀ (i : ℕ) k, phis[i]? = some k → run (writeMoves nvregs phis) regs k.1.res = regs (nvregs + i : ℕ)) ∧
      ∀ t : ℤ, (∀ k ∈ phis, k.1.res ≠ t) → run (writeMoves nvregs phis) regs t = regs t := by
  constructor
  · intro i k hk
    have hnd : ((writeMoves nvregs phis).map Move.dst).Nodup := by
      have hmap : (writeMoves nvregs phis).map Move.dst = phis.map fun k => k.1.res := by
        rw [writeMoves, map_map]
        conv_rhs => rw [← zipIdx_map_fst 0 phis, map_map]
        rfl
      rwa [hmap]
    have hdis : ∀ m ∈ writeMoves nvregs phis, ∀ n ∈ writeMoves nvregs phis, m.src ≠ n.dst := by
      intro m hm n hn he
      obtain ⟨j, l, -, rfl⟩ := mem_writeMoves.1 hm
      obtain ⟨j', l', hl', rfl⟩ := mem_writeMoves.1 hn
      have := hlt l' (mem_of_getElem? hl')
      dsimp only at he
      omega
    exact run_of_disjoint hnd hdis regs _ (mem_writeMoves.2 ⟨i, k, hk, rfl⟩)
  · intro t ht
    refine run_of_notMem (fun m hm => ?_) regs
    obtain ⟨j, l, hl, rfl⟩ := mem_writeMoves.1 hm
    exact ht l (mem_of_getElem? hl)

/-- What phis mean with the values that come in, on the `nvregs` registers there are: all results get their
value at once, and the other registers stay. -/
def Assigned (phis : List (Phi × ℤ)) (nvregs : ℕ) (temps temps' : ℤ → Option Val) : Prop :=
  (∀ k ∈ phis, temps' k.1.res = temps k.2) ∧
    ∀ t : ℤ, t < nvregs → (∀ k ∈ phis, k.1.res ≠ t) → temps' t = temps t

variable {temps : ℤ → Option Val} {w : Phi × ℤ → ℕ} (hres : (phis.map fun k => k.1.res).Nodup)
  (hlt : ∀ k ∈ phis, 0 ≤ k.1.res ∧ k.1.res < nvregs) (hset : ∀ k ∈ phis, (temps k.2).isSome)
include hres hlt hset

lemma exec_direct (hfree : ∀ k ∈ phis, ∀ j ∈ phis, k.2 ≠ j.1.res) : ∃ temps', execSeq temps
    (phis.map fun k => copyIns k.1.res k.2 (w k)) = some temps' ∧ Assigned phis nvregs temps temps' := by
  let ms : List (Move ℤ) := phis.map fun k => ⟨k.1.res, k.2⟩
  have hdis : ∀ m ∈ ms, ∀ n ∈ ms, m.src ≠ n.dst := by
    intro m hm n hn
    obtain ⟨k, hk, rfl⟩ := List.mem_map.1 hm
    obtain ⟨j, hj, rfl⟩ := List.mem_map.1 hn
    exact hfree k hk j hj
  have hrun : execSeq temps (phis.map fun k => copyIns k.1.res k.2 (w k)) = some (run ms temps) :=
    execSeq_copies (m := fun k => ⟨k.1.res, k.2⟩) (fun k hk => (hlt k hk).1) hset
  refine ⟨_, hrun, fun k hk => ?_, fun t _ hne => run_of_notMem (fun m hm => ?_) temps⟩
  · exact run_of_disjoint (by rwa [map_map]) hdis temps _ (mem_map_of_mem hk)
  · obtain ⟨k, hk, rfl⟩ := List.mem_map.1 hm
    exact hne k hk

lemma exec_through_temps (hsrc : ∀ k ∈ phis, k.2 < nvregs) : ∃ temps', execSeq temps
      ((phis.zipIdx.map fun k => copyIns (nvregs + k.2 : ℕ) k.1.2 (w k.1)) ++ phis.zipIdx.map fun k => copyIns k.1.1.res
      (nvregs + k.2 : ℕ) (w k.1)) = some temps' ∧ Assigned phis nvregs temps temps' := by
  have hmem {k : (Phi × ℤ) × ℕ} hk : phis[k.2]? = some k.1 := List.mem_zipIdx_iff_getElem?.1 hk
  have hreads := run_readMoves hsrc temps
  have hwrites := run_writeMoves hres (fun k hk => (hlt k hk).2) (run (readMoves nvregs phis) temps)
  have hrun1 : execSeq temps (phis.zipIdx.map fun k => copyIns (nvregs + k.2 : ℕ) k.1.2 (w k.1)) =
      some (run (readMoves nvregs phis) temps) :=
    execSeq_copies (m := fun k : (Phi × ℤ) × ℕ => ⟨(nvregs + k.2 : ℕ), k.1.2⟩)
      (fun k _ => Int.natCast_nonneg _) (fun k hk => hset _ (mem_of_getElem? (hmem hk)))
  have hrun2 : execSeq (run (readMoves nvregs phis) temps) (phis.zipIdx.map fun k => copyIns k.1.1.res (nvregs + k.2 : ℕ)
      (w k.1)) = some (run (writeMoves nvregs phis) (run (readMoves nvregs phis) temps)) := by
    refine execSeq_copies (m := fun k : (Phi × ℤ) × ℕ => ⟨k.1.1.res, (nvregs + k.2 : ℕ)⟩)
      (fun k hk => (hlt _ (mem_of_getElem? (hmem hk))).1) (fun k hk => ?_)
    rw [hreads.1 k.2 k.1 (hmem hk)]
    exact hset _ (mem_of_getElem? (hmem hk))
  refine ⟨_, by rw [execSeq_append, hrun1]; exact hrun2, fun k hk => ?_, fun t ht hne => ?_⟩
  · obtain ⟨i, hi⟩ := getElem?_of_mem hk
    exact (hwrites.1 i k hi).trans (hreads.1 i k hi)
  · exact (hwrites.2 t hne).trans (hreads.2 t ht)

end

/-- The copies of an edge, run in order, assign to all phis at once and change no other register there
was. -/
theorem emitEdgeCopies_parallel (size : ℕ → ℕ) {S : PhiBlock} {p pi nvregs : ℕ}
    (hpred : S.pred.Pairwise (· < ·)) (hp : S.pred[pi]? = some p)
    (hres : (S.phis.map Phi.res).Nodup) (hlt : ∀ k ∈ S.phis, 0 ≤ k.res ∧ k.res < nvregs)
    (hsrc : ∀ t ∈ S.inc.getD pi [], t < nvregs) {temps : ℤ → Option Val}
    (hset : ∀ t ∈ S.inc.getD pi [], (temps t).isSome) :
    ∃ temps', execSeq temps (emitEdgeCopies size S p nvregs).1 = some temps' ∧
      Assigned (S.phis.zip (S.inc.getD pi [])) nvregs temps temps' := by
  let phis := S.phis.zip (S.inc.getD pi [])
  have hfst : ∀ k ∈ phis, k.1 ∈ S.phis := fun k hk => (of_mem_zip hk).1
  have hsnd : ∀ k ∈ phis, k.2 ∈ S.inc.getD pi [] := fun k hk => (of_mem_zip hk).2
  have hnd : (phis.map fun k => k.1.res).Nodup := by
    have hlen : pi < S.inc.length := S.rows ▸ (getElem?_lt hp)
    have hrow : (S.inc.getD pi []).length = S.phis.length := by
      rw [getD_eq_getElem _ _ hlen]
      exact S.row_length _ (getElem_mem hlen)
    have hmap : phis.map Prod.fst = S.phis := map_fst_zip (by omega)
    rw [← hmap, map_map] at hres
    exact hres
  by_cases hnil : S.phis = []
  · refine ⟨temps, by rw [emitEdgeCopies, if_pos hnil]; rfl, ?_, fun t _ _ => rfl⟩
    rw [hnil]
    simp
  rw [emitEdgeCopies, if_neg hnil, bbPredIndex_eq hpred hp]
  dsimp only
  split_ifs with hc
  · refine exec_direct hnd (fun k hk => hlt _ (hfst k hk)) (fun k hk => hset _ (hsnd k hk)) ?_
    intro k hk j hj he
    rw [Bool.not_eq_true', any_eq_false] at hc
    exact hc k hk (List.any_eq_true.2 ⟨j.1, hfst j hj, beq_iff_eq.2 he⟩)
  · exact exec_through_temps (w := fun k => m2rW (size k.1.loc)) hnd (fun k hk => hlt _ (hfst k hk))
      (fun k hk => hset _ (hsnd k hk)) fun k hk => hsrc _ (hsnd k hk)

/-- Two phis that swap and a third that reads one of them. -/
def swapBlock : PhiBlock where
  pred := [2, 5]
  phis := [⟨0, 1⟩, ⟨1, 2⟩, ⟨2, 3⟩]
  inc := [[0, 0, 0], [2, 1, 1]]
  rows := rfl
  row_length := by decide

theorem emitEdgeCopies_parallel_swap :
    ∃ temps', execSeq (fun t => some (BitVec.ofInt 128 t)) (emitEdgeCopies (fun _ => 8) swapBlock 5 4).1 =
      some temps' ∧
      Assigned (swapBlock.phis.zip (swapBlock.inc.getD 1 [])) 4 (fun t => some (BitVec.ofInt 128 t))
        temps' :=
  emitEdgeCopies_parallel _ (by decide) (by decide) (by decide) (by decide) (by decide) (fun _ _ => rfl)

end EmbCC.Opt.Mem2reg
