import EmbCC.Opt.BlockFlow
import EmbCC.Opt.Held
import EmbCC.Opt.Idom.Correct

/-!
# Branches that a dominating branch has decided

`pass_brdom`: a branch on a register with one definition, in a block that is entered through one side
of a branch on the same register only, goes where that side says. At each point of the region
behind that side the register holds what the dominating branch found in it (`guarded_step`): the
region is entered through the branch, and the definition of the register is not in it.

It takes the side to be the only way in when its block has one predecessor. The entry block has
one more, the start of the function; without an edge back to it the decisions are right
(`passBrdom_decides`).
-/

namespace EmbCC.Opt.Brdom

open Option List Ir Trace Dominators Idom Prod

/-! ## The pass -/

/-- What the branch `j` at the end of `D` says of the register at the branch `i` of `b`, if one of
its two sides leads there alone: whether it is nonzero. What is found at one width holds at
a narrower one if it is zero, and at a wider one if it is not. -/
def knownBy (fn : Func) (bb : Blocks) (b D : ℕ) (i j : Ins) : Option Bool :=
  if isBranch j ∧ j.a = i.a ∧ 0 ≤ j.label then
    (l2b fn j.label).bind fun T =>
      let F := D + 1
      let dt := ((buildCfg fn).pred T).length = 1 ∧ bbDominates bb T b
      let df := F < nbb fn ∧ ((buildCfg fn).pred F).length = 1 ∧ bbDominates bb F b
      let known :=
        if T ≠ F ∧ dt ∧ ¬ df then some (j.op != .brz)
        else if T ≠ F ∧ df ∧ ¬ dt then some (j.op == .brz)
        else none
      known.filter fun nonzero =>
        ¬ (j.w ≠ i.w ∧ (j.w = 0 ∨ i.w = 0 ∨ if nonzero then i.w < j.w else i.w > j.w))
  else none

/-- The instructions as they are changed, and those that are to go. -/
structure Work where
  ins : List Ins
  dead : List ℕ

/-- The last instruction of a block. -/
def lastOf (fn : Func) (ins : List Ins) (b : ℕ) : Option Ins :=
  if bbEnd fn b > bbStart fn b then ins[bbEnd fn b - 1]? else none

/-- `vhead` and `vnext`: the blocks that end in a branch on `v`, the last first. -/
def condBlocks (fn : Func) (v : ℤ) : List ℕ :=
  ((List.range (nbb fn)).filter fun D => (bbLast fn D).any fun j => isBranch j ∧ j.a = v).reverse

/-- `cand`: those that dominate `b`, the deepest first. -/
def cands (fn : Func) (bb : Blocks) (b : ℕ) (v : ℤ) : List ℕ :=
  ((condBlocks fn v).filter fun D => D ≠ b ∧ bbDominates bb D b).insertionSort
    fun x y => bb.dpre y ≤ bb.dpre x

/-- The turn of the block `b`. -/
def turn (fn : Func) (bb : Blocks) (s : Work) (b : ℕ) : Work :=
  match lastOf fn s.ins b with
  | none => s
  | some i =>
    if isBranch i ∧ 0 ≤ i.a ∧ i.a < fn.nvregs ∧ (computeDefs fn).cnt i.a = 1 then
      match (cands fn bb b i.a).findSome? fun D => (lastOf fn s.ins D).bind (knownBy fn bb b D i) with
      | none => s
      | some nonzero =>
        if (i.op == .brz) != nonzero then
          { s with ins := s.ins.set (bbEnd fn b - 1) { i with op := .jmp, a := -1 } }
        else { s with dead := (bbEnd fn b - 1) :: s.dead }
    else s

/-- The loop of `pass_brdom`, where all blocks are reachable; `old` is what the blocks held before. -/
def brdom (fn : Func) (old : Blocks) : Work :=
  if fn.ins = [] ∨ (order (buildCfg fn)).length ≠ nbb fn then ⟨fn.ins, []⟩
  else (List.range (nbb fn)).foldl (turn fn (dominators (buildCfg fn) old)) ⟨fn.ins, []⟩

def passBrdom (fn : Func) (old : Blocks) : Func :=
  { fn with ins := ((brdom fn old).ins.zipIdx.filter fun p => p.2 ∉ (brdom fn old).dead).map fst }

/-! ## A side that leads there alone -/

/-- The block `S` is entered from the end of `D` only, where the branch `j` is taken (`taken`) or is not. -/
structure Guard (fn : Func) (D S : ℕ) (j : Ins) (taken : Bool) : Prop where
  at_end : InBlock fn D (bbEnd fn D - 1)
  last : fn.ins[bbEnd fn D - 1]? = some j
  br : j.op = .brz ∨ j.op = .brnz
  entry : S ≠ 0
  only : ∀ c, S ∈ succ fn c → c = D
  side : taken = true ∧ l2b fn j.label = some S ∧ S ≠ D + 1 ∨
    taken = false ∧ S = D + 1 ∧ l2b fn j.label ≠ some S

section
variable {W : Type} {E : Env W} {fn : Func} {D S pc : ℕ} {j i : Ins} {taken : Bool} (hwf : WF fn)
  (heh : fn.eh = []) (hwritten : WrittenFirst fn) (hG : Guard fn D S j taken) (honce : Once fn j.a)
  (hD : ∃ l, Path (buildCfg fn).Edge 0 l D) {s s' : St W} {o : Option Event}
include hwf hwritten hG honce hD

lemma not_def_in_region {c : ℕ} (hc : InBlock fn c pc) (hi : fn.ins[pc]? = some i)
    (hdom : Dom (buildCfg fn).Edge 0 S c) : j.a ∉ tempDefs i := by
  intro hdef
  have hsole := honce pc i hi hdef
  obtain ⟨l, hl⟩ := hD
  have havoid : Avoids (buildCfg fn).Edge 0 S D := hl.avoids_of_only hG.only (.root hG.entry.symm)
  have hread : j.a ∈ valueOpnds j := by rcases hG.br with h | h <;> simp [valueOpnds, eachRead, h]
  refine hwritten _ j hG.last j.a hread ?_
  refine unwritten_of_avoids hwf hsole.param (fun b hb m k hm hk hmk => ?_) havoid _ hG.at_end
  obtain rfl := hsole.only m k hk hmk
  obtain rfl := hm.unique hc
  exact dom_iff.1 hdom hb

/-- In the region the register holds what the branch found in it. -/
def Guarded (fn : Func) (S : ℕ) (j : Ins) (taken : Bool) (pc : ℕ) (s : St W) : Prop :=
  ∀ c, InBlock fn c pc → Dom (buildCfg fn).Edge 0 S c →
    ∃ x, s.temps j.a = some x ∧ brTaken j x = taken

omit hwritten honce hD in
/-- Entering the guarded side says how the branch went. -/
lemma guarded_enter (h : step fn.prog E (some (bbEnd fn D - 1, s)) = some (o, some (bbStart fn S, s')))
    (hS : S < nbb fn) : ∃ x, s'.temps j.a = some x ∧ brTaken j x = taken := by
  have hN : 0 < fn.ins.length := (Nat.zero_le _).trans_lt hG.at_end.lt
  have hSb := bbStart_inBlock hN hS
  have hstart {c : ℕ} (hc : InBlock fn c (bbStart fn S)) : c = S := hc.unique hSb
  cases hx : s.temps j.a with
  | none =>
    rw [step_branch_unset (prog_code hG.last) hG.br hx] at h
    cases h
  | some x =>
    rw [step_branch (prog_code hG.last) hG.br hx] at h
    split_ifs at h with ht
    · obtain ⟨hat, rfl, -⟩ := goto_eq_some h
      refine ⟨x, hx, ht.trans ?_⟩
      rcases hG.side with ⟨hside, -, -⟩ | ⟨-, -, hne⟩
      · exact hside.symm
      · have hplaced := hwf.placed j (mem_of_getElem? hG.last) j.label (by
          rcases hG.br with h | h <;> simp [eachLabel, h])
        obtain ⟨m, k, hk, hkl⟩ := exists_placed hplaced
        rw [labelAt_of_placed hwf hk hkl] at hat
        cases hat
        obtain ⟨c, hc, hcb, -⟩ := l2b_of_placed hwf hk hkl
        exact absurd (hstart hcb ▸ hc) hne
    · obtain ⟨-, h⟩ := mk.inj (some.inj h)
      obtain ⟨hpc, rfl⟩ := mk.inj (some.inj h)
      refine ⟨x, hx, (Bool.not_eq_true _ ▸ ht).trans ?_⟩
      rcases hG.side with ⟨-, -, hne⟩ | ⟨hside, -, -⟩
      · have hend : bbStart fn S = bbStart fn (D + 1) := by
          have h1 := hG.at_end.1
          have h2 := hG.at_end.2
          have h3 : bbEnd fn D = bbStart fn (D + 1) := rfl
          omega
        rcases Nat.lt_or_ge (D + 1) (nbb fn) with hlt | hge
        · exact absurd (hstart (hend ▸ bbStart_inBlock hN hlt)).symm hne
        · rw [nbb_eq hN] at hge
          have hlen := bbStart_of_ge hge
          exact absurd hSb.lt (by omega)
      · exact hside.symm

include heh in
/-- A step inside the guarded part keeps what the branch said. -/
lemma guarded_step {pc' : ℕ} (hs : TakenInv fn s) (hguard : Guarded fn S j taken pc s) (hi : fn.ins[pc]? = some i)
    (h : step fn.prog E (some (pc, s)) = some (o, some (pc', s'))) : Guarded fn S j taken pc' s' := by
  intro c' hc' hdom'
  obtain ⟨c, hc⟩ := exists_inBlock (getElem?_lt hi)
  have hkeep (hdom : Dom (buildCfg fn).Edge 0 S c) : ∃ x, s'.temps j.a = some x ∧ brTaken j x = taken := by
    obtain ⟨x, hx, ht⟩ := hguard c hc hdom
    refine ⟨x, Eq.trans ?_ hx, ht⟩
    have hnot := not_def_in_region hwf hwritten hG honce hD hc hi hdom
    rcases step_writes hs hi h with ⟨htemps, -⟩ | ⟨vs, rs, world, -, -, -, rfl, -⟩
    · rw [htemps]
    · exact after_temps_of_not_mem hnot _ _
  cases flow_moves hwf heh hc (flow_of_step hs hi h) with
  | inside hlt =>
    obtain rfl := hc'.unique ⟨hc.1.trans (Nat.le_succ pc), hlt⟩
    exact hkeep hdom'
  | @edge d hend hd =>
    have hN : 0 < fn.ins.length := (Nat.zero_le pc).trans_lt hc.lt
    have hlt := mem_succCands_lt (mem_succ.1 hd)
    obtain rfl := hc'.unique (bbStart_inBlock hN hlt)
    by_cases hdS : c' = S
    · subst hdS
      obtain rfl := hG.only c hd
      obtain rfl : pc = bbEnd fn c - 1 := by omega
      exact guarded_enter hwf hG h hlt
    · exact hkeep (hdom'.of_edge hd hdS)
  | off => exact absurd hc'.lt (lt_irrefl _)

include heh in
/-- What the branch said holds wherever a run is in the guarded part. -/
lemma guarded_reaches {s₀ : St W} (hs₀ : Entry fn s₀) : ∀ cfg, Reaches (step fn.prog E) (some (0, s₀)) cfg → ∀ pc s,
    cfg = some (pc, s) → TakenInv fn s ∧ Guarded fn S j taken pc s := by
  refine reaches_invariant (I := fun pc s => TakenInv fn s ∧ Guarded fn S j taken pc s)
    ⟨fun l hl => ?_, fun c hc hdom => ?_⟩ fun _ hinv hi h =>
      ⟨takenInv_step hinv.1 hi h, guarded_step hwf heh hwritten hG honce hD hinv.1 hinv.2 hi h⟩
  · rw [hs₀.taken] at hl
    cases hl
  · have hN : 0 < fn.ins.length := hc.lt
    have h0 : InBlock fn 0 0 := by
      have := bbStart_inBlock hN (buildCfg fn).nbb_pos
      rwa [bbStart_zero] at this
    obtain rfl := hc.unique h0
    exact absurd (List.mem_singleton.1 (hdom [0] (.nil 0))) hG.entry

end

variable {w w' : ℕ} {x : Val}

lemma isZero_of_le (h : w' ≤ w) (hx : isZero w x = true) : isZero w' x = true := by
  simp only [isZero, beq_iff_eq] at hx ⊢
  have hdvd : 2 ^ (8 * w') ∣ 2 ^ (8 * w) := pow_dvd_pow 2 (by omega)
  exact Nat.mod_eq_zero_of_dvd (hdvd.trans (Nat.dvd_of_mod_eq_zero hx))

lemma isZero_of_widths {nonzero : Bool} (hx : isZero w x = !nonzero)
    (hw : ¬ (w ≠ w' ∧ (w = 0 ∨ w' = 0 ∨ if nonzero then w' < w else w' > w))) : isZero w' x = !nonzero := by
  by_cases heq : w = w'
  · rwa [← heq]
  · have hside : ¬ if nonzero then w' < w else w' > w := fun h => hw ⟨heq, .inr (.inr h)⟩
    cases nonzero with
    | false =>
      rw [if_neg (by decide)] at hside
      exact isZero_of_le (by omega) hx
    | true =>
      rw [if_pos rfl] at hside
      by_contra hz
      have hz : isZero w' x = true := by simpa using hz
      rw [isZero_of_le (by omega : w ≤ w') hz] at hx
      cases hx

section
variable {fn : Func} {old : Blocks} {b D S : ℕ} {i j : Ins}

lemma mem_succ_of_br (hlast : bbLast fn D = some j) (hbr : j.op = .brz ∨ j.op = .brnz)
    (h : l2b fn j.label = some S ∨ S = D + 1 ∧ D + 1 < nbb fn) : S ∈ succ fn D := by
  rw [mem_succ]
  have hmem : S ∈ (l2b fn j.label).toList ++ bbNext fn D := by
    rcases h with h | ⟨rfl, hlt⟩
    · simp [h]
    · simp [bbNext, hlt]
  rcases hbr with hop | hop <;> simpa only [succCands, hlast, hop] using hmem

lemma only_of_pred (hlen : ((buildCfg fn).pred S).length = 1) (hD : D < nbb fn)
    (hS : S ∈ succ fn D) {c : ℕ} (hc : S ∈ succ fn c) : c = D := by
  obtain ⟨p, hp⟩ := List.length_eq_one_iff.1 hlen
  have hmem {a : ℕ} (ha : a < nbb fn) (hSa : S ∈ succ fn a) : a = p := by
    have : a ∈ (buildCfg fn).pred S := mem_pred.2 ⟨ha, hSa⟩
    rwa [hp, mem_singleton] at this
  have hcn : c < nbb fn := by
    by_contra hge
    have hN : ¬ bbEnd fn c > bbStart fn c := by
      rw [bbEnd, bbStart_of_ge, bbStart_of_ge]
      · omega
      all_goals
        rw [nbb] at hge
        split_ifs at hge <;> omega
    rw [mem_succ, succCands, bbLast, if_neg hN] at hc
    cases hc
  exact (hmem hcn hc).trans (hmem hD hS).symm

/-- A side that leads there alone guards the block. -/
lemma knownBy_spec (hord : ∀ b < nbb fn, b ∈ order (buildCfg fn)) (hentry : ∀ c < nbb fn, 0 ∉ succ fn c) (hb : b < nbb fn)
    (hD : D < nbb fn) (hlast : bbLast fn D = some j) {nonzero : Bool} (h : knownBy fn
    (dominators (buildCfg fn) old) b D i j = some nonzero) : ∃ S taken, Guard fn D S j taken ∧ Dom (buildCfg fn).Edge 0 S b
    ∧ j.a = i.a ∧ ∀ x, brTaken j x = taken → isZero i.w x = !nonzero := by
  unfold knownBy at h
  split_ifs at h with hform
  obtain ⟨hbr, ha, -⟩ := hform
  have hbr := isBranch_iff.1 hbr
  obtain ⟨T, hT, h⟩ := Option.bind_eq_some_iff.1 h
  obtain ⟨hin, hj⟩ := bbLast_spec hlast
  obtain ⟨h, hw⟩ := Option.filter_eq_some_iff.1 h
  have hw := of_decide_eq_true hw
  have hguard {S : ℕ} {taken : Bool} (hS : S ∈ succ fn D) (hpred : ((buildCfg fn).pred S).length = 1)
      (hside : taken = true ∧ l2b fn j.label = some S ∧ S ≠ D + 1 ∨
        taken = false ∧ S = D + 1 ∧ l2b fn j.label ≠ some S) : Guard fn D S j taken := by
    refine ⟨hin, hj, hbr, ?_, fun c hc => only_of_pred hpred hD hS hc, hside⟩
    rintro rfl
    exact hentry D hD hS
  have hdom {S : ℕ} (hS : S < nbb fn) (h : bbDominates (dominators (buildCfg fn) old) S b = true) :
      Dom (buildCfg fn).Edge 0 S b := (bbDominates_iff_dom (hord S hS) (hord b hb)).1 h
  have hzero {taken : Bool} (hside : nonzero = !((j.op == .brz) == taken)) (x : Val)
      (hx : brTaken j x = taken) : isZero i.w x = !nonzero := by
    refine isZero_of_widths ?_ hw
    rw [← hx] at hside
    rw [hside, brTaken]
    cases (j.op == .brz) <;> cases isZero j.w x <;> rfl
  split_ifs at h with h1 h2
  · have hS := mem_succ_of_br hlast hbr (.inl hT)
    refine ⟨T, true, hguard hS h1.2.1.1 (.inl ⟨rfl, hT, h1.1⟩), hdom (l2b_spec hT).1 h1.2.1.2, ha, hzero ?_⟩
    rw [← some.inj h]
    cases hop : (j.op == .brz) <;> simp [bne, hop]
  · obtain ⟨hne, ⟨hlt, hpred, hd⟩, -⟩ := h2
    have hS := mem_succ_of_br hlast hbr (.inr ⟨rfl, hlt⟩)
    refine ⟨D + 1, false, hguard hS hpred (.inr ⟨rfl, rfl, ?_⟩), hdom hlt hd, ha, hzero ?_⟩
    · rw [hT]
      simpa using hne
    · rw [← some.inj h]
      cases hop : (j.op == .brz) <;> rfl

end

/-! ## The branches decided -/

section
variable {W : Type} (E : Env W) (fn : Func) (s₀ : St W)

/-- Whenever a run comes to the branch, it is taken (`taken`) or is not. -/
def Decided (n : ℕ) (i : Ins) (taken : Bool) : Prop :=
  isBranch i = true ∧ ∀ s, Reaches (step fn.prog E) (some (0, s₀)) (some (n, s)) →
    ∃ x, s.temps i.a = some x ∧ brTaken i x = taken

/-- A branch that became a jump is taken, and one that is to go is not. -/
structure Sound (k : Work) : Prop where
  ins : ∀ n, k.ins[n]? = fn.ins[n]? ∨ ∃ i, fn.ins[n]? = some i ∧
    k.ins[n]? = some { i with op := .jmp, a := -1 } ∧ Decided E fn s₀ n i true
  dead : ∀ n ∈ k.dead, ∃ i, fn.ins[n]? = some i ∧ Decided E fn s₀ n i false

end

section
variable {W : Type} {E : Env W} {fn : Func} {s₀ : St W} {old : Blocks} (hwf : WF fn) (heh : fn.eh = [])
  (hwritten : WrittenFirst fn) (hentry : ∀ c < nbb fn, 0 ∉ succ fn c) (hs₀ : Entry fn s₀) {k : Work} {b : ℕ}

lemma Sound.branch (h : Sound E fn s₀ k) {i : Ins} (hi : lastOf fn k.ins b = some i)
    (hbr : isBranch i) : bbLast fn b = some i := by
  unfold lastOf at hi
  split_ifs at hi with hlt
  rw [bbLast, if_pos hlt]
  rcases h.ins (bbEnd fn b - 1) with heq | ⟨i', -, hi', -⟩
  · rw [← heq, hi]
  · rw [hi'] at hi
    cases hi
    simp [isBranch] at hbr

include hwf heh hwritten hentry hs₀

/-- One turn of the pass decides rightly. -/
lemma sound_turn (hord : ∀ b < nbb fn, b ∈ order (buildCfg fn)) (h : Sound E fn s₀ k)
    (hb : b < nbb fn) : Sound E fn s₀ (turn fn (dominators (buildCfg fn) old) k b) := by
  unfold turn
  split
  · exact h
  rename_i i hi
  split_ifs with hform
  · obtain ⟨hbr, h0, hlt, hcnt⟩ := hform
    have hlast := h.branch hi hbr
    obtain ⟨hin, hins⟩ := bbLast_spec hlast
    split
    · exact h
    rename_i nonzero hknown
    obtain ⟨D, hDmem, hD⟩ := exists_of_findSome?_eq_some hknown
    obtain ⟨j, hj, hD⟩ := Option.bind_eq_some_iff.1 hD
    have hjbr : isBranch j := by
      unfold knownBy at hD
      split_ifs at hD with hjform
      exact hjform.1
    have hjlast := h.branch hj hjbr
    have hDlt : D < nbb fn := (bbLast_spec hjlast).1.block_lt
    obtain ⟨S, taken, hG, hdom, ha, hzero⟩ := knownBy_spec hord hentry hb hDlt hjlast hD
    have honce : Once fn j.a := by
      rw [ha]
      exact once_of_cnt h0 hlt hcnt
    have hdecided (t : Bool) (ht : ((i.op == .brz) != nonzero) = t) : Decided E fn s₀ (bbEnd fn b - 1) i t := by
      refine ⟨hbr, fun s hreach => ?_⟩
      obtain ⟨-, hguard⟩ := guarded_reaches hwf heh hwritten hG honce (path_of_mem_order (hord D hDlt)) hs₀ _ hreach _ s rfl
      obtain ⟨x, hx, hxt⟩ := hguard b hin hdom
      refine ⟨x, ha ▸ hx, ?_⟩
      rw [← ht, brTaken, hzero x hxt]
      cases (i.op == .brz) <;> cases nonzero <;> rfl
    split_ifs with ht
    · refine ⟨fun n => ?_, h.dead⟩
      by_cases hn : n = bbEnd fn b - 1
      · subst hn
        refine .inr ⟨i, hins, getElem?_set_self ?_, hdecided true ht⟩
        unfold lastOf at hi
        split_ifs at hi
        exact getElem?_lt hi
      · rw [getElem?_set_ne (Ne.symm hn)]
        exact h.ins n
    · refine ⟨h.ins, fun n hn => ?_⟩
      rcases List.mem_cons.1 hn with rfl | hn
      · exact ⟨i, hins, hdecided false (by simpa using ht)⟩
      · exact h.dead n hn
  · exact h

/-- So does the whole pass. -/
lemma sound_brdom : Sound E fn s₀ (brdom fn old) := by
  have hstart : Sound E fn s₀ ⟨fn.ins, []⟩ := ⟨fun _ => .inl rfl, fun n hn => by cases hn⟩
  unfold brdom
  split_ifs with hskip
  · exact hstart
  have hord := mem_order_of_length (not_not.1 fun h => hskip (.inr h))
  have hfold (l : List ℕ) (hl : ∀ b ∈ l, b < nbb fn) (k : Work) (hk : Sound E fn s₀ k) :
      Sound E fn s₀ (l.foldl (turn fn (dominators (buildCfg fn) old)) k) := by
    induction l generalizing k with
    | nil => exact hk
    | cons b l ih =>
      exact ih (fun c hc => hl c (.tail _ hc)) _ (sound_turn hwf heh hwritten hentry hs₀ hord hk (hl b (.head _)))
  exact hfold _ (fun b hb => List.mem_range.1 hb) _ hstart

variable (old) in
/-- Where no edge goes back to the entry block: whenever a run comes to a branch that became a jump it is
taken, and whenever it comes to one that is deleted it is not. -/
theorem passBrdom_decides {pc : ℕ} {s : St W} {i : Ins}
    (hreach : Reaches (step fn.prog E) (some (0, s₀)) (some (pc, s))) (hi : fn.ins[pc]? = some i) :
    ((brdom fn old).ins[pc]? ≠ some i → (brdom fn old).ins[pc]? = some { i with op := .jmp, a := -1 } ∧
      ∃ v, s.temps i.a = some v ∧ brTaken i v = true) ∧
    (pc ∈ (brdom fn old).dead → isBranch i = true ∧ ∃ v, s.temps i.a = some v ∧ brTaken i v = false) := by
  have hsound := @sound_brdom W E fn s₀ old hwf heh hwritten hentry hs₀
  refine ⟨fun hne => ?_, fun hdead => ?_⟩
  · rcases hsound.ins pc with heq | ⟨j, hj, hjmp, -, hrun⟩
    · exact absurd (heq.trans hi) hne
    · obtain rfl := mem_unique hj hi
      exact ⟨hjmp, hrun s hreach⟩
  · obtain ⟨j, hj, hbr, hrun⟩ := hsound.dead pc hdead
    obtain rfl := mem_unique hj hi
    exact ⟨hbr, hrun s hreach⟩

end

/-- A register that is tested again on both sides of a test. -/
def nested : Func where
  ins := [{ op := .const, dst := 0, w := 8, imm := 1 }, { op := .brz, a := 0, w := 8, label := 0 },
    { op := .brnz, a := 0, w := 8, label := 1 }, { op := .ret, a := 0 },
    { op := .label, label := 0 }, { op := .brnz, a := 0, w := 4, label := 1 }, { op := .ret, a := 0 },
    { op := .label, label := 1 }, { op := .ret, a := 0 }]
  nvregs := 1
  nlabels := 2

lemma nested_wf : WF nested := ⟨by decide, by decide, by decide, by decide, by decide⟩

lemma nested_written : WrittenFirst nested :=
  writtenFirst_of_table rfl ([] :: replicate 8 [0]) (by decide) (by decide) (by decide)

lemma nested_entry : ∀ c < nbb nested, 0 ∉ succ nested c := by decide +kernel

/-- One of the inner tests becomes a jump, the other goes. -/
theorem passBrdom_decides_nested :
    ((passBrdom nested unset).ins.map (·.op) = [.const, .brz, .jmp, .ret, .label, .ret, .label, .ret]) ∧
    ∃ s v, Reaches (step nested.prog Env.bare) (some (0, St.blank)) (some (2, s)) ∧
      s.temps 0 = some v ∧ brTaken { op := .brnz, a := 0, w := 8, label := 1 } v = true := by
  have hreach : Reaches (step nested.prog Env.bare) (some (0, St.blank)) _ :=
    .of_after 2 rfl
  obtain ⟨-, v, hv, ht⟩ := (passBrdom_decides unset nested_wf rfl nested_written nested_entry
    (blank_entry _) hreach rfl).1 (by decide +kernel)
  exact ⟨by decide +kernel, _, v, hreach, hv, ht⟩

/-- A loop at the entry: the block of the label is entered from the branch and from the start. -/
def atEntry : Func where
  ins := [{ op := .label, label := 0 }, { op := .const, dst := 0, w := 4, imm := 0 },
    { op := .brnz, a := 0, w := 4, label := 0 }, { op := .label, label := 1 },
    { op := .brnz, a := 0, w := 4, label := 2 }, { op := .jmp, label := 1 },
    { op := .label, label := 2 }, { op := .ret, a := 0 }]
  nvregs := 1
  nlabels := 3

/-- The second branch becomes a jump, and is not taken. -/
theorem passBrdom_atEntry :
    WF atEntry ∧ (order (buildCfg atEntry)).length = nbb atEntry ∧ WrittenFirst atEntry ∧
      (brdom atEntry unset).ins[4]? = some { op := .jmp, a := -1, w := 4, label := 2 } ∧
      ∃ s v, Reaches (step atEntry.prog Env.bare) (some (0, St.blank)) (some (4, s)) ∧
        s.temps 0 = some v ∧ brTaken { op := .brnz, a := 0, w := 4, label := 2 } v = false := by
  have hreach : Reaches (step atEntry.prog Env.bare) (some (0, St.blank)) _ :=
    .of_after 4 rfl
  exact ⟨⟨by decide, by decide, by decide, by decide, by decide⟩, by decide +kernel,
    writtenFirst_of_table rfl ([] :: [] :: replicate 6 [0]) (by decide) (by decide) (by decide), by decide +kernel,
    _, _, hreach, rfl, by decide +kernel⟩

end EmbCC.Opt.Brdom
