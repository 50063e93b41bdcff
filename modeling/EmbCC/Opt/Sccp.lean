import EmbCC.Lib.Worklist
import EmbCC.Ir.Compact
import EmbCC.Opt.Cfg

/-!
# Conditional constant propagation

`sccp_core` resolves a branch whose condition is a constant and drops the
blocks that no live edge reaches. The rebuild is the code with some
instructions marked (`sccpMark`) and the gaps closed; the marked code runs as
the original does, as long as the branches it resolves test all of the
constant that is not zero. A branch narrower than its constant may be resolved the wrong way:
the pass looks at the 64-bit constant, the branch at its low `w` bytes.
-/

namespace EmbCC.Opt

open Option List Ir Trace

/-! ## The passes -/

/-- `taken`: which way the pass resolves a branch on the constant `v`. -/
def sccpTaken (t : Ins) (v : BitVec 64) : Bool := if t.op = .brz then v == 0 else v != 0

/-- `live_only[b]`: the sole live edge of a block. -/
def liveOnly (fn : Func) (foldBranches : Bool) (b : ℕ) : Option ℕ :=
  (bbLast fn b).bind fun t =>
    if foldBranches = false ∨ (t.op ≠ .brz ∧ t.op ≠ .brnz) then none
    else (soleDef fn t.a).bind fun c =>
      if c.op ≠ .const then none
      else
        let want := if sccpTaken t c.imm then 0 else 1
        -- only if that edge exists
        if want < (succ fn b).length then some want else none

/-- The blocks whose label's address the block takes. -/
def addrSuccs (fn : Func) (b : ℕ) : List ℕ :=
  (range' (bbStart fn b) (bbEnd fn b - bbStart fn b)).flatMap fun n =>
    match fn.ins[n]? with
    | some i => if i.op = .labeladdr then (l2bIn fn i.label).toList else []
    | none => []

/-- What a reachable block makes reachable. -/
def liveSuccs (fn : Func) (foldBranches : Bool) (b : ℕ) : List ℕ :=
  addrSuccs fn b ++
    match liveOnly fn foldBranches b with
    | some w => ((succ fn b)[w]?).toList
    | none => succ fn b

/-- `reach`: the blocks reachable over the live edges. -/
def sccpReach (fn : Func) (foldBranches : Bool) : List ℕ :=
  Worklist.close (liveSuccs fn foldBranches) (nbb fn) ([0], [0])

/-- The instructions from `lo` up to `hi`. -/
def codeRange (fn : Func) (lo hi : ℕ) : List Ins :=
  (range' lo (hi - lo)).filterMap fun n => fn.ins[n]?

/-- The jump to the live successor; none if that has no label and is fallen into. -/
def sccpJump (fn : Func) (b w : ℕ) : Option Ins :=
  (((succ fn b)[w]?).bind (bbLabel fn)).map fun l => { op := .jmp, label := l }

/-- What the rebuild emits for a block. -/
def sccpBlock (fn : Func) (foldBranches : Bool) (b : ℕ) : List Ins :=
  if b ∈ sccpReach fn foldBranches then
    match liveOnly fn foldBranches b with
    | some w => codeRange fn (bbStart fn b) (bbEnd fn b - 1) ++ (sccpJump fn b w).toList
    | none => codeRange fn (bbStart fn b) (bbEnd fn b)
  else []

def sccpCore (fn : Func) (foldBranches : Bool) : Func :=
  if fn.ins.length = 0 then fn
  else if ∃ b ∈ range (nbb fn), b ∉ sccpReach fn foldBranches ∨
      (liveOnly fn foldBranches b).isSome then
    { fn with ins := (range (nbb fn)).flatMap (sccpBlock fn foldBranches) }
  else fn

def passSccp (fn : Func) : Func := sccpCore fn true

/-- `drop_unreachable`: only the second half. -/
def dropUnreachable (fn : Func) : Func := sccpCore fn false

section
variable {fn : Func} {fb : Bool}
variable {b c : ℕ}

lemma bbNext_lt (h : c ∈ bbNext fn b) : c < nbb fn := by
  unfold bbNext at h
  split at h <;> simp_all

lemma succ_lt (h : c ∈ succ fn b) : c < nbb fn := by
  have hl2b : ∀ {l : ℤ}, c ∈ (l2b fn l).toList → c < nbb fn := fun h =>
    (l2b_spec (mem_toList.1 h)).1
  have hl2bIn : ∀ {l : ℤ}, c ∈ (l2bIn fn l).toList → c < nbb fn := by
    intro l h
    unfold l2bIn at h
    split at h
    · exact hl2b h
    · cases h
  rw [mem_succ, succCands] at h
  split at h
  · cases h
  · rename_i i _
    split at h
    case h_1 | h_2 => cases h
    case h_3 => exact hl2b h
    case h_4 | h_5 => exact (mem_append.1 h).elim hl2b bbNext_lt
    case h_6 =>
      rcases mem_append.1 h with h | h
      · exact hl2bIn h
      · obtain ⟨l, -, hl⟩ := mem_flatMap.1 h
        exact hl2bIn hl
    case h_7 =>
      obtain ⟨l, -, hl⟩ := mem_flatMap.1 h
      split at hl
      · exact hl2b hl
      · cases hl
    case h_8 => exact bbNext_lt h

lemma liveSuccs_lt (h : c ∈ liveSuccs fn fb b) : c < nbb fn := by
  rcases mem_append.1 h with h | h
  · obtain ⟨n, -, hn⟩ := mem_flatMap.1 h
    split at hn
    · split at hn
      · rename_i i _ _
        unfold l2bIn at hn
        split at hn
        · exact (l2b_spec (mem_toList.1 hn)).1
        · cases hn
      · cases hn
    · cases hn
  · split at h
    · exact succ_lt (mem_of_getElem? (mem_toList.1 h))
    · exact succ_lt h

lemma sccpReach_closed (fn : Func) (fb : Bool) : 0 ∈ sccpReach fn fb ∧
    ∀ b ∈ sccpReach fn fb, ∀ c ∈ liveSuccs fn fb b, c ∈ sccpReach fn fb := by
  have h := @Worklist.close_from _ _ 0 (liveSuccs fn fb) (Finset.range (nbb fn))
    (fun b c hc => Finset.mem_range.2 (liveSuccs_lt hc)) (Finset.mem_range.2 (nbb_pos fn))
  rwa [Finset.card_range] at h

lemma reach_succ (hb : b ∈ sccpReach fn fb) (hn : liveOnly fn fb b = none) (hc : c ∈ succ fn b) : c ∈ sccpReach fn fb :=
  (sccpReach_closed fn fb).2 b hb c (mem_append_right _ (by rw [hn]; exact hc))

lemma reach_live {w : ℕ} (hb : b ∈ sccpReach fn fb) (hw : liveOnly fn fb b = some w)
    (hc : (succ fn b)[w]? = some c) : c ∈ sccpReach fn fb :=
  (sccpReach_closed fn fb).2 b hb c (mem_append_right _ (by rw [hw]; exact mem_toList.2 hc))

end

/-! ## The code with the dead blocks marked -/

/-- The block of an instruction. -/
noncomputable def blockOf (fn : Func) (n : ℕ) : ℕ :=
  if h : n < fn.ins.length then (exists_inBlock h).choose else 0

lemma blockOf_eq {fn : Func} {b n : ℕ} (h : InBlock fn b n) : blockOf fn n = b := by
  rw [blockOf, dif_pos h.lt]
  exact (exists_inBlock h.lt).choose_spec.unique h

/-- What stands at instruction `n` of block `b`: nothing in a block that is dropped, the jump in
place of a resolved branch. -/
def sccpMark (fn : Func) (fb : Bool) (b n : ℕ) : Option Ins :=
  if b ∈ sccpReach fn fb then
    match liveOnly fn fb b with
    | some w => if n + 1 = bbEnd fn b then sccpJump fn b w else fn.ins[n]?
    | none => fn.ins[n]?
  else none

/-- The marked code. -/
noncomputable def sccpMarked (fn : Func) (fb : Bool) : List (Option Ins) :=
  (range fn.ins.length).map fun n => sccpMark fn fb (blockOf fn n) n

section
variable {fn : Func} {fb : Bool}

lemma sccpMarked_getElem {b n : ℕ} (h : InBlock fn b n) : (sccpMarked fn fb)[n]? = some (sccpMark fn fb b n) := by
  simp [sccpMarked, h.lt, blockOf_eq h]

lemma sccpMarked_end : (sccpMarked fn fb)[fn.ins.length]? = none := by simp [sccpMarked]

lemma sccpBlock_eq {b : ℕ} (hN : 0 < fn.ins.length) (hb : b < nbb fn) :
    (range' (bbStart fn b) (bbEnd fn b - bbStart fn b)).filterMap (sccpMark fn fb b) = sccpBlock fn fb b := by
  have hlt : bbStart fn b < bbEnd fn b := (bbStart_inBlock hN hb).2
  unfold sccpBlock
  split_ifs with hr
  · split
    · rename_i w hw
      have hsplit : bbEnd fn b - bbStart fn b = bbEnd fn b - 1 - bbStart fn b + 1 := by omega
      have hlast : bbStart fn b + (bbEnd fn b - 1 - bbStart fn b) = bbEnd fn b - 1 := by omega
      rw [hsplit, range'_1_concat, filterMap_append, codeRange, hlast]
      congr 1
      · refine filterMap_congr fun n hn => ?_
        have hn' := List.mem_range'_1.1 hn
        simp only [sccpMark, hr, hw, if_true]
        rw [if_neg (by omega)]
      · have hend : bbEnd fn b - 1 + 1 = bbEnd fn b := by omega
        simp only [filterMap_cons, filterMap_nil, sccpMark, hr, hw, hend, if_true]
        cases sccpJump fn b w <;> rfl
    · rename_i hw
      refine filterMap_congr fun n _ => ?_
      simp only [sccpMark, hr, hw, if_true]
  · exact List.filterMap_eq_nil_iff.2 fun n _ => by simp [sccpMark, hr]

lemma rebuild_eq (hN : 0 < fn.ins.length) :
    (range (nbb fn)).flatMap (sccpBlock fn fb) = (sccpMarked fn fb).reduceOption := by
  rw [sccpMarked, reduceOption, filterMap_map, range_eq_flatMap hN, filterMap_flatMap]
  refine flatMap_congr fun b hb => ?_
  rw [← sccpBlock_eq hN (List.mem_range.1 hb)]
  refine filterMap_congr fun n hn => ?_
  have hn' := List.mem_range'_1.1 hn
  simp only [Function.comp, id]
  rw [blockOf_eq ⟨hn'.1, by omega⟩]

end

section
variable {fn : Func} {fb : Bool}
variable {b n : ℕ} {i : Ins} {l : ℤ}

/-- When the pass resolves the branch of a block. -/
lemma liveOnly_spec {w : ℕ} (h : liveOnly fn fb b = some w) : fb = true ∧ ∃ i c, bbLast fn b = some i
    ∧ (i.op = .brz ∨ i.op = .brnz) ∧ soleDef fn i.a = some c ∧ c.op = .const ∧ w = (if sccpTaken i c.imm then 0 else 1)
    ∧ w < (succ fn b).length := by
  obtain ⟨i, hi, h⟩ := Option.bind_eq_some_iff.1 h
  split at h
  · cases h
  · rename_i hbr
    push Not at hbr
    obtain ⟨c, hc, h⟩ := Option.bind_eq_some_iff.1 h
    split at h
    · cases h
    · rename_i hconst
      obtain ⟨hlt, hw⟩ := Option.ite_none_right_eq_some.1 h
      cases hw
      refine ⟨by simpa using hbr.1, i, c, hi, ?_, hc, not_not.1 hconst, rfl, hlt⟩
      by_cases hz : i.op = .brz
      · exact .inl hz
      · exact .inr (hbr.2 hz)

lemma succ_branch {t : ℕ} (hi : bbLast fn b = some i) (hop : i.op = .brz ∨ i.op = .brnz) (ht : l2b fn i.label = some t) :
    (succ fn b)[0]? = some t ∧ ∀ c, (succ fn b)[1]? = some c → c = b + 1 := by
  have hcands : succCands fn b = t :: bbNext fn b := by
    rcases hop with hop | hop <;> simp [succCands, hi, hop, ht]
  rw [succ, hcands, foldl_cons, bbNext]
  split
  · simp only [foldl_cons, foldl_nil, cfgSucc]
    by_cases hbt : b + 1 = t <;> simp [hbt, eq_comm]
  · simp [cfgSucc]

lemma sccpMark_label (hb : InBlock fn b n) (hr : b ∈ sccpReach fn fb) (hi : fn.ins[n]? = some i)
    (hl : placedLabel i = some l) : sccpMark fn fb b n = some i := by
  unfold sccpMark
  rw [if_pos hr]
  split
  · rename_i w hw
    rw [if_neg, hi]
    intro hend
    obtain ⟨-, j, c, hj, hop, -⟩ := liveOnly_spec hw
    rw [bbLast_eq hb hi hend] at hj
    cases hj
    rw [(placedLabel_eq_some.1 hl).1] at hop
    simp at hop
  · exact hi

lemma placed_of_sccpMark {j : Ins} (h : sccpMark fn fb b n = some j)
    (hl : placedLabel j = some l) : fn.ins[n]? = some j := by
  have hjump : ∀ w, sccpJump fn b w ≠ some j := by
    intro w hw
    obtain ⟨l', -, rfl⟩ := Option.map_eq_some_iff.1 hw
    simp [placedLabel] at hl
  unfold sccpMark at h
  split at h
  · split at h
    · split at h
      · exact absurd h (hjump _)
      · exact h
    · exact h
  · cases h

/-! ## Steps -/

/-- The marked code as it runs. -/
noncomputable def sccpProg (fn : Func) (fb : Bool) : Prog := ⟨sccpMarked fn fb, fn.jt, fn.eh⟩

lemma sccpProg_labelAt (hwf : WF fn) (hb : InBlock fn b n) (hr : b ∈ sccpReach fn fb) (hi : fn.ins[n]? = some i)
    (hl : placedLabel i = some l) : (sccpProg fn fb).labelAt l = some n := by
  have hcode : (sccpProg fn fb).code[n]? = some (some i) := by
    rw [sccpProg, sccpMarked_getElem hb, sccpMark_label hb hr hi hl]
  refine labelAt_eq_some hcode (isLabel_some.2 hl) fun m j hm hj hjl => ?_
  obtain ⟨c, hc⟩ := exists_inBlock (hm.trans hb.lt)
  rw [sccpProg, sccpMarked_getElem hc, some.injEq] at hj
  rw [isLabel_some] at hjl
  have := label_unique hwf.once (placed_of_sccpMark hj hjl) hi hjl hl
  omega

end

/-- A branch that the pass may resolve is as wide as its constant: where the constant is not
zero, the low bytes that the branch tests are not. -/
def BranchOk (fn : Func) (i : Ins) : Prop :=
  ∀ c, soleDef fn i.a = some c → c.op = .const → c.imm ≠ 0 →
    isZero i.w (ofLong (norm c.imm c.w)) = false

lemma isZero_zero (w : ℕ) : isZero w (ofLong 0) = true := by simp [isZero, ofLong]

lemma norm_zero (w : ℕ) : Ir.norm 0 w = 0 := by
  unfold Ir.norm
  split <;> rfl

lemma sccpTaken_eq_brTaken {i c : Ins} (hop : i.op = .brz ∨ i.op = .brnz) :
    sccpTaken i c.imm = brTaken i (ofLong (norm c.imm c.w)) ↔ (c.imm ≠ 0 → isZero i.w (ofLong (norm c.imm c.w)) = false) := by
  by_cases h0 : c.imm = 0
  · rw [h0, norm_zero, brTaken, isZero_zero]
    rcases hop with hop | hop <;> simp [sccpTaken, hop]
  · have hne : (c.imm == 0) = false := by simpa using h0
    simp only [ne_eq, h0, not_false_eq_true, true_imp_iff, sccpTaken, brTaken, bne, hne]
    rcases hop with hop | hop <;> rw [hop] <;> cases isZero i.w (ofLong (Ir.norm c.imm c.w)) <;> decide

/-- What holds at every point of a run: constants are where the pass thinks, and the run is in a
block that is kept. -/
structure SccpInv {W : Type} (fn : Func) (fb : Bool) (pc : ℕ) (s : St W) : Prop where
  consts : ConstInv fn s
  taken : TakenInv fn s
  place : pc = fn.ins.length ∨ ∃ b ∈ sccpReach fn fb, InBlock fn b pc

section
variable {W : Type} {E : Env W} {fn : Func} {fb : Bool} {b pc : ℕ} {s : St W}

/-- A resolved branch goes to the side that is kept. -/
lemma step_resolved (hwf : WF fn) {w : ℕ} (hb : InBlock fn b pc) (hr : b ∈ sccpReach fn fb) (hw : liveOnly fn fb b = some w)
    (hend : pc + 1 = bbEnd fn b) (hs : ConstInv fn s) (hok : ∀ i, fn.ins[pc]? = some i → BranchOk fn i) : step fn.prog E
    (some (pc, s)) = some (some .unset, none) ∨ ∃ n, step fn.prog E (some (pc, s)) = some (none, some (n, s)) ∧ step
    (sccpProg fn fb) E (some (pc, s)) = some (none, some (n, s)) ∧ ∃ c ∈ sccpReach fn fb, InBlock fn c n := by
  obtain ⟨-, i, c, hlast, hop, hc, hconst, hwant, hlt⟩ := liveOnly_spec hw
  have hi : fn.ins[pc]? = some i := by
    have := (bbLast_spec hlast).2
    rwa [← hend, Nat.add_sub_cancel] at this
  have hN : 0 < fn.ins.length := (Nat.zero_le pc).trans_lt hb.lt
  rcases hs i.a c hc hconst with hv | hv
  · exact .inl (step_branch_unset (prog_code hi) hop hv)
  refine .inr ?_
  have hdir := (sccpTaken_eq_brTaken hop).2 (hok i hi c hc hconst)
  rw [step_branch (prog_code hi) hop hv, ← hdir]
  have hpl : i.label ∈ fn.ins.filterMap placedLabel :=
    hwf.placed i (mem_of_getElem? hi) _ (by rcases hop with hop | hop <;> simp [eachLabel, hop])
  obtain ⟨n, j, hj, hjl⟩ := exists_placed hpl
  obtain ⟨t, ht, htb, htn⟩ := l2b_of_placed hwf hj hjl
  obtain ⟨hsucc0, hsucc1⟩ := succ_branch hlast hop ht
  have hmark : (sccpProg fn fb).code[pc]? = some (sccpJump fn b w) := by
    rw [sccpProg, sccpMarked_getElem hb, sccpMark, if_pos hr, hw]
    simp only [hend, if_true]
  cases htaken : sccpTaken i c.imm with
  | true =>
    rw [htaken, if_pos rfl] at hwant
    subst hwant
    have htr : t ∈ sccpReach fn fb := reach_live hr hw hsucc0
    have hlab : bbLabel fn t = some i.label := bbLabel_eq_some.2 ⟨htn ▸ htb, j, htn ▸ hj, hjl⟩
    refine ⟨n, ?_, step_jmp (i := { op := .jmp, label := i.label }) ?_ rfl
      (sccpProg_labelAt hwf htb htr hj hjl), t, htr, htb⟩
    · rw [if_pos rfl, Prog.goto, labelAt_of_placed hwf hj hjl]
    · rw [hmark, sccpJump, hsucc0, bind_some, hlab]
      rfl
  | false =>
    rw [htaken, if_neg (by decide)] at hwant
    subst hwant
    have hsucc : (succ fn b)[1]? = some (b + 1) := by
      rw [getElem?_eq_getElem hlt, hsucc1 _ (getElem?_eq_getElem hlt)]
    have hnext : b + 1 ∈ sccpReach fn fb := reach_live hr hw hsucc
    have hstart : InBlock fn (b + 1) (pc + 1) := by
      rw [hend]
      exact bbStart_inBlock hN (succ_lt (mem_of_getElem? hsucc))
    refine ⟨pc + 1, if_neg (by decide), ?_, b + 1, hnext, hstart⟩
    cases hlab : bbLabel fn (b + 1) with
    | none =>
      have hhole : (sccpProg fn fb).code[pc]? = some none := by
        rw [hmark, sccpJump, hsucc, bind_some, hlab]
        rfl
      exact step_hole hhole
    | some l =>
      obtain ⟨-, k, hk, hkl⟩ := bbLabel_eq_some.1 hlab
      rw [← bbEnd, ← hend] at hk
      refine step_jmp (i := { op := .jmp, label := l }) ?_ rfl
        (sccpProg_labelAt hwf hstart hnext hk hkl)
      rw [hmark, sccpJump, hsucc, bind_some, hlab]
      rfl

/-- Any other instruction of a kept block steps as before. -/
lemma step_kept (hwf : WF fn) (heh : fn.eh = []) (hb : InBlock fn b pc)
    (hr : b ∈ sccpReach fn fb) (hn : pc + 1 = bbEnd fn b → liveOnly fn fb b = none) (hs : TakenInv fn s) :
    step (sccpProg fn fb) E (some (pc, s)) = step fn.prog E (some (pc, s)) := by
  obtain ⟨i, hi⟩ : ∃ i, fn.ins[pc]? = some i := ⟨_, getElem?_eq_getElem hb.lt⟩
  have hmark : (sccpProg fn fb).code[pc]? = some (some i) := by
    rw [sccpProg, sccpMarked_getElem hb, sccpMark, if_pos hr]
    split
    · rename_i w hw
      rw [if_neg (fun hend => by rw [hn hend] at hw; cases hw), hi]
    · rw [hi]
  refine step_congr (prog_code hi) hmark (fun _ => rfl) rfl (fun l hl => ?_) (by simp [Func.prog, heh])
  obtain ⟨hpl, hend, hsucc⟩ := jumpLabels_succ hwf hb hi hs hl
  obtain ⟨n, j, hj, hjl⟩ := exists_placed hpl
  obtain ⟨c, hc, hcb, -⟩ := l2b_of_placed hwf hj hjl
  have hcr : c ∈ sccpReach fn fb := reach_succ hr (hn hend) (hsucc c hc)
  rw [sccpProg_labelAt hwf hcb hcr hj hjl, labelAt_of_placed hwf hj hjl]

/-- The two codes step together. -/
lemma sccp_lockstep (hwf : WF fn) (heh : fn.eh = []) (hinv : SccpInv fn fb pc s)
    (hok : fb = true → ∀ i, fn.ins[pc]? = some i → i.op = .brz ∨ i.op = .brnz → BranchOk fn i) : step fn.prog E
    (some (pc, s)) = some (some .unset, none) ∨ ∃ o c, step fn.prog E (some (pc, s)) = some (o, c) ∧ step (sccpProg fn fb) E
    (some (pc, s)) = some (o, c) ∧ ∀ pc' s', c = some (pc', s') → SccpInv fn fb pc' s' := by
  rcases hinv.place with rfl | ⟨b, hr, hb⟩
  · refine .inr ⟨some .lost, none, ?_, ?_, by simp⟩
    · simp [step, Func.prog]
    · simp only [step, sccpProg, sccpMarked_end]
  obtain ⟨i, hi⟩ : ∃ i, fn.ins[pc]? = some i := ⟨_, getElem?_eq_getElem hb.lt⟩
  by_cases hres : pc + 1 = bbEnd fn b ∧ liveOnly fn fb b ≠ none
  · obtain ⟨hend, hw⟩ := hres
    obtain ⟨w, hw⟩ := Option.ne_none_iff_exists'.1 hw
    obtain ⟨hfb, j, -, hlast, hop, -⟩ := liveOnly_spec hw
    have hji : j = i := by
      rw [bbLast_eq hb hi hend] at hlast
      exact (some.inj hlast).symm
    subst hji
    rcases step_resolved hwf hb hr hw hend hinv.consts
      (fun k hk => hok hfb k hk (by rw [hi] at hk; exact some.inj hk ▸ hop)) with hunset |
      ⟨n, hp, hq, c, hc, hcb⟩
    · exact .inl hunset
    · refine .inr ⟨none, some (n, s), hp, hq, ?_⟩
      rintro _ _ ⟨⟩
      exact ⟨hinv.consts, hinv.taken, .inr ⟨c, hc, hcb⟩⟩
  · have hn : pc + 1 = bbEnd fn b → liveOnly fn fb b = none := fun h =>
      by_contra fun hne => hres ⟨h, hne⟩
    obtain ⟨⟨o, c⟩, hstep⟩ := Option.isSome_iff_exists.1 (step_isSome fn.prog E pc s)
    refine .inr ⟨o, c, hstep, (step_kept hwf heh hb hr hn hinv.taken).trans hstep, ?_⟩
    rintro pc' s' rfl
    obtain ⟨hflow, htaken⟩ := step_flow hwf heh hb hinv.taken hstep
    refine ⟨constInv_step hwf.regs hinv.consts hi hstep, htaken, ?_⟩
    rcases hflow with hend | ⟨c, hcb, rfl | ⟨hend, hc⟩⟩
    · exact .inl hend
    · exact .inr ⟨c, hr, hcb⟩
    · exact .inr ⟨c, reach_succ hr (hn hend) hc, hcb⟩

lemma sccpInv_entry (hwf : WF fn) (hN : 0 < fn.ins.length) (hs : Entry fn s) : SccpInv fn fb 0 s where
  consts := hs.constInv hwf.params
  taken := by
    intro l hl
    rw [hs.taken] at hl
    cases hl
  place := .inr ⟨0, (sccpReach_closed fn fb).1, by
    have := bbStart_inBlock hN (nbb_pos fn)
    rwa [bbStart_zero] at this⟩

end

/-! ## Runs -/

/-- Every branch that a run reaches is as wide as its constant. -/
def BranchesOk {W : Type} (fn : Func) (E : Env W) (s : St W) : Prop :=
  ∀ pc s' i, Reaches (step fn.prog E) (some (0, s)) (some (pc, s')) → fn.ins[pc]? = some i →
    i.op = .brz ∨ i.op = .brnz → BranchOk fn i

section
variable {W : Type} {E : Env W} {fn : Func} {fb : Bool} {s : St W} (hwf : WF fn)
  (heh : fn.eh = []) (hs : Entry fn s) (hok : fb = true → BranchesOk fn E s)
include hwf heh hs hok

/-- A run stays in the blocks that are kept. -/
lemma sccpInv_reaches (hN : 0 < fn.ins.length) {pc : ℕ} {s' : St W}
    (h : Reaches (step fn.prog E) (some (0, s)) (some (pc, s'))) : SccpInv fn fb pc s' := by
  suffices hall : ∀ c, Reaches (step fn.prog E) (some (0, s)) c →
      ∀ pc s', c = some (pc, s') → SccpInv fn fb pc s' from hall _ h pc s' rfl
  intro c hc
  induction hc with
  | refl =>
    rintro _ _ ⟨⟩
    exact sccpInv_entry hwf hN hs
  | tail hpre hstep ih =>
    rename_i c d
    rintro pc' t rfl
    obtain ⟨o, hstep⟩ := hstep
    obtain _ | ⟨pc, s⟩ := c
    · cases hstep
    rcases sccp_lockstep hwf heh (ih pc s rfl) (fun hfb i => hok hfb pc s i hpre) with hunset | ⟨o', c', hp, -, hinv⟩
    · rw [hunset] at hstep
      cases hstep
    · rw [hp] at hstep
      cases hstep
      exact hinv pc' t rfl

lemma sccpProg_refines (hN : 0 < fn.ins.length) :
    Refines Event.Wild (step fn.prog E) (some (0, s)) (step (sccpProg fn fb) E) (some (0, s)) := by
  refine refines_of_match (R := fun c d => c = d ∧ Reaches (step fn.prog E) (some (0, s)) c) ?_ ⟨rfl, .refl⟩
  rintro (_ | ⟨pc, t⟩) _ ⟨rfl, hreach⟩
  · exact .halt .refl .refl rfl rfl
  have hinv := sccpInv_reaches hwf heh hs hok hN hreach
  rcases sccp_lockstep hwf heh hinv (fun hfb i => hok hfb pc t i hreach) with
    hunset | ⟨o, c, hp, hq, -⟩
  · exact .wild .refl hunset rfl
  · exact .of_step hp hq ⟨rfl, hreach.tail ⟨o, hp⟩⟩

/-- Leaving the other blocks out keeps every run. -/
lemma sccpCore_refines : Refines Event.Wild (step fn.prog E) (some (0, s)) (step (sccpCore fn fb).prog E) (some (0, s)) := by
  unfold sccpCore
  split
  · exact .refl _ _
  · rename_i hN
    split
    · refine (sccpProg_refines hwf heh hs hok (Nat.pos_of_ne_zero hN)).trans ?_
      have hprog : Func.prog { fn with ins := (range (nbb fn)).flatMap (sccpBlock fn fb) } =
          (sccpProg fn fb).compact := by
        simp only [Func.prog, rebuild_eq (Nat.pos_of_ne_zero hN), Prog.compact, sccpProg]
      rw [hprog]
      exact compact_refines (sccpProg fn fb) 0 s
    · exact .refl _ _

end

/-- `drop_unreachable` keeps every run. -/
theorem dropUnreachable_preserves {W : Type} {E : Env W} {fn : Func} {s : St W} (hwf : WF fn)
    (heh : fn.eh = []) (hs : Entry fn s) : Refines Event.Wild (step fn.prog E) (some (0, s))
      (step (dropUnreachable fn).prog E) (some (0, s)) := sccpCore_refines hwf heh hs (by simp)

/-- `return 1`, and a label behind it that nothing jumps to. -/
def afterReturn : Func where
  ins := [{ op := .const, dst := 0, w := 4, imm := 1 }, { op := .ret, a := 0, w := 4 },
    { op := .label, label := 0 },
    { op := .const, dst := 0, w := 4, imm := 2 }, { op := .jmp, label := 0 }]
  nvregs := 1
  nlabels := 1

/-- The block behind the return goes, with the branch that keeps it in a loop of its own. -/
theorem dropUnreachable_preserves_afterReturn : (dropUnreachable afterReturn).ins = afterReturn.ins.take 2 ∧
    Refines Event.Wild (step afterReturn.prog Env.bare) (some (0, St.blank))
      (step (dropUnreachable afterReturn).prog Env.bare) (some (0, St.blank)) :=
  ⟨by decide, dropUnreachable_preserves (by
    refine ⟨Nat.zero_le _, ?_, ?_, ?_, ?_⟩ <;>
      simp [afterReturn, tempDefs, writesTemp, placedLabel, eachLabel]) rfl (blank_entry _)⟩

/-- A branch on a constant is resolved the way it goes exactly where it sees the constant as the
pass does. -/
lemma sccpTaken_eq_iff {fn : Func} {i c : Ins} (hop : i.op = .brz ∨ i.op = .brnz)
    (hc : soleDef fn i.a = some c) (hconst : c.op = .const) :
    sccpTaken i c.imm = brTaken i (ofLong (Ir.norm c.imm c.w)) ↔ BranchOk fn i := by
  rw [sccpTaken_eq_brTaken hop]
  refine ⟨fun h c' hc' _ => ?_, fun h => h c hc hconst⟩
  rw [hc] at hc'
  cases hc'
  exact h

/-- `pass_sccp` resolves a branch of a function the way it goes exactly where the branch sees a
constant that is not zero as not zero. A run all of whose branches do keeps to the blocks that
are kept, and is the run of the result. -/
theorem passSccp_preserves {W : Type} (E : Env W) (fn : Func) (s : St W) (hwf : WF fn)
    (heh : fn.eh = []) (hs : Entry fn s) :
    (∀ i ∈ fn.ins, i.op = .brz ∨ i.op = .brnz → ∀ c, soleDef fn i.a = some c → c.op = .const →
      (sccpTaken i c.imm = brTaken i (ofLong (Ir.norm c.imm c.w)) ↔ BranchOk fn i)) ∧
    (BranchesOk fn E s →
      Refines Event.Wild (step fn.prog E) (some (0, s)) (step (passSccp fn).prog E) (some (0, s)) ∧
      ∀ pc s', Reaches (step fn.prog E) (some (0, s)) (some (pc, s')) → pc < fn.ins.length →
        ∃ b ∈ sccpReach fn true, InBlock fn b pc) := by
  refine ⟨fun i _ hop c hc hconst => sccpTaken_eq_iff hop hc hconst, fun hok => ⟨?_, ?_⟩⟩
  · exact sccpCore_refines hwf heh hs fun _ => hok
  · intro pc s' hreach hlt
    have hN : 0 < fn.ins.length := (Nat.zero_le pc).trans_lt hlt
    rcases (sccpInv_reaches hwf heh hs (fun _ => hok) hN hreach).place with hend | hplace
    · omega
    · exact hplace

/-- `if (x) return 1; return 2` for an `x` that the branch sees at width `w`. -/
def branchOn (x : BitVec 64) (w : ℕ) : Func where
  ins := [{ op := .const, dst := 0, w := 8, imm := x }, { op := .brz, a := 0, w := w, label := 0 },
    { op := .const, dst := 1, w := 4, imm := 1 }, { op := .ret, a := 1, w := 4 },
    { op := .label, label := 0 },
    { op := .const, dst := 2, w := 4, imm := 2 }, { op := .ret, a := 2, w := 4 }]
  nvregs := 3
  nlabels := 1

lemma branchOn_wf (x : BitVec 64) (w : ℕ) : WF (branchOn x w) := by
  refine ⟨Nat.zero_le _, ?_, ?_, ?_, ?_⟩ <;> simp [branchOn, tempDefs, writesTemp, placedLabel, eachLabel]

/-- At the full width, on a constant that is not zero. -/
theorem passSccp_preserves_seven :
    Refines Event.Wild (step (branchOn 7 8).prog Env.bare) (some (0, St.blank))
      (step (passSccp (branchOn 7 8)).prog Env.bare) (some (0, St.blank)) := by
  refine ((passSccp_preserves Env.bare (branchOn 7 8) St.blank (branchOn_wf 7 8) rfl (blank_entry _)).2 ?_).1
  intro pc s' i _ hi hop c hc _ _
  have hbr : i = { op := .brz, a := 0, w := 8, label := 0 } := by
    have hmem := mem_of_getElem? hi
    simp only [branchOn, mem_cons, not_mem_nil, or_false] at hmem
    rcases hmem with rfl | rfl | rfl | rfl | rfl | rfl | rfl <;> simp at hop ⊢
  have hdef : soleDef (branchOn 7 8) 0 = some { op := .const, dst := 0, w := 8, imm := 7 } := by
    decide
  subst hbr
  cases hc
  decide

/-- At width 4, on a constant whose low four bytes are zero: the branch jumps, and the pass has
it fall through. -/
theorem passSccp_narrow_branch : let fn := branchOn 0x100000000 4
    WF fn ∧ fn.eh = [] ∧ Entry fn St.blank ∧ ¬ Refines Event.Wild (step fn.prog Env.bare) (some (0, St.blank))
        (step (passSccp fn).prog Env.bare) (some (0, St.blank)) := by
  refine ⟨branchOn_wf _ _, rfl, blank_entry _, fun h => ?_⟩
  have hold : run (step (branchOn 0x100000000 4).prog Env.bare) 4 (some (0, St.blank)) =
    [.exec { op := .const, dst := 0, w := 8, imm := 0x100000000 } [],
      .exec { op := .const, dst := 2, w := 4, imm := 2 } []] := by decide
  have hnew : run (step (passSccp (branchOn 0x100000000 4)).prog Env.bare) 2 (some (0, St.blank)) =
    [.exec { op := .const, dst := 0, w := 8, imm := 0x100000000 } [],
      .exec { op := .const, dst := 1, w := 4, imm := 1 } []] := by decide
  have hemit := h.complete _ (by simp [Event.Wild]) ⟨4, hold⟩
  have := hemit.eq_of_length ⟨2, hnew⟩ rfl
  simp at this

end EmbCC.Opt
