import EmbCC.Lib.Scan
import EmbCC.Opt.Defs

/-!
# The control-flow graph

`build_cfg`: basic blocks, the map from labels to blocks, and the successors
of a block. The blocks cut the code into consecutive pieces
(`exists_inBlock`, `range_eq_flatMap`), control leaves a block only at its last
instruction (`not_lead_of_inBlock`), and whatever a run does next lies in the
same block or in a successor.
-/

namespace EmbCC.Opt

open List Ir

/-! ## Blocks and edges -/

/-- The instructions after which a block ends. -/
def endsBlock : Op → Bool
  | .jmp | .brz | .brnz | .ret | .ud2 | .igoto | .switch => true
  | _ => false

/-- A conditional branch. -/
def isBranch (i : Ins) : Bool := i.op == .brz || i.op == .brnz

lemma isBranch_iff {i : Ins} : isBranch i ↔ i.op = .brz ∨ i.op = .brnz := by simp [isBranch]

/-- `lead`: does a block start here? -/
def lead (fn : Func) (n : ℕ) : Bool :=
  n == 0 || (fn.ins[n]?).any (·.op == .label) || (fn.ins[n - 1]?).any (endsBlock ·.op)

/-- The first instructions of the blocks, in order. -/
def leaders (fn : Func) : List ℕ := (List.range fn.ins.length).filter (lead fn)

def nbb (fn : Func) : ℕ := if (leaders fn).length = 0 then 1 else (leaders fn).length

lemma nbb_pos (fn : Func) : 0 < nbb fn := by
  unfold nbb
  split <;> omega

/-- `bb[b].start`. -/
def bbStart (fn : Func) (b : ℕ) : ℕ := (leaders fn).getD b fn.ins.length

/-- `bb[b].end`. -/
def bbEnd (fn : Func) (b : ℕ) : ℕ := bbStart fn (b + 1)

/-- The last instruction of a block. -/
def bbLast (fn : Func) (b : ℕ) : Option Ins :=
  if bbEnd fn b > bbStart fn b then fn.ins[bbEnd fn b - 1]? else none

/-- The label that opens a block. -/
def bbLabel (fn : Func) (b : ℕ) : Option ℤ :=
  if bbEnd fn b > bbStart fn b then
    (fn.ins[bbStart fn b]?).bind fun i => if i.op = .label then some i.label else none
  else none

/-- `l2b`: the block a label opens; a later block overwrites an earlier one. -/
def l2b (fn : Func) (l : ℤ) : Option ℕ :=
  (List.range (nbb fn)).foldl (fun r b => if bbLabel fn b = some l then some b else r) none

/-- The block of a label that may be out of range. -/
def l2bIn (fn : Func) (l : ℤ) : Option ℕ := if 0 ≤ l ∧ l < fn.nlabels then l2b fn l else none

/-- `taken_lbl`: is the address of the label taken? -/
def takenLbl (fn : Func) (l : ℤ) : Bool :=
  fn.ins.any fun i => i.op == .labeladdr && i.label == l

/-- The block after `b`. -/
def bbNext (fn : Func) (b : ℕ) : List ℕ := if b + 1 < nbb fn then [b + 1] else []

/-- The blocks control may go to from the end of `b`, as they are found. -/
def succCands (fn : Func) (b : ℕ) : List ℕ :=
  match bbLast fn b with
  | none => []
  | some i =>
    match i.op with
    | .ret | .ud2 => []
    | .jmp => (l2b fn i.label).toList
    | .brz | .brnz => (l2b fn i.label).toList ++ bbNext fn b
    | .switch =>
      (l2bIn fn i.label).toList ++ (fn.table i).flatMap fun l => (l2bIn fn l).toList
    | .igoto =>
      (List.range fn.nlabels).flatMap fun l : ℕ =>
        if takenLbl fn l then (l2b fn l).toList else []
    | _ => bbNext fn b

/-- `cfg_succ`: an edge once is an edge. -/
def cfgSucc (l : List ℕ) (t : ℕ) : List ℕ := if t ∈ l then l else l ++ [t]

/-- `bb[b].succ`. -/
def succ (fn : Func) (b : ℕ) : List ℕ := (succCands fn b).foldl cfgSucc []

lemma leaders_sorted (fn : Func) : (leaders fn).Pairwise (· < ·) := pairwise_lt_range.filter _

variable {fn : Func} {n b : ℕ} {i : Ins} {l : ℤ}

/-! ## The blocks cut the code -/

lemma mem_leaders : n ∈ leaders fn ↔ n < fn.ins.length ∧ lead fn n := by
  rw [leaders, mem_filter, mem_range]

lemma bbStart_of_lt (h : b < (leaders fn).length) : bbStart fn b = (leaders fn).get ⟨b, h⟩ := by
  simp [bbStart, h]

lemma bbStart_of_ge (h : (leaders fn).length ≤ b) : bbStart fn b = fn.ins.length := by
  simp [bbStart, h]

lemma bbStart_mem (h : b < (leaders fn).length) : bbStart fn b ∈ leaders fn := by
  rw [bbStart_of_lt h]
  exact get_mem _ _

lemma bbStart_le (fn : Func) (b : ℕ) : bbStart fn b ≤ fn.ins.length := by
  rcases lt_or_ge b (leaders fn).length with h | h
  · exact (mem_leaders.1 (bbStart_mem h)).1.le
  · exact (bbStart_of_ge h).le

lemma bbStart_lt_succ (h : b < (leaders fn).length) : bbStart fn b < bbStart fn (b + 1) := by
  rcases lt_or_ge (b + 1) (leaders fn).length with h' | h'
  · rw [bbStart_of_lt h, bbStart_of_lt h']
    exact List.pairwise_iff_get.1 (leaders_sorted fn) _ _ (Nat.lt_succ_self b)
  · rw [bbStart_of_ge h']
    exact (mem_leaders.1 (bbStart_mem h)).1

lemma bbStart_mono (fn : Func) : Monotone (bbStart fn) := by
  refine monotone_nat_of_le_succ fun b => ?_
  rcases lt_or_ge b (leaders fn).length with h | h
  · exact (bbStart_lt_succ h).le
  · rw [bbStart_of_ge h, bbStart_of_ge (by omega)]

lemma leaders_zero (h : 0 < fn.ins.length) : 0 ∈ leaders fn := mem_leaders.2 ⟨h, by simp [lead]⟩

lemma nbb_eq (h : 0 < fn.ins.length) : nbb fn = (leaders fn).length := by
  have := length_pos_of_mem (leaders_zero h)
  rw [nbb, if_neg (by omega)]

lemma exists_bbStart (h : n ∈ leaders fn) : ∃ b, b < (leaders fn).length ∧ bbStart fn b = n := by
  obtain ⟨k, hk⟩ := get_of_mem h
  exact ⟨k, k.2, by rw [bbStart_of_lt k.2]; exact hk⟩

lemma bbStart_zero (fn : Func) : bbStart fn 0 = 0 := by
  rcases Nat.eq_zero_or_pos fn.ins.length with h | h
  · exact Nat.le_zero.1 (h ▸ bbStart_le fn 0)
  · obtain ⟨b, -, hb⟩ := exists_bbStart (leaders_zero h)
    have := bbStart_mono fn (Nat.zero_le b)
    omega

/-- Instruction `n` is in block `b`. -/
def InBlock (fn : Func) (b n : ℕ) : Prop := bbStart fn b ≤ n ∧ n < bbEnd fn b

lemma InBlock.lt (h : InBlock fn b n) : n < fn.ins.length := h.2.trans_le (bbStart_le fn _)

lemma bbLast_spec (h : bbLast fn b = some i) : InBlock fn b (bbEnd fn b - 1) ∧ fn.ins[bbEnd fn b - 1]? = some i := by
  unfold bbLast at h
  split_ifs at h with hlt
  exact ⟨⟨by omega, by omega⟩, h⟩

lemma InBlock.block_lt (h : InBlock fn b n) : b < nbb fn := by
  have hn := h.lt
  rw [nbb_eq (by omega)]
  by_contra hb
  have := bbStart_of_ge (not_lt.1 hb)
  have := h.1
  omega

lemma InBlock.unique {c : ℕ} (hb : InBlock fn b n) (hc : InBlock fn c n) : b = c := by
  by_contra hne
  rcases Nat.lt_or_gt_of_ne hne with h | h
  · have := bbStart_mono fn (show b + 1 ≤ c from h)
    have := hb.2
    have := hc.1
    simp only [bbEnd] at *
    omega
  · have := bbStart_mono fn (show c + 1 ≤ b from h)
    have := hc.2
    have := hb.1
    simp only [bbEnd] at *
    omega

lemma exists_inBlock (h : n < fn.ins.length) : ∃ b, InBlock fn b n := by
  have hex : ∃ b, n < bbEnd fn b := ⟨(leaders fn).length, by rw [bbEnd, bbStart_of_ge (by omega)]; exact h⟩
  refine ⟨Nat.find hex, ?_, Nat.find_spec hex⟩
  cases hb : Nat.find hex with
  | zero => exact (bbStart_zero fn).le.trans (Nat.zero_le n)
  | succ b =>
    have := Nat.find_min hex (show b < Nat.find hex by omega)
    exact not_lt.1 this

lemma not_lead_of_inBlock (h : InBlock fn b n) (hs : bbStart fn b < n) : lead fn n = false := by
  by_contra hl
  obtain ⟨c, hc, rfl⟩ := exists_bbStart (mem_leaders.2 ⟨h.lt, Bool.not_eq_false _ ▸ hl⟩)
  have hcb : InBlock fn c (bbStart fn c) := ⟨le_rfl, bbStart_lt_succ hc⟩
  rw [h.unique hcb] at hs
  exact lt_irrefl _ hs

lemma not_endsBlock (h : InBlock fn b n) (hn : n + 1 < bbEnd fn b) (hi : fn.ins[n]? = some i) : endsBlock i.op = false := by
  have hl := not_lead_of_inBlock (n := n + 1) ⟨h.1.trans (Nat.le_succ n), hn⟩ (Nat.lt_succ_of_le h.1)
  simp only [lead, Nat.add_sub_cancel, hi, Bool.or_eq_false_iff] at hl
  exact hl.2

lemma bbStart_inBlock (hN : 0 < fn.ins.length) (h : b < nbb fn) :
    InBlock fn b (bbStart fn b) := ⟨le_rfl, bbStart_lt_succ (nbb_eq hN ▸ h)⟩

lemma label_starts (h : InBlock fn b n) (hi : fn.ins[n]? = some i) (hop : i.op = .label) : n = bbStart fn b := by
  by_contra hne
  have := not_lead_of_inBlock h (lt_of_le_of_ne h.1 (Ne.symm hne))
  simp [lead, hi, hop] at this

lemma range_eq_flatMap (hN : 0 < fn.ins.length) : List.range fn.ins.length = (List.range (nbb fn)).flatMap fun b =>
      range' (bbStart fn b) (bbEnd fn b - bbStart fn b) := by
  have hpre : ∀ k, range (bbStart fn k) = (range k).flatMap fun b =>
      range' (bbStart fn b) (bbEnd fn b - bbStart fn b) := by
    intro k
    induction k with
    | zero => rw [bbStart_zero]; rfl
    | succ k ih =>
      have hle := bbStart_mono fn (Nat.le_succ k)
      have happ := @List.range'_append_1 0 (bbStart fn k) (bbStart fn (k + 1) - bbStart fn k)
      rw [Nat.zero_add, Nat.add_sub_cancel' hle] at happ
      rw [range_succ, flatMap_append, ← ih, flatMap_singleton, bbEnd, range_eq_range', range_eq_range', happ]
  have := hpre (nbb fn)
  rwa [nbb_eq hN, bbStart_of_ge le_rfl, ← nbb_eq hN] at this

/-! ## Labels -/

/-- The label an instruction places. -/
def placedLabel (i : Ins) : Option ℤ := if i.op = .label then some i.label else none

/-- What the passes may rely on: every register that is written and every label that is placed
is numbered, a label is placed at one place, and the labels that are named are placed. -/
structure WF (fn : Func) : Prop where
  params : fn.nparams ≤ fn.nvregs
  regs : ∀ i ∈ fn.ins, ∀ t ∈ tempDefs i, t < fn.nvregs
  once : (fn.ins.filterMap placedLabel).Nodup
  range : ∀ l ∈ fn.ins.filterMap placedLabel, 0 ≤ l ∧ l < fn.nlabels
  placed : ∀ i ∈ fn.ins, ∀ l ∈ eachLabel fn i, l ∈ fn.ins.filterMap placedLabel

lemma placedLabel_eq_some : placedLabel i = some l ↔ i.op = .label ∧ i.label = l := by
  unfold placedLabel
  split <;> simp_all

lemma label_unique {ins : List Ins} (h : (ins.filterMap placedLabel).Nodup) {m : ℕ} {j : Ins} (hi : ins[m]? = some i)
    (hj : ins[n]? = some j) (hil : placedLabel i = some l) (hjl : placedLabel j = some l) : m = n := by
  induction ins generalizing m n with
  | nil => cases hi
  | cons k ins ih =>
    have hmem : ∀ {m : ℕ} {i : Ins}, ins[m]? = some i → placedLabel i = some l → l ∈ ins.filterMap placedLabel :=
      fun hm hl => List.mem_filterMap.2 ⟨_, mem_of_getElem? hm, hl⟩
    have htail : (ins.filterMap placedLabel).Nodup := by
      rw [filterMap_cons] at h
      split at h
      · exact h
      · exact (List.nodup_cons.1 h).2
    have hhead : placedLabel k = some l → l ∉ ins.filterMap placedLabel := by
      intro hk
      rw [filterMap_cons, hk] at h
      exact (List.nodup_cons.1 h).1
    cases m with
    | zero =>
      obtain rfl : k = i := by simpa using hi
      cases n with
      | zero => rfl
      | succ n => exact absurd (hmem hj hjl) (hhead hil)
    | succ m =>
      cases n with
      | zero =>
        obtain rfl : k = j := by simpa using hj
        exact absurd (hmem hi hil) (hhead hjl)
      | succ n => rw [ih htail hi hj]

lemma isLabel_some : isLabel l (some i) ↔ placedLabel i = some l := by
  rw [placedLabel_eq_some]
  simp [isLabel]

lemma labelAt_of_once (h : (fn.ins.filterMap placedLabel).Nodup)
    (hi : fn.ins[n]? = some i) (hl : placedLabel i = some l) : fn.prog.labelAt l = some n := by
  refine labelAt_eq_some (by simp [Func.prog, hi]) (isLabel_some.2 hl) ?_
  intro m j hm hj hjl
  have hj' : fn.ins[m]? = some j := by simpa [Func.prog] using hj
  have := label_unique h hj' hi (isLabel_some.1 hjl) hl
  omega

lemma labelAt_of_placed (h : WF fn) (hi : fn.ins[n]? = some i) (hl : placedLabel i = some l) : fn.prog.labelAt l = some n :=
  labelAt_of_once h.once hi hl

lemma exists_placed (h : l ∈ fn.ins.filterMap placedLabel) :
    ∃ (n : ℕ) (i : Ins), fn.ins[n]? = some i ∧ placedLabel i = some l := by
  obtain ⟨i, hi, hl⟩ := List.mem_filterMap.1 h
  obtain ⟨n, hn⟩ := getElem?_of_mem hi
  exact ⟨n, i, hn, hl⟩

lemma bbLabel_eq_some : bbLabel fn b = some l ↔ InBlock fn b (bbStart fn b) ∧
      ∃ i, fn.ins[bbStart fn b]? = some i ∧ placedLabel i = some l := by
  unfold bbLabel InBlock
  split_ifs with h
  · simp only [Option.bind_eq_some_iff, le_refl, true_and, gt_iff_lt.1 h]
    rfl
  · simp only [le_refl, true_and, false_iff, not_and]
    exact fun h' => absurd h' h

lemma l2b_spec (h : l2b fn l = some b) : b < nbb fn ∧ bbLabel fn b = some l := by
  rcases Scan.foldl_last_eq_some h with h | ⟨hb, hl⟩
  · cases h
  · exact ⟨mem_range.1 hb, hl⟩

lemma l2b_of_placed (h : WF fn) (hi : fn.ins[n]? = some i) (hl : placedLabel i = some l) :
    ∃ b, l2b fn l = some b ∧ InBlock fn b n ∧ n = bbStart fn b := by
  obtain ⟨b, hb⟩ := exists_inBlock (getElem?_lt hi)
  have hn := label_starts hb hi (placedLabel_eq_some.1 hl).1
  have hlab : bbLabel fn b = some l := bbLabel_eq_some.2 ⟨hn ▸ hb, i, hn ▸ hi, hl⟩
  have hsome : (l2b fn l).isSome := Scan.foldl_last_isSome (.inr ⟨b, mem_range.2 hb.block_lt, hlab⟩)
  obtain ⟨c, hc⟩ := Option.isSome_iff_exists.1 hsome
  obtain ⟨-, hcl⟩ := l2b_spec hc
  obtain ⟨hcb, j, hj, hjl⟩ := bbLabel_eq_some.1 hcl
  have hcn : bbStart fn c = n := label_unique h.once hj hi hjl hl
  rw [hcn] at hcb
  exact ⟨b, hcb.unique hb ▸ hc, hb, hn⟩

lemma mem_foldl_cfgSucc (l acc : List ℕ) (t : ℕ) : t ∈ l.foldl cfgSucc acc ↔ t ∈ acc ∨ t ∈ l := by
  induction l generalizing acc with
  | nil => simp
  | cons c l ih =>
    rw [foldl_cons, ih, cfgSucc]
    split_ifs with hc
    · rw [mem_cons]
      exact ⟨fun h => h.imp_right .inr, fun h => h.elim .inl fun h => h.elim (fun h => .inl (h ▸ hc)) .inr⟩
    · rw [mem_append, mem_singleton, mem_cons, or_assoc]

lemma mem_succ {t : ℕ} : t ∈ succ fn b ↔ t ∈ succCands fn b := by
  rw [succ, mem_foldl_cfgSucc]
  simp

lemma bbLast_eq (h : InBlock fn b n) (hi : fn.ins[n]? = some i) (he : n + 1 = bbEnd fn b) : bbLast fn b = some i := by
  have := h.1
  rw [bbLast, if_pos (by omega), ← he, Nat.add_sub_cancel, hi]

/-! ## Runs and blocks -/

/-- From `pc` in block `b`, control goes to the end of the code, stays in the block, or goes
from the end of the block to a successor. -/
def FlowsTo (fn : Func) (b pc n : ℕ) : Prop :=
  n = fn.ins.length ∨ ∃ c, InBlock fn c n ∧ (c = b ∨ pc + 1 = bbEnd fn b ∧ c ∈ succ fn b)

lemma flowsTo_next (h : InBlock fn b n)
    (hs : n + 1 = bbEnd fn b → ∀ c ∈ bbNext fn b, c ∈ succ fn b) : FlowsTo fn b n (n + 1) := by
  rcases Nat.lt_or_ge (n + 1) (bbEnd fn b) with hlt | hge
  · exact .inr ⟨b, ⟨h.1.trans (Nat.le_succ n), hlt⟩, .inl rfl⟩
  · have hend : n + 1 = bbEnd fn b := le_antisymm h.2 hge
    have hN : 0 < fn.ins.length := (Nat.zero_le n).trans_lt h.lt
    rcases Nat.lt_or_ge (b + 1) (nbb fn) with hb | hb
    · refine .inr ⟨b + 1, ?_, .inr ⟨hend, hs hend _ (by simp [bbNext, hb])⟩⟩
      rw [hend]
      exact bbStart_inBlock hN hb
    · exact .inl (by rw [hend, bbEnd, bbStart_of_ge (nbb_eq hN ▸ hb)])

section
variable {W : Type} {E : Env W} {fn : Func}

/-- The addresses a run has are of labels whose address the code takes. -/
def TakenInv (fn : Func) (s : St W) : Prop := ∀ l ∈ s.taken, takenLbl fn l

variable {s : St W} {pc b : ℕ} {i : Ins} {l : ℤ}

lemma takenInv_after (hs : TakenInv fn s) (hi : fn.ins[pc]? = some i) (rs : List Val) (world : W) :
    TakenInv fn (s.after i rs world) := by
  intro l hl
  simp only [St.after] at hl
  split_ifs at hl with hop
  · rcases mem_cons.1 hl with rfl | hl
    · exact List.any_eq_true.2 ⟨i, mem_of_getElem? hi, by simp [hop]⟩
    · exact hs l hl
  · exact hs l hl

lemma takenLbl_placed (hwf : WF fn) (h : takenLbl fn l) : l ∈ fn.ins.filterMap placedLabel := by
  obtain ⟨i, hi, hop⟩ := List.any_eq_true.1 h
  simp only [Bool.and_eq_true, beq_iff_eq] at hop
  exact hwf.placed i hi l (by simp [eachLabel, hop.1, hop.2])

/-- Every label that a jump can go to opens a successor. -/
lemma jumpLabels_succ (hwf : WF fn) (hb : InBlock fn b pc) (hi : fn.ins[pc]? = some i) (hs : TakenInv fn s)
    (hl : l ∈ jumpLabels fn.prog i s) : l ∈ fn.ins.filterMap placedLabel ∧ pc + 1 = bbEnd fn b ∧
      ∀ c, l2b fn l = some c → c ∈ succ fn b := by
  have hmem : i ∈ fn.ins := mem_of_getElem? hi
  have hend : endsBlock i.op → pc + 1 = bbEnd fn b := fun he => by
    by_contra hne
    have := hb.2
    rw [not_endsBlock hb (by omega) hi] at he
    cases he
  have hlast : endsBlock i.op → bbLast fn b = some i := fun he => bbLast_eq hb hi (hend he)
  cases hop : i.op
  case jmp | brz | brnz =>
    obtain rfl : l = i.label := by simpa [jumpLabels, hop] using hl
    refine ⟨hwf.placed i hmem _ (by simp [eachLabel, hop]), hend (by simp [hop, endsBlock]), fun c hc => mem_succ.2 ?_⟩
    simp [succCands, hlast (by simp [hop, endsBlock]), hop, hc]
  case switch =>
    have hl' : l ∈ i.label :: fn.table i := by
      simpa [jumpLabels, hop, Func.prog, Func.table] using hl
    have hpl := hwf.placed i hmem l (by simpa [eachLabel, hop] using hl')
    refine ⟨hpl, hend (by simp [hop, endsBlock]), fun c hc => mem_succ.2 ?_⟩
    rw [← show l2bIn fn l = l2b fn l from if_pos (hwf.range l hpl)] at hc
    simp only [succCands, hlast (by simp [hop, endsBlock]), hop, mem_append, Option.mem_toList, mem_flatMap]
    rcases mem_cons.1 hl' with rfl | hl'
    · exact .inl hc
    · exact .inr ⟨l, hl', hc⟩
  case igoto =>
    have hl' : l ∈ s.taken := by simpa [jumpLabels, hop] using hl
    have hpl := takenLbl_placed hwf (hs l hl')
    refine ⟨hpl, hend (by simp [hop, endsBlock]), fun c hc => mem_succ.2 ?_⟩
    obtain ⟨h0, hn⟩ := hwf.range l hpl
    obtain ⟨k, rfl⟩ := Int.eq_ofNat_of_zero_le h0
    simp only [succCands, hlast (by simp [hop, endsBlock]), hop, mem_flatMap, mem_range]
    refine ⟨k, by omega, ?_⟩
    rw [if_pos (hs _ hl'), Option.mem_toList]
    exact hc
  all_goals simp [jumpLabels, hop] at hl

lemma bbNext_succ (hb : InBlock fn b pc) (hi : fn.ins[pc]? = some i) (hend : pc + 1 = bbEnd fn b)
    (hop : endsBlock i.op = false ∨ i.op = .brz ∨ i.op = .brnz) : ∀ c ∈ bbNext fn b, c ∈ succ fn b := by
  intro c hc
  rw [mem_succ]
  simp only [succCands, bbLast_eq hb hi hend]
  rcases hop with hop | hop | hop
  · split <;> simp_all [endsBlock]
  · simp [hop, hc]
  · simp [hop, hc]

/-- A step stays in its block or goes to a successor. -/
lemma step_flow (hwf : WF fn) (heh : fn.eh = []) {pc' : ℕ} {s' : St W} {o : Option Event} (hb : InBlock fn b pc)
    (hs : TakenInv fn s) (h : step fn.prog E (some (pc, s)) = some (o, some (pc', s'))) : FlowsTo fn b pc pc'
    ∧ TakenInv fn s' := by
  obtain ⟨i, hi⟩ : ∃ i, fn.ins[pc]? = some i := ⟨_, getElem?_eq_getElem hb.lt⟩
  have hcode : fn.prog.code[pc]? = some (some i) := by simp [Func.prog, hi]
  rcases step_cases hcode h with ⟨-, rfl, ⟨rfl, hop⟩ | ⟨l, hl, hat⟩⟩ |
    ⟨hctl, ⟨vs, rs, world, -, -, -, rfl, rfl⟩ | ⟨world, -, l, hl, -⟩⟩
  · refine ⟨flowsTo_next hb fun hend => bbNext_succ hb hi hend ?_, hs⟩
    exact hop.imp_left fun hop => by simp [hop, endsBlock]
  · obtain ⟨hpl, hend, hsucc⟩ := jumpLabels_succ hwf hb hi hs hl
    obtain ⟨m, j, hj, hjl⟩ := exists_placed hpl
    rw [labelAt_of_placed hwf hj hjl] at hat
    cases hat
    obtain ⟨c, hc, hbc, -⟩ := l2b_of_placed hwf hj hjl
    exact ⟨.inr ⟨c, hbc, .inr ⟨hend, hsucc c hc⟩⟩, hs⟩
  · refine ⟨flowsTo_next hb fun hend => bbNext_succ hb hi hend (.inl ?_), takenInv_after hs hi rs world⟩
    revert hctl
    cases i.op <;> simp [Op.isControl, endsBlock]
  · rw [show fn.prog.eh = fn.eh from rfl, heh] at hl
    cases hl

end
end EmbCC.Opt
