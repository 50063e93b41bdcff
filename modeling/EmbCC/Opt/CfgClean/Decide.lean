import EmbCC.Opt.CfgClean.Thread

/-!
# CFG cleanup: deciding branches

The three rules that decide a branch: its target is the fall-through, its
temp holds a constant the block has set, or a branch above it on the same temp
has fallen through. The last looks at the temp and the sense of the two branches and
not at their widths, so it is right only where the temp is zero at one width
exactly when it is at the other (`PairOk`).
-/

namespace EmbCC.Opt.CfgClean

open Option List Ir Trace Scan Bool Prod
open Relation (ReflTransGen TransGen)
variable {fn : Func} {code : List (Ins × Bool)} {i : Ins} {n : ℕ}

lemma ne_label_of_isBranch (h : isBranch i) : i.op ≠ .label := by
  rcases isBranch_iff.1 h with h | h <;> simp [h]

/-! ## The two rules -/

/-- The code after the rule for block constants. -/
def lkCode (fn : Func) : List (Ins × Bool) := scan (lkDecide fn) lkEmpty (jumpsOver fn.ins)

/-- `last_cond` before instruction `n`, as the branch that set it. -/
def lastCond (fn : Func) (n : ℕ) : Option Ins := stateAt condDecide none (lkCode fn) n

lemma lkNote_toJump {nv : ℕ} {k : LkConst} (h : isBranch i) : lkNote nv k (toJump i) = lkNote nv k i := by
  rw [lkNote_control, lkNote_control]
  · rcases isBranch_iff.1 h with h | h <;> simp [h, Op.isControl]
  · rfl

section
variable {fn : Func} {n : ℕ} {i j : Ins}

lemma jumpsOver_getElem (h : fn.ins[n]? = some i) : (jumpsOver fn.ins)[n]? =
    some (if isBranch i && fallsInto fn.ins n i.label then toJump i else i) := by
  simp [jumpsOver, h]

lemma lkDecide_cases (k : LkConst) (i : Ins) : (lkDecide fn k i).1 = (i, false) ∨ isBranch i ∧ ∃ v,
    lkGet fn.nvregs k i.a i.w = some v ∧ ((i.op == .brz) == (Ir.norm v i.w == 0) ∧ (lkDecide fn k i).1 = (toJump i, false)
    ∨ ¬ (i.op == .brz) == (Ir.norm v i.w == 0) ∧ (lkDecide fn k i).1 = (i, true)) := by
  simp only [lkDecide]
  split
  · exact .inl rfl
  · rename_i v hv
    split at hv
    · rename_i hb
      split
      · exact .inl rfl
      · refine .inr ⟨hb, v, hv, ?_⟩
        split
        · rename_i h
          exact .inl ⟨h, rfl⟩
        · rename_i h
          exact .inr ⟨h, rfl⟩
    · cases hv

lemma lkDecide_note (k : LkConst) (i : Ins) : (lkDecide fn k i).2 = lkNote fn.nvregs k i := by
  have hnote : (lkDecide fn k i).2 = lkNote fn.nvregs k (lkDecide fn k i).1.1 := rfl
  rw [hnote]
  rcases @lkDecide_cases fn k i with h | ⟨hb, -, -, ⟨-, h⟩ | ⟨-, h⟩⟩
  · rw [h]
  · rw [h, lkNote_toJump hb]
  · rw [h]

lemma stateAt_lkDecide (fn : Func) (n : ℕ) :
    stateAt (lkDecide fn) lkEmpty (jumpsOver fn.ins) n = lkAt fn.nvregs fn.ins n := by
  induction n with
  | zero => rfl
  | succ n ih =>
    cases h : fn.ins[n]? with
    | none =>
      have hle := List.getElem?_eq_none_iff.1 h
      have hle' : (jumpsOver fn.ins).length ≤ n := by simpa [jumpsOver] using hle
      rw [stateAt, lkAt, take_of_length_le hle, take_of_length_le hle'] at ih
      rw [stateAt, lkAt, take_of_length_le (by omega), take_of_length_le (by omega), ih]
    | some i =>
      rw [stateAt_succ _ _ (jumpsOver_getElem h), lkAt_succ h, lkDecide_note, ih]
      split
      · rename_i hb
        rw [and_eq_true] at hb
        exact lkNote_toJump hb.1
      · rfl

lemma lkCode_cases (h : fn.ins[n]? = some i) : (lkCode fn)[n]? = some (i, false) ∨
    isBranch i ∧ (fallsInto fn.ins n i.label ∧ (lkCode fn)[n]? = some (toJump i, false) ∨
      ∃ v, lkGet fn.nvregs (lkAt fn.nvregs fn.ins n) i.a i.w = some v ∧
      ((i.op == .brz) == (Ir.norm v i.w == 0) ∧ (lkCode fn)[n]? = some (toJump i, false) ∨
        ¬ (i.op == .brz) == (Ir.norm v i.w == 0) ∧ (lkCode fn)[n]? = some (i, true))) := by
  have hget : (lkCode fn)[n]? = some (lkDecide fn (lkAt fn.nvregs fn.ins n)
      (if isBranch i && fallsInto fn.ins n i.label then toJump i else i)).1 := by
    rw [lkCode, scan_getElem, jumpsOver_getElem h, stateAt_lkDecide]
    rfl
  by_cases hf : (isBranch i && fallsInto fn.ins n i.label) = true
  · rw [if_pos hf] at hget
    rw [and_eq_true] at hf
    rcases @lkDecide_cases fn (lkAt fn.nvregs fn.ins n) (toJump i) with h | ⟨hb, -⟩
    · exact .inr ⟨hf.1, .inl ⟨hf.2, by rw [hget, h]⟩⟩
    · cases hb
  · rw [if_neg hf] at hget
    rcases @lkDecide_cases fn (lkAt fn.nvregs fn.ins n) i with h | ⟨hb, v, hv, hd⟩
    · exact .inl (by rw [hget, h])
    · refine .inr ⟨hb, .inr ⟨v, hv, ?_⟩⟩
      rwa [hget, some.injEq, some.injEq]

variable {last : Option Ins} {p : Ins × Bool}

lemma keepCond_control (h : i.op.isControl) : keepCond last i = last := by
  have hd : defTarget i = -1 := by
    cases hop : i.op <;> simp_all [Op.isControl, defTarget, writesTemp]
  cases last with
  | none => rfl
  | some j => simp [keepCond, hd]

lemma isControl_of_isBranch (h : isBranch i) : i.op.isControl := by
  rcases isBranch_iff.1 h with h | h <;> simp [h, Op.isControl]

lemma lastCond_succ (h : (lkCode fn)[n]? = some p) :
    lastCond fn (n + 1) = (condDecide (lastCond fn n) p).2 := stateAt_succ _ _ h

lemma decideBranches_getElem (h : (lkCode fn)[n]? = some p) :
    (decideBranches fn)[n]? = some (condDecide (lastCond fn n) p).1 := by
  rw [decideBranches, scan_getElem]
  rw [lkCode] at h
  rw [h]
  rfl

lemma condDecide_label {d : Bool} (h : i.op = .label) : condDecide last (i, d) = ((i, d), none) := by
  simp [condDecide, h]

lemma condDecide_dead (h : isBranch i) : condDecide last (i, true) = ((i, true), last) := by
  simp [condDecide, ne_label_of_isBranch h]

lemma condDecide_other (hl : i.op ≠ .label) (hb : isBranch i = false) :
    condDecide last (i, false) = ((i, false), keepCond last i) := by simp [condDecide, hl, hb]

lemma condDecide_jump : condDecide last (toJump i, false) = ((toJump i, false), last) := by
  rw [condDecide_other (by simp [toJump]) rfl, keepCond_control rfl]

lemma condDecide_branch (hb : isBranch i) : condDecide last (i, false) = ((i, false), some i) ∨
    ∃ j, last = some j ∧ 0 ≤ j.a ∧ i.a = j.a ∧ (i.op = j.op ∧ condDecide last (i, false) = ((i, true), some j) ∨
        i.op ≠ j.op ∧ condDecide last (i, false) = ((toJump i, false), none)) := by
  simp only [condDecide, if_neg (ne_label_of_isBranch hb), hb, if_true, false_eq_true, if_false,
    keepCond_control (isControl_of_isBranch hb)]
  cases last with
  | none => exact .inl rfl
  | some j =>
    dsimp only
    split
    · rename_i ha
      refine .inr ⟨j, rfl, ha.1, ha.2, ?_⟩
      split
      · rename_i hop
        exact .inl ⟨hop, rfl⟩
      · rename_i hop
        exact .inr ⟨hop, rfl⟩
    · exact .inl rfl

/-! ## The branch above -/

/-- The branch that `last_cond` stands for is above, with no label and no definition of its temp
between. -/
def CondSite (fn : Func) (n : ℕ) (j : Ins) : Prop :=
  ∃ m < n, fn.ins[m]? = some j ∧ isBranch j ∧ ∀ k x, m < k → k < n → fn.ins[k]? = some x →
    x.op ≠ .label ∧ (0 ≤ j.a → defTarget x ≠ j.a)

lemma CondSite.succ (h : CondSite fn n j) (hn : ∀ x, fn.ins[n]? = some x → x.op ≠ .label ∧ (0 ≤ j.a → defTarget x ≠ j.a)) :
    CondSite fn (n + 1) j := by
  obtain ⟨m, hm, hj, hb, hbetween⟩ := h
  refine ⟨m, by omega, hj, hb, fun k x hk hkn hx => ?_⟩
  rcases Nat.lt_succ_iff_lt_or_eq.1 hkn with hlt | rfl
  · exact hbetween k x hk hlt hx
  · exact hn x hx

lemma condSite_self (h : fn.ins[n]? = some i) (hb : isBranch i) : CondSite fn (n + 1) i :=
  ⟨n, by omega, h, hb, fun k x hk hkn _ => by omega⟩

/-- `last_cond` after an instruction is the instruction, or what it was before, whose temp is kept. -/
lemma lastCond_succ_cases (hi : fn.ins[n]? = some i) (hj : lastCond fn (n + 1) = some j) :
    i.op ≠ .label ∧ (isBranch i ∧ i = j ∨ lastCond fn n = some j ∧ (0 ≤ j.a → defTarget i ≠ j.a)) := by
  have hdef (hb : isBranch i) : 0 ≤ j.a → defTarget i ≠ j.a := by
    rcases isBranch_iff.1 hb with h | h <;> simp [h, defTarget, writesTemp] <;> omega
  rcases lkCode_cases hi with hp | ⟨hb, hp⟩
  · rw [lastCond_succ hp] at hj
    by_cases hl : i.op = .label
    · rw [condDecide_label hl] at hj
      cases hj
    refine ⟨hl, ?_⟩
    by_cases hb : isBranch i
    · rcases @condDecide_branch i (lastCond fn n) hb with h | ⟨k, hk, -, -, ⟨-, h⟩ | ⟨-, h⟩⟩ <;> rw [h] at hj
      · exact .inl ⟨hb, some.inj hj⟩
      · exact .inr ⟨hk.trans hj, hdef hb⟩
      · cases hj
    · rw [condDecide_other hl (by simpa using hb)] at hj
      obtain ⟨hlast, hkeep⟩ := Option.filter_eq_some_iff.1 hj
      refine .inr ⟨hlast, fun h0 heq => ?_⟩
      rw [heq] at hkeep
      simp [h0] at hkeep
  · refine ⟨ne_label_of_isBranch hb, .inr ⟨?_, hdef hb⟩⟩
    rcases hp with ⟨-, hp⟩ | ⟨v, -, ⟨-, hp⟩ | ⟨-, hp⟩⟩
    · rwa [lastCond_succ hp, condDecide_jump] at hj
    · rwa [lastCond_succ hp, condDecide_jump] at hj
    · rwa [lastCond_succ hp, condDecide_dead hb] at hj

lemma lastCond_site (fn : Func) (n : ℕ) : ∀ j, lastCond fn n = some j → CondSite fn n j := by
  induction n with
  | zero =>
    intro j hj
    cases hj
  | succ n ih =>
    intro j hj
    cases hi : fn.ins[n]? with
    | none =>
      have hle : (lkCode fn).length ≤ n := by
        simpa [lkCode, jumpsOver] using List.getElem?_eq_none_iff.1 hi
      refine (ih j ?_).succ (by simp [hi])
      rw [lastCond, stateAt, take_of_length_le (by omega)] at hj
      rwa [lastCond, stateAt, take_of_length_le hle]
    | some i =>
      obtain ⟨hl, ⟨hb, rfl⟩ | ⟨hlast, hdef⟩⟩ := lastCond_succ_cases hi hj
      · exact condSite_self hi hb
      · refine (ih j hlast).succ fun x hx => ?_
        rw [hi] at hx
        exact some.inj hx ▸ ⟨hl, hdef⟩

lemma decideBranches_cases (h : fn.ins[n]? = some i) : (decideBranches fn)[n]? = some (i, false) ∨ isBranch i ∧
    ((decideBranches fn)[n]? = some (toJump i, false) ∧ (fallsInto fn.ins n i.label ∨
      (∃ v, lkGet fn.nvregs (lkAt fn.nvregs fn.ins n) i.a i.w = some v ∧ (i.op == .brz) == (Ir.norm v i.w == 0)) ∨
      ∃ j, lastCond fn n = some j ∧ j.a = i.a ∧ i.op ≠ j.op) ∨
    (decideBranches fn)[n]? = some (i, true) ∧ ((∃ v, lkGet fn.nvregs (lkAt fn.nvregs fn.ins n) i.a i.w = some v ∧
        ¬ (i.op == .brz) == (Ir.norm v i.w == 0)) ∨
      ∃ j, lastCond fn n = some j ∧ j.a = i.a ∧ i.op = j.op)) := by
  rcases lkCode_cases h with hp | ⟨hb, ⟨hf, hp⟩ | ⟨v, hv, ⟨hs, hp⟩ | ⟨hs, hp⟩⟩⟩
  · have hd := decideBranches_getElem hp
    by_cases hl : i.op = .label
    · exact .inl (by rw [hd, condDecide_label hl])
    by_cases hb : isBranch i
    · rcases @condDecide_branch i (lastCond fn n) hb with hc | ⟨j, hj, -, ha, ⟨hop, hc⟩ | ⟨hop, hc⟩⟩
      · exact .inl (by rw [hd, hc])
      · exact .inr ⟨hb, .inr ⟨by rw [hd, hc], .inr ⟨j, hj, ha.symm, hop⟩⟩⟩
      · exact .inr ⟨hb, .inl ⟨by rw [hd, hc], .inr (.inr ⟨j, hj, ha.symm, hop⟩)⟩⟩
    · exact .inl (by rw [hd, condDecide_other hl (by simpa using hb)])
  · exact .inr ⟨hb, .inl ⟨by rw [decideBranches_getElem hp, condDecide_jump], .inl hf⟩⟩
  · exact .inr ⟨hb, .inl ⟨by rw [decideBranches_getElem hp, condDecide_jump], .inr (.inl ⟨v, hv, hs⟩)⟩⟩
  · exact .inr ⟨hb, .inr ⟨by rw [decideBranches_getElem hp, condDecide_dead hb], .inl ⟨v, hv, hs⟩⟩⟩

end

/-! ## The code with marks -/

/-- Code with its dead instructions as holes. -/
def marked (code : List (Ins × Bool)) : List (Option Ins) :=
  code.map fun p => if p.2 then none else some p.1

/-- Marked code as it runs, in place of a function. -/
def codeProg (fn : Func) (code : List (Ins × Bool)) : Prog := ⟨marked code, fn.jt, fn.eh⟩

lemma codeProg_live (h : code[n]? = some (i, false)) : (codeProg fn code).code[n]? = some (some i) := by
  simp [codeProg, marked, h]

lemma codeProg_dead (h : code[n]? = some (i, true)) : (codeProg fn code).code[n]? = some none := by
  simp [codeProg, marked, h]

lemma length_decideBranches (fn : Func) : (decideBranches fn).length = fn.ins.length := by
  simp [decideBranches, jumpsOver]

/-- Marked code that keeps the labels of the function where they are; only branches are dead. -/
structure CodeWF (fn : Func) (code : List (Ins × Bool)) : Prop where
  label : ∀ (n : ℕ) i d, code[n]? = some (i, d) → i.op = .label →
    d = false ∧ fn.ins[n]? = some i
  placed : ∀ (n : ℕ) i, fn.ins[n]? = some i → i.op = .label → code[n]? = some (i, false)
  dead : ∀ (n : ℕ) i, code[n]? = some (i, true) → isBranch i
  length : code.length = fn.ins.length

lemma decideBranches_wf (fn : Func) : CodeWF fn (decideBranches fn) where
  label n i d h hop := by
    have hlt : n < fn.ins.length := by
      rw [← length_decideBranches]
      exact getElem?_lt h
    have hj := getElem?_eq_getElem hlt
    rcases decideBranches_cases hj with hd | ⟨hb, ⟨hd, -⟩ | ⟨hd, -⟩⟩
    · rw [h, some.injEq, mk.injEq] at hd
      exact ⟨hd.2, hd.1 ▸ hj⟩
    · rw [h, some.injEq, mk.injEq] at hd
      rw [hd.1] at hop
      cases hop
    · rw [h, some.injEq, mk.injEq] at hd
      exact absurd hop (ne_label_of_isBranch (hd.1 ▸ hb))
  placed n i h hop := by
    rcases decideBranches_cases h with hd | ⟨hb, -⟩
    · exact hd
    · exact absurd hop (ne_label_of_isBranch hb)
  dead n i h := by
    have hlt : n < fn.ins.length := by
      rw [← length_decideBranches]
      exact getElem?_lt h
    rcases decideBranches_cases (getElem?_eq_getElem hlt) with hd | ⟨hb, ⟨hd, -⟩ | ⟨hd, -⟩⟩
    · simp [h] at hd
    · simp [h] at hd
    · rw [h, some.injEq, mk.injEq] at hd
      exact hd.1 ▸ hb
  length := length_decideBranches fn

lemma CodeWF.labelAt (hc : CodeWF fn code) (l : ℤ) : (codeProg fn code).labelAt l = fn.prog.labelAt l := by
  refine labelAt_congr (ext_getElem? fun n => ?_)
  simp only [codeProg, marked, Func.prog, getElem?_map]
  cases h : fn.ins[n]? with
  | none =>
    have hle := List.getElem?_eq_none_iff.1 h
    rw [getElem?_eq_none (by rw [hc.length]; exact hle)]
    rfl
  | some i =>
    have hlt : n < code.length := by
      rw [hc.length]
      exact getElem?_lt h
    obtain ⟨⟨j, d⟩, hj⟩ : ∃ p, code[n]? = some p := ⟨_, getElem?_eq_getElem hlt⟩
    by_cases hop : i.op = .label
    · rw [hc.placed n i h hop]
      rfl
    · have hjop : j.op ≠ .label := by
        intro hjop
        have := (hc.label n j d hj hjop).2
        rw [h, some.injEq] at this
        exact hop (this ▸ hjop)
      have hi : isLabel l (some i) = false := by simp [isLabel, hop]
      have hj' : isLabel l (if d = true then none else some j) = false := by
        split <;> simp [isLabel, hjop]
      simp [hj, hi, hj']

/-! ## Runs -/

/-- What the rule for repeated conditions needs of a run. At a branch below another on the same
temp, with no label and no definition of the temp between, the temp is zero at the one's width
exactly when it is at the other's. And no landing pad stands in such a stretch and writes the temp, which
`def_target` would not report. -/
structure PairOk {W : Type} (fn : Func) (pc : ℕ) (s : St W) : Prop where
  width : ∀ j i v, CondSite fn pc j → fn.ins[pc]? = some i → isBranch i → j.a = i.a →
    s.temps i.a = some v → isZero j.w v = isZero i.w v
  landing : ∀ j i, CondSite fn pc j → fn.ins[pc]? = some i → i.op = .landing → j.a ∉ tempDefs i

/-- The branch that `last_cond` stands for has fallen through, on the value its temp still
has. -/
def CondInv {W : Type} (fn : Func) (pc : ℕ) (s : St W) : Prop :=
  ∀ i, fn.ins[pc]? = some i → i.op ≠ .label → ∀ j, lastCond fn pc = some j →
    ∃ v, s.temps j.a = some v ∧ brTaken j v = false

section
variable {W : Type} {E : Env W} {fn : Func} {pc pc' : ℕ} {s s' : St W} {i : Ins}

lemma setTemps_neg {t : ℤ} (ht : t < 0) (temps : ℤ → Option Val) (ds : List ℤ) (vs : List Val) :
    setTemps temps ds vs t = temps t := by
  induction ds generalizing temps vs with
  | nil => simp only [setTemps]
  | cons d ds ih =>
    cases vs with
    | nil => rfl
    | cons v vs =>
      rw [setTemps, ih, setTemp]
      split
      · rfl
      · exact Function.update_of_ne (by omega) _ _

lemma condInv_next (hinv : CondInv fn pc s) (hi : fn.ins[pc]? = some i)
    (hbr : isBranch i → ∃ v, s'.temps i.a = some v ∧ brTaken i v = false)
    (hframe : i.op ≠ .label → ∀ j, lastCond fn pc = some j → (0 ≤ j.a → defTarget i ≠ j.a) → s'.temps j.a = s.temps j.a) :
    CondInv fn (pc + 1) s' := by
  intro _ _ _ j hj
  obtain ⟨hl, ⟨hb, rfl⟩ | ⟨hlast, hdef⟩⟩ := lastCond_succ_cases hi hj
  · exact hbr hb
  · rw [hframe hl j hlast hdef]
    exact hinv i hi hl j hlast

/-- A step keeps what the branch above said of the register. -/
lemma condInv_step {o : Option Event} (hinv : CondInv fn pc s) (hok : PairOk fn pc s) (hi : fn.ins[pc]? = some i)
    (h : step fn.prog E (some (pc, s)) = some (o, some (pc', s'))) : CondInv fn pc' s' := by
  have htarget : ∀ l, fn.prog.labelAt l = some pc' → CondInv fn pc' s' := by
    intro l hl j hj hjl
    obtain ⟨k, hk, hkl, -⟩ := labelAt_spec hl
    rw [prog_code hj] at hk
    simp only [some.injEq] at hk
    exact absurd (hk ▸ hkl) hjl
  rcases step_cases (prog_code hi) h with ⟨-, rfl, ⟨rfl, hop⟩ | ⟨l, -, hat⟩⟩ |
    ⟨hctl, ⟨vs, rs, world, -, -, -, rfl, rfl⟩ | ⟨world, -, l, -, hat⟩⟩
  · by_cases hb : isBranch i
    · have hbr := isBranch_iff.1 hb
      cases hv : s'.temps i.a with
      | none =>
        rw [step_branch_unset (prog_code hi) hbr hv] at h
        simp at h
      | some v =>
        rw [step_branch (prog_code hi) hbr hv] at h
        split at h
        · exact htarget i.label (goto_eq_some h).1
        · rename_i hnt
          exact condInv_next hinv hi (fun _ => ⟨v, hv, by simpa using hnt⟩) (fun _ _ _ _ => rfl)
    · exact condInv_next hinv hi (fun hb' => absurd hb' hb) (fun _ _ _ _ => rfl)
  · exact htarget l hat
  · have hb : isBranch i = false := by cases hop : i.op <;> simp_all [Op.isControl, isBranch]
    refine condInv_next hinv hi (fun hb' => by simp [hb] at hb') fun _ j hj hdef => ?_
    rcases lt_or_ge j.a 0 with hneg | hpos
    · exact setTemps_neg hneg _ _ _
    · refine after_temps_of_not_mem (fun hm => ?_) rs world
      by_cases hland : i.op = .landing
      · exact hok.landing j i (lastCond_site fn pc j hj) hi hland hm
      · exact hdef hpos (tempDefs_eq_defTarget hland hm).symm
  · exact htarget l hat

lemma condInv_entry (fn : Func) (s : St W) : CondInv fn 0 s := by
  intro _ _ _ j hj
  cases hj

lemma brTaken_pair {i j : Ins} {v : Val} (hi : isBranch i) (hj : isBranch j) (hz : isZero j.w v = isZero i.w v) :
    brTaken i v = if i.op = j.op then brTaken j v else !brTaken j v := by
  simp only [brTaken, hz]
  rcases isBranch_iff.1 hi with hi | hi <;> rcases isBranch_iff.1 hj with hj | hj <;>
    rw [hi, hj] <;> cases isZero i.w v <;> rfl

section
variable (hlk : LkInv fn pc s) (hcond : CondInv fn pc s) (hok : PairOk fn pc s)
  (hi : fn.ins[pc]? = some i)
include hlk hcond hok hi

lemma brTaken_decided (hb : isBranch i) {taken : Bool}
    (hrule : (∃ v, lkGet fn.nvregs (lkAt fn.nvregs fn.ins pc) i.a i.w = some v ∧
        ((i.op == .brz) == (Ir.norm v i.w == 0)) = taken) ∨
      ∃ j, lastCond fn pc = some j ∧ j.a = i.a ∧ (decide (i.op ≠ j.op)) = taken) :
    ∃ v, s.temps i.a = some v ∧ brTaken i v = taken := by
  have hl := ne_label_of_isBranch hb
  rcases hrule with ⟨x, hx, hs⟩ | ⟨j, hj, ha, hs⟩
  · obtain ⟨hv, hw⟩ := lkGet_true (hlk i hi hl) hx
    exact ⟨_, hv, by rw [brTaken, isZero_norm hw, hs]⟩
  · obtain ⟨v, hv, hfell⟩ := hcond i hi hl j hj
    have hsite := lastCond_site fn pc j hj
    rw [ha] at hv
    refine ⟨v, hv, ?_⟩
    have hbj : isBranch j := by
      obtain ⟨_, _, _, h, _⟩ := hsite
      exact h
    rw [brTaken_pair hb hbj (hok.width j i v hsite hi hb ha hv), hfell]
    by_cases hop : i.op = j.op <;> simp at hs ⊢ <;> exact hs

/-- The code with the branches decided steps as before, or skips jumps. -/
lemma decide_step (hwf : WF fn) : step fn.prog E (some (pc, s)) = some (some .unset, none) ∨
    step (codeProg fn (decideBranches fn)) E (some (pc, s)) = step fn.prog E (some (pc, s)) ∨
    ∃ n, TransGen (Silent (step fn.prog E)) (some (pc, s)) (some (n, s)) ∧
      step (codeProg fn (decideBranches fn)) E (some (pc, s)) = some (none, some (n, s)) := by
  have hold := prog_code hi
  rcases decideBranches_cases hi with hd | ⟨hb, ⟨hd, hrule⟩ | ⟨hd, hrule⟩⟩
  · exact .inr (.inl (step_congr hold (codeProg_live hd) (fun _ => rfl) rfl
      (fun l _ => (decideBranches_wf fn).labelAt l) (fun l _ => (decideBranches_wf fn).labelAt l)))
  · have hbr := isBranch_iff.1 hb
    have hpl : i.label ∈ fn.ins.filterMap placedLabel :=
      hwf.placed i (mem_of_getElem? hi) _ (by rcases hbr with h | h <;> simp [eachLabel, h])
    obtain ⟨n, hn⟩ := labelAt_of_mem hwf hpl
    have hnew : step (codeProg fn (decideBranches fn)) E (some (pc, s)) = some (none, some (n, s)) :=
      step_jmp (codeProg_live hd) rfl (((decideBranches_wf fn).labelAt _).trans hn)
    cases hv : s.temps i.a with
    | none => exact .inl (step_branch_unset hold hbr hv)
    | some v =>
      refine .inr (.inr ⟨n, ?_, hnew⟩)
      have hstep := step_branch (E := E) hold hbr hv
      cases ht : brTaken i v with
      | true =>
        rw [ht, if_pos rfl, Prog.goto, hn] at hstep
        exact .single hstep
      | false =>
        rw [ht, if_neg (by decide)] at hstep
        rcases hrule with hf | hrule
        · obtain ⟨m, k, hm, hk, hkl, hlabels⟩ := fallsInto_spec hf
          obtain rfl : n = m := by
            rw [labelAt_of_placed hwf hk hkl] at hn
            exact (some.inj hn).symm
          refine .head' hstep (silent_path hm (fun x hx hxn => .inr ?_) s)
          obtain ⟨j, hj, hjl⟩ := hlabels x hx (by omega)
          exact ⟨j, prog_code hj, hjl⟩
        · obtain ⟨u, hu, htk⟩ : ∃ u, s.temps i.a = some u ∧ brTaken i u = true :=
            brTaken_decided hlk hcond hok hi hb (by simpa using hrule)
          rw [hv] at hu
          rw [some.inj hu, htk] at ht
          cases ht
  · have hbr := isBranch_iff.1 hb
    obtain ⟨v, hv, hnt⟩ : ∃ v, s.temps i.a = some v ∧ brTaken i v = false :=
      brTaken_decided hlk hcond hok hi hb (by simpa using hrule)
    refine .inr (.inr ⟨pc + 1, .single ?_, step_hole (codeProg_dead hd)⟩)
    rw [Silent, step_branch hold hbr hv, hnt]
    rfl

end
end

section
variable {W : Type} {E : Env W} {fn : Func} {s : St W}
  (hok : ∀ pc s', Reaches (step fn.prog E) (some (0, s)) (some (pc, s')) → PairOk fn pc s')
include hok

/-- The two invariants hold wherever a run comes. -/
lemma decide_inv {pc : ℕ} {s' : St W} (h : Reaches (step fn.prog E) (some (0, s)) (some (pc, s'))) :
    LkInv fn pc s' ∧ CondInv fn pc s' := by
  suffices hall : ∀ c, Reaches (step fn.prog E) (some (0, s)) c →
      ∀ pc s', c = some (pc, s') → LkInv fn pc s' ∧ CondInv fn pc s' from hall _ h pc s' rfl
  intro c hc
  induction hc with
  | refl =>
    rintro _ _ ⟨⟩
    exact ⟨lkInv_entry fn s, condInv_entry fn s⟩
  | @tail c d hpre hstep ih =>
    rintro pc' t rfl
    obtain ⟨o, hstep⟩ := hstep
    obtain _ | ⟨pc, u⟩ := c
    · cases hstep
    obtain ⟨hlk, hcond⟩ := ih pc u rfl
    cases hi : fn.ins[pc]? with
    | none => simp [step, Func.prog, hi] at hstep
    | some i => exact ⟨lkInv_step hlk hi hstep, condInv_step hcond (hok pc u hpre) hi hstep⟩

/-- Deciding the branches keeps every run. -/
lemma decideBranches_refines (hwf : WF fn) : Refines Event.Wild (step fn.prog E) (some (0, s))
      (step (codeProg fn (decideBranches fn)) E) (some (0, s)) := by
  refine refines_of_match (R := fun c d => c = d ∧ Reaches (step fn.prog E) (some (0, s)) c) ?_ ⟨rfl, .refl⟩
  rintro (_ | ⟨pc, t⟩) _ ⟨rfl, hreach⟩
  · exact .halt .refl .refl rfl rfl
  obtain ⟨hlk, hcond⟩ := decide_inv hok hreach
  cases hi : fn.ins[pc]? with
  | none =>
    have hle : (decideBranches fn)[pc]? = none := by
      rw [List.getElem?_eq_none_iff, length_decideBranches]
      exact List.getElem?_eq_none_iff.1 hi
    refine .visible (o := .lost) (d := none) .refl .refl ?_ ?_ ⟨rfl, ?_⟩
    · simp [step, Func.prog, hi]
    · simp [step, codeProg, marked, hle]
    · exact hreach.tail ⟨some .lost, by simp [step, Func.prog, hi]⟩
  | some i =>
    rcases decide_step hlk hcond (hok pc t hreach) hi hwf with hunset | heq | ⟨n, hrun, hnew⟩
    · exact .wild .refl hunset rfl
    · obtain ⟨⟨o, d⟩, hd⟩ := Option.isSome_iff_exists.1 (step_isSome fn.prog E pc t)
      exact .of_step hd (heq.trans hd) ⟨rfl, hreach.tail ⟨o, hd⟩⟩
    · refine .silent hrun (.single hnew) ⟨rfl, ?_⟩
      exact hreach.trans (ReflTransGen.mono (fun _ _ h => ⟨none, h⟩) _ _ hrun.to_reflTransGen)

end
end EmbCC.Opt.CfgClean
