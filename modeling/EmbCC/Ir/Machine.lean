import EmbCC.Lib.Trace
import EmbCC.Ir.Arith

/-!
# Running IR

What a function does when it runs. Control (labels, jumps, branches, switches,
computed gotos) moves the program counter and nothing else; every other
instruction reads its operands, has its effect on the world, and writes its
result. The integer operations are `fold.c`'s; memory, calls, floats and the rest are an
environment `Env`, of which only the operands and the result are known. A
register that was never written has no value, and reading it ends the run as
undefined. A computed goto reaches only labels whose address the run has taken.

Passes mark instructions dead before they remove them, so code is a list with
holes; a hole is passed over.
-/

namespace EmbCC.Ir

open Option List Trace Function Prod

/-! ## Values and states -/

/-- A register's cell: eight bytes of it for the integer operations, all sixteen for the wide
types. -/
abbrev Val := BitVec 128

/-- The `long` in a cell. -/
def toLong (v : Val) : BitVec 64 := v.setWidth 64

/-- A cell that holds a `long`. -/
def ofLong (x : BitVec 64) : Val := x.setWidth 128

@[simp] lemma toLong_ofLong (x : BitVec 64) : toLong (ofLong x) = x := by
  unfold toLong ofLong
  simp

/-- The low `w` bytes are zero: what `brz` and `brnz` test. -/
def isZero (w : ℕ) (v : Val) : Bool := v.toNat % 2 ^ (8 * w) == 0

lemma isZero_norm {w : ℕ} (hw : w = 4 ∨ w = 8) (x : BitVec 64) : isZero w (ofLong (norm x w)) = (norm x w == 0) := by
  rw [Bool.eq_iff_iff]
  rcases hw with rfl | rfl
  · simp only [isZero, ofLong, norm, beq_iff_eq, show ¬ (4 = 8) by decide, if_false]
    generalize x.setWidth 32 = y
    rw [BitVec.toNat_setWidth, Nat.mod_mod_of_dvd _ (by decide), ← BitVec.toNat_setWidth, setWidth_signExtend]
    constructor
    · intro h
      rw [BitVec.eq_of_toNat_eq (y := 0#32) h]
      rfl
    · intro h
      rw [← setWidth_signExtend y, h]
      rfl
  · simp only [isZero, ofLong, norm, beq_iff_eq, if_true]
    rw [BitVec.toNat_setWidth, Nat.mod_mod_of_dvd _ (by decide), Nat.mod_eq_of_lt x.isLt]
    exact ⟨fun h => BitVec.eq_of_toNat_eq h, fun h => by rw [h]; rfl⟩

/-- What an instruction does outside the registers. -/
inductive Effect (W : Type)
  | ok (results : List Val) (world : W)
  | throw (world : W)
  | fault

/-- The world around the registers: the effect of the instructions that are not integer
arithmetic, and the addresses of the labels. -/
structure Env (W : Type) where
  sem : Ins → List Val → W → Effect W
  addrOf : ℤ → Val

/-- The registers, the labels whose address was taken, and the world. -/
structure St (W : Type) where
  temps : ℤ → Option Val
  taken : List ℤ
  world : W

/-- No memory and no calls: whatever is not integer arithmetic faults. -/
def Env.bare : Env Unit := ⟨fun _ _ _ => .fault, fun _ => 0⟩

/-- No register is written yet. -/
def St.blank : St Unit := ⟨fun _ => none, [], ()⟩

/-! ## What an instruction does -/

/-- Is it one of the integer operations that `evalCore` gives a meaning? -/
def isCore (i : Ins) : Bool :=
  match i.op with
  | .const | .mov => true
  | .add | .sub | .mul | .div | .mod | .and | .or | .xor | .shl | .shr | .cmp | .mulh | .mulw
  | .neg | .bnot | .ext => !i.flt && (i.w == 4 || i.w == 8)
  | _ => false

/-- The result of an integer operation; `none` is a division that traps. -/
def evalCore (i : Ins) (vs : List Val) : Option Val :=
  match i.op, vs with
  | .const, _ => some (ofLong (norm i.imm i.w))
  | .mov, x :: _ => some x
  | .neg, x :: _ => (foldBin .sub 0 (toLong x) i.w i.sign i.pred).map ofLong
  | .bnot, x :: _ => (foldBin .xor (toLong x) (-1) i.w i.sign i.pred).map ofLong
  | .ext, x :: _ => some (ofLong (foldExt (toLong x) i.size i.sign i.w))
  | op, [x] => (foldBin op (toLong x) i.imm i.w i.sign i.pred).map ofLong
  | op, x :: y :: _ => (foldBin op (toLong x) (toLong y) i.w i.sign i.pred).map ofLong
  | _, [] => none

/-- The effect of an instruction on its operands. -/
def effect {W : Type} (E : Env W) (i : Ins) (vs : List Val) (world : W) : Effect W :=
  if i.op = .labeladdr then .ok [E.addrOf i.label] world
  else if isCore i then
    match evalCore i vs with
    | some v => .ok [v] world
    | none => .fault
  else E.sem i vs world

/-- Writing one register; a destination of `-1` is none. -/
def setTemp (temps : ℤ → Option Val) (d : ℤ) (v : Val) : ℤ → Option Val :=
  if d < 0 then temps else update temps d (some v)

/-- Writing the results to their destinations. -/
def setTemps (temps : ℤ → Option Val) : List ℤ → List Val → ℤ → Option Val
  | d :: ds, v :: vs => setTemps (setTemp temps d v) ds vs
  | _, _ => temps

/-- The state after an instruction that went through. -/
def St.after {W : Type} (s : St W) (i : Ins) (rs : List Val) (world : W) : St W where
  temps := setTemps s.temps (tempDefs i) rs
  taken := if i.op = .labeladdr then i.label :: s.taken else s.taken
  world := world

variable {t l : ℤ} {W : Type} {s : St W} {i : Ins} {P : Prog} {n : ℕ}

lemma setTemps_keep {ds : List ℤ} (h : t ∈ ds → t < 0) (temps : ℤ → Option Val)
    (vs : List Val) : setTemps temps ds vs t = temps t := by
  induction ds generalizing temps vs with
  | nil => simp only [setTemps]
  | cons d ds ih =>
    cases vs with
    | nil => rfl
    | cons v vs =>
      rw [setTemps, ih (fun hm => h (.tail _ hm)), setTemp]
      split
      · rfl
      · rename_i hd
        exact update_of_ne (fun he : t = d => hd (he ▸ h (he ▸ .head _))) _ _

lemma after_temps_keep (h : t ∈ tempDefs i → t < 0) (rs : List Val) (world : W) : (s.after i rs world).temps t = s.temps t :=
  setTemps_keep h _ _

lemma after_temps_of_not_mem (h : t ∉ tempDefs i) (rs : List Val) (world : W) : (s.after i rs world).temps t = s.temps t :=
  after_temps_keep (fun hm => absurd hm h) rs world

/-- What is seen of a run: the instructions executed and their operands, and how it ends. -/
inductive Event
  | exec (i : Ins) (vs : List Val)
  | throw (i : Ins) (vs : List Val)
  | fault (i : Ins) (vs : List Val)
  | ret (v : Option Val)
  | trap
  | unset
  | lost
deriving DecidableEq

/-- Reading a register that was never written: what follows is undefined. -/
def Event.Wild (e : Event) : Prop := e = .unset

/-! ## Programs and steps -/

/-- Code with its holes, the jump tables and the landing pads. -/
structure Prog where
  code : List (Option Ins)
  jt : List (List ℤ)
  eh : List ℤ

/-- A function as it runs. -/
def Func.prog (fn : Func) : Prog := ⟨fn.ins.map some, fn.jt, fn.eh⟩

/-- Is it the label `l`? -/
def isLabel (l : ℤ) : Option Ins → Bool
  | some i => i.op == .label && i.label == l
  | none => false

/-- Where a label is placed. -/
def Prog.labelAt (P : Prog) (l : ℤ) : Option ℕ := P.code.findIdx? (isLabel l)

lemma labelAt_eq_some (hi : P.code[n]? = some (some i)) (hl : isLabel l (some i))
    (hfirst : ∀ m j, m < n → P.code[m]? = some (some j) → ¬ isLabel l (some j)) : P.labelAt l = some n := by
  obtain ⟨hn, hget⟩ := List.getElem?_eq_some_iff.1 hi
  rw [Prog.labelAt, findIdx?_eq_some_iff_getElem]
  refine ⟨hn, by rwa [hget], fun m hm => ?_⟩
  cases hj : P.code.get ⟨m, hm.trans hn⟩ with
  | none => simp_all [isLabel]
  | some j =>
    rw [get_eq_getElem] at hj
    rw [hj]
    exact hfirst m j hm (by rw [getElem?_eq_getElem (hm.trans hn), hj])

lemma labelAt_spec (h : P.labelAt l = some n) : ∃ i, P.code[n]? = some (some i) ∧ i.op = .label ∧ i.label = l := by
  obtain ⟨hn, hl, -⟩ := List.findIdx?_eq_some_iff_getElem.1 h
  cases hi : P.code.get ⟨n, hn⟩ with
  | none =>
    rw [get_eq_getElem] at hi
    rw [hi] at hl
    cases hl
  | some i =>
    rw [get_eq_getElem] at hi
    rw [hi] at hl
    refine ⟨i, by rw [getElem?_eq_getElem hn, hi], ?_⟩
    simpa [isLabel] using hl

/-- A point of a run: the program counter and the state; `none` when it has ended. -/
abbrev Cfg (W : Type) := Option (ℕ × St W)

/-- A run going to a label. -/
def Prog.goto {W : Type} (P : Prog) (l : ℤ) (s : St W) : Option (Option Event × Cfg W) :=
  match P.labelAt l with
  | some n => some (none, some (n, s))
  | none => some (some .lost, none)

/-- The label a switch goes to; `none` when the index is out of a table that is not tested. -/
def switchTarget (P : Prog) (i : Ins) (v : Val) : Option ℤ :=
  let table := P.jt.getD i.jt []
  match table[v.toNat % 2 ^ (8 * i.w)]? with
  | some l => some l
  | none => if i.sign then none else some i.label

/-- Is the branch taken on the value? -/
def brTaken (i : Ins) (v : Val) : Bool := (i.op == .brz) == isZero i.w v

/-- A step at a transfer of control. -/
def ctlStep {W : Type} (P : Prog) (E : Env W) (i : Ins) (pc : ℕ) (s : St W) :
    Option (Option Event × Cfg W) :=
  match i.op with
  | .label => some (none, some (pc + 1, s))
  | .jmp => P.goto i.label s
  | .ret =>
    if i.a < 0 then some (some (.ret none), none)
    else match s.temps i.a with
      | some v => some (some (.ret (some v)), none)
      | none => some (some .unset, none)
  | .ud2 => some (some .trap, none)
  | .brz | .brnz =>
    match s.temps i.a with
    | some v => if brTaken i v then P.goto i.label s else some (none, some (pc + 1, s))
    | none => some (some .unset, none)
  | .switch =>
    match (s.temps i.a).bind (switchTarget P i) with
    | some l => P.goto l s
    | none => some (some .unset, none)
  | _ =>
    match (s.temps i.a).bind fun v => s.taken.find? fun l => E.addrOf l == v with
    | some l => P.goto l s
    | none => some (some .unset, none)

/-- A step at any other instruction. -/
def seqStep {W : Type} (P : Prog) (E : Env W) (i : Ins) (pc : ℕ) (s : St W) :
    Option (Option Event × Cfg W) :=
  match (valueOpnds i).mapM s.temps with
  | none => some (some .unset, none)
  | some vs =>
    match effect E i vs s.world with
    | .ok rs world => some (some (.exec i vs), some (pc + 1, s.after i rs world))
    | .fault => some (some (.fault i vs), none)
    | .throw world =>
      some (some (.throw i vs),
        if i.ehRegion = 0 then none
        else ((P.eh[i.ehRegion - 1]?).bind P.labelAt).map fun n => (n, { s with world := world }))

/-- One step of a run. -/
def step {W : Type} (P : Prog) (E : Env W) : Cfg W → Option (Option Event × Cfg W)
  | none => none
  | some (pc, s) =>
    match P.code[pc]? with
    | none => some (some .lost, none)
    | some none => some (none, some (pc + 1, s))
    | some (some i) => if i.op.isControl then ctlStep P E i pc s else seqStep P E i pc s

section
variable {β : Type} {temps temps' : ℤ → Option β} {ts : List ℤ} {vs : List β} {a b : ℤ}

lemma length_mapM_temps (h : ts.mapM temps = some vs) : vs.length = ts.length := by
  induction ts generalizing vs with
  | nil =>
    obtain rfl : [] = vs := by simpa using h
    rfl
  | cons t ts ih =>
    rw [mapM_cons] at h
    obtain ⟨v, -, h⟩ := bind_eq_some_iff.1 h
    obtain ⟨vs', hvs, h⟩ := bind_eq_some_iff.1 h
    cases h
    rw [length_cons, length_cons, ih hvs]

/-! ## Reading operands -/

lemma mapM_temps_congr (h : ∀ t ∈ ts, temps' t = temps t) : ts.mapM temps' = ts.mapM temps := by
  induction ts with
  | nil => rfl
  | cons t ts ih => rw [mapM_cons, mapM_cons, h t (.head _), ih fun u hu => h u (.tail _ hu)]

lemma mapM_temps_one (h : [a].mapM temps = some vs) : ∃ u, temps a = some u ∧ vs = [u] := by
  obtain ⟨u, hu, h⟩ := bind_eq_some_iff.1 h
  exact ⟨u, hu, (some.inj h).symm⟩

lemma mapM_temps_two (h : [a, b].mapM temps = some vs) : ∃ u v, temps a = some u ∧ temps b = some v ∧ vs = [u, v] := by
  rw [mapM_cons] at h
  obtain ⟨u, hu, h⟩ := bind_eq_some_iff.1 h
  obtain ⟨vs', hvs, h⟩ := bind_eq_some_iff.1 h
  obtain ⟨v, hv, rfl⟩ := mapM_temps_one hvs
  exact ⟨u, v, hu, hv, (some.inj h).symm⟩

lemma mapM_temps_three {c : ℤ} (h : [a, b, c].mapM temps = some vs) :
    ∃ u v w, temps a = some u ∧ temps b = some v ∧ temps c = some w ∧ vs = [u, v, w] := by
  rw [mapM_cons] at h
  obtain ⟨u, hu, h⟩ := bind_eq_some_iff.1 h
  obtain ⟨vs', hvs, h⟩ := bind_eq_some_iff.1 h
  obtain ⟨v, w, hv, hw, rfl⟩ := mapM_temps_two hvs
  exact ⟨u, v, w, hu, hv, hw, (some.inj h).symm⟩

end

/-- The labels a transfer of control may go to. -/
def jumpLabels {W : Type} (P : Prog) (i : Ins) (s : St W) : List ℤ :=
  match i.op with
  | .jmp | .brz | .brnz => [i.label]
  | .switch => i.label :: P.jt.getD i.jt []
  | .igoto => s.taken
  | _ => []

section
variable {W : Type} {E : Env W} {P Q : Prog} {i : Ins} {pc pc' : ℕ} {s s' : St W}
  {o : Option Event}

variable {l : ℤ} {fn : Func} {n : ℕ}

lemma goto_eq_some (h : P.goto l s = some (o, some (pc', s'))) : P.labelAt l = some pc' ∧ s' = s ∧ o = none := by
  unfold Prog.goto at h
  split at h
  · rename_i n hn
    obtain ⟨rfl, rfl, rfl⟩ := h
    exact ⟨hn, rfl, rfl⟩
  · simp at h

lemma switchTarget_mem {v : Val} (h : switchTarget P i v = some l) : l ∈ i.label :: P.jt.getD i.jt [] := by
  simp only [switchTarget] at h
  split at h
  · rename_i l' hl
    cases h
    exact .tail _ (mem_of_getElem? hl)
  · split at h
    · cases h
    · cases h
      exact .head _

lemma isControl_of_jump (h : l ∈ jumpLabels P i s) : i.op.isControl := by
  revert h
  unfold jumpLabels
  cases i.op <;> simp [Op.isControl]

lemma tempDefs_control (h : i.op.isControl) : tempDefs i = [] := by
  revert h
  unfold tempDefs
  cases i.op <;> simp [Op.isControl, writesTemp]

/-! ## What a step can do -/

/-- Control goes from `i` to the next instruction, or to a label it names. -/
def Goes (P : Prog) (i : Ins) (pc : ℕ) (s : St W) (o : Option Event) (pc' : ℕ) (s' : St W) : Prop :=
  o = none ∧ s' = s ∧ ((pc' = pc + 1 ∧ (i.op = .label ∨ i.op = .brz ∨ i.op = .brnz)) ∨
    ∃ l ∈ jumpLabels P i s, P.labelAt l = some pc')

/-- Where a control instruction goes. -/
lemma ctlStep_cases (hc : i.op.isControl) (h : ctlStep P E i pc s = some (o, some (pc', s'))) : Goes P i pc s o pc' s' := by
  have hjump : ∀ l ∈ jumpLabels P i s, P.goto l s = some (o, some (pc', s')) → Goes P i pc s o pc' s' := by
    intro l hl hg
    obtain ⟨hat, rfl, rfl⟩ := goto_eq_some hg
    exact ⟨rfl, rfl, .inr ⟨l, hl, hat⟩⟩
  have hbr : (i.op = .brz ∨ i.op = .brnz) → ∀ v, (if brTaken i v then P.goto i.label s
      else some (none, some (pc + 1, s))) = some (o, some (pc', s')) → Goes P i pc s o pc' s' := by
    intro hop v hv
    split at hv
    · exact hjump _ (by rcases hop with hop | hop <;> simp [jumpLabels, hop]) hv
    · simp only [some.injEq, mk.injEq] at hv
      obtain ⟨rfl, rfl, rfl⟩ := hv
      exact ⟨rfl, rfl, .inl ⟨rfl, .inr hop⟩⟩
  unfold ctlStep at h
  split at h
  case h_1 hop =>
    obtain ⟨rfl, rfl, rfl⟩ := h
    exact ⟨rfl, rfl, .inl ⟨rfl, .inl hop⟩⟩
  case h_2 hop => exact hjump _ (by simp [jumpLabels, hop]) h
  case h_3 =>
    split at h
    · simp at h
    · split at h <;> simp at h
  case h_4 => simp at h
  case h_5 hop =>
    split at h
    · exact hbr (.inl hop) _ h
    · simp at h
  case h_6 hop =>
    split at h
    · exact hbr (.inr hop) _ h
    · simp at h
  case h_7 hop =>
    split at h
    · rename_i l hl
      obtain ⟨v, -, hv⟩ := bind_eq_some_iff.1 hl
      exact hjump l (by simpa [jumpLabels, hop] using switchTarget_mem hv) h
    · simp at h
  case h_8 h1 h2 h3 h4 h5 h6 h7 =>
    have hop : i.op = .igoto := by cases hi : i.op <;> simp_all [Op.isControl]
    split at h
    · rename_i l hl
      obtain ⟨v, -, hv⟩ := bind_eq_some_iff.1 hl
      exact hjump l (by simpa [jumpLabels, hop] using mem_of_find?_eq_some hv) h
    · simp at h

/-- What an instruction that is no control did: its effect, or a throw to a landing pad. -/
lemma seqStep_inv (h : seqStep P E i pc s = some (o, some (pc', s'))) : ∃ vs, (valueOpnds i).mapM s.temps = some vs ∧
      ((∃ rs world, effect E i vs s.world = .ok rs world ∧ o = some (.exec i vs) ∧ pc' = pc + 1 ∧ s' = s.after i rs world) ∨
      ∃ world, effect E i vs s.world = .throw world ∧ s' = { s with world := world } ∧
        ∃ l ∈ P.eh, P.labelAt l = some pc') := by
  unfold seqStep at h
  split at h
  · simp at h
  · rename_i vs hvs
    refine ⟨vs, hvs, ?_⟩
    split at h
    · rename_i rs world he
      obtain ⟨rfl, rfl, rfl⟩ := h
      exact .inl ⟨rs, world, he, rfl, rfl, rfl⟩
    · simp at h
    · rename_i world he
      simp only [some.injEq, mk.injEq] at h
      obtain ⟨-, h⟩ := h
      split at h
      · cases h
      · obtain ⟨n, hn, hcfg⟩ := Option.map_eq_some_iff.1 h
        obtain ⟨l, hl, hat⟩ := bind_eq_some_iff.1 hn
        obtain ⟨rfl, rfl⟩ := mk.inj hcfg
        exact .inr ⟨world, he, rfl, l, mem_of_getElem? hl, hat⟩

lemma goto_isSome (P : Prog) (l : ℤ) (s : St W) : (P.goto l s).isSome := by
  unfold Prog.goto
  split <;> rfl

/-- The machine is never stuck. -/
lemma step_isSome (P : Prog) (E : Env W) (pc : ℕ) (s : St W) : (step P E (some (pc, s))).isSome := by
  unfold step
  dsimp only
  split
  · rfl
  · rfl
  · split
    · unfold ctlStep
      repeat' split
      all_goals first | rfl | exact goto_isSome _ _ _
    · unfold seqStep
      repeat' split
      all_goals rfl

/-- What one step did. -/
lemma step_cases (hi : P.code[pc]? = some (some i)) (h : step P E (some (pc, s)) = some (o, some (pc', s'))) :
    Goes P i pc s o pc' s' ∨
    (i.op.isControl = false ∧ ((∃ vs rs world, (valueOpnds i).mapM s.temps = some vs ∧
        effect E i vs s.world = .ok rs world ∧ o = some (.exec i vs) ∧ pc' = pc + 1 ∧
        s' = s.after i rs world) ∨
      ∃ world, s' = { s with world := world } ∧ ∃ l ∈ P.eh, P.labelAt l = some pc')) := by
  simp only [step, hi] at h
  split_ifs at h with hc
  · exact .inl (ctlStep_cases hc h)
  · refine .inr ⟨by simpa using hc, ?_⟩
    obtain ⟨vs, hvs, ⟨rs, world, he, ho, hpc, hs⟩ | ⟨world, -, hs, hl⟩⟩ := seqStep_inv h
    · exact .inl ⟨vs, rs, world, hvs, he, ho, hpc, hs⟩
    · exact .inr ⟨world, hs, hl⟩

lemma prog_code {i : Ins} (h : fn.ins[n]? = some i) : fn.prog.code[n]? = some (some i) := by
  simp [Func.prog, h]

lemma labelAt_ne {i : Ins} (hi : fn.ins[n]? = some i) (hop : i.op ≠ .label) (l : ℤ) : fn.prog.labelAt l ≠ some n := by
  intro hl
  obtain ⟨j, hj, hjop, -⟩ := labelAt_spec hl
  rw [prog_code hi] at hj
  obtain rfl := some.inj (some.inj hj)
  exact hop hjop

/-- The rule for invariants: what every step keeps holds wherever a run comes. -/
lemma reaches_invariant {I : ℕ → St W → Prop} {pc0 : ℕ} {s0 : St W} (h0 : I pc0 s0)
    (hstep : ∀ {pc pc' : ℕ} {s s' : St W} {i : Ins} {o : Option Event}, Reaches (step fn.prog E) (some (pc0, s0))
    (some (pc, s)) → I pc s → fn.ins[pc]? = some i → step fn.prog E (some (pc, s)) = some (o, some (pc', s')) → I pc' s') :
    ∀ c, Reaches (step fn.prog E) (some (pc0, s0)) c → ∀ pc s, c = some (pc, s) → I pc s := by
  intro c hc
  induction hc with
  | refl =>
    rintro pc s ⟨⟩
    exact h0
  | @tail c d hreach hs ih =>
    rintro pc' s' rfl
    obtain ⟨o, h⟩ := hs
    obtain _ | ⟨pc, s⟩ := c
    · cases h
    · cases hi : fn.ins[pc]? with
      | none => simp [step, Func.prog, hi] at h
      | some i => exact hstep hreach (ih pc s rfl) hi h

lemma step_hole (h : P.code[pc]? = some none) : step P E (some (pc, s)) = some (none, some (pc + 1, s)) := by
  simp only [step, h]

section
variable (h : P.code[pc]? = some (some i))
include h

lemma step_label (hop : i.op = .label) : step P E (some (pc, s)) = some (none, some (pc + 1, s)) := by
  simp [step, h, hop, Op.isControl, ctlStep]

/-! ## Steps of single instructions -/

lemma step_jmp (hop : i.op = .jmp)
    (hl : P.labelAt i.label = some n) : step P E (some (pc, s)) = some (none, some (n, s)) := by
  simp [step, h, hop, Op.isControl, ctlStep, Prog.goto, hl]

lemma step_exec {vs rs : List Val} {world : W} (hc : i.op.isControl = false) (hvs : (valueOpnds i).mapM s.temps = some vs)
    (he : effect E i vs s.world = .ok rs world) :
    step P E (some (pc, s)) = some (some (.exec i vs), some (pc + 1, s.after i rs world)) := by
  simp only [step, h, hc, Bool.false_eq_true, if_false, seqStep, hvs, he]

lemma step_branch {v : Val} (hop : i.op = .brz ∨ i.op = .brnz) (hv : s.temps i.a = some v) : step P E (some (pc, s)) =
      if brTaken i v then P.goto i.label s else some (none, some (pc + 1, s)) := by
  rcases hop with hop | hop <;> simp [step, h, hop, Op.isControl, ctlStep, hv]

lemma step_branch_unset (hop : i.op = .brz ∨ i.op = .brnz) (hv : s.temps i.a = none) :
    step P E (some (pc, s)) = some (some .unset, none) := by
  rcases hop with hop | hop <;> simp [step, h, hop, Op.isControl, ctlStep, hv]

lemma step_switch (hop : i.op = .switch) : step P E (some (pc, s)) = match (s.temps i.a).bind (switchTarget P i) with
      | some l => P.goto l s
      | none => some (some .unset, none) := by simp [step, h, hop, Op.isControl, ctlStep]

end

lemma silent_path {a b : ℕ} (hab : a ≤ b) (h : ∀ k, a ≤ k → k < b → P.code[k]? = some none ∨ ∃ i, P.code[k]? = some (some i)
    ∧ i.op = .label) (s : St W) : Relation.ReflTransGen (Silent (step P E)) (some (a, s)) (some (b, s)) := by
  induction b, hab using Nat.le_induction with
  | base => exact .refl
  | succ b hab ih =>
    refine (ih fun k hk hkb => h k hk (by omega)).tail ?_
    rcases h b hab (by omega) with hb | ⟨i, hb, hop⟩
    · exact step_hole hb
    · exact step_label hb hop

lemma labelAt_congr (h : Q.code.map (isLabel l) = P.code.map (isLabel l)) : Q.labelAt l = P.labelAt l := by
  have hmap : ∀ code : List (Option Ins), code.findIdx? (isLabel l) =
      (code.map (isLabel l)).findIdx? id := fun code => by rw [findIdx?_map]; rfl
  rw [Prog.labelAt, Prog.labelAt, hmap, hmap, h]

lemma goto_congr (h : Q.labelAt l = P.labelAt l) : Q.goto l s = P.goto l s := by
  rw [Prog.goto, Prog.goto, h]

/-- A control instruction looks at nothing but the labels it can go to. -/
lemma ctlStep_congr (hc : i.op.isControl) (hjt : i.op = .switch → Q.jt = P.jt)
    (hl : ∀ l ∈ jumpLabels P i s, Q.labelAt l = P.labelAt l) : ctlStep Q E i pc s = ctlStep P E i pc s := by
  unfold ctlStep
  split
  case h_1 => rfl
  case h_2 hop => exact goto_congr (hl _ (by simp [jumpLabels, hop]))
  case h_3 => rfl
  case h_4 => rfl
  case h_5 hop => rw [goto_congr (hl i.label (by simp [jumpLabels, hop]))]
  case h_6 hop => rw [goto_congr (hl i.label (by simp [jumpLabels, hop]))]
  case h_7 hop =>
    have hsw : switchTarget Q i = switchTarget P i := by
      unfold switchTarget
      rw [hjt hop]
    rw [hsw]
    split
    · rename_i l hlv
      obtain ⟨v, -, hv⟩ := bind_eq_some_iff.1 hlv
      exact goto_congr (hl l (by simpa [jumpLabels, hop] using switchTarget_mem hv))
    · rfl
  case h_8 h1 h2 h3 h4 h5 h6 h7 =>
    have hop : i.op = .igoto := by cases hi : i.op <;> simp_all [Op.isControl]
    split
    · rename_i l hlv
      obtain ⟨v, -, hv⟩ := bind_eq_some_iff.1 hlv
      exact goto_congr (hl l (by simpa [jumpLabels, hop] using mem_of_find?_eq_some hv))
    · rfl

lemma seqStep_congr (heh : Q.eh = P.eh) (hpad : ∀ l ∈ P.eh, Q.labelAt l = P.labelAt l) :
    seqStep Q E i pc s = seqStep P E i pc s := by
  have hbind : (Q.eh[i.ehRegion - 1]?).bind Q.labelAt = (P.eh[i.ehRegion - 1]?).bind P.labelAt := by
    rw [heh]
    cases hl : P.eh[i.ehRegion - 1]? with
    | none => rfl
    | some l => exact hpad l (mem_of_getElem? hl)
  unfold seqStep
  rw [hbind]

lemma step_congr (hp : P.code[pc]? = some (some i)) (hq : Q.code[pc]? = some (some i)) (hjt : i.op = .switch → Q.jt = P.jt)
    (heh : Q.eh = P.eh) (hl : ∀ l ∈ jumpLabels P i s, Q.labelAt l = P.labelAt l)
    (hpad : ∀ l ∈ P.eh, Q.labelAt l = P.labelAt l) : step Q E (some (pc, s)) = step P E (some (pc, s)) := by
  simp only [step, hp, hq]
  split_ifs with hc
  · exact ctlStep_congr hc hjt hl
  · exact seqStep_congr heh hpad

end
end EmbCC.Ir
