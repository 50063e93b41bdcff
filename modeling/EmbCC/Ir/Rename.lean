import EmbCC.Ir.Straight

/-!
# The names of registers

A register is a name, and what an instruction does depends on the values it reads and not
on the names it reads them by. `shape` is an instruction without the names. An instruction
whose reads are renamed to registers that hold the same makes the same step (`step_mapReads`).
-/

namespace EmbCC.Ir

open Trace Function Prod

/-- Where an operation has the registers it reads. -/
inductive Reads
  | none | one | two | three | binary | vector | ret | call | asm
deriving DecidableEq, Repr

/-- The cases of `each_read`. -/
def Op.reads : Op → Reads
  | .mov | .neg | .bnot | .i2f | .f2i | .f2f | .bitcast | .ext | .bswap | .sqrt | .clz | .ctz
  | .popcnt | .ldvar | .addr | .load | .memzero | .vaStart | .stvar | .alloca | .sprestore
  | .igoto | .switch | .brz | .brnz | .vload | .vsplat | .vredadd | .vwiden => .one
  | .add | .sub | .mul | .div | .mod | .and | .or | .xor | .shl | .shr | .cmp => .binary
  | .store | .memcpy | .xchg | .xadd | .armw | .vstore | .mulh | .mulw => .two
  | .vbin => .vector
  | .cmpxchg | .cas | .cas16 | .select => .three
  | .ret => .ret
  | .call => .call
  | .asm => .asm
  | _ => .none

/-- The registers an instruction reads, by where they are. -/
def readsAt (i : Ins) : Reads → List ℤ
  | .none => []
  | .one => [i.a]
  | .two => [i.a, i.b]
  | .three => [i.a, i.b, i.c]
  | .binary => if i.immB then [i.a] else [i.a, i.b]
  | .vector => if i.b ≥ 0 then [i.a, i.b] else [i.a]
  | .ret => if i.a ≥ 0 then [i.a] else []
  | .call => if i.indirect then i.a :: i.args else i.args
  | .asm => i.asmIr.ins.map (·.temp) ++ (i.asmIr.outs.filter (! ·.val)).map (·.temp)

lemma eachRead_eq (i : Ins) : eachRead i = readsAt i i.op.reads := by
  unfold eachRead
  generalize i.op = op
  cases op <;> rfl

/-- `each_read` with a callback that replaces what it is given. -/
def mapReads (f : ℤ → ℤ) (i : Ins) : Ins :=
  match i.op.reads with
  | .none => i
  | .one => { i with a := f i.a }
  | .two => { i with a := f i.a, b := f i.b }
  | .three => { i with a := f i.a, b := f i.b, c := f i.c }
  | .binary => if i.immB then { i with a := f i.a } else { i with a := f i.a, b := f i.b }
  | .vector => if i.b ≥ 0 then { i with a := f i.a, b := f i.b } else { i with a := f i.a }
  | .ret => if i.a ≥ 0 then { i with a := f i.a } else i
  | .call =>
    if i.indirect then { i with a := f i.a, args := i.args.map f } else { i with args := i.args.map f }
  | .asm =>
    { i with asmIr := { i.asmIr with
        ins := i.asmIr.ins.map fun x => { x with temp := f x.temp }
        outs := i.asmIr.outs.map fun x => if x.val then x else { x with temp := f x.temp } } }

@[simp] lemma mapReads_op (f : ℤ → ℤ) (i : Ins) : (mapReads f i).op = i.op := by
  unfold mapReads
  split <;> first | rfl | (split <;> rfl)

@[simp] lemma mapReads_dst (f : ℤ → ℤ) (i : Ins) : (mapReads f i).dst = i.dst := by
  unfold mapReads
  split <;> first | rfl | (split <;> rfl)

lemma mapReads_control (f : ℤ → ℤ) (i : Ins) : (mapReads f i).label = i.label ∧ (mapReads f i).jt = i.jt
    ∧ (mapReads f i).w = i.w ∧ (mapReads f i).sign = i.sign ∧ (mapReads f i).ehRegion = i.ehRegion := by
  unfold mapReads
  split <;> first | exact ⟨rfl, rfl, rfl, rfl, rfl⟩ | (split <;> exact ⟨rfl, rfl, rfl, rfl, rfl⟩)

variable {f : ℤ → ℤ}

lemma eachRead_mapReads (hf : ∀ x, 0 ≤ x → 0 ≤ f x) (i : Ins) : eachRead (mapReads f i) = (eachRead i).map f := by
  rw [eachRead_eq, eachRead_eq, mapReads_op]
  unfold mapReads
  cases i.op.reads with
  | none => rfl
  | one => rfl
  | two => rfl
  | three => rfl
  | binary => cases h : i.immB <;> simp [readsAt, h]
  | vector => by_cases h : 0 ≤ i.b <;> simp [readsAt, h, hf]
  | ret => by_cases h : 0 ≤ i.a <;> simp [readsAt, h, hf]
  | call => cases h : i.indirect <;> simp [readsAt, h]
  | asm =>
    simp only [readsAt, List.map_append, List.map_map]
    congr 1
    induction i.asmIr.outs with
    | nil => rfl
    | cons x xs ih => cases hx : x.val <;> simp_all

lemma mapReads_id (i : Ins) : mapReads (fun v => v) i = i := by
  unfold mapReads
  split <;> simp

lemma mapReads_mapReads (hf : ∀ x, 0 ≤ x → 0 ≤ f x) (g : ℤ → ℤ) (i : Ins) :
    mapReads g (mapReads f i) = mapReads (fun v => g (f v)) i := by
  rw [mapReads.eq_def g, mapReads_op]
  unfold mapReads
  cases i.op.reads with
  | none => rfl
  | one => rfl
  | two => rfl
  | three => rfl
  | binary => cases i.immB <;> simp
  | vector => by_cases h : 0 ≤ i.b <;> simp [h, hf]
  | ret => by_cases h : 0 ≤ i.a <;> simp [h, hf]
  | call => cases i.indirect <;> simp
  | asm =>
    simp only [List.map_map]
    congr 3
    funext x
    cases hx : x.val <;> simp [hx]

/-- An operand of an asm without its register. -/
def AsmOp.shape (x : AsmOp) : AsmOp := { x with temp := 0 }

/-- How an argument travels; the type of a scalar says no more than the other fields. -/
def ArgAbi.shape (x : ArgAbi) : ArgAbi := if x.isStruct ∨ x.byref then x else { x with ty := 0 }

/-- An instruction without the names of its registers. A frame slot is not a register, and a vector
operation without a second operand is not one with it. -/
def shape (i : Ins) : Ins :=
  { i with
    dst := if i.op = .stvar then i.dst else -1
    a := if i.op = .ldvar ∨ i.op = .addr then i.a else -1
    b := if i.op.reads = .vector ∧ 0 ≤ i.b then 0 else -1
    c := if i.op.reads = .three then 0 else i.c
    jt := 0
    args := i.args.map fun _ => 0
    asmIr := if i.op.reads = .asm then { i.asmIr with
      ins := i.asmIr.ins.map AsmOp.shape, outs := i.asmIr.outs.map AsmOp.shape } else {}
    abi := { i.abi with args := i.abi.args.map ArgAbi.shape } }

lemma shape_mapReads (hf : ∀ x, 0 ≤ x → 0 ≤ f x) {i : Ins}
    (hi : ¬(i.op = .ldvar ∨ i.op = .addr)) : shape (mapReads f i) = shape i := by
  unfold shape
  rw [mapReads_op, mapReads_dst, if_neg hi, if_neg hi]
  unfold mapReads
  cases hr : i.op.reads with
  | vector => by_cases h : 0 ≤ i.b <;> simp [h, hf]
  | call => cases h : i.indirect <;> simp [comp_def]
  | asm =>
    simp only [List.map_map, if_true]
    congr 2
    refine List.map_congr_left fun x _ => ?_
    simp only [comp_apply]
    split <;> rfl
  | binary => cases h : i.immB <;> rfl
  | ret => by_cases h : 0 ≤ i.a <;> simp [h]
  | none => rfl
  | one => rfl
  | two => rfl
  | three => rfl

/-- The environment knows instructions by their shape, and gives every destination a value. -/
structure Env.Nameless {W : Type} (E : Env W) : Prop where
  sem : ∀ i, E.sem (shape i) = E.sem i
  results : ∀ {i : Ins} {vs rs : List Val} {world world' : W}, E.sem i vs world = .ok rs world' →
    rs.length = (tempDefs i).length

section
variable {W : Type} {E : Env W}

lemma effect_shape (hE : E.Nameless) (i : Ins) (vs : List Val) (world : W) :
    effect E (shape i) vs world = effect E i vs world := by
  have hcore : isCore (shape i) = isCore i := rfl
  have heval : evalCore (shape i) vs = evalCore i vs := rfl
  unfold effect
  rw [hcore, heval, hE.sem]
  rfl

variable {P Q : Prog} {f : ℤ → ℤ} {i : Ins} {pc : ℕ} {s : St W}

lemma tempDefs_mapReads (f : ℤ → ℤ) (i : Ins) : tempDefs (mapReads f i) = tempDefs i := by
  have hb (h : i.op = .landing) : mapReads f i = i := by
    unfold mapReads
    rw [h]
    rfl
  by_cases h : i.op = .landing
  · rw [hb h]
  · rw [tempDefs, tempDefs, mapReads_op, mapReads_dst, if_neg h, if_neg h]

section
variable (hf : ∀ x, 0 ≤ x → 0 ≤ f x) (hs : ∀ x, s.temps (f x) = s.temps x)
include hf hs

lemma mapM_mapReads (i : Ins) : (valueOpnds (mapReads f i)).mapM s.temps = (valueOpnds i).mapM s.temps := by
  unfold valueOpnds
  rw [mapReads_op]
  split
  · rfl
  · rw [eachRead_mapReads hf, List.mapM_map]
    exact mapM_temps_congr fun t _ => hs t

lemma ctlStep_mapReads (hc : i.op.isControl) : ctlStep P E (mapReads f i) pc s = ctlStep P E i pc s := by
  unfold mapReads
  cases hop : i.op <;> simp [Op.isControl, hop] at hc
  case ret =>
    by_cases ha : 0 ≤ i.a
    · simp [Op.reads, ctlStep, hop, ha, hs, not_lt.2 (hf i.a ha)]
    · simp [Op.reads, ha]
  all_goals simp [Op.reads, ctlStep, hop, hs, brTaken]
  rfl

end

/-- Reading equal registers under other names has the same effect. -/
lemma seqStep_mapReads (hE : E.Nameless) (hf : ∀ x, 0 ≤ x → 0 ≤ f x)
    (hs : ∀ x, s.temps (f x) = s.temps x) (hslot : i.op = .ldvar ∨ i.op = .addr → f i.a = i.a) :
    (seqStep P E (mapReads f i) pc s).map snd = (seqStep P E i pc s).map snd := by
  by_cases hi : i.op = .ldvar ∨ i.op = .addr
  · have hsame : mapReads f i = i := by
      have hr : i.op.reads = .one := by rcases hi with h | h <;> rw [h] <;> rfl
      unfold mapReads
      rw [hr]
      rw [hslot hi]
    rw [hsame]
  · have heff vs : effect E (mapReads f i) vs s.world = effect E i vs s.world := by
      rw [← effect_shape hE, shape_mapReads hf hi, effect_shape hE]
    have hafter rs world : s.after (mapReads f i) rs world = s.after i rs world := by
      simp only [St.after, tempDefs_mapReads, mapReads_op, (mapReads_control f i).1]
    simp only [seqStep, mapM_mapReads hf hs, heff, hafter, (mapReads_control f i).2.2.2.2]
    cases (valueOpnds i).mapM s.temps with
    | none => rfl
    | some vs =>
      dsimp only
      cases effect E i vs s.world <;> rfl

lemma step_mapReads (hE : E.Nameless) (hp : P.code[pc]? = some (some i)) (hq : Q.code[pc]? = some (some (mapReads f i)))
    (hjt : Q.jt = P.jt) (heh : Q.eh = P.eh) (hl : ∀ l, Q.labelAt l = P.labelAt l) (hf : ∀ x, 0 ≤ x → 0 ≤ f x)
    (hs : ∀ x, s.temps (f x) = s.temps x) (hslot : i.op = .ldvar ∨ i.op = .addr → f i.a = i.a) :
    (step Q E (some (pc, s))).map snd = (step P E (some (pc, s))).map snd := by
  simp only [step, hp, hq, mapReads_op]
  split_ifs with hc
  · rw [ctlStep_mapReads hf hs hc, ctlStep_congr hc (fun _ => hjt) fun l _ => hl l]
  · rw [seqStep_mapReads hE hf hs hslot, seqStep_congr heh fun l _ => hl l]

end
end EmbCC.Ir
