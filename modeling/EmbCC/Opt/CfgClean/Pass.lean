import EmbCC.Opt.Cfg
import EmbCC.Opt.LkConst

/-!
# CFG cleanup: the pass

`pass_cfgclean`, rewrite by rewrite, in the order of the source. Each
instruction carries its `dead` mark; nothing is removed before the end.
-/

namespace EmbCC.Opt.CfgClean

open Ir List

/-- The labels that stand at `n` and right after it. -/
def labelsFrom (ins : List Ins) (n : ℕ) : List Ins := (ins.drop n).takeWhile (·.op == .label)

/-- Is `l` one of the labels right after instruction `n`? -/
def fallsInto (ins : List Ins) (n : ℕ) (l : ℤ) : Bool := (labelsFrom ins (n + 1)).any (·.label == l)

/-- `at[l]`: where the label is placed. -/
def labelPos (fn : Func) (l : ℤ) : Option ℕ :=
  (range fn.ins.length).foldl
    (fun r n => if (fn.ins[n]?).bind placedLabel = some l then some n else r) none

/-- `fwd[l]` at first: the target of the jump that is all there is after the label, else `-1`. -/
def fwdDirect (fn : Func) (l : ℤ) : ℤ :=
  match labelPos fn l with
  | none => -1
  | some n =>
    match fn.ins[n + (labelsFrom fn.ins n).length]? with
    | some i => if i.op = .jmp then i.label else -1
    | none => -1

/-- Following a chain of jumps, for so many hops: `L: goto L` is a real loop. -/
def chase (fwd : ℤ → ℤ) (nlabels : ℕ) : ℕ → ℤ → ℤ
  | 0, t => t
  | hops + 1, t =>
    if 0 ≤ t ∧ t < nlabels ∧ 0 ≤ fwd t ∧ fwd t ≠ t then chase fwd nlabels hops (fwd t) else t

/-- `fwd`: every chain followed, in place. -/
def fwdTable (fn : Func) : ℤ → ℤ :=
  (range fn.nlabels).foldl
    (fun fwd (l : ℕ) => Function.update fwd l (chase fwd fn.nlabels 16 (fwd l))) (fwdDirect fn)

/-- `fwd_cb`. -/
def fwdLabel (fn : Func) (l : ℤ) : ℤ :=
  let fwd := fwdTable fn
  if l < 0 ∨ l ≥ fn.nlabels ∨ fwd l < 0 ∨ fwd l = l then l else fwd l

/-- The instructions whose labels are forwarded. -/
def forwards : Op → Bool
  | .jmp | .brz | .brnz | .switch => true
  | _ => false

/-- Jumps, branches and switches go where a jump at their target would take them; a table is
rewritten once for every switch that names it. -/
def threadJumps (fn : Func) : Func :=
  { fn with
    ins := fn.ins.map fun i => if forwards i.op then { i with label := fwdLabel fn i.label } else i
    jt := fn.ins.foldl (fun jt i =>
      if i.op = .switch then jt.modify i.jt (·.map (fwdLabel fn)) else jt) fn.jt }

/-- The branch made a jump. -/
def toJump (i : Ins) : Ins := { i with op := .jmp, a := -1 }

/-- A branch whose target is the fall-through is a jump. -/
def jumpsOver (ins : List Ins) : List Ins :=
  ins.mapIdx fun n i => if isBranch i && fallsInto ins n i.label then toJump i else i

/-- A branch on a temp that the block has set to a constant; one with a constant as its only
definition is left to `pass_sccp`. -/
def lkDecide (fn : Func) (k : LkConst) (i : Ins) : (Ins × Bool) × LkConst :=
  let r :=
    match if isBranch i then lkGet fn.nvregs k i.a i.w else none with
    | none => (i, false)
    | some v =>
      if (soleDef fn i.a).any (·.op == .const) then (i, false)
      else if (i.op == .brz) == (Ir.norm v i.w == 0) then (toJump i, false)
      else (i, true)
  (r, lkNote fn.nvregs k r.1)

/-- What is left of `last_cond` at an instruction that may write the temp. -/
def keepCond (last : Option Ins) (i : Ins) : Option Ins :=
  last.filter fun j => ! (0 ≤ defTarget i && defTarget i == j.a)

/-- A second branch on a condition the one above it has decided; `last` is that one. -/
def condDecide (last : Option Ins) (p : Ins × Bool) : (Ins × Bool) × Option Ins :=
  let i := p.1
  if i.op = .label then (p, none)
  else if p.2 then (p, last)
  else if isBranch i then
    match keepCond last i with
    | none => ((i, false), some i)
    | some j =>
      if 0 ≤ j.a ∧ i.a = j.a then
        if i.op = j.op then ((i, true), some j)   -- it cannot fire
        else ((toJump i, false), none)            -- it cannot fail
      else ((i, false), some i)
  else (p, keepCond last i)

/-- The branches decided, each with its mark. -/
def decideBranches (fn : Func) : List (Ins × Bool) :=
  Scan.scan condDecide none (Scan.scan (lkDecide fn) lkEmpty (jumpsOver fn.ins))

/-- The other sense of a branch. -/
def flipOp (op : Op) : Op := if op = .brz then .brnz else .brz

/-- Is there at `n` a branch around a jump, neither of them dead? -/
def invertible (code : List (Ins × Bool)) (n : ℕ) : Bool :=
  match code[n]?, code[n + 1]? with
  | some (i, false), some (j, false) =>
    isBranch i && j.op == .jmp && j.label != i.label &&
      fallsInto (code.map (·.1)) (n + 1) i.label
  | _, _ => false

/-- The label an instruction of the code names. -/
def labelOf (code : List (Ins × Bool)) (n : ℕ) : ℤ := ((code[n]?).map (·.1.label)).getD 0

/-- The branch takes the jump's target on the opposite sense, and the jump is left aimed at the
fall-through. Two such pairs have no instruction in common, so the turns of the loop do not meet. -/
def invertBranches (code : List (Ins × Bool)) : List (Ins × Bool) :=
  code.mapIdx fun n p =>
    if invertible code n then ({ p.1 with op := flipOp p.1.op, label := labelOf code (n + 1) }, p.2)
    else if 0 < n && invertible code (n - 1) then ({ p.1 with label := labelOf code (n - 1) }, p.2)
    else p

/-- `reached`: is the label named, by an instruction or as a landing pad? -/
def reached (fn : Func) (code : List (Ins × Bool)) (l : ℤ) : Bool :=
  code.any (fun p => l ∈ eachLabel fn p.1) || l ∈ fn.eh

/-- The transfers after which nothing runs up to the next label. -/
def stops (i : Ins) (dead : Bool) : Bool :=
  (i.op == .jmp && !dead) || i.op == .ret || i.op == .ud2 || i.op == .switch

/-- One turn of the last loop; the state says that no instruction runs here. -/
def dropDead (fn : Func) (code : List (Ins × Bool)) (skip : Bool) (p : (Ins × Bool) × ℕ) :
    (Ins × Bool) × Bool :=
  let i := p.1.1
  if i.op = .label then
    ((i, p.1.2 || (decide (0 ≤ i.label ∧ i.label < fn.nlabels) && !reached fn code i.label)), false)
  else
    let dead := p.1.2 || skip || (i.op == .jmp && fallsInto (code.map (·.1)) p.2 i.label)
    ((i, dead), skip || stops i dead)

/-- Unreferenced labels, jumps to the next label and unreachable code are marked. -/
def markDead (fn : Func) (code : List (Ins × Bool)) : List (Ins × Bool) :=
  Scan.scan (dropDead fn code) false code.zipIdx

def passCfgclean (fn : Func) : Func :=
  if fn.ins.length = 0 ∨ fn.nlabels = 0 then fn
  else
    let fn := threadJumps fn
    let code := markDead fn (invertBranches (decideBranches fn))
    { fn with ins := (code.filter (!·.2)).map (·.1) }

end EmbCC.Opt.CfgClean
