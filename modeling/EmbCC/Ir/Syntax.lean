import Mathlib

/-!
# EmbIR

The linear three-address form of `ir.h`: instructions over virtual registers,
labels and jump tables, and the walkers every pass reads it with. Registers
and labels are the source's `int`s, `-1` for none. Fields that no modelled
function reads (source positions, profile data) are left out.
-/

namespace EmbCC.Ir

/-- `enum ir_op`. -/
inductive Op
  | const | mov | add | sub | mul | div | mod | and | or | xor | shl | shr | neg | bnot | cmp
  | ldvar | stvar | addr | straddr | gaddr | faddr | load | store | ext | i2f | f2i | f2f
  | bitcast | call | ret | label | jmp | memcpy | memzero | brz | brnz | vaStart | bswap | sqrt
  | fence | ud2 | xchg | xadd | cmpxchg | asm | labeladdr | igoto | switch | armw | cas | cas16
  | frameaddr | alloca | spsave | sprestore | landing | vload | vstore | vbin | vsplat | vredadd
  | select | vwiden | mulh | mulw | clz | ctz | popcnt
deriving DecidableEq, Repr

/-- The comparison predicates of `enum binop`. -/
inductive Pred
  | eq | ne | lt | le | gt | ge
deriving DecidableEq, Repr

/-- `struct ir_asm_op`: an operand of an asm statement and the register it is pinned to. -/
structure AsmOp where
  temp : ℤ
  reg : ℕ
  val : Bool
deriving DecidableEq, Repr

/-- `struct ir_asm`: the operands, what the asm may change, and the template. -/
structure Asm where
  ins : List AsmOp := []
  outs : List AsmOp := []
  clob : ℕ := 0
  cont : Bool := false
  code : List ℕ := []
deriving DecidableEq, Repr

/-- `struct ir_arg` beside its register: how an argument travels. `ty` stands for the type's address. -/
structure ArgAbi where
  isStruct : Bool := false
  size : ℕ := 0
  nclass : ℕ := 0
  cls : ℕ × ℕ := (0, 0)
  onStack : Bool := false
  stkOff : ℕ := 0
  align : ℕ := 0
  natAlign : ℕ := 0
  natural : Bool := false
  isFloat : Bool := false
  isInt128 : Bool := false
  hfaN : ℕ := 0
  hfaSize : ℕ := 0
  byref : Bool := false
  copyOff : ℕ := 0
  ty : ℕ := 0
deriving DecidableEq, Repr

/-- How a call passes its arguments and gets its result: the fields of `struct ir_ins` that only calls
have. -/
structure CallAbi where
  args : List ArgAbi := []
  sretFirst : Bool := false
  varargs : Bool := false
  pcs : ℕ := 0
  cmse : Bool := false
  nfixed : ℕ := 0
  retsize : ℕ := 0
  retTybytes : ℕ := 0
  retTysign : Bool := false
  retPtr : Bool := false
  retHfaN : ℕ := 0
  retHfaSize : ℕ := 0
  retByref : Bool := false
  rety : ℕ := 0
  retnclass : ℕ := 0
deriving DecidableEq, Repr

/-- `struct ir_ins`. `sym` is `callee_sym` or `glob_sym`; `ptr` is the `callee` or `glob` pointer beside
it, which code read from a `.ir` file does not have. -/
structure Ins where
  op : Op
  dst : ℤ := -1
  a : ℤ := -1
  b : ℤ := -1
  c : ℤ := 0
  w : ℕ := 0
  size : ℕ := 0
  sign : Bool := false
  flt : Bool := false
  vol : Bool := false
  imm : BitVec 64 := 0
  immB : Bool := false
  pred : Pred := .eq
  label : ℤ := 0
  jt : ℕ := 0
  sym : ℕ := 0
  ptr : Option ℕ := none
  indirect : Bool := false
  args : List ℤ := []
  asmIr : Asm := {}
  ehRegion : ℕ := 0
  memoff : ℤ := 0
  flash : Bool := false
  natural : Bool := false
  abi : CallAbi := {}
deriving DecidableEq, Repr

/-- `struct ir_func`: the code, its jump tables, and the landing pads of its exception regions. -/
structure Func where
  ins : List Ins
  nparams : ℕ := 0
  nvars : ℕ := 0
  nvregs : ℕ := 0
  nlabels : ℕ := 0
  jt : List (List ℤ) := []
  eh : List ℤ := []
deriving DecidableEq, Repr

def writesTemp : Op → Bool
  | .const | .mov | .add | .sub | .mul | .div | .mod | .and | .or | .xor | .shl | .shr
  | .neg | .bnot | .cmp | .ldvar | .addr | .straddr | .gaddr | .faddr | .load | .ext | .bswap
  | .sqrt | .clz | .ctz | .popcnt | .i2f | .f2i | .f2f | .bitcast | .call | .xchg | .xadd
  | .cmpxchg | .armw | .cas | .cas16 | .frameaddr | .alloca | .spsave | .select | .mulh | .mulw
  | .labeladdr | .vload | .vbin | .vsplat | .vredadd | .vwiden => true
  | _ => false

/-- `def_target`: the register an instruction assigns, or `-1`. -/
def defTarget (i : Ins) : ℤ :=
  if i.op = .stvar ∨ writesTemp i.op ∨ i.op = .asm then i.dst else -1

/-- `each_read`: the registers an instruction reads, frame slots included. -/
def eachRead (i : Ins) : List ℤ :=
  match i.op with
  | .mov | .neg | .bnot | .i2f | .f2i | .f2f | .bitcast | .ext | .bswap | .sqrt | .clz | .ctz
  | .popcnt | .ldvar | .addr | .load | .memzero | .vaStart | .stvar | .alloca | .sprestore
  | .igoto | .switch | .brz | .brnz | .vload | .vsplat | .vredadd | .vwiden => [i.a]
  | .add | .sub | .mul | .div | .mod | .and | .or | .xor | .shl | .shr | .cmp =>
    if i.immB then [i.a] else [i.a, i.b]
  | .store | .memcpy | .xchg | .xadd | .armw | .vstore | .mulh | .mulw => [i.a, i.b]
  | .vbin => if i.b ≥ 0 then [i.a, i.b] else [i.a]
  | .cmpxchg | .cas | .cas16 | .select => [i.a, i.b, i.c]
  | .ret => if i.a ≥ 0 then [i.a] else []
  | .call => if i.indirect then i.a :: i.args else i.args
  | .asm => i.asmIr.ins.map (·.temp) ++ (i.asmIr.outs.filter (! ·.val)).map (·.temp)
  | _ => []

/-- `value_opnds`: the registers read as values. -/
def valueOpnds (i : Ins) : List ℤ :=
  if i.op = .ldvar ∨ i.op = .addr then [] else eachRead i

/-- The temps an instruction writes: its destination, and both of a landing pad's. -/
def tempDefs (i : Ins) : List ℤ :=
  if i.op = .landing then [i.dst, i.b]
  else if writesTemp i.op ∨ i.op = .asm then [i.dst]
  else []

/-- The table of a switch. -/
def Func.table (fn : Func) (i : Ins) : List ℤ := fn.jt.getD i.jt []

/-- `each_label`: the labels an instruction names. -/
def eachLabel (fn : Func) (i : Ins) : List ℤ :=
  match i.op with
  | .jmp | .brz | .brnz | .labeladdr => [i.label]
  | .switch => i.label :: fn.table i
  | _ => []

/-- A transfer of control or a label: it changes no register and no memory. -/
def Op.isControl : Op → Bool
  | .label | .jmp | .brz | .brnz | .switch | .igoto | .ret | .ud2 => true
  | _ => false

lemma getElem?_lt {α : Type*} {l : List α} {n : ℕ} {x : α} (h : l[n]? = some x) : n < l.length :=
  (List.getElem?_eq_some_iff.1 h).1

end EmbCC.Ir
