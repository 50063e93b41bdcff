import EmbCC.Opt.Alias

/-!
# Local value numbering

`pass_lvn`: between labels, a computation that repeats an earlier one becomes
a copy of its result. Computations are found by a key of register numbers and
fields (`vnKey`), in a table that forgets what a definition or a store makes
stale (`vnKill`, `lvnMemKill`).
-/

namespace EmbCC.Opt

open Ir Scan

/-- `struct vn`, as far as `vn_key` fills it. -/
structure Vn where
  op : Op
  a : ℤ := -1
  b : ℤ := -1
  w : ℕ := 0
  sign : Bool := false
  size : ℕ := 0
  flt : Bool := false
  pred : Pred := .eq
  imm : BitVec 64 := 0
  ptr : Option ℕ := none
  label : ℤ := 0
  memver : ℕ := 0
deriving DecidableEq, Repr

def vnKey (i : Ins) (memver : ℕ) : Option Vn :=
  if i.w = 16 then none
  else match i.op with
    | .const => some { op := i.op, flt := i.flt, imm := i.imm, w := i.w }
    | .add | .sub | .mul | .div | .mod | .and | .or | .xor | .shl | .shr | .mulh | .mulw =>
      if i.immB then
        some { op := i.op, flt := i.flt, a := i.a, b := -2, imm := i.imm, w := i.w, sign := i.sign }
      else some { op := i.op, flt := i.flt, a := i.a, b := i.b, w := i.w, sign := i.sign }
    | .cmp =>
      -- the immediate is not part of it
      some { op := i.op, flt := i.flt, a := i.a, b := i.b, w := i.w, sign := i.sign,
             pred := i.pred }
    | .neg | .bnot | .sqrt => some { op := i.op, flt := i.flt, a := i.a, w := i.w }
    | .ext =>
      some { op := i.op, flt := i.flt, a := i.a, w := i.w, sign := i.sign, size := i.size }
    | .bswap | .clz | .ctz | .popcnt =>
      some { op := i.op, flt := i.flt, a := i.a, size := i.size }
    | .addr => some { op := i.op, flt := i.flt, a := i.a }
    | .gaddr | .faddr => some { op := i.op, flt := i.flt, ptr := i.ptr }
    | .straddr => some { op := i.op, flt := i.flt, label := i.label }
    | .ldvar | .load =>
      if i.vol then none
      else some { op := i.op, flt := i.flt, a := i.a, w := i.w, sign := i.sign, size := i.size,
                  memver := memver }
    | _ => none

def vnToMov (i : Ins) (src : ℤ) : Ins :=
  toMov (if i.flt then
      if i.op = .cmp then { i with w := 4, sign := false, flt := false } else { i with flt := false }
    else i) src

/-- `struct vnent`: a key and the register that holds its value. -/
structure VnEnt where
  k : Vn
  result : ℤ
deriving DecidableEq, Repr

/-- `vntab_find`; the newest entry is first. -/
def vntabFind (tab : List VnEnt) (k : Vn) : Option ℤ := (tab.find? (·.k = k)).map (·.result)

/-- `vn_kill`: forget the entries that name a register. -/
def vnKill (tab : List VnEnt) (v : ℤ) : List VnEnt :=
  tab.filter fun e => ¬ (e.k.a = v ∨ e.k.b = v ∨ e.result = v)

/-- The bytes a store writes, for `lvn_mem_kill`. -/
def lvnAccess (fn : Func) (d : Defs) (ptrw : ℕ) (i : Ins) : Option MAccess :=
  if i.vol then none
  else if i.op = .store then some (memAccess fn d ptrw i.a i.size)
  else if i.op = .stvar ∧ 0 ≤ i.dst ∧ i.dst < fn.nvars then some (slotAccess i.dst)
  else none

/-- The bytes a remembered read read. -/
def Vn.access (fn : Func) (d : Defs) (ptrw : ℕ) (k : Vn) : MAccess :=
  if k.op = .load then memAccess fn d ptrw k.a k.size else slotAccess k.a

/-- `lvn_mem_kill`: forget the reads of the current version that a store may reach; `none` when the
instruction is not such a store. -/
def lvnMemKill (fn : Func) (d : Defs) (ptrw : ℕ) (taken : ℤ → Bool) (memver : ℕ) (i : Ins)
    (tab : List VnEnt) : Option (List VnEnt) :=
  (lvnAccess fn d ptrw i).map fun w => tab.filter fun e =>
    ¬ (isRead e.k.op ∧ e.k.memver = memver ∧
      accOverlap ptrw w (e.k.access fn d ptrw) taken fn.nvars)

/-- The state of the walk: the code it has passed, the memory version and the table. -/
structure LvnSt where
  done : List Ins := []
  memver : ℕ := 0
  tab : List VnEnt := []

/-- The code as the walk has left it. -/
def LvnSt.code (st : LvnSt) (fn : Func) : Func :=
  { fn with ins := st.done ++ fn.ins.drop st.done.length }

/-- The end of a turn: the instruction is `i` now, and a write of memory makes reads stale. -/
def lvnEnd (ptrw : ℕ) (fn : Func) (st : LvnSt) (i : Ins) (tab : List VnEnt) : Ins × LvnSt :=
  if writesMemory i.op then
    match lvnMemKill (st.code fn) (computeDefs fn) ptrw (slotsTaken fn) st.memver i tab with
    | some tab => (i, ⟨st.done ++ [i], st.memver, tab⟩)
    | none => (i, ⟨st.done ++ [i], st.memver + 1, tab⟩)
  else (i, ⟨st.done ++ [i], st.memver, tab⟩)

/-- What an instruction that is not remembered leaves in the table. -/
def lvnKilled (tab : List VnEnt) (i : Ins) : List VnEnt :=
  if i.op = .asm ∨ i.op = .landing then []
  else if 0 ≤ defTarget i then vnKill tab (defTarget i)
  else tab

/-- One turn of `pass_lvn`'s loop. -/
def lvnTurn (ptrw : ℕ) (fn : Func) (st : LvnSt) (i : Ins) : Ins × LvnSt :=
  if i.op = .label then (i, ⟨st.done ++ [i], st.memver, []⟩)
  else match if 0 ≤ i.dst then vnKey i st.memver else none with
    | none => lvnEnd ptrw fn st i (lvnKilled st.tab i)
    | some k =>
      match vntabFind st.tab k with
      | some hit =>
        if hit ≠ i.dst then
          let i' := vnToMov i hit
          lvnEnd ptrw fn st i' (lvnKilled st.tab i')
        else lvnEnd ptrw fn st i (lvnKilled st.tab i)
      | none => lvnEnd ptrw fn st i (⟨k, i.dst⟩ :: vnKill st.tab i.dst)

def passLvn (ptrw : ℕ) (fn : Func) : Func := { fn with ins := scan (lvnTurn ptrw fn) {} fn.ins }

/-- The state of the walk before instruction `n`. -/
def lvnAt (ptrw : ℕ) (fn : Func) (n : ℕ) : LvnSt := stateAt (lvnTurn ptrw fn) {} fn.ins n

end EmbCC.Opt
