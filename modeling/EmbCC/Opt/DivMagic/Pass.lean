import EmbCC.Opt.Defs
import EmbCC.Opt.DivMagic.Magic

/-!
# Division by a constant

`pass_divmagic`: a 32-bit division or remainder by a constant becomes a multiply
and shifts. There are three lowerings: through a 64-bit multiply, through the high
half of a 32-bit one (`dm_div32`), and, where the dividend is known to be short,
through a 32-bit multiply alone. What the pass asks of the target and of the
options is `Target`. Where a search for a multiplier does not end, neither does the
pass, and the result is `none`.
-/

namespace EmbCC.Opt.DivMagic

open Ir

/-- What the pass asks: the pointer size, `target_has_mulh`, `target_op_calls_helper`,
`g_opt_size`, and the three environment variables that turn a lowering off. -/
structure Target where
  ptrSize : ℕ
  hasMulh : Bool
  callsHelper : Ins → Bool
  optSize : Bool := false
  noMulh : Bool := false
  noDiv16 : Bool := false
  noDivshift : Bool := false

namespace Target
variable (T : Target)

/-- The instruction the pass asks `target_op_calls_helper` about: zero but for these fields. -/
def probe (sign : Bool) : Ins := { op := .div, dst := 0, a := 0, b := 0, w := 4, sign }

def narrow : Bool := T.ptrSize < 8

def mulh32 : Bool := T.narrow && T.hasMulh && !T.noMulh

def pow2Only : Bool := T.narrow && !T.mulh32

def narrow16 : Bool := T.pow2Only && !T.optSize && !T.noDiv16 && T.callsHelper (probe false)

/-- At `-Os` an instruction that divides is left alone. -/
def off : Bool := T.narrow && T.optSize && !T.callsHelper (probe true)

end Target

/-- `log2_pow2_l`; `none` is -1. -/
def log2Pow2L (v : ℕ) : Option ℕ := if v = 0 ∨ v &&& (v - 1) ≠ 0 then none else some v.log2

/-- The new code, and the first register that is not in use. -/
structure Buf where
  nb : List Ins := []
  nv : ℕ

/-- `dm_const`: the register, and the buffer with the instruction that sets it. -/
def dmConst (e : Buf) (v : ℤ) (w : ℕ) : ℤ × Buf :=
  (e.nv, { nb := e.nb ++ [{ op := .const, dst := e.nv, w, imm := BitVec.ofInt 64 v, label := -1 }]
           nv := e.nv + 1 })

def dmOp (e : Buf) (o : Op) (a b : ℤ) (w : ℕ) (sg : Bool) (size : ℕ) : ℤ × Buf :=
  (e.nv, { nb := e.nb ++ [{ op := o, dst := e.nv, a, b, w, sign := sg, size, label := -1 }]
           nv := e.nv + 1 })

/-- `dm_op` with a constant, which is pushed first, as its second operand. -/
def dmOpC (e : Buf) (o : Op) (a : ℤ) (v : ℤ) (w : ℕ) (sg : Bool) : ℤ × Buf :=
  let (c, e) := dmConst e v w
  dmOp e o a c w sg 0

/-- `dm_op` with a constant, unless it would shift by nothing. -/
def dmShr (e : Buf) (a : ℤ) (k : ℕ) (sg : Bool) : ℤ × Buf :=
  if k ≠ 0 then dmOpC e .shr a k 4 sg else (a, e)

/-- `(long)(int)v`. -/
def toInt32 (v : ℤ) : ℤ := Int.bmod v (2 ^ 32)

/-- The unsigned quotient from the high half `hi`, for a multiplier of 32 bits, or of 33. -/
def shiftHigh (e : Buf) (x hi : ℤ) (add : Bool) (s : ℕ) : ℤ × Buf :=
  if !add then dmShr e hi s false
  else
    -- ((x - hi) >> 1) + hi, which cannot carry out of 32 bits
    let (t4, e) := dmOp e .sub x hi 4 false 0
    let (t5, e) := dmOpC e .shr t4 1 4 false
    let (t6, e) := dmOp e .add t5 hi 4 false 0
    if s > 1 then dmOpC e .shr t6 (s - 1 : ℕ) 4 false else (t6, e)

/-- The signed quotient from the high half `t` of the product with `m`. -/
def correctHigh (e : Buf) (x t D m : ℤ) (s : ℕ) : ℤ × Buf :=
  let (t, e) :=
    if D > 0 ∧ m < 0 then dmOp e .add t x 4 true 0
    else if D < 0 ∧ m > 0 then dmOp e .sub t x 4 true 0
    else (t, e)
  let (t, e) := dmShr e t s true
  -- plus one where the quotient so far is negative: toward zero
  let (sb, e) := dmOpC e .shr t 31 4 false
  dmOp e .add t sb 4 true 0

/-! ## The lowerings -/

/-- The unsigned quotient through the high half of a 32-bit multiply. -/
def mulhUnsigned (e : Buf) (x : ℤ) (mg : Magicu) : ℤ × Buf :=
  let (hi, e) := dmOpC e .mulh x (toInt32 mg.m) 4 false
  shiftHigh e x hi mg.add mg.s

/-- The signed quotient through the high half of a 32-bit multiply. -/
def mulhSigned (e : Buf) (x D : ℤ) (mg : Magics) : ℤ × Buf :=
  let m := toInt32 mg.m
  let (t, e) := dmOpC e .mulh x m 4 true
  correctHigh e x t D m mg.s

def dmDiv32 (e : Buf) (x D : ℤ) (sg : Bool) : Option (ℤ × Buf) :=
  if !sg then
    let ud := (D % 2 ^ 32).toNat
    match log2Pow2L ud with
    | some k => some (dmOpC e .shr x k 4 false)
    | none =>
      if ud ≥ 0x80000000 then
        -- the quotient is 0 or 1
        let (c, e) := dmConst e (toInt32 ud) 4
        some (e.nv,
          { nb := e.nb ++
              [{ op := .cmp, dst := e.nv, a := x, b := c, w := 4, pred := .ge, label := -1 }]
            nv := e.nv + 1 })
      else (magicU32 ud).map (mulhUnsigned e x)
  else (magicS32 D).map (mulhSigned e x D)

/-- The shifts for a signed power of two, `2 ^ sh` or its negative. -/
def divPow2 (e : Buf) (x D : ℤ) (sh : ℕ) : ℤ × Buf :=
  let (t1, e) := dmOpC e .shr x 31 4 true
  let (t2, e) := if sh = 0 then (t1, e) else dmOpC e .shr t1 (32 - sh : ℕ) 4 false
  let (t3, e) := dmOp e .add x t2 4 true 0
  let (q, e) := if sh = 0 then (t3, e) else dmOpC e .shr t3 sh 4 true
  if D < 0 then
    let (z, e) := dmConst e 0 4
    dmOp e .sub z q 4 true 0
  else (q, e)

/-- The signed lowering through a 64-bit multiply. -/
def divSigned64 (noDivshift : Bool) (e : Buf) (x D : ℤ) (mg : Magics) : ℤ × Buf :=
  let (xe, e) := dmOp e .ext x (-1) 8 true 4
  let (hi, e) := dmOpC e .mul xe mg.m 8 true
  let fold := !(D > 0 ∧ mg.m < 0) && !(D < 0 ∧ mg.m > 0) && decide (mg.s > 0) && !noDivshift
  let (t3, e) := dmOpC e .shr hi (32 + if fold then mg.s else 0 : ℕ) 8 true
  correctHigh e x t3 D mg.m (if fold then 0 else mg.s)

/-- The unsigned lowering through a 64-bit multiply. -/
def divUnsigned64 (noDivshift : Bool) (e : Buf) (x : ℤ) (mg : Magicu) : ℤ × Buf :=
  let (xe, e) := dmOp e .ext x (-1) 8 false 4
  let (hi, e) := dmOpC e .mul xe mg.m 8 false
  let fold := !mg.add && decide (mg.s > 0) && !noDivshift
  let (t3, e) := dmOpC e .shr hi (32 + if fold then mg.s else 0 : ℕ) 8 false
  shiftHigh e x t3 mg.add (if fold then 0 else mg.s)

/-- The quotient: which lowering is taken. -/
def quotient (T : Target) (e : Buf) (x D : ℤ) (sg : Bool) : Option (ℤ × Buf) :=
  let pow2 := log2Pow2L (if D < 0 then -D else D).toNat
  if T.mulh32 ∧ ¬(sg ∧ pow2.isSome) then dmDiv32 e x (toInt32 D) sg
  else if sg then
    match pow2 with
    | some sh => some (divPow2 e x D sh)
    | none => (magicS32 D).map (divSigned64 T.noDivshift e x D)
  else (magicU32 (D % 2 ^ 32).toNat).map (divUnsigned64 T.noDivshift e x)

/-- The result of the division or the remainder, once the quotient is in `q`. -/
def finish (e : Buf) (src : Ins) (q D : ℤ) (sg : Bool) : Buf :=
  if src.op = .mod then
    let (mq, e) := dmOpC e .mul q D 4 sg
    { e with nb := e.nb ++ [{ op := .sub, dst := src.dst, a := src.a, b := mq, w := 4, sign := sg }] }
  else { e with nb := e.nb ++ [{ op := .mov, dst := src.dst, a := q, b := -1, w := 4, sign := sg }] }

/-! ## The pass -/

/-- `const_b`: the constant that is the second operand. -/
def constB (fn : Func) (i : Ins) : Option (BitVec 64) :=
  if i.immB then some i.imm
  else if i.b ≥ fn.nvregs then none
  else (soleDef fn i.b).bind fun d => if d.op = .const then some d.imm else none

/-- `dm_narrow_bound`: a bound on the dividend. -/
def dmNarrowBound (fn : Func) (x : ℤ) : Option ℕ :=
  if x ≥ fn.nvregs then none
  else (soleDef fn x).bind fun e =>
    if (e.op = .ext ∨ e.op = .load ∨ e.op = .ldvar) ∧ !e.sign ∧ !e.flt ∧
        (e.size = 1 ∨ e.size = 2) ∧ e.w = 4 then
      some (if e.size = 1 then 0xff else 0xffff)
    else if e.op = .and ∧ !e.flt ∧ e.w = 4 then
      (constB fn e).bind fun m => if 0 ≤ m.toInt ∧ m.toInt ≤ 0xffff then some m.toNat else none
    else none

/-- What `dm_narrow_magic` tries with the shift `s`. -/
def tryNarrow (D B s : ℕ) : Option (ℕ × ℕ) :=
  let two := 2 ^ s
  let m := (two + D - 1) / D
  let e := m * D - two
  if B * e < two ∧ B * m ≤ 0xffffffff then some (m, s) else none

/-- `dm_narrow_magic`: the first shift that does. -/
def dmNarrowMagic (D B : ℕ) : Option (ℕ × ℕ) := (List.range 33).findSome? (tryNarrow D B)

/-- The quotient of a short dividend. -/
def quotient16 (e : Buf) (x : ℤ) (M s : ℕ) : ℤ × Buf :=
  let (t, e) := dmOpC e .mul x M 4 false
  dmShr e t s false

/-- Is it a division by a constant that the pass takes? -/
def divisor (T : Target) (fn : Func) (src : Ins) : Option ℤ :=
  if (src.op ≠ .div ∧ src.op ≠ .mod) ∨ src.flt ∨ src.w ≠ 4 ∨ src.dst < 0 then none
  else (constB fn src).bind fun c =>
    let D := c.toInt
    if D = 0 ∨ D = 1 ∨ (D = -1 ∧ ¬(T.mulh32 ∧ !src.sign)) then none else some D

/-- The multiplier and the shift for a short dividend. -/
def narrowMagic (T : Target) (fn : Func) (src : Ins) (D : ℤ) : Option (ℕ × ℕ) :=
  if T.narrow16 ∧ D > 1 ∧ D ≤ 0xffff then (dmNarrowBound fn src.a).bind (dmNarrowMagic D.toNat)
  else none

/-- One turn of the loop. -/
def rewriteIns (T : Target) (fn : Func) (e : Buf) (src : Ins) : Option Buf :=
  match divisor T fn src with
  | none => some { e with nb := e.nb ++ [src] }
  | some D =>
    match narrowMagic T fn src D with
    | some (M, s) =>
      let (q, e) := quotient16 e src.a M s
      some (finish e src q D false)
    | none =>
      if T.pow2Only ∧ ¬(src.sign ∧ (log2Pow2L (if D < 0 then -D else D).toNat).isSome) then
        some { e with nb := e.nb ++ [src] }
      else (quotient T e src.a D src.sign).map fun (q, e) => finish e src q D src.sign

def passDivmagic (T : Target) (fn : Func) : Option Func :=
  if T.off then some fn
  else (fn.ins.foldlM (rewriteIns T fn) { nv := fn.nvregs }).map fun e =>
    { fn with ins := e.nb, nvregs := e.nv }

end EmbCC.Opt.DivMagic
