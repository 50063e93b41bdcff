import EmbCC.Ir.Syntax

/-!
# Integer arithmetic of the IR

`fold.c`'s evaluation of an integer operation at width 4 or 8, which is what
the IR means by one: a width-4 operation reads the low 32 bits of its operands
and leaves the sign-extended low 32 bits of the result.
-/

namespace EmbCC.Ir

open BitVec

/-- `norm`: a result at its width. -/
def norm (r : BitVec 64) (w : ℕ) : BitVec 64 :=
  if w = 8 then r else (r.setWidth 32).signExtend 64

lemma setWidth_signExtend (y : BitVec 32) : (y.signExtend 64).setWidth 32 = y := by
  ext k hk
  rw [getElem_setWidth, getLsbD_signExtend]
  simp [hk, show k < 64 by omega]

/-- The operand as the operation reads it, unsigned. -/
def uOpnd (w : ℕ) (x : BitVec 64) : BitVec 64 :=
  if w = 8 then x else (x.setWidth 32).setWidth 64

/-- The operand as the operation reads it, signed. -/
def sOpnd (w : ℕ) (x : BitVec 64) : BitVec 64 :=
  if w = 8 then x else (x.setWidth 32).signExtend 64

/-- A comparison of `fold_bin`. -/
def foldCmp (pred : Pred) (A B : BitVec 64) (w : ℕ) (sign : Bool) : Bool :=
  let ua := uOpnd w A
  let ub := uOpnd w B
  let sa := sOpnd w A
  let sb := sOpnd w B
  match pred with
  | .eq => ua == ub
  | .ne => ua != ub
  | .lt => if sign then sa.slt sb else ua.ult ub
  | .le => if sign then sa.sle sb else ua.ule ub
  | .gt => if sign then sb.slt sa else ub.ult ua
  | .ge => if sign then sb.sle sa else ub.ule ua

/-- `fold_bin`; `none` where it declines. -/
def foldBin (op : Op) (A B : BitVec 64) (w : ℕ) (sign : Bool) (pred : Pred) :
    Option (BitVec 64) :=
  let ua := uOpnd w A
  let ub := uOpnd w B
  let sa := sOpnd w A
  let sb := sOpnd w B
  let sh := ub.toNat % (if w = 8 then 64 else 32)
  match op with
  | .add => some (norm (ua + ub) w)
  | .sub => some (norm (ua - ub) w)
  | .mul => some (norm (ua * ub) w)
  | .mulw =>
    some (if sign then sOpnd 4 A * sOpnd 4 B else uOpnd 4 A * uOpnd 4 B)
  | .mulh =>
    some (norm (if sign then (sOpnd 4 A * sOpnd 4 B).sshiftRight 32
      else (uOpnd 4 A * uOpnd 4 B) >>> 32) w)
  | .div =>
    if (w ≠ 4 ∧ w ≠ 8) ∨ ub = 0 then none
    else if sign then
      if sa = (if w = 8 then intMin 64 else (intMin 32).signExtend 64) ∧
          sb = -1 then none
      else some (norm (sa.sdiv sb) w)
    else some (norm (ua / ub) w)
  | .mod =>
    if (w ≠ 4 ∧ w ≠ 8) ∨ ub = 0 then none
    else if sign then
      if sa = (if w = 8 then intMin 64 else (intMin 32).signExtend 64) ∧
          sb = -1 then none
      else some (norm (sa.srem sb) w)
    else some (norm (ua % ub) w)
  | .and => some (norm (ua &&& ub) w)
  | .or => some (norm (ua ||| ub) w)
  | .xor => some (norm (ua ^^^ ub) w)
  | .shl => some (norm (ua <<< sh) w)
  | .shr => some (norm (if sign then sa.sshiftRight sh else ua >>> sh) w)
  | .cmp => some (norm (if foldCmp pred A B w sign then 1 else 0) w)
  | _ => none

/-- `fold_ext`: the low `size` bytes, extended. -/
def foldExt (A : BitVec 64) (size : ℕ) (sign : Bool) (w : ℕ) : BitVec 64 :=
  let bits := size * 8
  let m : BitVec 64 := if bits ≥ 64 then allOnes 64 else (1 <<< bits) - 1
  let low := A &&& m
  let r := if sign ∧ bits < 64 ∧ low &&& (1 <<< (bits - 1)) ≠ 0 then low ||| ~~~m else low
  norm r w

end EmbCC.Ir
