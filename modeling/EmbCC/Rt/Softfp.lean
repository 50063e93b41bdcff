import Mathlib.Data.Nat.Bitwise
import Mathlib.Data.Int.Notation

/-!
# Binary64 in software

The routines of `softfp.c` for addition, subtraction, multiplication and division, on
the bits of a `double`. A `u64` is a number below `2 ^ 64`, and `u64` wraps what can
leave that range. A `while` loop has the turns it can need: 64, since each shifts a
64-bit number by one.
-/

namespace EmbCC.Rt

/-- `u64` arithmetic wraps. -/
def u64 (n : ℕ) : ℕ := n % 2 ^ 64

/-- `SIGBIT`: where the implicit bit is, with three low bits for guard, round and sticky. -/
def sigbit : ℕ := 55

def expmax : ℕ := 0x7ff

def bias : ℤ := 1023

/-- `CLS_NORMAL` and so on. -/
inductive Cls
  | normal
  | zero
  | inf
  | nan
deriving DecidableEq, Repr

/-- `struct fp`: a value taken apart. -/
structure Fp where
  sign : Bool
  exp : ℤ
  cls : Cls
  sig : ℕ
deriving DecidableEq, Repr

/-- The loop that brings the leading bit up to `sigbit`. -/
def normUp : ℕ → ℤ → ℕ → ℤ × ℕ
  | 0, exp, sig => (exp, sig)
  | k + 1, exp, sig =>
    if sig &&& (1 <<< sigbit) = 0 then normUp k (exp - 1) (u64 (sig <<< 1)) else (exp, sig)

def unpack (u : ℕ) : Fp :=
  let e := (u >>> 52) &&& expmax
  let frac := u &&& 0xfffffffffffff
  let sign := u.testBit 63
  if e = 0 then
    if frac = 0 then { sign, exp := 0, cls := .zero, sig := 0 }
    else
      -- a denormal, normalised on the way in
      let (exp, sig) := normUp 64 (1 - bias) (u64 (frac <<< 3))
      { sign, exp, cls := .normal, sig }
  else if e = expmax then
    { sign, exp := 0, cls := if frac = 0 then .inf else .nan, sig := frac }
  else { sign, exp := e - bias, cls := .normal, sig := u64 ((frac ||| 0x10000000000000) <<< 3) }

def packRaw (sign : Bool) (e frac : ℕ) : BitVec 64 :=
  BitVec.ofNat 64 (sign.toNat <<< 63 ||| e <<< 52 ||| frac)

def dZero (s : Bool) : BitVec 64 := packRaw s 0 0

def dInf (s : Bool) : BitVec 64 := packRaw s expmax 0

def dNan : BitVec 64 := packRaw false expmax 0x8000000000000

/-- The loop that brings a carry down; the bit shifted out becomes sticky. -/
def normDown : ℕ → ℤ → ℕ → ℤ × ℕ
  | 0, exp, sig => (exp, sig)
  | k + 1, exp, sig =>
    if sig ≥ 1 <<< (sigbit + 1) then normDown k (exp + 1) ((sig >>> 1) ||| (sig &&& 1)) else (exp, sig)

/-- The bits that fall off, as a sticky bit. -/
def shiftSticky (sig shift : ℕ) : ℕ :=
  let lost := sig &&& ((1 <<< shift) - 1)
  (sig >>> shift) ||| (if lost ≠ 0 then 1 else 0)

/-- The last part of `round_pack`, once the leading bit is at `sigbit`. -/
def roundNorm (sign : Bool) (exp : ℤ) (sig : ℕ) : BitVec 64 :=
  if exp < 1 - bias then
    let shift := ((1 - bias) - exp).toNat
    if shift > 63 then dZero sign
    else
      let sig := shiftSticky sig shift
      let round := sig &&& 7
      let sig := sig >>> 3
      let sig := if round > 4 ∨ (round = 4 ∧ sig &&& 1 ≠ 0) then u64 (sig + 1) else sig
      if sig &&& 0x10000000000000 ≠ 0 then packRaw sign 1 (sig &&& 0xfffffffffffff)
      else packRaw sign 0 sig
  else
    let round := sig &&& 7
    let frac := sig >>> 3
    let (frac, exp) :=
      if round > 4 ∨ (round = 4 ∧ frac &&& 1 ≠ 0) then
        let frac := u64 (frac + 1)
        if frac &&& 0x20000000000000 ≠ 0 then (frac >>> 1, exp + 1) else (frac, exp)
      else (frac, exp)
    if exp + bias ≥ expmax then dInf sign
    else packRaw sign (exp + bias).toNat (frac &&& 0xfffffffffffff)

/-- `round_pack`: round to nearest, ties to even, and assemble. -/
def roundPack (sign : Bool) (exp : ℤ) (sig : ℕ) : BitVec 64 :=
  if sig = 0 then dZero sign
  else
    let (exp, sig) := normDown 64 exp sig
    let (exp, sig) := normUp 64 exp sig
    roundNorm sign exp sig

/-- `propagate`: a NaN that keeps an operand's payload. -/
def propagate (a b : Fp) : BitVec 64 :=
  if a.cls = .nan then packRaw a.sign expmax (a.sig ||| 0x8000000000000)
  else if b.cls = .nan then packRaw b.sign expmax (b.sig ||| 0x8000000000000)
  else dNan

/-- The smaller operand's significand, aligned; what falls off is sticky. -/
def alignSig (sig shift : ℕ) : ℕ :=
  if shift > 63 then (if sig ≠ 0 then 1 else 0)
  else if shift > 0 then shiftSticky sig shift
  else sig

/-- The end of `addsub`, for two nonzero numbers of which `a` has the larger exponent. -/
def addAligned (a b : Fp) : BitVec 64 :=
  let bsig := alignSig b.sig (a.exp - b.exp).toNat
  if a.sign = b.sign then roundPack a.sign a.exp (u64 (a.sig + bsig))
  else if a.sig = bsig then dZero false
  else if a.sig > bsig then roundPack a.sign a.exp (a.sig - bsig)
  else roundPack b.sign a.exp (bsig - a.sig)

def addsub (x y : BitVec 64) (negateY : Bool) : BitVec 64 :=
  let a := unpack x.toNat
  let b := unpack y.toNat
  if a.cls = .nan ∨ b.cls = .nan then propagate a b
  else
    let b := if negateY then { b with sign := !b.sign } else b
    if a.cls = .inf ∨ b.cls = .inf then
      if a.cls = .inf ∧ b.cls = .inf ∧ a.sign ≠ b.sign then dNan
      else dInf (if a.cls = .inf then a.sign else b.sign)
    else if a.cls = .zero ∧ b.cls = .zero then dZero (a.sign && b.sign)
    else if a.cls = .zero then y ^^^ BitVec.ofNat 64 (negateY.toNat <<< 63)
    else if b.cls = .zero then x
    else if a.exp < b.exp then addAligned b a
    else addAligned a b

def adddf3 (a b : BitVec 64) : BitVec 64 := addsub a b false

def subdf3 (a b : BitVec 64) : BitVec 64 := addsub a b true

/-- `mul64`: the high and the low half of the product, in 32-bit pieces. -/
def mul64 (a b : ℕ) : ℕ × ℕ :=
  let al := a % 2 ^ 32
  let ah := (a >>> 32) % 2 ^ 32
  let bl := b % 2 ^ 32
  let bh := (b >>> 32) % 2 ^ 32
  let ll := u64 (al * bl)
  let lh := u64 (al * bh)
  let hl := u64 (ah * bl)
  let hh := u64 (ah * bh)
  let mid := u64 ((ll >>> 32) + (lh &&& 0xffffffff) + (hl &&& 0xffffffff))
  (u64 (hh + (lh >>> 32) + (hl >>> 32) + (mid >>> 32)), (ll &&& 0xffffffff) ||| u64 (mid <<< 32))

def muldf3 (x y : BitVec 64) : BitVec 64 :=
  let a := unpack x.toNat
  let b := unpack y.toNat
  if a.cls = .nan ∨ b.cls = .nan then propagate a b
  else
    let sign := a.sign ^^ b.sign
    if a.cls = .inf ∨ b.cls = .inf then
      if a.cls = .zero ∨ b.cls = .zero then dNan else dInf sign
    else if a.cls = .zero ∨ b.cls = .zero then dZero sign
    else
      let (hi, lo) := mul64 a.sig b.sig
      let sig := u64 (hi <<< (64 - 56)) ||| (lo >>> 56)
      let rest := lo &&& ((1 <<< 56) - 1)
      let sig := sig ||| (if rest ≠ 0 then 1 else 0)
      roundPack sign (a.exp + b.exp + 1) sig

/-- The loop of `__divdf3` over the bits below `k`: the remainder and the quotient. -/
def divLoop (bsig : ℕ) : ℕ → ℕ → ℕ → ℕ × ℕ
  | 0, rem, q => (rem, q)
  | k + 1, rem, q =>
    let (rem, q) := if rem ≥ bsig then (rem - bsig, q ||| 1 <<< k) else (rem, q)
    divLoop bsig k (u64 (rem <<< 1)) q

def divdf3 (x y : BitVec 64) : BitVec 64 :=
  let a := unpack x.toNat
  let b := unpack y.toNat
  if a.cls = .nan ∨ b.cls = .nan then propagate a b
  else
    let sign := a.sign ^^ b.sign
    if a.cls = .inf then
      if b.cls = .inf then dNan else dInf sign
    else if b.cls = .inf then dZero sign
    else if a.cls = .zero then
      if b.cls = .zero then dNan else dZero sign
    else if b.cls = .zero then dInf sign
    else
      let (rem, q) := divLoop b.sig 57 a.sig 0
      roundPack sign (a.exp - b.exp - 1) (q ||| (if rem ≠ 0 then 1 else 0))

end EmbCC.Rt
