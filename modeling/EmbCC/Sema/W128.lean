import Mathlib

/-!
# 128-bit integers in two eightbytes (`sema/w128.c`)

The compiler computes with 128-bit constants on hosts that have no such type. `w128_correct` says
that each function is the operation on numbers modulo `2 ^ 128`. The division is a restoring one: what is left of the bits
taken so far stays below `2 ^ 127`, so that shifting it loses nothing (`udivTurn_divides`).
-/

namespace EmbCC.Sema

open Nat BitVec
open BitVec (ofInt)

/-! ## The operations -/

/-- `struct w128`. -/
structure W128 where
  lo : BitVec 64
  hi : BitVec 64
deriving DecidableEq, Repr

def wAdd (a b : W128) : W128 :=
  let lo := a.lo + b.lo
  ⟨lo, a.hi + b.hi + if lo < a.lo then 1 else 0⟩

def wNeg (a : W128) : W128 := wAdd ⟨~~~a.lo, ~~~a.hi⟩ ⟨1, 0⟩

def wMul (a b : W128) : W128 :=
  let a0 := a.lo &&& 0xffffffff#64
  let a1 := a.lo >>> 32
  let b0 := b.lo &&& 0xffffffff#64
  let b1 := b.lo >>> 32
  let p00 := a0 * b0
  let p01 := a0 * b1
  let p10 := a1 * b0
  let p11 := a1 * b1
  let mid := (p00 >>> 32) + (p01 &&& 0xffffffff#64) + (p10 &&& 0xffffffff#64)
  ⟨(p00 &&& 0xffffffff#64) ||| (mid <<< 32),
    p11 + (p01 >>> 32) + (p10 >>> 32) + (mid >>> 32) + a.lo * b.hi + a.hi * b.lo⟩

/-- The count of a shift, `n & 127`. -/
def count (n : ℤ) : ℕ := (n % 128).toNat

def wShl (a : W128) (n : ℤ) : W128 :=
  let n := count n
  if n = 0 then a
  else if n ≥ 64 then ⟨0, a.lo <<< (n - 64)⟩
  else ⟨a.lo <<< n, (a.hi <<< n) ||| (a.lo >>> (64 - n))⟩

def wShr (a : W128) (n : ℤ) (arith : Bool) : W128 :=
  let n := count n
  let fill := if arith && a.hi.slt 0#64 then allOnes 64 else 0#64
  if n = 0 then a
  else if n ≥ 64 then
    ⟨if n = 64 then a.hi else (a.hi >>> (n - 64)) ||| (fill <<< (128 - n)), fill⟩
  else ⟨(a.lo >>> n) ||| (a.hi <<< (64 - n)), (a.hi >>> n) ||| (fill <<< (64 - n))⟩

def wUlt (a b : W128) : Bool := if a.hi ≠ b.hi then a.hi < b.hi else a.lo < b.lo

def wSlt (a b : W128) : Bool := if a.hi ≠ b.hi then a.hi.slt b.hi else a.lo < b.lo

/-- Bit `i` of a quotient is set. -/
def W128.setBit (q : W128) (i : ℕ) : W128 :=
  if i ≥ 64 then { q with hi := q.hi ||| 1#64 <<< (i - 64) } else { q with lo := q.lo ||| 1#64 <<< i }

/-- A turn of `w_udivmod`'s loop, for bit `i`: the quotient and the remainder. -/
def udivTurn (a b : W128) (i : ℕ) (q r : W128) : W128 × W128 :=
  let r := wShl r 1
  let r := { r with lo := r.lo ||| ((if i ≥ 64 then a.hi >>> (i - 64) else a.lo >>> i) &&& 1#64) }
  if !wUlt r b then
    (q.setBit i, wAdd r (wNeg b))
  else (q, r)

/-- The turns for the bits below `i`. -/
def udivLoop (a b : W128) : ℕ → W128 × W128 → W128 × W128
  | 0, s => s
  | i + 1, s => udivLoop a b i (udivTurn a b i s.1 s.2)

def wUdivmod (a b : W128) : W128 × W128 := udivLoop a b 128 (⟨0, 0⟩, ⟨0, 0⟩)

def wDiv (a b : W128) (sign mod : Bool) : Option W128 :=
  if b.lo = 0 ∧ b.hi = 0 then none
  else
    let na := sign && a.hi.slt 0#64
    let nb := sign && b.hi.slt 0#64
    let (q, r) := wUdivmod (if na then wNeg a else a) (if nb then wNeg b else b)
    some (if !mod then (if na != nb then wNeg q else q) else (if na then wNeg r else r))

/-! ## Their values -/

/-- The 128 bits. -/
def W128.bv (a : W128) : BitVec 128 := a.hi ++ a.lo

/-- The number without a sign. -/
def W128.val (a : W128) : ℕ := a.bv.toNat

/-- The number in two's complement. -/
def W128.int (a : W128) : ℤ := a.bv.toInt

open W128

lemma val_eq (a : W128) : a.val = 2 ^ 64 * a.hi.toNat + a.lo.toNat := by
  rw [val, bv, toNat_append, ← Nat.shiftLeft_add_eq_or_of_lt a.lo.isLt, Nat.shiftLeft_eq, Nat.mul_comm]

lemma val_lt (a : W128) : a.val < 2 ^ 128 := a.bv.isLt

lemma wAdd_val (a b : W128) : (wAdd a b).val = (a.val + b.val) % 2 ^ 128 := by
  have hlt : a.lo + b.lo < a.lo ↔ 2 ^ 64 ≤ a.lo.toNat + b.lo.toNat := by
    rw [lt_def, toNat_add]
    omega
  simp only [val_eq, wAdd]
  by_cases h : a.lo + b.lo < a.lo
  · have hc := hlt.1 h
    simp only [if_pos h, toNat_add, ofNat_eq_ofNat, toNat_ofNat]
    omega
  · have hc := mt hlt.2 h
    simp only [if_neg h, toNat_add, ofNat_eq_ofNat, toNat_ofNat]
    omega

lemma wAdd_bv (a b : W128) : (wAdd a b).bv = a.bv + b.bv := by
  apply eq_of_toNat_eq
  exact wAdd_val a b

lemma wNeg_bv (a : W128) : (wNeg a).bv = -a.bv := by
  have hnot : (⟨~~~a.lo, ~~~a.hi⟩ : W128).bv = ~~~a.bv := by rw [bv, bv, not_append]
  rw [wNeg, wAdd_bv, hnot, neg_eq_not_add]
  rfl

lemma toNat_halves (x : BitVec 64) :
    (x &&& 0xffffffff#64).toNat = x.toNat % 2 ^ 32 ∧ (x >>> 32).toNat = x.toNat / 2 ^ 32 := by
  constructor
  · rw [toNat_and]
    exact and_two_pow_sub_one_eq_mod x.toNat 32
  · rw [toNat_ushiftRight, shiftRight_eq_div_pow]

variable {x y : BitVec 64} {a b : W128} {n i : ℕ} {s : W128 × W128}

lemma toNat_mul_halves (hx : x.toNat < 2 ^ 32) (hy : y.toNat < 2 ^ 32) : (x * y).toNat = x.toNat * y.toNat := by
  have hlt : x.toNat * y.toNat < 2 ^ 32 * 2 ^ 32 := Nat.mul_lt_mul'' hx hy
  exact mod_eq_of_lt hlt

lemma toNat_or_shift (hx : x.toNat < 2 ^ 32) : (x ||| y <<< 32).toNat = x.toNat + 2 ^ 32 * (y.toNat % 2 ^ 32) := by
  have hy : (y <<< 32).toNat = (y.toNat % 2 ^ 32) <<< 32 := by
    rw [toNat_shiftLeft, Nat.shiftLeft_eq, Nat.shiftLeft_eq]
    omega
  rw [toNat_or, hy, Nat.or_comm, ← Nat.shiftLeft_add_eq_or_of_lt hx, Nat.shiftLeft_eq]
  ring

lemma carry_mod {h l : ℕ} (hl : l < 2 ^ 64) (hn : n = 2 ^ 64 * h + l) : 2 ^ 64 * (h % 2 ^ 64) + l = n % 2 ^ 128 := by
  omega

/-- The product, from four of the halves. -/
lemma wMul_val (a b : W128) : (wMul a b).val = a.val * b.val % 2 ^ 128 := by
  obtain ⟨ha0, ha1⟩ := toNat_halves a.lo
  obtain ⟨hb0, hb1⟩ := toNat_halves b.lo
  have ha := a.lo.isLt
  have hb := b.lo.isLt
  simp only [wMul, val_eq]
  generalize a.lo &&& 0xffffffff#64 = a0 at *
  generalize a.lo >>> 32 = a1 at *
  generalize b.lo &&& 0xffffffff#64 = b0 at *
  generalize b.lo >>> 32 = b1 at *
  have h00 := toNat_mul_halves (x := a0) (y := b0) (by omega) (by omega)
  have h01 := toNat_mul_halves (x := a0) (y := b1) (by omega) (by omega)
  have h10 := toNat_mul_halves (x := a1) (y := b0) (by omega) (by omega)
  have h11 := toNat_mul_halves (x := a1) (y := b1) (by omega) (by omega)
  obtain ⟨hl00, hh00⟩ := toNat_halves (a0 * b0)
  obtain ⟨hl01, hh01⟩ := toNat_halves (a0 * b1)
  obtain ⟨hl10, hh10⟩ := toNat_halves (a1 * b0)
  -- the middle column: three half words
  generalize hmid : (a0 * b0) >>> 32 + (a0 * b1 &&& 0xffffffff#64) + (a1 * b0 &&& 0xffffffff#64) = mid
  have hm : mid.toNat = (a0 * b0).toNat / 2 ^ 32 + (a0 * b1).toNat % 2 ^ 32 + (a1 * b0).toNat % 2 ^ 32 := by
    rw [← hmid, toNat_add, toNat_add, hl01, hl10, hh00]
    omega
  obtain ⟨-, hhm⟩ := toNat_halves mid
  have hlo : (a0 * b0 &&& 0xffffffff#64 ||| mid <<< 32).toNat = (a0 * b0).toNat % 2 ^ 32 + 2 ^ 32 * (mid.toNat % 2 ^ 32) := by
    rw [toNat_or_shift (by omega), hl00]
  have hhi : (a1 * b1 + (a0 * b1) >>> 32 + (a1 * b0) >>> 32 + mid >>> 32 + a.lo * b.hi +
      a.hi * b.lo).toNat = ((a1 * b1).toNat + (a0 * b1).toNat / 2 ^ 32 + (a1 * b0).toNat / 2 ^ 32 +
        mid.toNat / 2 ^ 32 + a.lo.toNat * b.hi.toNat + a.hi.toNat * b.lo.toNat) % 2 ^ 64 := by
    simp only [toNat_add, hh01, hh10, hhm, toNat_mul a.lo, toNat_mul a.hi, mod_add_mod, add_mod_mod]
  have hprod : (2 ^ 64 * a.hi.toNat + a.lo.toNat) * (2 ^ 64 * b.hi.toNat + b.lo.toNat) =
      2 ^ 128 * (a.hi.toNat * b.hi.toNat) + (2 ^ 64 * (a.lo.toNat * b.hi.toNat +
        a.hi.toNat * b.lo.toNat) + (2 ^ 64 * (a1 * b1).toNat + 2 ^ 32 * (a0 * b1).toNat +
          2 ^ 32 * (a1 * b0).toNat + (a0 * b0).toNat)) := by
    have hal : a.lo.toNat = 2 ^ 32 * a1.toNat + a0.toNat := by omega
    have hbl : b.lo.toNat = 2 ^ 32 * b1.toNat + b0.toNat := by omega
    rw [h00, h01, h10, h11, hal, hbl]
    ring
  have hcols : 2 ^ 64 * ((a1 * b1).toNat + (a0 * b1).toNat / 2 ^ 32 + (a1 * b0).toNat / 2 ^ 32 +
      mid.toNat / 2 ^ 32) + ((a0 * b0).toNat % 2 ^ 32 + 2 ^ 32 * (mid.toNat % 2 ^ 32)) =
      2 ^ 64 * (a1 * b1).toNat + 2 ^ 32 * (a0 * b1).toNat + 2 ^ 32 * (a1 * b0).toNat + (a0 * b0).toNat := by
    omega
  rw [hlo, hhi, hprod, ← hcols, mul_add_mod]
  exact carry_mod (by omega) (by ring)

lemma getLsbD_bv (a : W128) (i : ℕ) : a.bv.getLsbD i = if i < 64 then a.lo.getLsbD i else a.hi.getLsbD (i - 64) := by
  rw [bv, getLsbD_append]

lemma wShl_bv (a : W128) (n : ℤ) : (wShl a n).bv = a.bv <<< count n := by
  unfold wShl
  generalize count n = m at *
  refine eq_of_getLsbD_eq fun i hi => ?_
  rw [getLsbD_shiftLeft, getLsbD_bv, getLsbD_bv]
  by_cases h0 : m = 0
  · simp [h0, hi]
  by_cases h64 : 64 ≤ m
  · rw [if_neg h0, if_pos h64]
    by_cases hlo : i < 64
    · simp [hlo, show i < m by omega]
    · by_cases him : i < m
      · simp [hlo, him, show i - 64 < m - 64 by omega]
      · simp [hlo, him, hi, show i - m < 64 by omega, show i - 64 < 64 by omega,
          show ¬ i - 64 < m - 64 by omega, show i - 64 - (m - 64) = i - m by omega]
  · rw [if_neg h0, if_neg h64]
    by_cases hlo : i < 64
    · simp [hlo, hi, show i - m < 64 by omega]
    · by_cases him : i - 64 < m
      · simp [hlo, him, hi, show i - 64 < 64 by omega, show ¬ i < m by omega,
          show i - m < 64 by omega, show 64 - m + (i - 64) = i - m by omega]
      · have hout : a.lo.getLsbD (64 - m + (i - 64)) = false := getLsbD_of_ge _ _ (by omega)
        simp [hlo, him, hi, hout, show i - 64 < 64 by omega, show ¬ i < m by omega,
          show ¬ i - m < 64 by omega, show i - m - 64 = i - 64 - m by omega]
        exact (getLsbD_eq_getElem (by omega)).symm

lemma msb_bv (a : W128) : a.bv.msb = a.hi.msb := by
  rw [msb_eq_getLsbD_last, msb_eq_getLsbD_last, getLsbD_bv]
  rfl

/-- The shift to the right, of either kind. -/
lemma wShr_bv (a : W128) (n : ℤ) (arith : Bool) :
    (wShr a n arith).bv = if arith then a.bv.sshiftRight (count n) else a.bv >>> count n := by
  unfold wShr
  generalize count n = m at *
  refine eq_of_getLsbD_eq fun i hi => ?_
  -- the bits of the shifted number: those above, then the fill
  have hbits : (if arith then a.bv.sshiftRight m else a.bv >>> m).getLsbD i =
      if m + i < 128 then a.bv.getLsbD (m + i) else arith && a.hi.msb := by
    cases arith
    · simp only [Bool.false_eq_true, if_false, getLsbD_ushiftRight, Bool.false_and]
      split
      · rfl
      · exact getLsbD_of_ge _ _ (by omega)
    · rw [if_pos rfl, getLsbD_sshiftRight, msb_bv]
      simp only [show ¬ 128 ≤ i by omega, decide_false, Bool.not_false, Bool.true_and]
  have hfill : ∀ j (_ : j < 64), (if arith && a.hi.slt 0#64 then allOnes 64 else 0#64)[j] = (arith && a.hi.msb) := by
    intro j hj
    rw [slt_zero_eq_msb]
    cases arith && a.hi.msb
    · exact getElem_zero hj
    · exact getElem_allOnes j hj
  rw [hbits, getLsbD_bv, getLsbD_bv]
  dsimp only
  generalize (if arith && a.hi.slt 0#64 then allOnes 64 else 0#64) = fill at *
  by_cases h0 : m = 0
  · simp [h0, hi]
  by_cases h64 : 64 ≤ m
  · rw [if_neg h0, if_pos h64]
    by_cases hlo : i < 64
    · by_cases hm : m = 64
      · simp [hlo, hm, show 64 + i < 128 by omega]
      · by_cases hin : m + i < 128
        · simp [hlo, hm, hin, hfill, show m - 64 + i = m + i - 64 by omega,
            show i < 128 - m by omega, show ¬ m + i < 64 by omega]
        · have hout : a.hi.getLsbD (m - 64 + i) = false := getLsbD_of_ge _ _ (by omega)
          simp [hlo, hm, hin, hfill, hout, show ¬ i < 128 - m by omega]
    · simp [hlo, hfill, show i - 64 < 64 by omega, show ¬ m + i < 128 by omega]
  · rw [if_neg h0, if_neg h64]
    by_cases hlo : i < 64
    · by_cases hin : m + i < 64
      · simp [hlo, hin, show m + i < 128 by omega, show i < 64 - m by omega]
      · have hout : a.lo.getLsbD (m + i) = false := getLsbD_of_ge _ _ (by omega)
        simp [hlo, hin, hout, show m + i < 128 by omega, show ¬ i < 64 - m by omega, show i - (64 - m) = m + i - 64 by omega,
          getLsbD_eq_getElem (show m + i - 64 < 64 by omega)]
    · by_cases hin : m + i < 128
      · simp [hlo, hin, show ¬ m + i < 64 by omega, show i - 64 < 64 - m by omega, show m + (i - 64) = m + i - 64 by omega]
      · have hout : a.hi.getLsbD (m + (i - 64)) = false := getLsbD_of_ge _ _ (by omega)
        simp [hlo, hin, hfill, hout, show ¬ i - 64 < 64 - m by omega, show i - 64 < 64 by omega]

lemma wUlt_iff (a b : W128) : wUlt a b = true ↔ a.val < b.val := by
  rw [wUlt, val_eq, val_eq]
  split_ifs with h
  · have hne : a.hi.toNat ≠ b.hi.toNat := fun he => h (eq_of_toNat_eq he)
    rw [decide_eq_true_iff, lt_def]
    omega
  · rw [decide_eq_true_iff, lt_def, not_not.1 h]
    omega

lemma int_eq (a : W128) : a.int = 2 ^ 64 * a.hi.toInt + a.lo.toNat := by
  have h := val_eq a
  rw [int, toInt_eq_toNat_cond, toInt_eq_toNat_cond]
  rw [val] at h
  split <;> split <;> omega

lemma wSlt_iff (a b : W128) : wSlt a b = true ↔ a.int < b.int := by
  rw [wSlt, int_eq, int_eq]
  split_ifs with h
  · have hne : a.hi.toInt ≠ b.hi.toInt := fun he => h (eq_of_toInt_eq he)
    rw [slt_iff_toInt_lt]
    omega
  · rw [decide_eq_true_iff, lt_def, not_not.1 h]
    omega

lemma toNat_bit (a : W128) (i : ℕ) :
    ((if i ≥ 64 then a.hi >>> (i - 64) else a.lo >>> i) &&& 1#64).toNat = a.val / 2 ^ i % 2 := by
  have hword : ∀ (x : BitVec 64) (k : ℕ), (x >>> k &&& 1#64).toNat = (x.getLsbD k).toNat := by
    intro x k
    rw [toNat_and, toNat_ushiftRight, getLsbD, toNat_testBit, shiftRight_eq_div_pow]
    exact and_one_is_mod _
  have hbit : a.val / 2 ^ i % 2 = (a.bv.getLsbD i).toNat := by rw [getLsbD, toNat_testBit, val]
  rw [hbit, getLsbD_bv]
  by_cases hi : 64 ≤ i
  · rw [if_pos hi, if_neg (by omega), hword]
  · rw [if_neg hi, if_pos (by omega), hword]

lemma val_takes (r : W128) (bit : BitVec 64) (hr : r.val < 2 ^ 127) (hb : bit.toNat < 2) :
    ({ wShl r 1 with lo := (wShl r 1).lo ||| bit } : W128).val = 2 * r.val + bit.toNat := by
  have hsh : (wShl r 1).val = 2 * r.val := by
    rw [val, wShl_bv, toNat_shiftLeft, show count 1 = 1 from rfl, Nat.shiftLeft_eq, ← val]
    omega
  have hlo : (wShl r 1).lo.toNat = r.lo.toNat % 2 ^ 63 * 2 := by
    rw [show (wShl r 1).lo = r.lo <<< 1 from rfl, toNat_shiftLeft, Nat.shiftLeft_eq]
    omega
  have hor : ((wShl r 1).lo ||| bit).toNat = (wShl r 1).lo.toNat + bit.toNat := by
    have := shiftLeft_add_eq_or_of_lt (i := 1) (by omega) (r.lo.toNat % 2 ^ 63)
    rw [Nat.shiftLeft_eq, pow_one, ← hlo] at this
    rw [toNat_or, this]
  rw [val_eq] at hsh ⊢
  dsimp only
  omega

lemma val_sets (q : W128) {k : ℕ} (hi : i < 128) (hq : q.val = k * 2 ^ (i + 1)) : (q.setBit i).val = q.val + 2 ^ i := by
  have hbv : (q.setBit i).bv = q.bv ||| twoPow 128 i := by
    refine eq_of_getLsbD_eq fun j hj => ?_
    unfold setBit
    rw [getLsbD_or, getLsbD_twoPow, getLsbD_bv, getLsbD_bv]
    simp only [← twoPow_eq]
    by_cases hi64 : 64 ≤ i
    · rw [if_pos hi64]
      by_cases hj64 : j < 64
      · simp [hj64, show ¬ i = j by omega]
      · by_cases hij : i = j
        · simp [hj64, hij, hj, show j - 64 < 64 by omega]
        · simp [hj64, hij, getLsbD_twoPow, show ¬ i - 64 = j - 64 by omega]
    · rw [if_neg hi64]
      by_cases hj64 : j < 64
      · by_cases hij : i = j
        · simp [hj64, hij, hj]
        · simp [hj64, hij, Ne.symm hij]
      · simp [hj64, show ¬ i = j by omega]
  have hlt : 2 ^ i < 2 ^ (i + 1) := Nat.pow_lt_pow_right (by decide) (by omega)
  have hor := Nat.shiftLeft_add_eq_or_of_lt hlt k
  rw [Nat.shiftLeft_eq, ← hq] at hor
  rw [val, hbv, toNat_or, toNat_twoPow, Nat.mod_eq_of_lt (Nat.pow_lt_pow_right (by decide) hi), hor, val]

lemma wSub_val (h : b.val ≤ a.val) : (wAdd a (wNeg b)).val = a.val - b.val := by
  rw [val, wAdd_bv, wNeg_bv, ← sub_eq_add_neg, toNat_sub_of_le h]
  rfl

lemma div_mod_digit {b d : ℕ} (hb : 0 < b) (hd : d < 2) : (b ≤ 2 * (n % b) + d → (2 * n + d) / b = 2 * (n / b) + 1 ∧
      (2 * n + d) % b = 2 * (n % b) + d - b) ∧
    (2 * (n % b) + d < b → (2 * n + d) / b = 2 * (n / b) ∧ (2 * n + d) % b = 2 * (n % b) + d) := by
  have hn := div_add_mod n b
  have hr := mod_lt n hb
  constructor
  · intro h
    refine (Nat.div_mod_unique hb).2 ⟨?_, by omega⟩
    rw [Nat.mul_succ, mul_left_comm]
    omega
  · intro h
    refine (Nat.div_mod_unique hb).2 ⟨?_, h⟩
    rw [mul_left_comm]
    omega

/-! ## Division -/

/-- What the loop keeps before the turn for bit `i - 1`: the division of the bits from `i` on. -/
def Divides (a b : W128) (i : ℕ) (s : W128 × W128) : Prop :=
  s.1.val = a.val / 2 ^ i / b.val * 2 ^ i ∧ s.2.val = a.val / 2 ^ i % b.val

/-- One turn of the division brings down one bit. -/
lemma udivTurn_divides (hi : i < 128) (hb : 0 < b.val)
    (h : Divides a b (i + 1) s) : Divides a b i (udivTurn a b i s.1 s.2) := by
  obtain ⟨hq, hr⟩ := h
  have hbit := toNat_bit a i
  have hd : a.val / 2 ^ i % 2 < 2 := mod_lt _ (by decide)
  have hn : a.val / 2 ^ i = 2 * (a.val / 2 ^ (i + 1)) + a.val / 2 ^ i % 2 := by
    rw [pow_succ, ← Nat.div_div_eq_div_mul]
    omega
  have hsmall : s.2.val < 2 ^ 127 := by
    have hle : a.val / 2 ^ (i + 1) ≤ a.val / 2 ^ 1 :=
      div_le_div_left (Nat.pow_le_pow_right (by decide) (by omega)) (by decide)
    have hlt := val_lt a
    have hmod := mod_le (a.val / 2 ^ (i + 1)) b.val
    omega
  have hr' := val_takes s.2 _ hsmall (hbit ▸ hd)
  rw [hbit, hr] at hr'
  obtain ⟨hfits, hnot⟩ := div_mod_digit hb hd
  rw [← hn] at hfits hnot
  rw [udivTurn]
  generalize ({ wShl s.2 1 with lo := (wShl s.2 1).lo ||| _ } : W128) = r' at hr' ⊢
  by_cases hlt : wUlt r' b = true
  · obtain ⟨hdiv, hmod⟩ := hnot (by rw [← hr']; exact (wUlt_iff r' b).1 hlt)
    rw [hlt]
    refine ⟨?_, ?_⟩
    · show s.1.val = _
      rw [hq, hdiv, pow_succ]
      ring
    · show r'.val = _
      rw [hr', hmod]
  · have hge : b.val ≤ r'.val := not_lt.1 (mt (wUlt_iff r' b).2 hlt)
    obtain ⟨hdiv, hmod⟩ := hfits (by rw [← hr']; exact hge)
    rw [Bool.not_eq_true _ |>.mp hlt]
    refine ⟨?_, ?_⟩
    · show (s.1.setBit i).val = _
      rw [val_sets s.1 hi hq, hq, hdiv, pow_succ]
      ring
    · show (wAdd r' (wNeg b)).val = _
      rw [wSub_val hge, hr', hmod]

lemma udivLoop_divides (hi : i ≤ 128) (hb : 0 < b.val) (h : Divides a b i s) : Divides a b 0 (udivLoop a b i s) := by
  induction i generalizing s with
  | zero => exact h
  | succ i ih => exact ih (by omega) (udivTurn_divides (by omega) hb h)

lemma wUdivmod_val (hb : 0 < b.val) : (wUdivmod a b).1.val = a.val / b.val ∧ (wUdivmod a b).2.val = a.val % b.val := by
  have hzero : a.val / 2 ^ 128 = 0 := div_eq_of_lt (val_lt a)
  have h : Divides a b 0 (wUdivmod a b) := by
    refine udivLoop_divides le_rfl hb ⟨?_, ?_⟩
    · rw [hzero, Nat.zero_div, Nat.zero_mul]
      rfl
    · rw [hzero, zero_mod]
      rfl
  rw [Divides, pow_zero, Nat.div_one, mul_one] at h
  exact h

lemma int_neg_iff (a : W128) : a.hi.slt 0#64 = true ↔ a.int < 0 := by
  rw [slt_zero_eq_msb, ← msb_bv, msb_eq_toInt, decide_eq_true_iff, int]

lemma natAbs_val (a : W128) : (if a.hi.slt 0#64 then wNeg a else a).val = a.int.natAbs := by
  have hlt := val_lt a
  have hint : a.int = if 2 * a.val < 2 ^ 128 then (a.val : ℤ) else a.val - 2 ^ 128 := by rfl
  by_cases h : a.hi.slt 0#64 = true
  · have hneg := (int_neg_iff a).1 h
    rw [if_pos h, val, wNeg_bv, toNat_neg, ← val]
    split at hint <;> omega
  · have hpos := mt (int_neg_iff a).2 h
    rw [if_neg h]
    split at hint <;> omega

lemma int_eq_natAbs (a : W128) : a.int = if a.hi.slt 0#64 then -(a.int.natAbs : ℤ) else a.int.natAbs := by
  have := int_neg_iff a
  split <;> rename_i h <;> rw [this] at h <;> omega

lemma bv_eq_ofNat (h : a.val = n) : a.bv = ofInt 128 n := by
  rw [ofInt_natCast, ← h, val, ofNat_toNat, setWidth_eq]

lemma wNeg_ofInt (h : a.val = n) : (wNeg a).bv = ofInt 128 (-n) := by
  rw [wNeg_bv, bv_eq_ofNat h, ofInt_neg]

lemma wDiv_signed (hb : b.val ≠ 0) (mod : Bool) : (wDiv a b true mod).map W128.bv =
      some (ofInt 128 (if mod then a.int.tmod b.int else a.int.tdiv b.int)) := by
  have hnz : ¬ (b.lo = 0 ∧ b.hi = 0) := by
    rintro ⟨hlo, hhi⟩
    exact hb (by rw [val_eq, hlo, hhi]; rfl)
  have hpos : 0 < (if b.hi.slt 0#64 then wNeg b else b).val := by
    rw [natAbs_val, Int.natAbs_pos]
    intro h0
    rw [int, ← toInt_zero, toInt_inj] at h0
    exact hb (by rw [val, h0]; rfl)
  obtain ⟨hq, hr⟩ := wUdivmod_val (a := if a.hi.slt 0#64 then wNeg a else a) hpos
  have ha := int_eq_natAbs a
  have hb := int_eq_natAbs b
  rw [natAbs_val, natAbs_val] at hq hr
  generalize a.int.natAbs = n at *
  generalize b.int.natAbs = m at *
  rw [wDiv, if_neg hnz]
  simp only [Bool.true_and, Option.map_some]
  generalize wUdivmod _ _ = s at *
  have hmod : (n : ℤ).tmod m = n % m := Int.tmod_eq_emod_of_nonneg (by omega)
  rw [ha, hb]
  -- a quotient is negated when the signs differ, a remainder when the dividend has one
  cases mod <;> cases a.hi.slt 0#64 <;> cases b.hi.slt 0#64 <;>
    simp [hmod, bv_eq_ofNat hq, bv_eq_ofNat hr, wNeg_ofInt hq, wNeg_ofInt hr]

/-- Each function of `w128.c` is its operation on numbers modulo `2 ^ 128`: a shift takes its count
modulo 128, the arithmetic shift rounds down, a signed quotient rounds toward zero and a signed
remainder has the sign of the dividend. -/
theorem w128_correct (a b : W128) : (wAdd a b).val = (a.val + b.val) % 2 ^ 128 ∧
    ((wNeg a).val : ℤ) = -(a.val : ℤ) % 2 ^ 128 ∧
    (wMul a b).val = a.val * b.val % 2 ^ 128 ∧
    (∀ n, (wShl a n).val = a.val * 2 ^ count n % 2 ^ 128) ∧
    (∀ n, (wShr a n false).val = a.val / 2 ^ count n) ∧
    (∀ n, (wShr a n true).int = a.int / 2 ^ count n) ∧
    (wUlt a b = true ↔ a.val < b.val) ∧
    (wSlt a b = true ↔ a.int < b.int) ∧
    (b.val ≠ 0 → ∀ q r : ℕ, (q = (wUdivmod a b).1.val ∧ r = (wUdivmod a b).2.val) ↔
      (a.val = q * b.val + r ∧ r < b.val)) ∧
    (b.val ≠ 0 → ∀ mod, ∃ out, wDiv a b true mod = some out ∧
      (out.val : ℤ) = (if mod then a.int.tmod b.int else a.int.tdiv b.int) % 2 ^ 128) := by
  refine ⟨wAdd_val a b, ?_, wMul_val a b, fun n => ?_, fun n => ?_, fun n => ?_, wUlt_iff a b,
    wSlt_iff a b, fun hb q r => ?_, fun hb mod => ?_⟩
  · have hlt := val_lt a
    rw [val, wNeg_bv, toNat_neg, ← val]
    omega
  · rw [val, wShl_bv, toNat_shiftLeft, Nat.shiftLeft_eq, val]
  · rw [val, wShr_bv, if_neg (by decide), toNat_ushiftRight, shiftRight_eq_div_pow, val]
  · rw [int, wShr_bv, if_pos rfl, toInt_sshiftRight, Int.shiftRight_eq_div_pow, int]
    norm_cast
  · have hpos := Nat.pos_of_ne_zero hb
    obtain ⟨hq, hr⟩ := wUdivmod_val hpos
    rw [hq, hr, eq_comm, eq_comm (a := r), Nat.div_mod_unique hpos, add_comm, mul_comm, eq_comm]
  · obtain ⟨out, hout, hbv⟩ := Option.map_eq_some_iff.1 (wDiv_signed hb mod)
    refine ⟨out, hout, ?_⟩
    rw [val, hbv, toNat_ofInt, Int.toNat_of_nonneg (Int.emod_nonneg _ (by decide))]
    rfl

end EmbCC.Sema
