import EmbCC.LdFloat.Round

/-!
# The four operations

`ldf_binop`: sum and difference over a common exponent, the exact product, and a quotient of
three bits more than the precision, whose remainder becomes the sticky bit. All of them round
once. `ldfBinop_roundsTo` says that the one rounding is of the exact rational result.
-/

namespace EmbCC.LdFloat

open Nat Int

/-- The operator of `ldf_binop`: one of the characters `+`, `-`, `*`, `/`. -/
inductive Op
  | add | sub | mul | div
deriving DecidableEq, Repr

/-- The sum in `ldf_binop`, which also subtracts, with the sign of `b` turned. -/
def ldfSum (a b : Ldf) (bneg : Bool) (fmt : LdfFmt) : Ldf :=
  if a.kind = .inf ∨ b.kind = .inf then
    if a.kind = .inf ∧ b.kind = .inf ∧ a.neg ≠ bneg then mk .nan false
    else mk .inf (if a.kind = .inf then a.neg else bneg)
  else if bigIsZero a.m && bigIsZero b.m then mk .finite (a.neg && bneg)
  else if bigIsZero a.m then roundTo b.m b.e false bneg fmt
  else if bigIsZero b.m then roundTo a.m a.e false a.neg fmt
  else
    let e := if a.e < b.e then a.e else b.e
    let ma := bigShl a.m (a.e - e)
    let mb := bigShl b.m (b.e - e)
    if a.neg = bneg then roundTo (bigAdd ma mb) e false a.neg fmt
    else
      let c := bigCmp ma mb
      if c = 0 then mk .finite false
      else if c > 0 then roundTo (bigSub ma mb) e false a.neg fmt
      else roundTo (bigSub mb ma) e false bneg fmt

/-- The product in `ldf_binop`. -/
def ldfProd (a b : Ldf) (fmt : LdfFmt) : Ldf :=
  let neg := a.neg != b.neg
  if a.kind = .inf ∨ b.kind = .inf then
    if (a.kind = .finite ∧ bigIsZero a.m) ∨ (b.kind = .finite ∧ bigIsZero b.m) then mk .nan false
    else mk .inf neg
  else roundTo (bigMul a.m b.m) (a.e + b.e) false neg fmt

/-- The quotient in `ldf_binop`: at least `p + 3` bits of it, and the rest as sticky. -/
def ldfQuot (a b : Ldf) (fmt : LdfFmt) : Ldf :=
  let neg := a.neg != b.neg
  if a.kind = .inf then (if b.kind = .inf then mk .nan false else mk .inf neg)
  else if b.kind = .inf then mk .finite neg
  else if bigIsZero b.m then (if bigIsZero a.m then mk .nan false else mk .inf neg)
  else if bigIsZero a.m then mk .finite neg
  else
    let k := bigBitlen b.m - bigBitlen a.m + (finfo fmt).p + 3
    let k := if k < 0 then 0 else k
    let (q, inexact) := bigDiv (bigShl a.m k) b.m
    roundTo q (a.e - b.e - k) inexact neg fmt

def ldfBinop (op : Op) (a b : Ldf) (fmt : LdfFmt) : Ldf :=
  if a.kind = .nan ∨ b.kind = .nan then mk .nan false
  else match op with
    | .add => ldfSum a b b.neg fmt
    | .sub => ldfSum a b (!b.neg) fmt
    | .mul => ldfProd a b fmt
    | .div => ldfQuot a b fmt

/-- `ldf_from_int`, of a `long` read as signed or as unsigned. -/
def ldfFromInt (v : ℤ) (isUnsigned : Bool) : Ldf :=
  let neg := !isUnsigned && decide (v < 0)
  let mag := (if neg then 0 - v else v) % 2 ^ 64
  { mk .finite neg with m := bigFromU64 mag.toNat }

/-- The exact rational result. -/
def Op.exact : Op → ℚ → ℚ → ℚ
  | .add, x, y => x + y
  | .sub, x, y => x - y
  | .mul, x, y => x * y
  | .div, x, y => x / y

/-- The values `ldfloat.c` works on: exponent and size far inside what an `int` counts. -/
def Ldf.InRange (v : Ldf) : Prop := bigBitlen v.m ≤ 2 ^ 33 ∧ |v.e| ≤ 2 ^ 33

lemma signOf_not (neg : Bool) : signOf (!neg) = -signOf neg := by cases neg <;> simp [signOf]

lemma signOf_bne (a b : Bool) : signOf (a != b) = signOf a * signOf b := by
  cases a <;> cases b <;> simp [signOf]

lemma signOf_ne {a b : Bool} (h : a ≠ b) : signOf b = -signOf a := by
  cases a <;> simp_all [signOf]

lemma roundTo_exact (m : Big) (e : ℤ) (neg : Bool) (fmt : LdfFmt) (hr : LdFloat.InRange m e) :
    RoundsTo fmt (signOf neg * (m.val * 2 ^ e)) (roundTo m e false neg fmt) := by
  have h := roundTo_roundsTo m e false neg fmt hr (δ := 0) le_rfl one_pos (by simp) (by simp)
  rwa [add_zero] at h

lemma Ldf.InRange.exact {v : Ldf} (h : v.InRange) : LdFloat.InRange v.m v.e :=
  ⟨h.1.trans (by norm_num), h.2.trans (by norm_num)⟩

lemma bigShl_align (m : Big) {x e : ℤ} (h : e ≤ x) (hk : x - e < 2 ^ 36) :
    ((bigShl m (x - e)).val * 2 ^ e : ℚ) = m.val * 2 ^ x := by
  obtain ⟨k, rfl⟩ := Int.le.dest h
  rw [add_sub_cancel_left, bigShl_val m (by omega), zpow_add₀ two_ne_zero, zpow_natCast]
  push_cast
  ring

lemma size_bigShl_le (m : Big) {x e : ℤ} (h : e ≤ x) (hk : x - e < 2 ^ 36) :
    ((bigShl m (x - e)).val.size : ℤ) ≤ m.val.size + (x - e) := by
  obtain ⟨k, rfl⟩ := Int.le.dest h
  rw [add_sub_cancel_left, bigShl_val m (by omega)]
  have : (m.val * 2 ^ k).size ≤ m.val.size + k := by
    rw [size_le, pow_add]
    exact (Nat.mul_lt_mul_right (Nat.two_pow_pos k)).2 (lt_size_self _)
  omega

lemma inRange_of_le {m : Big} {n : ℕ} {e : ℤ} (hm : m.val ≤ n) (hn : (n.size : ℤ) ≤ 2 ^ 35)
    (he : |e| ≤ 2 ^ 35) : LdFloat.InRange m e := by
  refine ⟨?_, he⟩
  rw [bigBitlen_eq]
  exact (Nat.cast_le.2 (size_le_size hm)).trans hn

lemma size_add_le (x y : ℕ) : (x + y).size ≤ max x.size y.size + 1 := by
  rw [size_le, pow_succ]
  have hx := (lt_size_self x).trans_le (Nat.pow_le_pow_right (by norm_num) (le_max_left x.size y.size))
  have hy := (lt_size_self y).trans_le (Nat.pow_le_pow_right (by norm_num) (le_max_right x.size y.size))
  omega

/-- A sum or difference at one exponent, rounded once. -/
lemma aligned_roundsTo (ma mb : Big) (e : ℤ) (aneg bneg : Bool) (fmt : LdfFmt)
    (hsize : ((ma.val + mb.val).size : ℤ) ≤ 2 ^ 35) (he : |e| ≤ 2 ^ 35) : RoundsTo fmt
    (signOf aneg * (ma.val * 2 ^ e) + signOf bneg * (mb.val * 2 ^ e)) (if aneg = bneg then roundTo
    (bigAdd ma mb) e false aneg fmt else if bigCmp ma mb = 0 then mk .finite false else if bigCmp ma mb > 0 then roundTo
    (bigSub ma mb) e false aneg fmt else roundTo (bigSub mb ma) e false bneg fmt) := by
  have hcmp := bigCmp_eq ma mb
  split
  · rename_i hneg
    have h := roundTo_exact (bigAdd ma mb) e aneg fmt (inRange_of_le (bigAdd_val ma mb).le hsize he)
    rw [bigAdd_val] at h
    rw [← hneg, ← mul_add, ← add_mul, ← Nat.cast_add]
    exact h
  · rename_i hneg
    rw [signOf_ne hneg, neg_mul, ← sub_eq_add_neg, ← mul_sub, ← sub_mul]
    split
    · rename_i h0
      rw [hcmp, sign_eq_zero_iff_zero, sub_eq_zero, Nat.cast_inj] at h0
      rw [h0, sub_self, zero_mul, mul_zero]
      exact roundsTo_zero fmt false
    · split
      · rename_i hpos
        rw [hcmp, gt_iff_lt, sign_pos_iff, sub_pos, Nat.cast_lt] at hpos
        have hsub := bigSub_val hpos.le
        have h := roundTo_exact (bigSub ma mb) e aneg fmt (inRange_of_le (by rw [hsub]; omega) hsize he)
        rwa [hsub, cast_sub hpos.le] at h
      · rename_i hne hpos
        have hlt : ma.val < mb.val := by
          rw [hcmp, sign_eq_zero_iff_zero] at hne
          rw [hcmp, gt_iff_lt, sign_pos_iff] at hpos
          omega
        have hsub := bigSub_val hlt.le
        have h := roundTo_exact (bigSub mb ma) e bneg fmt (inRange_of_le (by rw [hsub]; omega) hsize he)
        rw [hsub, cast_sub hlt.le, signOf_ne hneg] at h
        rwa [← neg_sub, neg_mul, mul_neg, ← neg_mul]

/-- The sum is the exact one rounded once. -/
lemma ldfSum_roundsTo (a b : Ldf) (bneg : Bool) (fmt : LdfFmt) (ha : a.kind = .finite) (hb : b.kind = .finite)
    (hra : a.InRange) (hrb : b.InRange) : RoundsTo fmt (a.val + signOf bneg * (b.m.val * 2 ^ b.e)) (ldfSum a b bneg fmt) := by
  unfold ldfSum Ldf.val
  rw [if_neg (by simp [ha, hb])]
  by_cases ha0 : a.m.val = 0
  · simp only [(bigIsZero_iff a.m).2 ha0, ha0, Nat.cast_zero, zero_mul, mul_zero, zero_add, Bool.true_and, if_true]
    split_ifs with hb0
    · rw [(bigIsZero_iff b.m).1 hb0, Nat.cast_zero, zero_mul, mul_zero]
      exact roundsTo_zero fmt _
    · exact roundTo_exact b.m b.e bneg fmt hrb.exact
  have haz := bigIsZero_of_ne ha0
  by_cases hb0 : b.m.val = 0
  · simp only [haz, (bigIsZero_iff b.m).2 hb0, hb0, Nat.cast_zero, zero_mul, mul_zero, add_zero, Bool.false_and]
    exact roundTo_exact a.m a.e a.neg fmt hra.exact
  have hbz := bigIsZero_of_ne hb0
  simp only [haz, hbz]
  obtain ⟨hLa, hea⟩ := hra
  obtain ⟨hLb, heb⟩ := hrb
  rw [bigBitlen_eq] at hLa hLb
  rw [abs_le] at hea heb
  generalize he : (if a.e < b.e then a.e else b.e) = e
  have hle : e ≤ a.e ∧ e ≤ b.e ∧ (e = a.e ∨ e = b.e) := by
    rw [← he]
    split <;> omega
  have hka : a.e - e < 2 ^ 36 := by omega
  have hkb : b.e - e < 2 ^ 36 := by omega
  rw [← bigShl_align a.m hle.1 hka, ← bigShl_align b.m hle.2.1 hkb]
  have hsa := size_bigShl_le a.m hle.1 hka
  have hsb := size_bigShl_le b.m hle.2.1 hkb
  refine aligned_roundsTo _ _ e a.neg bneg fmt ?_ (abs_le.2 ⟨by omega, by omega⟩)
  have hadd := size_add_le (bigShl a.m (a.e - e)).val (bigShl b.m (b.e - e)).val
  omega

lemma ldfProd_roundsTo (a b : Ldf) (fmt : LdfFmt) (ha : a.kind = .finite) (hb : b.kind = .finite) (hra : a.InRange)
    (hrb : b.InRange) : RoundsTo fmt (a.val * b.val) (ldfProd a b fmt) := by
  unfold ldfProd Ldf.val
  simp only [ha, hb, reduceCtorEq, or_self, if_false]
  obtain ⟨hLa, hea⟩ := hra
  obtain ⟨hLb, heb⟩ := hrb
  rw [bigBitlen_eq] at hLa hLb
  rw [abs_le] at hea heb
  have hmul : (a.m.val * b.m.val).size ≤ a.m.val.size + b.m.val.size := by
    rw [Nat.size_le, pow_add]
    exact Nat.mul_lt_mul'' (Nat.lt_size_self _) (Nat.lt_size_self _)
  have h := roundTo_exact (bigMul a.m b.m) (a.e + b.e) (a.neg != b.neg) fmt
    (inRange_of_le (bigMul_val _ _).le (by omega) (abs_le.2 ⟨by omega, by omega⟩))
  rw [bigMul_val, signOf_bne, zpow_add₀ two_ne_zero, Nat.cast_mul] at h
  convert h using 1
  ring

lemma lt_size_quotient {x y k p : ℕ} (hx : x ≠ 0) (hy : y ≠ 0) (hk : y.size + p < x.size + k) :
    p ≤ (x * 2 ^ k / y).size := by
  obtain ⟨s, hs⟩ := exists_eq_succ_of_ne_zero (fun h0 => hx (Nat.size_eq_zero.1 h0) : x.size ≠ 0)
  have hlow : 2 ^ (s + k) ≤ x * 2 ^ k := by
    rw [pow_add]
    exact Nat.mul_le_mul_right _ (Nat.lt_size.1 (by omega))
  have hq : 2 ^ p ≤ x * 2 ^ k / y := by
    rw [Nat.le_div_iff_mul_le (Nat.pos_of_ne_zero hy)]
    calc 2 ^ p * y ≤ 2 ^ p * 2 ^ y.size := Nat.mul_le_mul_left _ (lt_size_self y).le
      _ = 2 ^ (p + y.size) := (pow_add ..).symm
      _ ≤ 2 ^ (s + k) := Nat.pow_le_pow_right (by norm_num) (by omega)
      _ ≤ _ := hlow
  exact (Nat.lt_size.2 hq).le

/-- The quotient is the exact one rounded once: the remainder is the sticky bit. -/
lemma ldfQuot_roundsTo (a b : Ldf) (fmt : LdfFmt) (ha : a.kind = .finite) (hb : b.kind = .finite) (hra : a.InRange)
    (hrb : b.InRange) (hb0 : b.m.val ≠ 0) : RoundsTo fmt (a.val / b.val) (ldfQuot a b fmt) := by
  unfold ldfQuot
  have hbz := bigIsZero_of_ne hb0
  simp only [ha, hb, hbz, reduceCtorEq, if_false]
  by_cases ha0 : a.m.val = 0
  · rw [if_pos ((bigIsZero_iff a.m).2 ha0), Ldf.val, ha0, Nat.cast_zero, zero_mul, mul_zero, zero_div]
    exact roundsTo_zero fmt _
  have haz := bigIsZero_of_ne ha0
  simp only [haz, Bool.false_eq_true, if_false, bigBitlen_eq, ← prec_cast]
  obtain ⟨hLa, hea⟩ := hra
  obtain ⟨hLb, heb⟩ := hrb
  rw [bigBitlen_eq] at hLa hLb
  rw [abs_le] at hea heb
  have hbd := finfo_bounds fmt
  obtain ⟨k, hk, -, -⟩ : ∃ k : ℕ, (if (b.m.val.size : ℤ) - a.m.val.size + fmt.prec + 3 < 0 then 0
        else (b.m.val.size : ℤ) - a.m.val.size + fmt.prec + 3) = k ∧
      b.m.val.size + fmt.prec + 3 ≤ a.m.val.size + k ∧ k ≤ b.m.val.size + fmt.prec + 3 := by
    refine ⟨((b.m.val.size : ℤ) - a.m.val.size + fmt.prec + 3).toNat, ?_, by omega, by omega⟩
    split <;> omega
  rw [hk]
  have hnum := bigShl_val a.m (k := k) (by omega)
  have hnsize : (bigShl a.m k).val.size = a.m.val.size + k := by
    rw [hnum, ← Nat.shiftLeft_eq, Nat.size_shiftLeft ha0]
  have hbpos : 0 < b.m.val := Nat.pos_of_ne_zero hb0
  obtain ⟨hq, hinexact⟩ := @bigDiv_spec (bigShl a.m k) b.m hbpos (by omega) (by omega)
  rw [hnum] at hq hinexact
  have hbq : (0 : ℚ) < b.m.val := by exact_mod_cast hbpos
  have hδ : 0 ≤ ((a.m.val * 2 ^ k % b.m.val : ℕ) / b.m.val : ℚ) := by positivity
  have hδ1 : ((a.m.val * 2 ^ k % b.m.val : ℕ) / b.m.val : ℚ) < 1 := by
    rw [div_lt_one hbq]
    exact_mod_cast Nat.mod_lt _ hbpos
  have hsize : fmt.prec + 2 ≤ (a.m.val * 2 ^ k / b.m.val).size :=
    lt_size_quotient ha0 hb0 (by omega)
  have hqle : (bigDiv (bigShl a.m k) b.m).1.val ≤ (bigShl a.m k).val := by
    rw [hq, hnum]
    exact Nat.div_le_self _ _
  have h := roundTo_roundsTo (bigDiv (bigShl a.m k) b.m).1 (a.e - b.e - k) (bigDiv (bigShl a.m k) b.m).2 (a.neg != b.neg) fmt
    (inRange_of_le hqle (by omega) (abs_le.2 ⟨by omega, by omega⟩)) hδ hδ1 (by
      rw [hinexact, ← Nat.pos_iff_ne_zero, div_pos_iff_of_pos_right hbq, Nat.cast_pos])
    (fun _ => by rw [hq]; omega)
  convert h using 1
  have hdm : (a.m.val * 2 ^ k : ℚ) = b.m.val * (a.m.val * 2 ^ k / b.m.val : ℕ) + (a.m.val * 2 ^ k % b.m.val : ℕ) := by
    exact_mod_cast (Nat.div_add_mod (a.m.val * 2 ^ k) b.m.val).symm
  have hcut : (((a.m.val * 2 ^ k / b.m.val : ℕ) : ℚ) +
      (a.m.val * 2 ^ k % b.m.val : ℕ) / b.m.val) = a.m.val * 2 ^ k / b.m.val := by
    rw [hdm]
    field_simp
  rw [hq, hcut, signOf_bne, Ldf.val, Ldf.val, zpow_sub₀ two_ne_zero, zpow_sub₀ two_ne_zero, zpow_natCast]
  have hsign : signOf b.neg * signOf b.neg = 1 := by cases b.neg <;> simp [signOf]
  have hs0 : signOf b.neg ≠ 0 := left_ne_zero_of_mul (hsign.trans_ne one_ne_zero)
  field_simp
  linear_combination -signOf a.neg * hsign

lemma ldfBinop_roundsTo (op : Op) (a b : Ldf) (fmt : LdfFmt) (ha : a.kind = .finite)
    (hb : b.kind = .finite) (hra : a.InRange) (hrb : b.InRange) (hdiv : op = .div → b.m.val ≠ 0) :
    RoundsTo fmt (op.exact a.val b.val) (ldfBinop op a b fmt) := by
  unfold ldfBinop
  rw [if_neg (by simp [ha, hb])]
  cases op with
  | add => exact ldfSum_roundsTo a b b.neg fmt ha hb hra hrb
  | sub =>
    have h := ldfSum_roundsTo a b (!b.neg) fmt ha hb hra hrb
    rwa [signOf_not, neg_mul, ← sub_eq_add_neg] at h
  | mul => exact ldfProd_roundsTo a b fmt ha hb hra hrb
  | div => exact ldfQuot_roundsTo a b fmt ha hb hra hrb (hdiv rfl)

lemma ldfFromInt_inRange (v : ℤ) (isUnsigned : Bool) : (ldfFromInt v isUnsigned).InRange := by
  refine ⟨?_, by simp [ldfFromInt, mk]⟩
  have hval : (ldfFromInt v isUnsigned).m.val < 2 ^ 64 := by
    simp only [ldfFromInt]
    rw [bigFromU64_val] <;> omega
  have := Nat.size_le.2 hval
  rw [bigBitlen_eq]
  omega

/-- Rounding and the four operations are correct in every format: `round_to` gives the value of
the format nearest to its exact argument, ties to even, and `ldf_binop` that of the exact
rational result of its operands. -/
theorem rounding_correct (fmt : LdfFmt) : (∀ (m : Big) (e : ℤ) (neg : Bool), LdFloat.InRange m e →
      RoundsTo fmt (signOf neg * (m.val * 2 ^ e)) (roundTo m e false neg fmt)) ∧
    (∀ (op : Op) (a b : Ldf), a.kind = .finite → b.kind = .finite → a.InRange → b.InRange →
      (op = .div → b.m.val ≠ 0) → RoundsTo fmt (op.exact a.val b.val) (ldfBinop op a b fmt)) :=
  ⟨fun m e neg hr => roundTo_exact m e neg fmt hr,
    fun op a b ha hb hra hrb hdiv => ldfBinop_roundsTo op a b fmt ha hb hra hrb hdiv⟩

/-- One third, a tie-free quotient with a tail, in `double`; and `1` itself. -/
theorem rounding_correct_third : RoundsTo .double (signOf true * ((bigFromU64 1).val * 2 ^ (0 : ℤ)))
      (roundTo (bigFromU64 1) 0 false true .double) ∧
    RoundsTo .double ((ldfFromInt 1 false).val / (ldfFromInt 3 false).val)
      (ldfBinop .div (ldfFromInt 1 false) (ldfFromInt 3 false) .double) :=
  ⟨(rounding_correct .double).1 (bigFromU64 1) 0 true ⟨by decide, by decide⟩,
    (rounding_correct .double).2 .div _ _ rfl rfl (ldfFromInt_inRange 1 false) (ldfFromInt_inRange 3 false) (by decide)⟩

end EmbCC.LdFloat
