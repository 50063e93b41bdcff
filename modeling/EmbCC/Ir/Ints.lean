import EmbCC.Ir.Arith

/-!
# IR arithmetic in integers

The width-4 and width-8 operations of `fold_bin` as equations between integers:
`s32` and `u32` are how a width-4 operation reads a register, and every result at
that width is the sign-extended 32-bit one, `word`.
-/

namespace EmbCC.Ir

open Nat BitVec
open BitVec (ofInt)

/-! ## Reading and writing a register at width 4 -/

/-- The register as a width-4 signed operation reads it. -/
def s32 (x : BitVec 64) : ℤ := (x.setWidth 32).toInt

/-- The register as a width-4 unsigned operation reads it. -/
def u32 (x : BitVec 64) : ℕ := (x.setWidth 32).toNat

/-- The register that holds `z` at width 4. -/
def word (z : ℤ) : BitVec 64 := (ofInt 32 z).signExtend 64

lemma u32_lt (x : BitVec 64) : u32 x < 2 ^ 32 := (x.setWidth 32).isLt

lemma le_s32 (x : BitVec 64) : -2 ^ 31 ≤ s32 x := by
  have := (x.setWidth 32).le_toInt
  simpa [s32] using this

lemma s32_lt (x : BitVec 64) : s32 x < 2 ^ 31 := by
  have := (x.setWidth 32).toInt_lt
  simpa [s32] using this

lemma s32_eq_bmod (x : BitVec 64) : s32 x = (u32 x : ℤ).bmod (2 ^ 32) := toInt_eq_toNat_bmod _

@[simp] lemma setWidth_word (z : ℤ) : (word z).setWidth 32 = ofInt 32 z := setWidth_signExtend _

lemma s32_word (z : ℤ) : s32 (word z) = z.bmod (2 ^ 32) := by rw [s32, setWidth_word, toInt_ofInt]

lemma s32_word_of_lt {z : ℤ} (h1 : -2 ^ 31 ≤ z) (h2 : z < 2 ^ 31) : s32 (word z) = z := by
  rw [s32_word, Int.bmod_eq_of_le] <;> omega

lemma u32_word (z : ℤ) : u32 (word z) = (z % 2 ^ 32).toNat := by
  rw [u32, setWidth_word, toNat_ofInt]
  norm_num

variable {n v k w : ℕ} {x y A B : BitVec 64} {sg : Bool}

lemma u32_word_of_lt (h : n < 2 ^ 32) : u32 (word n) = n := by
  rw [u32_word]
  omega

lemma u32_ofInt (h : n < 2 ^ 32) : u32 (ofInt 64 n) = n := by
  rw [u32, toNat_setWidth, toNat_ofInt]
  omega

lemma word_congr {a b : ℤ} (h : a % 2 ^ 32 = b % 2 ^ 32) : word a = word b := by
  have : ofInt 32 a = ofInt 32 b := by
    apply eq_of_toNat_eq
    rw [toNat_ofInt, toNat_ofInt]
    omega
  rw [word, word, this]

lemma word_u32_word (z : ℤ) : word (u32 (word z)) = word z := by
  rw [u32_word]
  exact word_congr (by omega)

lemma word_eq_ofInt {z : ℤ} (h1 : -2 ^ 31 ≤ z) (h2 : z < 2 ^ 31) : word z = ofInt 64 z := by
  apply eq_of_toInt_eq
  rw [word, toInt_signExtend_of_le (by norm_num), toInt_ofInt, toInt_ofInt, Int.bmod_eq_of_le, Int.bmod_eq_of_le] <;> omega

lemma norm_four (r : BitVec 64) : norm r 4 = (r.setWidth 32).signExtend 64 := rfl

lemma norm_ofInt (z : ℤ) : norm (ofInt 64 z) 4 = word z := by
  rw [norm_four, word]
  congr 1
  apply eq_of_toNat_eq
  rw [toNat_setWidth, toNat_ofInt, toNat_ofInt]
  omega

lemma norm_toInt (r : BitVec 64) : norm r 4 = word r.toInt := by rw [← norm_ofInt, ofInt_toInt]

lemma norm_toNat (r : BitVec 64) : norm r 4 = word r.toNat := by
  rw [← norm_ofInt, ofInt_natCast, ofNat_toNat, setWidth_eq]

lemma toNat_uOpnd (x : BitVec 64) : (uOpnd 4 x).toNat = u32 x := by
  simp only [uOpnd, u32] at *
  rw [if_neg (by decide), toNat_setWidth]
  omega

lemma toInt_sOpnd (x : BitVec 64) : (sOpnd 4 x).toInt = s32 x := by
  rw [sOpnd, if_neg (by decide), toInt_signExtend_of_le (by norm_num)]
  rfl

lemma s32_emod (x : BitVec 64) : s32 x % 2 ^ 32 = u32 x := by
  have h := u32_lt x
  rw [s32_eq_bmod, Int.bmod]
  split_ifs <;> omega

lemma toNat_lowMask (hk : k < 64) : ((1 : BitVec 64) <<< k - 1).toNat = 2 ^ k - 1 := by
  have hone : ((1 : BitVec 64) <<< k).toNat = 2 ^ k := by
    rw [toNat_shiftLeft, Nat.shiftLeft_eq, show (1 : BitVec 64).toNat = 1 from rfl, Nat.one_mul,
      mod_eq_of_lt (Nat.pow_lt_pow_right (by norm_num) hk)]
  have := Nat.two_pow_pos k
  rw [toNat_sub_of_le, hone]
  · rfl
  · rw [le_def, hone]
    exact this

lemma getLsbD_lowMask (hk : k < 64) (j : ℕ) : ((1 : BitVec 64) <<< k - 1).getLsbD j = decide (j < k) := by
  rw [getLsbD, toNat_lowMask hk, testBit_two_pow_sub_one]

/-! ## Operations at any width -/

section
variable (A B : BitVec 64) (w : ℕ) (sg : Bool) (pr : Pred)

lemma foldBin_add : foldBin .add A B w sg pr = some (norm (uOpnd w A + uOpnd w B) w) := rfl

lemma foldBin_sub : foldBin .sub A B w sg pr = some (norm (uOpnd w A - uOpnd w B) w) := rfl

lemma foldBin_mul : foldBin .mul A B w sg pr = some (norm (uOpnd w A * uOpnd w B) w) := rfl

lemma foldBin_shru : foldBin .shr A B w false pr =
    some (norm (uOpnd w A >>> ((uOpnd w B).toNat % if w = 8 then 64 else 32)) w) := rfl

lemma foldBin_shrs : foldBin .shr A B w true pr =
    some (norm ((sOpnd w A).sshiftRight ((uOpnd w B).toNat % if w = 8 then 64 else 32)) w) := rfl

lemma foldBin_and : foldBin .and A B w sg pr = some (norm (uOpnd w A &&& uOpnd w B) w) := rfl

lemma foldBin_or : foldBin .or A B w sg pr = some (norm (uOpnd w A ||| uOpnd w B) w) := rfl

lemma foldBin_shl : foldBin .shl A B w sg pr =
    some (norm (uOpnd w A <<< ((uOpnd w B).toNat % if w = 8 then 64 else 32)) w) := rfl

lemma foldBin_mulhu : foldBin .mulh A B w false pr = some (norm ((uOpnd 4 A * uOpnd 4 B) >>> 32) w) := rfl

lemma foldBin_mulhs : foldBin .mulh A B w true pr = some (norm ((sOpnd 4 A * sOpnd 4 B).sshiftRight 32) w) := rfl

end

/-! ## Operations at width 4 -/

section
variable (A B : BitVec 64) (sg : Bool) (pr : Pred)

lemma foldBin_add4 : foldBin .add A B 4 sg pr = some (word (s32 A + s32 B)) := by
  have hA := s32_emod A
  have hB := s32_emod B
  rw [foldBin_add, norm_toNat, toNat_add, toNat_uOpnd, toNat_uOpnd]
  congr 1
  exact word_congr (by omega)

lemma foldBin_sub4 : foldBin .sub A B 4 sg pr = some (word (s32 A - s32 B)) := by
  have hA := s32_emod A
  have hB := s32_emod B
  rw [foldBin_sub, norm_toNat, toNat_sub, toNat_uOpnd, toNat_uOpnd]
  congr 1
  exact word_congr (by omega)

lemma foldBin_mul4 : foldBin .mul A B 4 sg pr = some (word (s32 A * s32 B)) := by
  rw [foldBin_mul, norm_toNat, toNat_mul, toNat_uOpnd, toNat_uOpnd]
  congr 1
  refine word_congr ?_
  rw [Int.mul_emod, s32_emod, s32_emod]
  omega

lemma foldBin_shru4 : foldBin .shr A B 4 false pr = some (word (u32 A / 2 ^ (u32 B % 32) : ℕ)) := by
  rw [foldBin_shru, norm_toNat, toNat_ushiftRight, toNat_uOpnd, toNat_uOpnd, shiftRight_eq_div_pow, if_neg (by decide)]

lemma foldBin_shrs4 : foldBin .shr A B 4 true pr = some (word (s32 A / 2 ^ (u32 B % 32))) := by
  rw [foldBin_shrs, norm_toInt, toInt_sshiftRight, toInt_sOpnd, toNat_uOpnd, Int.shiftRight_eq_div_pow, if_neg (by decide)]
  norm_num

lemma foldBin_and4 : foldBin .and A B 4 sg pr = some (word (u32 A &&& u32 B : ℕ)) := by
  rw [foldBin_and, norm_toNat, toNat_and, toNat_uOpnd, toNat_uOpnd]

lemma foldBin_or4 : foldBin .or A B 4 sg pr = some (word (u32 A ||| u32 B : ℕ)) := by
  rw [foldBin_or, norm_toNat, toNat_or, toNat_uOpnd, toNat_uOpnd]

lemma foldBin_shl4 : foldBin .shl A B 4 sg pr = some (word (u32 A * 2 ^ (u32 B % 32) : ℕ)) := by
  rw [foldBin_shl, norm_toNat, toNat_shiftLeft, toNat_uOpnd, toNat_uOpnd, Nat.shiftLeft_eq, if_neg (by decide)]
  congr 1
  exact word_congr (by omega)

lemma foldBin_mulhu4 : foldBin .mulh A B 4 false pr = some (word (u32 A * u32 B / 2 ^ 32 : ℕ)) := by
  have hlt : u32 A * u32 B < 2 ^ 64 :=
    (Nat.mul_lt_mul'' (u32_lt A) (u32_lt B)).trans_le (by norm_num)
  rw [foldBin_mulhu, norm_toNat, toNat_ushiftRight, toNat_mul, toNat_uOpnd,
    toNat_uOpnd, shiftRight_eq_div_pow, mod_eq_of_lt hlt]

lemma foldBin_mulhs4 : foldBin .mulh A B 4 true pr = some (word (s32 A * s32 B / 2 ^ 32)) := by
  have hA := le_s32 A
  have hA' := s32_lt A
  have hB := le_s32 B
  have hB' := s32_lt B
  have hlow : -2 ^ 62 ≤ s32 A * s32 B := by nlinarith
  have hhigh : s32 A * s32 B ≤ 2 ^ 62 := by nlinarith
  have hprod : (s32 A * s32 B).bmod (2 ^ 64) = s32 A * s32 B := by apply Int.bmod_eq_of_le <;> omega
  rw [foldBin_mulhs, norm_toInt, toInt_sshiftRight, toInt_mul, toInt_sOpnd, toInt_sOpnd, hprod, Int.shiftRight_eq_div_pow]
  norm_num

lemma foldBin_geu4 : foldBin .cmp A B 4 false .ge = some (word (if u32 B ≤ u32 A then 1 else 0)) := by
  simp only [foldBin, foldCmp, BitVec.ule, toNat_uOpnd, norm_toNat]
  by_cases h : u32 B ≤ u32 A <;> simp [h]

lemma foldBin_gtu4 : foldBin .cmp A B 4 false .gt = some (word (if u32 B < u32 A then 1 else 0)) := by
  simp only [foldBin, foldCmp, BitVec.ult, toNat_uOpnd, norm_toNat]
  by_cases h : u32 B < u32 A <;> simp [h]

lemma foldBin_eq4 : foldBin .cmp A B 4 sg .eq = some (word (if u32 A = u32 B then 1 else 0)) := by
  simp only [foldBin, foldCmp, beq_iff_eq, ← toNat_inj, toNat_uOpnd, norm_toNat]
  by_cases h : u32 A = u32 B <;> simp [h]

lemma foldBin_ne4 : foldBin .cmp A B 4 sg .ne = some (word (if u32 A = u32 B then 0 else 1)) := by
  simp only [foldBin, foldCmp, bne_iff_ne, ne_eq, ← toNat_inj, toNat_uOpnd, norm_toNat]
  by_cases h : u32 A = u32 B <;> simp [h]

end

section
variable {A B : BitVec 64} {a b : ℤ} (pr : Pred)

lemma foldBin_mul8 (sg : Bool) : foldBin .mul (ofInt 64 a) (ofInt 64 b) 8 sg pr = some (ofInt 64 (a * b)) := by
  rw [foldBin_mul, norm, uOpnd, uOpnd, if_pos rfl, if_pos rfl, if_pos rfl, ofInt_mul]

/-! ## Operations at width 8 -/

lemma shift_ofInt {k : ℕ} (hk : k < 64) : (ofInt 64 (k : ℤ)).toNat % 64 = k := by
  rw [toNat_ofInt]
  omega

lemma foldBin_shrs8 (h1 : -2 ^ 63 ≤ a) (h2 : a < 2 ^ 63) {k : ℕ} (hk : k < 64) :
    foldBin .shr (ofInt 64 a) (ofInt 64 k) 8 true pr = some (ofInt 64 (a / 2 ^ k)) := by
  have ha : (ofInt 64 a).toInt = a := by rw [toInt_ofInt, Int.bmod_eq_of_le] <;> omega
  rw [foldBin_shrs, norm, uOpnd, sOpnd, if_pos rfl, if_pos rfl, if_pos rfl, if_pos rfl, shift_ofInt hk]
  congr 1
  refine ofInt_toInt.symm.trans ?_
  rw [toInt_sshiftRight, ha, Int.shiftRight_eq_div_pow]
  norm_num

lemma foldBin_shru8 {n : ℕ} (h : n < 2 ^ 64) {k : ℕ} (hk : k < 64) : foldBin .shr (ofInt 64 n) (ofInt 64 k) 8 false pr =
      some (ofInt 64 (n / 2 ^ k : ℕ)) := by
  rw [foldBin_shru, norm, uOpnd, uOpnd, if_pos rfl, if_pos rfl, if_pos rfl, if_pos rfl, shift_ofInt hk]
  congr 1
  apply eq_of_toNat_eq
  have hdiv : n / 2 ^ k ≤ n := Nat.div_le_self _ _
  simp only [ofInt_natCast, toNat_ushiftRight, toNat_ofNat, shiftRight_eq_div_pow]
  rw [mod_eq_of_lt h, mod_eq_of_lt (by omega)]

end

/-- The mask of the low four bytes, as `fold_ext` builds it. -/
def mask32 : BitVec 64 := ((1 <<< 32 : ℕ) : BitVec 64) - 1

lemma toNat_low (A : BitVec 64) : (A &&& mask32).toNat = u32 A := by
  rw [toNat_and, show mask32.toNat = 2 ^ 32 - 1 from rfl, and_two_pow_sub_one_eq_mod, u32, toNat_setWidth]

lemma low_sign (A : BitVec 64) : (A &&& mask32) &&& ((1 <<< 31 : ℕ) : BitVec 64) ≠ 0 ↔ 2 ^ 31 ≤ u32 A := by
  have hlt := u32_lt A
  have hbit : ((A &&& mask32) &&& ((1 <<< 31 : ℕ) : BitVec 64)).toNat = ((u32 A).testBit 31).toNat * 2 ^ 31 := by
    rw [toNat_and, toNat_low, show ((1 <<< 31 : ℕ) : BitVec 64).toNat = 2 ^ 31 from rfl, and_two_pow]
  have htest : (u32 A).testBit 31 = true ↔ 2 ^ 31 ≤ u32 A := by
    rw [testBit_eq_decide_div_mod_eq, decide_eq_true_eq]
    omega
  rw [← htest, Ne, ← toNat_inj, hbit]
  cases (u32 A).testBit 31 <;> simp

lemma toNat_low_or (A : BitVec 64) : ((A &&& mask32) ||| ~~~mask32).toNat = 2 ^ 32 * (2 ^ 32 - 1) + u32 A := by
  rw [toNat_or, toNat_low, show (~~~mask32).toNat = 2 ^ 32 * (2 ^ 32 - 1) from rfl,
    Nat.or_comm, ← two_pow_add_eq_or_of_lt (u32_lt A)]

lemma foldExt_four (A : BitVec 64) (sg : Bool) : foldExt A 4 sg 8 =
    if sg = true ∧ 2 ^ 31 ≤ u32 A then (A &&& mask32) ||| ~~~mask32 else A &&& mask32 := by
  by_cases h : sg = true ∧ 2 ^ 31 ≤ u32 A
  · rw [if_pos h]
    exact if_pos ⟨h.1, by decide, (low_sign A).2 h.2⟩
  · rw [if_neg h]
    exact if_neg fun h' => h ⟨h'.1, (low_sign A).1 h'.2.2⟩

lemma foldExt_signed (A : BitVec 64) : foldExt A 4 true 8 = ofInt 64 (s32 A) := by
  have hlt := u32_lt A
  apply eq_of_toNat_eq
  rw [foldExt_four, toNat_ofInt, s32_eq_bmod, Int.bmod]
  by_cases h : 2 ^ 31 ≤ u32 A
  · rw [if_pos ⟨rfl, h⟩, if_neg (by omega), toNat_low_or]
    omega
  · rw [if_neg (fun h' => h h'.2), if_pos (by omega), toNat_low]
    omega

lemma foldExt_unsigned (A : BitVec 64) : foldExt A 4 false 8 = ofInt 64 (u32 A) := by
  have hlt := u32_lt A
  apply eq_of_toNat_eq
  rw [foldExt_four, if_neg (by simp), toNat_low, toNat_ofInt]
  omega

/-! ## Division -/

/-- Where a division and a remainder trap. -/
def divTraps (A B : BitVec 64) (w : ℕ) (sg : Bool) : Prop :=
  ((w ≠ 4 ∧ w ≠ 8) ∨ uOpnd w B = 0) ∨ sg = true ∧
    sOpnd w A = (if w = 8 then intMin 64 else (intMin 32).signExtend 64) ∧ sOpnd w B = -1

instance (A B : BitVec 64) (w : ℕ) (sg : Bool) : Decidable (divTraps A B w sg) :=
  inferInstanceAs (Decidable (_ ∨ _))

section
variable (A B : BitVec 64) (w : ℕ) (sg : Bool) (pr : Pred)

lemma ite_divTraps (x y : BitVec 64) : (if (w ≠ 4 ∧ w ≠ 8) ∨ uOpnd w B = 0 then none else if sg then
      if sOpnd w A = (if w = 8 then intMin 64 else (intMin 32).signExtend 64) ∧ sOpnd w B = -1 then none else some (norm x w)
    else some (norm y w)) = if divTraps A B w sg then none else some (norm (if sg then x else y) w) := by
  by_cases h1 : (w ≠ 4 ∧ w ≠ 8) ∨ uOpnd w B = 0
  · rw [if_pos h1, if_pos (.inl h1)]
  · rw [if_neg h1]
    cases sg with
    | false =>
      have hn : ¬ divTraps A B w false := fun h => h.elim h1 fun h' => absurd h'.1 (by decide)
      rw [if_neg (by decide), if_neg hn]
      rfl
    | true =>
      rw [if_pos rfl, if_pos rfl]
      exact if_congr ⟨fun h => .inr ⟨rfl, h⟩, fun h => (h.resolve_left h1).2⟩ rfl rfl

lemma foldBin_div : foldBin .div A B w sg pr = if divTraps A B w sg then none else
    some (norm (if sg then (sOpnd w A).sdiv (sOpnd w B) else uOpnd w A / uOpnd w B) w) :=
  ite_divTraps ..

lemma foldBin_mod : foldBin .mod A B w sg pr = if divTraps A B w sg then none else
    some (norm (if sg then (sOpnd w A).srem (sOpnd w B) else uOpnd w A % uOpnd w B) w) :=
  ite_divTraps ..

end

lemma srem_eq_sub (x y : BitVec v) : x.srem y = x - x.sdiv y * y := by
  have hdiv : x.sdiv y = ofInt v (x.toInt.tdiv y.toInt) := by
    apply eq_of_toInt_eq
    rw [toInt_sdiv, toInt_ofInt]
  have hmod : x.srem y = ofInt v (x.toInt.tmod y.toInt) := by rw [← toInt_srem, ofInt_toInt]
  refine eq_sub_of_add_eq ?_
  calc x.srem y + x.sdiv y * y = ofInt v (x.toInt.tmod y.toInt + x.toInt.tdiv y.toInt * y.toInt) := by
        rw [ofInt_add, ofInt_mul, ofInt_toInt, hdiv, hmod]
    _ = x := by rw [Int.tmod_add_tdiv_mul, ofInt_toInt]

lemma umod_eq_sub (x y : BitVec v) : x % y = x - x / y * y := by
  refine eq_sub_of_add_eq (eq_of_toNat_eq ?_)
  have hle : x.toNat / y.toNat * y.toNat ≤ x.toNat := div_mul_le_self _ _
  rw [toNat_add, toNat_mul, toNat_udiv, toNat_umod, mod_eq_of_lt (hle.trans_lt x.isLt), mod_add_div', mod_eq_of_lt x.isLt]

lemma setWidth_sub_of_le (h : k ≤ v) (x y : BitVec v) : (x - y).setWidth k = x.setWidth k - y.setWidth k := by
  rw [sub_eq_add_neg, setWidth_add _ _ h, setWidth_neg_of_le h, ← sub_eq_add_neg]

lemma setWidth_norm (x : BitVec 64) (hw : w ≠ 8) : (norm x w).setWidth 32 = x.setWidth 32 := by
  rw [Ir.norm, if_neg hw, setWidth_signExtend]

lemma setWidth_uOpnd (x : BitVec 64) (hw : w ≠ 8) : (uOpnd w x).setWidth 32 = x.setWidth 32 := by
  rw [uOpnd, if_neg hw, setWidth_setWidth_of_le _ (by decide), setWidth_eq]

lemma setWidth_opnd {a : BitVec 64} (h : a = uOpnd 4 A ∨ a = sOpnd 4 A) : a.setWidth 32 = A.setWidth 32 := by
  rcases h with rfl | rfl
  · exact setWidth_uOpnd A (by decide)
  · exact setWidth_signExtend _

lemma norm_rem (hw : w = 4 ∨ w = 8) {a b q r : BitVec 64} (hr : r = a - q * b)
    (ha : a = uOpnd w A ∨ a = sOpnd w A) (hb : b = uOpnd w B ∨ b = sOpnd w B) :
    norm r w = norm (uOpnd w A - uOpnd w (norm (uOpnd w (norm q w) * uOpnd w B) w)) w := by
  rcases hw with rfl | rfl
  · have h4 : 4 ≠ 8 := by decide
    rw [norm_four, norm_four (uOpnd 4 A - _), hr]
    simp only [setWidth_sub_of_le, setWidth_mul, reduceLeDiff, setWidth_uOpnd _ h4,
      setWidth_norm _ h4, setWidth_opnd ha, setWidth_opnd hb]
  · simp only [uOpnd, sOpnd, norm, if_true, or_self_iff] at *
    rw [hr, ha, hb]

lemma foldBin_mod_of_div (hw : w = 4 ∨ w = 8) {Q : BitVec 64} {pr : Pred} (h : foldBin .div A B w sg pr = some Q)
    (pr' : Pred) : ∃ M R, foldBin .mul Q B w false .eq = some M ∧ foldBin .sub A M w false .eq = some R
    ∧ foldBin .mod A B w sg pr' = some R := by
  rw [foldBin_div] at h
  by_cases ht : divTraps A B w sg
  · rw [if_pos ht] at h
    cases h
  rw [if_neg ht] at h
  refine ⟨_, _, foldBin_mul .., foldBin_sub .., ?_⟩
  rw [foldBin_mod, if_neg ht, ← Option.some.inj h]
  congr 1
  cases sg
  · exact norm_rem hw (umod_eq_sub _ _) (.inl rfl) (.inl rfl)
  · exact norm_rem hw (srem_eq_sub _ _) (.inr rfl) (.inr rfl)

lemma foldBin_mod_eq_none {pr pr' : Pred} : foldBin .mod A B w sg pr = none ↔ foldBin .div A B w sg pr' = none := by
  rw [foldBin_div, foldBin_mod]
  split_ifs <;> simp

lemma uOpnd_eq_of_cut (h8 : w = 8 → x = y) (h : w ≠ 8 → x.setWidth 32 = y.setWidth 32) : uOpnd w x = uOpnd w y := by
  by_cases hw : w = 8
  · rw [h8 hw]
  · rw [uOpnd, uOpnd, if_neg hw, if_neg hw, h hw]

/-! ## Operations that commute with cutting to 32 bits -/

/-- An operation on the bits of two numbers, each bit of whose result depends on those no higher. -/
def Cuts (f : ∀ n, BitVec n → BitVec n → BitVec n) : Prop :=
  ∀ x y : BitVec 64, (f 64 x y).setWidth 32 = f 32 (x.setWidth 32) (y.setWidth 32)

lemma norm_eq_of_cut (h8 : w = 8 → x = y) (h : w ≠ 8 → x.setWidth 32 = y.setWidth 32) : norm x w = norm y w := by
  by_cases hw : w = 8
  · rw [h8 hw]
  · rw [Ir.norm, Ir.norm, if_neg hw, if_neg hw, h hw]

lemma uOpnd_norm (x : BitVec 64) : uOpnd w (norm x w) = uOpnd w x :=
  uOpnd_eq_of_cut (fun hw => by rw [Ir.norm, if_pos hw]) fun hw => setWidth_norm x hw

lemma toNat_uOpnd_mod (hw : w = 4 ∨ w = 8) (x : BitVec 64) : (uOpnd w x).toNat = x.toNat % 2 ^ (8 * w) := by
  rcases hw with rfl | rfl
  · rw [toNat_uOpnd, u32, toNat_setWidth]
  · exact (mod_eq_of_lt x.isLt).symm

section
variable {f g h : ∀ n, BitVec n → BitVec n → BitVec n} {w : ℕ}

lemma Cuts.opnds (hf : Cuts f) (A B : BitVec 64) : norm (f 64 (uOpnd w A) (uOpnd w B)) w = norm (f 64 A B) w := by
  refine norm_eq_of_cut (fun hw => by rw [uOpnd, uOpnd, if_pos hw, if_pos hw]) fun hw => ?_
  rw [hf, hf, setWidth_uOpnd A hw, setWidth_uOpnd B hw]

lemma Cuts.left (hf : Cuts f) (A B : BitVec 64) : norm (f 64 (norm A w) B) w = norm (f 64 A B) w := by
  refine norm_eq_of_cut (fun hw => by rw [Ir.norm, if_pos hw]) fun hw => ?_
  rw [hf, hf, setWidth_norm A hw]

lemma Cuts.right (hf : Cuts f) (A B : BitVec 64) : norm (f 64 A (norm B w)) w = norm (f 64 A B) w := by
  refine norm_eq_of_cut (fun hw => by rw [Ir.norm, if_pos hw]) fun hw => ?_
  rw [hf, hf, setWidth_norm B hw]

lemma norm_norm (x : BitVec 64) : norm (norm x w) w = norm x w :=
  norm_eq_of_cut (fun hw => by rw [Ir.norm, if_pos hw]) fun hw => setWidth_norm x hw

lemma Cuts.chain (hf : Cuts f) (hg : Cuts g) (hh : Cuts h) {x c1 c2 c : BitVec 64} (heq : g 64 (f 64 x c1) c2 = h 64 x c) :
    norm (g 64 (uOpnd w (norm (f 64 (uOpnd w x) (uOpnd w c1)) w)) (uOpnd w c2)) w =
      norm (h 64 (uOpnd w x) (uOpnd w (norm (norm c w) w))) w := by
  rw [hg.opnds, hg.left, hh.opnds, norm_norm, hh.right, ← heq, ← hg.left, hf.opnds, hg.left]

lemma Cuts.fold {outer inner op : Op} {c1 c2 c x : BitVec 64} {sg sg' : Bool} {pr pr' : Pred}
    (hf : Cuts f) (hg : Cuts g) (hh : Cuts h)
    (hin : ∀ A B, foldBin inner A B w sg' pr' = some (norm (f 64 (uOpnd w A) (uOpnd w B)) w))
    (hout : ∀ A B, foldBin outer A B w sg pr = some (norm (g 64 (uOpnd w A) (uOpnd w B)) w))
    (hop : ∀ A B, foldBin op A B w sg pr = some (norm (h 64 (uOpnd w A) (uOpnd w B)) w))
    (heq : g 64 (f 64 x c1) c2 = h 64 x c) :
    ∃ y r, foldBin inner x c1 w sg' pr' = some y ∧ foldBin outer y c2 w sg pr = some r ∧
      foldBin op x (norm (norm c w) w) w sg pr = some r :=
  ⟨_, _, hin _ _, hout _ _, (hop _ _).trans (congrArg some (hf.chain hg hh heq).symm)⟩

end

lemma cuts_add : Cuts fun _ => (· + ·) := fun _ _ => setWidth_add _ _ (by decide)

lemma cuts_mul : Cuts fun _ => (· * ·) := fun _ _ => setWidth_mul _ _ (by decide)

lemma cuts_and : Cuts fun _ => (· &&& ·) := fun _ _ => setWidth_and

lemma cuts_or : Cuts fun _ => (· ||| ·) := fun _ _ => setWidth_or

lemma cuts_xor : Cuts fun _ => (· ^^^ ·) := fun _ _ => setWidth_xor

lemma cuts_sub : Cuts fun _ => (· - ·) := fun _ _ => setWidth_sub_of_le (by decide) _ _

end EmbCC.Ir
