import EmbCC.Lib.Divisible
import EmbCC.Opt.DivMagic.Correct

/-!
# Divisibility by a constant

`pass_divtest`: a 32-bit remainder by a constant whose only reader asks whether it is zero becomes
a multiplication, a rotation and a comparison, or one `and` where the constant is a power of two.
What is left in the remainder's register is not the remainder, only zero when it is:
`divtest_exact` says so for every divisor and every dividend, and what the reader makes of it.
-/

namespace EmbCC.Opt.DivMagic

open Nat Ir BitVec

/-! ## The pass -/

/-- `use`: how often a register is read. -/
def useCount (fn : Func) (v : ℤ) : ℕ := ((fn.ins.flatMap eachRead).filter (· = v)).length

/-- `rdr`: the last instruction that reads a register, by its first four operands. -/
def lastReader (fn : Func) (v : ℤ) : Option Ins :=
  (fn.ins.filter fun i => v ∈ (eachRead i).take 4).getLast?

/-- Does the reader ask only whether the register is zero? -/
def testsZero (fn : Func) (v : ℤ) (r : Ins) : Bool :=
  ((r.op = .brz ∨ r.op = .brnz) ∧ r.w = 4 ∧ r.a = v) ∨
    (r.op = .cmp ∧ !r.flt ∧ r.w = 4 ∧ (r.pred = .eq ∨ r.pred = .ne) ∧ r.a = v ∧
      if r.immB then r.imm = 0 else getConst fn r.b = some 0)

/-- `(long)(int)C`, or `(long)(unsigned)C`. -/
def asInt32 (sg : Bool) (C : BitVec 64) : ℤ := if sg then s32 C else u32 C

/-- The size of the divisor, an `unsigned long`. -/
def testSize (D : ℤ) : BitVec 64 := BitVec.ofInt 64 (if D < 0 then -D else D) &&& 0xffffffff

/-- Is it a remainder that the pass takes, when there are `nv` registers? The constant and the
reader. -/
def divtest (fn : Func) (nv : ℕ) (src : Ins) : Option (BitVec 64 × Ins) :=
  if src.op = .mod ∧ !src.flt ∧ src.w = 4 ∧ src.dst ≥ fn.nvars ∧ src.dst < nv ∧
      (computeDefs fn).cnt src.dst = 1 ∧ useCount fn src.dst = 1 ∧ src.a ≥ 0 ∧ !src.immB then
    (getConst fn src.b).bind fun C =>
      (lastReader fn src.dst).bind fun r =>
        if testSize (asInt32 src.sign C) ≠ 0 ∧ testsZero fn src.dst r then some (C, r) else none
  else none

/-- The first bit that is set. -/
def lowBit (D : BitVec 64) : ℕ := ((List.range 32).find? fun K => (D >>> K) &&& 1 ≠ 0).getD 0

/-- Newton's iteration for the inverse modulo `2 ^ 32`. -/
def inverse32 (D0 : BitVec 64) : BitVec 64 := (fun P => P * (2 - D0 * P) &&& 0xffffffff)^[5] D0

/-- The offset of a signed test. -/
def testOffset (D0 : BitVec 64) (K : ℕ) : BitVec 64 :=
  0x7fffffff / D0 &&& ~~~((1 : BitVec 64) <<< K - 1)

/-- `dm_op` with a constant before it, as the pass emits them. -/
def testOpC (e : Buf) (o : Op) (a v : ℤ) : ℤ × Buf :=
  let (c, e) := dmConst e v 4
  dmOp e o a c 4 false 4

/-- The rotation to the right. -/
def testRotate (e : Buf) (t : ℤ) (K : ℕ) : ℤ × Buf :=
  if K ≠ 0 then
    let (lo, e) := testOpC e .shr t K
    let (hi, e) := testOpC e .shl t (32 - K)
    dmOp e .or lo hi 4 false 4
  else (t, e)

/-- The test of a divisor that is no power of two. -/
def testMul (e : Buf) (src : Ins) (D : BitVec 64) : Buf :=
  let K := lowBit D
  let D0 := D >>> K
  let A := if src.sign then testOffset D0 K else 0
  let Q := if src.sign then (2 * A) >>> K else 0xffffffff / D
  let (t, e) := testOpC e .mul src.a (toInt32 (inverse32 D0).toNat)
  let (t, e) := if src.sign then testOpC e .add t (toInt32 A.toNat) else (t, e)
  let (t, e) := testRotate e t K
  let (q, e) := dmConst e (toInt32 Q.toNat) 4
  { e with
    nb := e.nb ++ [{ op := .cmp, dst := src.dst, a := t, b := q, pred := .gt, w := 4, size := 4 }] }

/-- The test of a power of two. -/
def testMask (e : Buf) (src : Ins) (D : BitVec 64) : Buf :=
  let (mask, e) := dmConst e (toInt32 (D - 1).toNat) 4
  { e with nb := e.nb ++ [{ src with op := .and, sign := false, b := mask }] }

/-- One turn of the loop. -/
def testIns (fn : Func) (e : Buf) (src : Ins) : Buf :=
  match divtest fn e.nv src with
  | none => { e with nb := e.nb ++ [src] }
  | some (C, _) =>
    let D := testSize (asInt32 src.sign C)
    if D &&& (D - 1) = 0 then testMask e src D else testMul e src D

/-- `pass_divtest`; the switch `EMBCC_NO_DIVTEST` is `off`. -/
def passDivtest (off : Bool) (fn : Func) : Func :=
  if fn.ins = [] ∨ off then fn
  else
    let e := fn.ins.foldl (testIns fn) { nv := fn.nvregs }
    { fn with ins := e.nb, nvregs := e.nv }

lemma toNat_low32 (x : BitVec 64) : (x &&& 0xffffffff).toNat = x.toNat % 2 ^ 32 := by
  rw [toNat_and, show (0xffffffff : BitVec 64).toNat = 2 ^ 32 - 1 from rfl, and_two_pow_sub_one_eq_mod]

lemma toNat_testSize {D : ℤ} (h1 : -2 ^ 31 ≤ D) (h2 : D < 2 ^ 32) : (testSize D).toNat = D.natAbs := by
  rw [testSize, toNat_low32, toNat_ofInt]
  split_ifs <;> omega

lemma and_one_ne_zero_iff (x : BitVec 64) : x &&& 1 ≠ 0 ↔ x.toNat % 2 = 1 := by
  rw [Ne, ← toNat_inj, toNat_and, show (1 : BitVec 64).toNat = 2 ^ 1 - 1 from rfl, and_two_pow_sub_one_eq_mod]
  simp

/-! ## The arithmetic of the test -/

/-- The power of two in a divisor. -/
lemma lowBit_spec {D : BitVec 64} (h0 : D.toNat ≠ 0) (hlt : D.toNat < 2 ^ 32) :
    lowBit D < 32 ∧ D.toNat = (D >>> lowBit D).toNat * 2 ^ lowBit D ∧ (D >>> lowBit D).toNat % 2 = 1 := by
  have hdiv (K : ℕ) : (D >>> K).toNat = D.toNat / 2 ^ K := by
    rw [toNat_ushiftRight, shiftRight_eq_div_pow]
  obtain ⟨K, d, hodd, hD⟩ := exists_eq_two_pow_mul_odd h0
  have hd : D.toNat / 2 ^ K = d := by rw [hD, Nat.mul_div_cancel_left _ (Nat.two_pow_pos K)]
  have hK : K < 32 := by
    refine (Nat.pow_lt_pow_iff_right (by norm_num)).1 (lt_of_le_of_lt ?_ hlt)
    rw [hD]
    exact Nat.le_mul_of_pos_right _ hodd.pos
  have hfind : (List.range 32).find? (fun K => (D >>> K) &&& 1 ≠ 0) = some K := by
    simp only [and_one_ne_zero_iff, hdiv, List.find?_range_eq_some, decide_eq_true_eq, List.mem_range]
    refine ⟨by rw [hd]; exact Nat.odd_iff.1 hodd, hK, fun j hj => ?_⟩
    obtain ⟨m, rfl⟩ : ∃ m, K = j + 1 + m := ⟨K - j - 1, by omega⟩
    have : D.toNat / 2 ^ j = 2 * (2 ^ m * d) := by
      rw [hD]
      refine Nat.div_eq_of_eq_mul_right (Nat.two_pow_pos j) ?_
      ring
    simp only [Bool.not_eq_true', decide_eq_false_iff_not]
    omega
  have hlow : lowBit D = K := by rw [lowBit, hfind, Option.getD_some]
  rw [hlow, hdiv, hd]
  exact ⟨hK, by rw [hD, Nat.mul_comm], Nat.odd_iff.1 hodd⟩

lemma mul_modEq (x y : BitVec 64) : ((x * y).toNat : ℤ) ≡ x.toNat * y.toNat [ZMOD 2 ^ 64] := by
  rw [toNat_mul]
  push_cast
  exact Int.mod_modEq _ _

lemma sub_modEq (x y : BitVec 64) : ((x - y).toNat : ℤ) ≡ x.toNat - y.toNat [ZMOD 2 ^ 64] := by
  rw [toNat_sub, Int.ModEq]
  omega

lemma newton32 {D0 P : BitVec 64} {k l : ℕ} (hl : l ≤ 2 * k) (hl' : l ≤ 32) (h : (D0.toNat : ℤ) * P.toNat ≡ 1 [ZMOD 2 ^ k]) :
    (D0.toNat : ℤ) * (P * (2 - D0 * P) &&& 0xffffffff).toNat ≡ 1 [ZMOD 2 ^ l] := by
  have hstep : ((P * (2 - D0 * P) &&& 0xffffffff).toNat : ℤ) ≡ P.toNat * (2 - D0.toNat * P.toNat) [ZMOD 2 ^ l] := by
    have hlow : ((P * (2 - D0 * P) &&& 0xffffffff).toNat : ℤ) ≡ (P * (2 - D0 * P)).toNat [ZMOD 2 ^ l] := by
      rw [toNat_low32]
      push_cast
      exact (Int.mod_modEq _ _).of_dvd (pow_dvd_pow 2 hl')
    have hword : ((P * (2 - D0 * P)).toNat : ℤ) ≡ P.toNat * (2 - D0.toNat * P.toNat) [ZMOD 2 ^ 64] := by
      have hsub := (sub_modEq 2 (D0 * P)).trans ((mul_modEq D0 P).sub_left 2)
      exact (mul_modEq P (2 - D0 * P)).trans (hsub.mul_left _)
    exact hlow.trans (hword.of_dvd (pow_dvd_pow 2 (by omega)))
  exact (hstep.mul_left _).trans ((Divisible.newton h).of_dvd (pow_dvd_pow 2 hl))

lemma inverse32_spec {D0 : BitVec 64} (hodd : D0.toNat % 2 = 1) :
    (D0.toNat : ℤ) * (inverse32 D0).toNat ≡ 1 [ZMOD 2 ^ 32] := by
  have h3 := Divisible.odd_mul_self (d := D0.toNat) (by omega)
  have h6 := newton32 (l := 6) (by norm_num) (by norm_num) h3
  have h12 := newton32 (l := 12) (by norm_num) (by norm_num) h6
  have h24 := newton32 (l := 24) (by norm_num) (by norm_num) h12
  have h32 := newton32 (l := 32) (by norm_num) (by norm_num) h24
  exact newton32 (by norm_num) le_rfl h32

lemma toNat_testOffset (D0 : BitVec 64) {K : ℕ} (hK : K < 32) :
    (testOffset D0 K).toNat = (2 ^ 31 - 1) / D0.toNat / 2 ^ K * 2 ^ K := by
  have hbits : testOffset D0 K = (0x7fffffff / D0) >>> K <<< K := by
    ext j hj
    have hj' := getLsbD_lowMask (by omega : K < 64) j
    rw [getLsbD_eq_getElem hj] at hj'
    rw [testOffset, getElem_and, getElem_not, hj']
    by_cases hjK : j < K
    · simp [hjK]
    · simp [hjK, hj, show K + (j - K) = j by omega]
  have hle : (2 ^ 31 - 1) / D0.toNat / 2 ^ K * 2 ^ K ≤ 2 ^ 31 - 1 :=
    (Nat.div_mul_le_self _ _).trans (Nat.div_le_self _ _)
  rw [hbits, toNat_shiftLeft, toNat_ushiftRight, toNat_udiv, Nat.shiftLeft_eq, Nat.shiftRight_eq_div_pow, show
    (0x7fffffff : BitVec 64).toNat = 2 ^ 31 - 1 from rfl, Nat.mod_eq_of_lt (by omega)]

lemma word_toInt32 (z : ℤ) : word (toInt32 z) = word z := word_congr (toInt32_emod z)

section
variable {temps0 : ℤ → Option Val} {e0 e : Buf} {a t : ℤ} {A R T X : BitVec 64}

lemma testOpC_gives (ha : Holds temps0 e0 e a A) {o : Op} (ho : isBinary o) {v : ℤ}
    (hR : foldBin o A (word v) 4 false .eq = some R) : Gives temps0 e0 e (testOpC e o a v) R := by
  have hc := dmConst_gives ha v 4
  rw [norm_ofInt] at hc
  exact hc.trans (dmOp_gives (hc.keeps ha) hc.holds ho (.inl rfl) hR)

lemma rotr_eq_or {y K : ℕ} (hy : y < 2 ^ 32) (hK : K < 32) :
    y / 2 ^ K ||| y * 2 ^ (32 - K) % 2 ^ 32 = Divisible.rotr 32 K y := by
  have hsplit : 2 ^ 32 = 2 ^ K * 2 ^ (32 - K) := by rw [← pow_add, Nat.add_sub_cancel' hK.le]
  have hlo : y / 2 ^ K < 2 ^ (32 - K) := by
    rw [Nat.div_lt_iff_lt_mul (Nat.two_pow_pos K), Nat.mul_comm, ← hsplit]
    exact hy
  rw [hsplit, mul_mod_mul_right, Nat.or_comm, Nat.mul_comm, ← two_pow_add_eq_or_of_lt hlo, Divisible.rotr]
  ring

lemma testRotate_gives (h : Holds temps0 e0 e t T) {K : ℕ} (hK : K < 32) :
    ∃ R, Gives temps0 e0 e (testRotate e t K) R ∧ u32 R = Divisible.rotr 32 K (u32 T) := by
  have hT := u32_lt T
  rw [testRotate]
  split_ifs with h0
  · have hlo : Gives temps0 e0 e (testOpC e .shr t K) (word (u32 T / 2 ^ K : ℕ)) := by
      refine testOpC_gives h rfl ?_
      rw [foldBin_shru4, u32_word_of_lt (by omega), mod_eq_of_lt hK]
    have hhi : Gives temps0 e0 (testOpC e .shr t K).2 (testOpC (testOpC e .shr t K).2 .shl t (32 - K))
        (word (u32 T * 2 ^ (32 - K) : ℕ)) := by
      refine testOpC_gives (hlo.keeps h) rfl ?_
      rw [foldBin_shl4, show (32 - K : ℤ) = ((32 - K : ℕ) : ℤ) by omega, u32_word_of_lt (by omega), mod_eq_of_lt (by omega)]
    refine ⟨_, (hlo.trans hhi).trans (dmOp_gives (hhi.keeps hlo.holds) hhi.holds rfl (.inl rfl) (foldBin_or4 ..)), ?_⟩
    have hdiv : u32 T / 2 ^ K ≤ u32 T := Nat.div_le_self _ _
    have hshr : u32 (word (u32 T / 2 ^ K : ℕ)) = u32 T / 2 ^ K := u32_word_of_lt (by omega)
    have hshl : u32 (word (u32 T * 2 ^ (32 - K) : ℕ)) = u32 T * 2 ^ (32 - K) % 2 ^ 32 := by
      rw [u32_word]
      omega
    rw [hshr, hshl, rotr_eq_or hT hK, u32_word_of_lt]
    rw [← rotr_eq_or hT hK]
    exact or_lt_two_pow (by omega) (mod_lt _ (by norm_num))
  · obtain rfl : K = 0 := not_not.1 h0
    exact ⟨T, .of_holds h, by simp [Divisible.rotr, mod_one]⟩

lemma asInt32_emod (sg : Bool) (x : BitVec 64) : asInt32 sg x % 2 ^ 32 = u32 x := by
  have := u32_lt x
  cases sg
  · simp only [asInt32, Bool.false_eq_true, if_false]
    omega
  · exact s32_emod x

lemma le_asInt32 (sg : Bool) (x : BitVec 64) : -2 ^ 31 ≤ asInt32 sg x := by
  have h1 := le_s32 x
  unfold asInt32
  split_ifs <;> omega

lemma asInt32_lt (sg : Bool) (x : BitVec 64) : asInt32 sg x < 2 ^ 32 := by
  have h1 := s32_lt x
  have h2 := u32_lt x
  unfold asInt32
  split_ifs <;> omega

lemma testSum_gives (h : Holds temps0 e0 e a X) (sg : Bool) (P A : ℕ) (hA : sg = false → A = 0) :
    let m := testOpC e .mul a (toInt32 P)
    ∃ R, Gives temps0 e0 e (if sg then testOpC m.2 .add m.1 (toInt32 A) else m) R ∧
      (u32 R : ℤ) ≡ asInt32 sg X * P + A [ZMOD 2 ^ 32] := by
  intro m
  have hm : Gives temps0 e0 e m (word (s32 X * s32 (word P))) := by
    refine testOpC_gives h rfl ?_
    rw [word_toInt32, foldBin_mul4]
  have hprod : (u32 (word (s32 X * s32 (word P))) : ℤ) ≡ asInt32 sg X * P [ZMOD 2 ^ 32] := by
    have hX : s32 X ≡ asInt32 sg X [ZMOD 2 ^ 32] := (s32_emod X).trans (asInt32_emod sg X).symm
    have hP : s32 (word P) ≡ P [ZMOD 2 ^ 32] := by
      rw [Int.ModEq, s32_emod, u32_word]
      omega
    refine Int.ModEq.trans ?_ (hX.mul hP)
    rw [u32_word, Int.ModEq]
    omega
  cases sg with
  | false => exact ⟨_, hm, by simpa [hA rfl] using hprod⟩
  | true =>
    refine ⟨_, hm.trans (testOpC_gives hm.holds rfl (by rw [word_toInt32, foldBin_add4])), ?_⟩
    refine Int.ModEq.trans ?_ (hprod.add_right A)
    have h1 := s32_emod (word (s32 X * s32 (word P)))
    have h2 := s32_emod (word A)
    rw [u32_word A] at h2
    rw [u32_word (s32 _ + _), Int.ModEq]
    omega

/-- The rotated product is small exactly for the multiples of the divisor. -/
lemma rotr_test {sg : Bool} {D : BitVec 64} (hpow : ∀ k, D.toNat ≠ 2 ^ k) (h0 : D.toNat ≠ 0) (hlt : D.toNat < 2 ^ 32)
    {A Q : BitVec 64} (hA : A = if sg then testOffset (D >>> lowBit D) (lowBit D) else 0)
    (hQ : Q = if sg then (2 * A) >>> lowBit D else 0xffffffff / D) {z : ℕ} (hz : z < 2 ^ 32)
    (hx : (z : ℤ) ≡ asInt32 sg X * (inverse32 (D >>> lowBit D)).toNat + A.toNat [ZMOD 2 ^ 32]) : Q.toNat < 2 ^ 32
    ∧ (Divisible.rotr 32 (lowBit D) z ≤ Q.toNat ↔ (D.toNat : ℤ) ∣ asInt32 sg X) := by
  obtain ⟨hK, hD, hodd⟩ := lowBit_spec h0 hlt
  have hinv := inverse32_spec hodd
  generalize hd : (D >>> lowBit D).toNat = d at hD hodd hinv
  have hd3 : 3 ≤ d := by
    have : d ≠ 1 := by
      rintro rfl
      exact hpow _ (by rw [hD, Nat.one_mul])
    omega
  cases sg with
  | true =>
    rw [if_pos rfl] at hA hQ
    have hA' := toNat_testOffset (D >>> lowBit D) hK
    rw [← hA, hd] at hA'
    have hle : A.toNat < 2 ^ 31 := by
      have : (2 ^ 31 - 1) / d / 2 ^ lowBit D * 2 ^ lowBit D ≤ 2 ^ 31 - 1 :=
        (div_mul_le_self _ _).trans (Nat.div_le_self _ _)
      omega
    have hQ' : Q.toNat = 2 * A.toNat / 2 ^ lowBit D := by
      rw [hQ, toNat_ushiftRight, shiftRight_eq_div_pow, toNat_mul,
        show (2 : BitVec 64).toNat = 2 from rfl, mod_eq_of_lt (by omega)]
    have hQle : 2 * A.toNat / 2 ^ lowBit D ≤ 2 * A.toNat := Nat.div_le_self _ _
    rw [hQ', hD]
    exact ⟨by omega, Divisible.dvd_iff_rotr_signed hinv hd3 hodd hK.le (by norm_num) ⟨le_s32 X, s32_lt X⟩ hA' hz hx⟩
  | false =>
    rw [if_neg (by decide)] at hQ
    have hQ' : Q.toNat = (2 ^ 32 - 1) / (d * 2 ^ lowBit D) := by
      rw [hQ, toNat_udiv, ← hD]
      rfl
    have hQle : (2 ^ 32 - 1) / (d * 2 ^ lowBit D) ≤ 2 ^ 32 - 1 := Nat.div_le_self _ _
    have hx' : z ≡ (u32 X : ℤ) * (inverse32 (D >>> lowBit D)).toNat [ZMOD 2 ^ 32] := by
      simpa [hA, asInt32] using hx
    rw [hQ', hD]
    refine ⟨by omega, ?_⟩
    rw [Divisible.dvd_iff_rotr hinv (by omega) hK.le (u32_lt X) hz hx']
    exact Int.natCast_dvd_natCast.symm

/-! ## The emitted code -/

/-- Code after `e` that leaves zero in `src.dst` when `p`, and another number otherwise. -/
def Leaves (temps : ℤ → Option Val) (e e' : Buf) (src : Ins) (p : Prop) : Prop :=
  ∃ code temps' R, e'.nb = e.nb ++ code ∧ execSeq temps code = some temps' ∧
    temps' src.dst = some (ofLong (word R)) ∧ (∀ t < (e.nv : ℤ), t ≠ src.dst → temps' t = temps t) ∧
    (u32 (word R) = 0 ↔ p)

section
variable {src : Ins} {D : BitVec 64} {temps : ℤ → Option Val} (hdst : 0 ≤ src.dst) (ha : src.a < e.nv)
  (hx : temps src.a = some (ofLong X)) (h0 : D.toNat ≠ 0) (hlt : D.toNat < 2 ^ 32)
include hdst ha hx h0 hlt

/-- The test by multiplication is right. -/
lemma testMul_exact (hpow : ∀ k, D.toNat ≠ 2 ^ k) :
    Leaves temps e (testMul e src D) src ((D.toNat : ℤ) ∣ asInt32 src.sign X) := by
  have hX : Holds temps e e src.a X := ⟨temps, Ran.refl temps e, ha, hx⟩
  set A := if src.sign then testOffset (D >>> lowBit D) (lowBit D) else 0 with hA
  set Q := if src.sign then (2 * A) >>> lowBit D else 0xffffffff / D with hQ
  obtain ⟨S, hS, hmod⟩ := testSum_gives hX src.sign (inverse32 (D >>> lowBit D)).toNat A.toNat (fun h => by simp [hA, h])
  obtain ⟨T, hT, hrot⟩ := testRotate_gives hS.holds (lowBit_spec h0 hlt).1
  have hq := dmConst_gives hT.holds (toInt32 Q.toNat) 4
  obtain ⟨temps', hran, ht, hqv⟩ := (hq.keeps hT.holds).both hq.holds
  obtain ⟨hQlt, hiff⟩ := rotr_test hpow h0 hlt hA hQ (u32_lt S) hmod
  obtain ⟨code, temps'', hnb, hexec, hd, hkeep⟩ := hran.finish hdst
    (execIns_binary (i := { op := .cmp, dst := src.dst, a := _, b := _, pred := .gt, w := 4, size := 4 })
      rfl (.inl rfl) rfl rfl ht hqv (foldBin_gtu4 ..))
  refine ⟨code, temps'', _, hnb, hexec, hd, hkeep, ?_⟩
  rw [norm_ofInt, u32_word_toInt32 hQlt, hrot, ← hiff]
  split_ifs with hlt'
  · exact ⟨fun h => absurd h (by decide), fun h => absurd h (not_le.2 hlt')⟩
  · exact ⟨fun _ => not_lt.1 hlt', fun _ => rfl⟩

omit hdst ha hx h0 in
lemma two_pow_dvd_asInt32 {k : ℕ} (hpow : D.toNat = 2 ^ k) (sg : Bool) : (D.toNat : ℤ) ∣ asInt32 sg X ↔ 2 ^ k ∣ u32 X := by
  have hk : k ≤ 32 := (Nat.pow_le_pow_iff_right (a := 2) (by norm_num)).1 (hpow ▸ hlt.le)
  have hmod : asInt32 sg X ≡ u32 X [ZMOD 2 ^ k] := by
    have : asInt32 sg X ≡ u32 X [ZMOD 2 ^ 32] := by
      have := u32_lt X
      rw [Int.ModEq, asInt32_emod]
      omega
    exact this.of_dvd (pow_dvd_pow 2 hk)
  rw [hpow, Nat.cast_pow, Nat.cast_ofNat, hmod.dvd_iff]
  exact_mod_cast Iff.rfl

/-- The test by a mask is right for a power of two. -/
lemma testMask_exact (hw : src.w = 4) (hflt : src.flt = false) (himm : src.immB = false) {k : ℕ} (hpow : D.toNat = 2 ^ k) :
    Leaves temps e (testMask e src D) src ((D.toNat : ℤ) ∣ asInt32 src.sign X) := by
  have hX : Holds temps e e src.a X := ⟨temps, Ran.refl temps e, ha, hx⟩
  have hm := dmConst_gives hX (toInt32 (D - 1).toNat) 4
  obtain ⟨temps', hran, hxv, hmv⟩ := (hm.keeps hX).both hm.holds
  obtain ⟨code, temps'', hnb, hexec, hd, hkeep⟩ := hran.finish hdst
    (execIns_binary (i := { src with op := .and, sign := false, b := _ })
      rfl (.inl hw) hflt himm hxv hmv (by rw [hw]; exact foldBin_and4 ..))
  refine ⟨code, temps'', _, hnb, hexec, hd, hkeep, ?_⟩
  have hsub : (D - 1).toNat = 2 ^ k - 1 := by
    rw [toNat_sub_of_le, hpow]
    · rfl
    · rw [le_def]
      exact Nat.one_le_iff_ne_zero.2 h0
  rw [norm_ofInt, hsub, u32_word_toInt32 (by omega), and_two_pow_sub_one_eq_mod,
    u32_word_of_lt (by omega), two_pow_dvd_asInt32 hlt hpow, dvd_iff_mod_eq_zero]

end
end

/-! ## The test that reads it -/

/-- What the reader of the register makes of the value `v` there: it asks whether `p`, or
whether not. A comparison is with the zero of its instruction or of its other register. -/
structure Tells (r : Ins) (v : Val) (p : Prop) : Prop where
  brz : r.op = .brz → (brTaken r v ↔ p)
  brnz : r.op = .brnz → (brTaken r v ↔ ¬ p)
  eq : r.op = .cmp → r.pred = .eq → ∃ b : Bool, (b ↔ p) ∧
    evalCore r (if r.immB then [v] else [v, ofLong 0]) = some (ofLong (if b then 1 else 0))
  ne : r.op = .cmp → r.pred = .ne → ∃ b : Bool, (b ↔ ¬ p) ∧
    evalCore r (if r.immB then [v] else [v, ofLong 0]) = some (ofLong (if b then 1 else 0))

lemma isZero_four (x : BitVec 64) : isZero 4 (ofLong x) ↔ u32 x = 0 := by
  rw [isZero, beq_iff_eq, ofLong, u32, toNat_setWidth, toNat_setWidth]
  omega

lemma evalCore_zero {r : Ins} (hop : r.op = .cmp) (hw : r.w = 4) (himm : r.immB = true → r.imm = 0) (x : BitVec 64) :
    evalCore r (if r.immB then [ofLong x] else [ofLong x, ofLong 0]) = (foldBin .cmp x 0 4 r.sign r.pred).map ofLong := by
  cases hb : r.immB
  · simp [evalCore, hop, hw]
  · simp [evalCore, hop, hw, himm hb]

lemma tells_of_testsZero {fn : Func} {v : ℤ} {r : Ins} (hr : testsZero fn v r) {x : BitVec 64}
    {p : Prop} (hp : u32 x = 0 ↔ p) : Tells r (ofLong x) p := by
  simp only [testsZero, decide_eq_true_eq] at hr
  rcases hr with ⟨hop, hw, -⟩ | ⟨hop, -, hw, -, -, hzero⟩
  · have hz : isZero r.w (ofLong x) ↔ p := by rw [hw, isZero_four, hp]
    refine ⟨fun h => ?_, fun h => ?_, fun h => ?_, fun h => ?_⟩
    · simp [brTaken, h, hz]
    · rw [brTaken, h, ← hz, show (Op.brnz == Op.brz) = false from rfl]
      cases isZero r.w (ofLong x) <;> decide
    all_goals simp [h] at hop
  · have himm : r.immB = true → r.imm = 0 := fun h => by simpa [h] using hzero
    have h0 : u32 0 = 0 := rfl
    refine ⟨fun h => ?_, fun h => ?_, fun h heq => ?_, fun h hne => ?_⟩
    · simp [h] at hop
    · simp [h] at hop
    · refine ⟨decide (u32 x = 0), by simp [hp], ?_⟩
      rw [evalCore_zero h hw himm, heq, foldBin_eq4, h0]
      by_cases hx : u32 x = 0 <;> simp [hx] <;> rfl
    · refine ⟨decide (u32 x ≠ 0), by simp [hp], ?_⟩
      rw [evalCore_zero h hw himm, hne, foldBin_ne4, h0]
      by_cases hx : u32 x = 0 <;> simp [hx] <;> rfl

lemma isPowerOfTwo_iff {D : BitVec 64} (h0 : D.toNat ≠ 0) : D &&& (D - 1) = 0 ↔ ∃ k, D.toNat = 2 ^ k := by
  have hsub : (D - 1).toNat = D.toNat - 1 := by
    rw [toNat_sub_of_le]
    · rfl
    · rw [le_def]
      exact Nat.one_le_iff_ne_zero.2 h0
  rw [← toNat_inj, toNat_and, hsub]
  exact and_sub_one_eq_zero_iff_isPowerOfTwo h0

section
variable {fn : Func} {e : Buf} {src r : Ins} {C : BitVec 64} {temps : ℤ → Option Val} {X : BitVec 64}

lemma testIns_leaves (h : divtest fn e.nv src = some (C, r)) (ha : src.a < e.nv) (hx : temps src.a = some (ofLong X)) :
    Leaves temps e (testIns fn e src) src (asInt32 src.sign C ∣ asInt32 src.sign X) ∧ testsZero fn src.dst r := by
  have hins : testIns fn e src =
      let D := testSize (asInt32 src.sign C)
      if D &&& (D - 1) = 0 then testMask e src D else testMul e src D := by
    rw [testIns, h]
  simp only [divtest] at h
  split_ifs at h with hok
  obtain ⟨-, hflt, hw, hge, -, -, -, -, himm⟩ := hok
  obtain ⟨C', -, h⟩ := Option.bind_eq_some_iff.1 h
  obtain ⟨r', -, h⟩ := Option.bind_eq_some_iff.1 h
  split_ifs at h with ht
  obtain ⟨rfl, rfl⟩ := Prod.mk.inj (Option.some.inj h)
  obtain ⟨hne, htest⟩ := ht
  have hsize := toNat_testSize (le_asInt32 src.sign C') (asInt32_lt src.sign C')
  have hle := le_asInt32 src.sign C'
  have hlt := asInt32_lt src.sign C'
  set D := testSize (asInt32 src.sign C')
  have h0 : D.toNat ≠ 0 := fun h0 => hne (eq_of_toNat_eq h0)
  refine ⟨?_, htest⟩
  rw [hins, ← Int.natAbs_dvd, ← hsize]
  simp only
  split_ifs with hpow
  · obtain ⟨k, hk⟩ := (isPowerOfTwo_iff h0).1 hpow
    exact testMask_exact (by omega) ha hx h0 (by omega) hw (by simpa using hflt) (by simpa using himm) hk
  · refine testMul_exact (by omega) ha hx h0 (by omega) fun k hk => ?_
    exact hpow ((isPowerOfTwo_iff h0).2 ⟨k, hk⟩)

lemma le_testIns (fn : Func) (e : Buf) (src : Ins) : e.nv ≤ (testIns fn e src).nv := by
  simp only [testIns]
  split
  · exact le_rfl
  · simp only [testMask, testMul, testRotate, testOpC, dmOp, dmConst]
    split_ifs <;> simp only [] <;> omega

/-- After the pass `code` stands for `src`: it is `src`, or leaves a value of which its reader `r` makes the
same, and no other register of the function is changed. -/
def TellsFor (fn : Func) (src : Ins) (code : List Ins) : Prop :=
  code = [src] ∨ ∃ nv C r, divtest fn nv src = some (C, r) ∧ ∀ temps X, temps src.a = some (ofLong X) →
    ∃ temps' v, execSeq temps code = some temps' ∧ temps' src.dst = some v ∧
      (∀ t < (fn.nvregs : ℤ), t ≠ src.dst → temps' t = temps t) ∧
      Tells r v (asInt32 src.sign C ∣ asInt32 src.sign X)

lemma testIns_tellsFor (ha : src.a < fn.nvregs) (he : fn.nvregs ≤ e.nv) :
    ∃ code, (testIns fn e src).nb = e.nb ++ code ∧ TellsFor fn src code := by
  cases h : divtest fn e.nv src with
  | none => exact ⟨[src], by simp only [testIns, h], .inl rfl⟩
  | some p =>
    have hleaves := fun temps X => @testIns_leaves fn e src p.2 p.1 temps X h (by omega)
    obtain ⟨⟨code, -, -, hnb, -⟩, htest⟩ := hleaves (fun _ => some (ofLong 0)) 0 rfl
    refine ⟨code, hnb, .inr ⟨e.nv, p.1, p.2, h, fun temps X hx => ?_⟩⟩
    obtain ⟨⟨code', temps', R, hnb', hexec, hdst, hkeep, hzero⟩, -⟩ := hleaves temps X hx
    obtain rfl := List.append_cancel_left (hnb.symm.trans hnb')
    exact ⟨temps', _, hexec, hdst, fun t ht => hkeep t (by omega), tells_of_testsZero htest hzero⟩

/-- The code after the pass is in order what stands for each instruction. -/
theorem passDivtest_tellsFor (hr : ∀ src ∈ fn.ins, src.a < fn.nvregs) (off : Bool) :
    ∃ cs, (passDivtest off fn).ins = cs.flatten ∧ List.Forall₂ (TellsFor fn) fn.ins cs := by
  rw [passDivtest]
  split_ifs with hoff
  · exact ⟨fn.ins.map ([·]), (List.flatMap_singleton' _).symm,
      List.forall₂_map_right_iff.2 (List.forall₂_same.2 fun _ _ => .inl rfl)⟩
  · obtain ⟨e, cs, hfold, hnb, hall⟩ := @foldlM_pieces (fun e i => some (testIns fn e i)) (TellsFor fn) fn.nvregs fn.ins
      { nv := fn.nvregs } (fun src hsrc e he => by
        obtain ⟨code, hnb, ht⟩ := testIns_tellsFor (hr src hsrc) he
        exact ⟨_, code, rfl, hnb, he.trans (le_testIns ..), ht⟩) le_rfl
    obtain rfl := Option.some.inj ((List.foldlM_pure ..).symm.trans hfold)
    exact ⟨cs, by simpa using hnb, hall⟩

end

/-- In place of a remainder by a constant that is tested against zero, whatever the constant and the
dividend: the code leaves a value that the test finds zero when the constant divides the
dividend, and only then. No other register there was before is changed. -/
theorem divtest_exact {fn : Func} {e : Buf} {src r : Ins} {C : BitVec 64}
    (h : divtest fn e.nv src = some (C, r)) {temps : ℤ → Option Val} {X : BitVec 64}
    (ha : src.a < e.nv) (hx : temps src.a = some (ofLong X)) :
    ∃ code temps' v, (testIns fn e src).nb = e.nb ++ code ∧ execSeq temps code = some temps' ∧
      temps' src.dst = some v ∧ (∀ t < (e.nv : ℤ), t ≠ src.dst → temps' t = temps t) ∧
      Tells r v (asInt32 src.sign C ∣ asInt32 src.sign X) := by
  obtain ⟨⟨code, temps', R, hnb, hexec, hdst, hkeep, hzero⟩, htest⟩ := testIns_leaves h ha hx
  exact ⟨code, temps', _, hnb, hexec, hdst, hkeep, tells_of_testsZero htest hzero⟩

/-- `r1 = 12; r2 = r0 % r1; if r2 == 0 goto 0`. -/
def remTwelve : Func where
  ins := [{ op := .const, dst := 1, w := 4, imm := 12 },
    { op := .mod, dst := 2, a := 0, b := 1, w := 4, sign := true }, { op := .brz, a := 2, w := 4 }]
  nvregs := 3

/-- The least dividend, which 12 does not divide. -/
theorem divtest_exact_remTwelve : ∃ code temps' v,
    (testIns remTwelve ⟨[], 3⟩ remTwelve.ins[1]).nb = [] ++ code ∧
      execSeq (fun _ => some (ofLong (word (-2 ^ 31)))) code = some temps' ∧ temps' 2 = some v ∧
      (∀ t < ((3 : ℕ) : ℤ), t ≠ 2 → temps' t = some (ofLong (word (-2 ^ 31)))) ∧
      Tells remTwelve.ins[2] v (asInt32 true 12 ∣ asInt32 true (word (-2 ^ 31))) :=
  @divtest_exact remTwelve ⟨[], 3⟩ _ _ _ (by decide) _ _ (by decide) rfl

end EmbCC.Opt.DivMagic
