import EmbCC.Lib.Rounding
import EmbCC.LdFloat.Big

/-!
# The formats and `round_to`

The floating formats of `ldfloat.c`, its values, and the one place where it
rounds. A value is a sign, a significand and an exponent, exact and of any
precision; `roundTo` brings one into a format.

`roundTo_roundsTo` says that the result is the value of the format nearest to
the exact one, ties to even, with subnormals, the carry into the next binade
and overflow to infinity.
-/

namespace EmbCC.LdFloat

open Rounding Bool

/-- `enum ldf_fmt`. -/
inductive LdfFmt
  | x87 | quad | double | float | half | bf16
deriving DecidableEq, Repr

/-- `struct fmtinfo`. -/
structure FmtInfo where
  p : ℤ
  emin : ℤ
  emax : ℤ
  bias : ℤ

def finfo : LdfFmt → FmtInfo
  | .x87 => ⟨64, -16382, 16383, 16383⟩
  | .quad => ⟨113, -16382, 16383, 16383⟩
  | .double => ⟨53, -1022, 1023, 1023⟩
  | .half => ⟨11, -14, 15, 15⟩
  | .bf16 => ⟨8, -126, 127, 127⟩
  | .float => ⟨24, -126, 127, 127⟩

/-- The `kind` of a value: `LDF_FINITE`, `LDF_INF` or `LDF_NAN`. -/
inductive Kind
  | finite | inf | nan
deriving DecidableEq, Repr

/-- `struct ldf`: when finite, the value is `m * 2 ^ e` with the sign `neg`. -/
structure Ldf where
  kind : Kind
  neg : Bool
  m : Big
  e : ℤ
deriving DecidableEq

def mk (kind : Kind) (neg : Bool) : Ldf := ⟨kind, neg, bigNew, 0⟩

/-- The part of `round_to` that drops bits: the significand cut at the quantum `qe`, rounded
up on the half bit, and shifted once more when that carried into bit `p`. -/
def roundShift (m : Big) (shift qe : ℤ) (sticky : Bool) (p : ℤ) : Big × ℤ :=
  let (t, rest) := bigShr m (shift - 1) sticky
  let half := bigBit t 0
  let mm := (bigShr t 1 false).1
  let mm := if half && (rest || bigBit mm 0) then bigAdd mm (bigFromU64 1) else mm
  if bigBitlen mm > p then ((bigShr mm 1 false).1, qe + 1) else (mm, qe)

/-- The quantum exponent of `round_to`: `p` bits are kept, but none finer than subnormal. -/
def quantumExp (m : Big) (e : ℤ) (fi : FmtInfo) : ℤ :=
  let qe := e + bigBitlen m - fi.p
  let lowq := fi.emin - (fi.p - 1)
  if qe < lowq then lowq else qe

/-- The significand and exponent that `round_to` keeps, before it looks for overflow. -/
def roundPair (m : Big) (e : ℤ) (sticky : Bool) (fi : FmtInfo) : Big × ℤ :=
  let qe := quantumExp m e fi
  let shift := qe - e
  if shift > 0 then roundShift m shift qe sticky fi.p else (m, e)

def roundTo (m : Big) (e : ℤ) (sticky neg : Bool) (fmt : LdfFmt) : Ldf :=
  let fi := finfo fmt
  if bigIsZero m then mk .finite neg
  else
    let (mm, e2) := roundPair m e sticky fi
    if !bigIsZero mm && e2 + bigBitlen mm - 1 > fi.emax then mk .inf neg
    else ⟨.finite, neg, mm, e2⟩

def ldfRound (a : Ldf) (fmt : LdfFmt) : Ldf :=
  if a.kind ≠ .finite then mk a.kind a.neg else roundTo a.m a.e false a.neg fmt

/-- The sign as a factor. -/
def signOf (neg : Bool) : ℚ := if neg then -1 else 1

/-- The rational number a finite value stands for. -/
def Ldf.val (v : Ldf) : ℚ := signOf v.neg * (v.m.val * 2 ^ v.e)

/-- The precision of a format as a natural number. -/
def LdfFmt.prec (fmt : LdfFmt) : ℕ := (finfo fmt).p.toNat

/-- The values of a format, before its largest exponent is looked at. -/
def LdfFmt.format (fmt : LdfFmt) : Rounding.Fmt where
  p := fmt.prec
  lowq := (finfo fmt).emin - ((finfo fmt).p - 1)
  two_le := by cases fmt <;> decide

/-- `r` is `x` correctly rounded: the nearest value of the format, ties to even, or the
infinity of the sign of `x` when that value has an exponent above the largest. -/
structure RoundsTo (fmt : LdfFmt) (x : ℚ) (r : Ldf) : Prop where
  nearest : ∃ v : ℚ, fmt.format.NearestEven x v ∧
    if |v| < 2 ^ ((finfo fmt).emax + 1) then r.kind = .finite ∧ r.val = v else r.kind = .inf
  sign : x ≠ 0 → (r.neg = true ↔ x < 0)

/-- Exponent and size are small enough that the shift counts of `round_to` fit an `int`. -/
def InRange (m : Big) (e : ℤ) : Prop := bigBitlen m ≤ 2 ^ 35 ∧ |e| ≤ 2 ^ 35

lemma prec_cast (fmt : LdfFmt) : (fmt.prec : ℤ) = (finfo fmt).p := by cases fmt <;> rfl

lemma bigBit_zero (a : Big) : bigBit a 0 = true ↔ a.val % 2 = 1 := by
  have h := bigBit_eq a 0
  rw [Nat.cast_zero] at h
  rw [h, Nat.testBit_zero, decide_eq_true_eq]

lemma bigShr_one_val (a : Big) (sticky : Bool) : (bigShr a 1 sticky).1.val = a.val / 2 := by
  have h := bigShr_val a (k := 1) (by norm_num) sticky
  rwa [Nat.cast_one, pow_one] at h

/-- Dropping bits rounds half to even, with what was dropped before in the sticky bit. -/
lemma roundShift_spec (m : Big) {s : ℕ} (hs : s < 2 ^ 36) (qe : ℤ) (sticky : Bool) {p : ℕ} (hp0 : 0 < p)
    (hp : m.val / 2 ^ (s + 1) < 2 ^ p) {δ : ℚ} (h0 : 0 ≤ δ) (h1 : δ < 1) (hδ : sticky = true ↔ 0 < δ) :
    ∃ r : ℕ, Fmt.HalfEven ((m.val + δ) / 2 ^ (s + 1)) (m.val / 2 ^ (s + 1)) r ∧
      (((roundShift m (s + 1) qe sticky p).1.val : ℚ) * 2 ^ (roundShift m (s + 1) qe sticky p).2 = r * 2 ^ qe) ∧
      (roundShift m (s + 1) qe sticky p).1.val < 2 ^ p ∧
      qe ≤ (roundShift m (s + 1) qe sticky p).2 ∧ (roundShift m (s + 1) qe sticky p).2 ≤ qe + 1 := by
  have ht := bigShr_val m hs sticky
  have hrest := bigShr_sticky m s sticky
  have hmm := bigShr_one_val (bigShr m s sticky).1 false
  rw [ht, Nat.div_div_eq_div_mul, ← pow_succ] at hmm
  set mm := (bigShr (bigShr m s sticky).1 1 false).1 with hmm_def
  set up := (bigBit (bigShr m s sticky).1 0 && ((bigShr m s sticky).2 || bigBit mm 0)) with hup_def
  have hup : up = true ↔ m.val / 2 ^ s % 2 = 1 ∧ ((0 < δ ∨ m.val % 2 ^ s ≠ 0) ∨ m.val / 2 ^ (s + 1) % 2 = 1) := by
    rw [hup_def, and_eq_true, or_eq_true, bigBit_zero, bigBit_zero, ht, hrest, hmm, hδ]
  set mm' := if up then bigAdd mm (bigFromU64 1) else mm with hcut_def
  have hmm' : mm'.val = m.val / 2 ^ (s + 1) + if up then 1 else 0 := by
    rw [hcut_def, ← hmm]
    split
    · rw [bigAdd_val, bigFromU64_val (by norm_num)]
    · rfl
  have hshift : roundShift m (s + 1) qe sticky p =
      if bigBitlen mm' > p then ((bigShr mm' 1 false).1, qe + 1) else (mm', qe) := by
    rw [roundShift, add_sub_cancel_right]
  refine ⟨mm'.val, hmm' ▸ Fmt.HalfEven.of_guard h0 h1 hup, ?_⟩
  have hle : mm'.val ≤ 2 ^ p := by
    rw [hmm']
    split <;> omega
  simp only [hshift, bigBitlen_eq, Nat.cast_lt, Nat.lt_size]
  split
  · rename_i hge
    -- the carry went into bit `p`: the significand is exactly `2 ^ p`
    obtain ⟨q, rfl⟩ := Nat.exists_eq_succ_of_ne_zero hp0.ne'
    have hhalf : (bigShr mm' 1 false).1.val = 2 ^ q := by
      rw [bigShr_one_val, le_antisymm hle hge, pow_succ, Nat.mul_div_cancel _ (by norm_num)]
    rw [hhalf, le_antisymm hle hge]
    refine ⟨?_, Nat.pow_lt_pow_right (by norm_num) (Nat.lt_succ_self q), by omega, le_rfl⟩
    push_cast
    rw [zpow_add₀ two_ne_zero, pow_succ]
    ring
  · rename_i hlt
    exact ⟨rfl, Nat.lt_of_not_le hlt, le_rfl, by omega⟩

lemma quantumExp_eq (m : Big) (e : ℤ) (fmt : LdfFmt) :
    quantumExp m e (finfo fmt) = max (e + (m.val.size : ℤ) - fmt.prec) fmt.format.lowq := by
  rw [quantumExp, bigBitlen_eq, prec_cast]
  show (if _ < fmt.format.lowq then fmt.format.lowq else _) = _
  split <;> omega

lemma finfo_bounds (fmt : LdfFmt) : 8 ≤ fmt.prec ∧ fmt.prec ≤ 113 ∧ -16500 ≤ fmt.format.lowq ∧ fmt.format.lowq < 0
    ∧ 0 ≤ (finfo fmt).emax ∧ (finfo fmt).emax ≤ 16383 := by cases fmt <;> decide

/-- `round_to` within the range of exponents: the nearest value of the format. -/
lemma roundPair_spec (m : Big) (e : ℤ) (sticky : Bool) (fmt : LdfFmt) (hr : InRange m e) {δ : ℚ} (h0 : 0 ≤ δ) (h1 : δ < 1)
    (hδ : sticky = true ↔ 0 < δ) (hprec : sticky = true → fmt.prec < m.val.size) (hm : m.val ≠ 0) :
    fmt.format.NearestEven ((m.val + δ) * 2 ^ e)
      ((roundPair m e sticky (finfo fmt)).1.val * 2 ^ (roundPair m e sticky (finfo fmt)).2) ∧
    (roundPair m e sticky (finfo fmt)).1.val < 2 ^ fmt.prec ∧
    fmt.format.lowq ≤ (roundPair m e sticky (finfo fmt)).2 ∧
    ((roundPair m e sticky (finfo fmt)).1.val = 0 → (roundPair m e sticky (finfo fmt)).2 ≤ fmt.format.lowq + 1) := by
  obtain ⟨hL, he⟩ := hr
  rw [bigBitlen_eq] at hL
  rw [abs_le] at he
  have hb := finfo_bounds fmt
  have hqe := quantumExp_eq m e fmt
  unfold roundPair
  generalize quantumExp m e (finfo fmt) = qe at hqe
  simp only
  split
  · -- bits are dropped: cut at the last one kept and round to even there
    obtain ⟨s, hs⟩ : ∃ s : ℕ, qe - e = s + 1 := ⟨(qe - e - 1).toNat, by omega⟩
    have hcut : m.val / 2 ^ (s + 1) < 2 ^ fmt.prec := by
      rw [Nat.div_lt_iff_lt_mul (Nat.two_pow_pos _), ← pow_add]
      exact (Nat.lt_size_self _).trans_le (Nat.pow_le_pow_right (by norm_num) (by omega))
    obtain ⟨r, hhalf, hval, hlt, hle, hle'⟩ :=
      roundShift_spec m (by omega) qe sticky (by omega) hcut h0 h1 hδ
    have hx : ((m.val + δ) * 2 ^ e : ℚ) = (m.val + δ) / 2 ^ (s + 1) * 2 ^ qe := by
      have hq : qe = e + (s + 1 : ℕ) := by push_cast; omega
      rw [hq, zpow_add₀ two_ne_zero, zpow_natCast]
      field_simp
    rw [hs, ← prec_cast, hval, hx]
    have hfloor := Fmt.floor_of_tail (N := m.val) (k := s + 1) h0 h1
    have hnorm : 2 ^ (fmt.prec - 1) ≤ m.val / 2 ^ (s + 1) ∨ qe = fmt.format.lowq := by
      rcases eq_or_ne qe fmt.format.lowq with hq | hq
      · exact .inr hq
      · left
        rw [Nat.le_div_iff_mul_le (Nat.two_pow_pos _), ← pow_add]
        exact Nat.lt_size.1 (by omega)
    refine ⟨Fmt.nearestEven_of_floor (by omega) hfloor.1 hfloor.2 hcut hnorm hhalf, hlt,
      by omega, fun hz => ?_⟩
    rw [hz, Nat.cast_zero, zero_mul, eq_comm, mul_eq_zero, Nat.cast_eq_zero] at hval
    have hr0 : r = 0 := hval.resolve_right (by positivity)
    have hn0 : m.val / 2 ^ (s + 1) = 0 := Nat.le_zero.1 (hr0 ▸ hhalf.le_succ.1)
    have hq := hnorm.resolve_left (by rw [hn0]; exact not_le.2 (Nat.two_pow_pos _))
    omega
  · -- nothing is dropped: the value is one of the format
    obtain rfl : δ = 0 := by
      by_contra hne
      have := hprec (hδ.2 (lt_of_le_of_ne h0 (Ne.symm hne)))
      omega
    have hlt : m.val < 2 ^ fmt.prec := Nat.size_le.1 (by omega)
    rw [add_zero]
    refine ⟨Fmt.nearestEven_of_mem ⟨m.val, e, ?_, by omega, by push_cast; rfl⟩, hlt, by omega, fun hz => absurd hz hm⟩
    exact_mod_cast hlt

lemma mul_two_zpow_lt_iff (n : ℕ) (e k : ℤ) (hn : n ≠ 0) : (n * 2 ^ e : ℚ) < 2 ^ k ↔ n.size + e ≤ k := by
  have h2 : (1 : ℚ) < 2 := one_lt_two
  have hk : (2 : ℚ) ^ k = 2 ^ (k - e) * 2 ^ e := by rw [← zpow_add₀ two_ne_zero]; congr 1; omega
  rw [hk, mul_lt_mul_iff_left₀ (by positivity)]
  rcases le_or_gt (n.size : ℤ) (k - e) with h | h
  · refine iff_of_true ?_ (by omega)
    calc (n : ℚ) < 2 ^ (n.size : ℤ) := by exact_mod_cast Nat.lt_size_self n
      _ ≤ _ := zpow_le_zpow_right₀ h2.le h
  · refine iff_of_false (not_lt.2 ?_) (by omega)
    obtain ⟨s, hs⟩ := Nat.exists_eq_succ_of_ne_zero (fun h0 => hn (Nat.size_eq_zero.1 h0) : n.size ≠ 0)
    calc 2 ^ (k - e) ≤ 2 ^ (s : ℤ) := zpow_le_zpow_right₀ h2.le (by omega)
      _ ≤ n := by exact_mod_cast Nat.lt_size.1 (by omega : s < n.size)

lemma roundTo_eq (m : Big) (e : ℤ) (sticky neg : Bool) (fmt : LdfFmt) (hm : m.val ≠ 0) : roundTo m e sticky neg fmt =
      if ((roundPair m e sticky (finfo fmt)).1.val * 2 ^ (roundPair m e sticky (finfo fmt)).2 : ℚ) <
          2 ^ ((finfo fmt).emax + 1) then ⟨.finite, neg, (roundPair m e sticky (finfo fmt)).1,
          (roundPair m e sticky (finfo fmt)).2⟩ else mk .inf neg := by
  have hz := bigIsZero_of_ne hm
  rw [roundTo]
  simp only [hz, false_eq_true, if_false]
  generalize roundPair m e sticky (finfo fmt) = r
  obtain ⟨mm, -⟩ := r
  by_cases h0 : mm.val = 0
  · have hpos : (0 : ℚ) < 2 ^ ((finfo fmt).emax + 1) := by positivity
    simp [h0, hpos]
  · have hz' := bigIsZero_of_ne h0
    simp only [hz', bigBitlen_eq, mul_two_zpow_lt_iff _ _ _ h0, Bool.not_false, Bool.true_and, decide_eq_true_eq]
    split
    · rw [if_neg (by omega)]
    · rw [if_pos (by omega)]

lemma roundTo_of_fits {m : Big} {e : ℤ} (neg : Bool) {fmt : LdfFmt} (h0 : m.val ≠ 0)
    (hp : m.val < 2 ^ fmt.prec) (hlow : fmt.format.lowq ≤ e) (hmax : m.val.size + e ≤ (finfo fmt).emax + 1) :
    roundTo m e false neg fmt = ⟨.finite, neg, m, e⟩ := by
  have hsize := Nat.size_le.2 hp
  have hpair : roundPair m e false (finfo fmt) = (m, e) := by
    have hq := quantumExp_eq m e fmt
    exact if_neg (by omega)
  rw [roundTo_eq m e false neg fmt h0, hpair, if_pos ((mul_two_zpow_lt_iff _ _ _ h0).2 hmax)]

lemma signOf_mul_abs (neg : Bool) (x : ℚ) : |signOf neg * x| = |x| := by
  cases neg <;> simp [signOf]

lemma NearestEven.signOf_mul {F : Rounding.Fmt} {x v : ℚ} (h : F.NearestEven x v) (neg : Bool) :
    F.NearestEven (signOf neg * x) (signOf neg * v) := by
  cases neg
  · simpa [signOf] using h
  · simpa [signOf] using h.neg

@[simp] lemma roundTo_neg (m : Big) (e : ℤ) (sticky neg : Bool) (fmt : LdfFmt) : (roundTo m e sticky neg fmt).neg = neg := by
  unfold roundTo
  simp only
  split
  · rfl
  · split <;> rfl

lemma roundsTo_zero (fmt : LdfFmt) (neg : Bool) : RoundsTo fmt 0 (mk .finite neg) := by
  refine ⟨⟨0, Fmt.nearestEven_of_mem ⟨0, fmt.format.lowq, by simp, le_rfl, by simp⟩, ?_⟩, fun h => absurd rfl h⟩
  rw [abs_zero, if_pos (by positivity)]
  simp [mk, Ldf.val]

lemma roundTo_roundsTo (m : Big) (e : ℤ) (sticky neg : Bool) (fmt : LdfFmt) (hr : InRange m e) {δ : ℚ} (h0 : 0 ≤ δ)
    (h1 : δ < 1) (hδ : sticky = true ↔ 0 < δ) (hprec : sticky = true → fmt.prec < m.val.size) : RoundsTo fmt
    (signOf neg * ((m.val + δ) * 2 ^ e)) (roundTo m e sticky neg fmt) := by
  by_cases hm : m.val = 0
  · obtain rfl : δ = 0 := by
      by_contra hne
      have := hprec (hδ.2 (lt_of_le_of_ne h0 (Ne.symm hne)))
      simp [hm] at this
    rw [roundTo, if_pos ((bigIsZero_iff m).2 hm), hm]
    simp only [Nat.cast_zero, add_zero, zero_mul, mul_zero]
    exact roundsTo_zero fmt neg
  · have hx : 0 < ((m.val + δ) * 2 ^ e : ℚ) := by positivity
    obtain ⟨hnear, -, -⟩ := roundPair_spec m e sticky fmt hr h0 h1 hδ hprec hm
    refine ⟨⟨_, NearestEven.signOf_mul hnear neg, ?_⟩, fun _ => ?_⟩
    · rw [signOf_mul_abs, abs_of_nonneg (by positivity), roundTo_eq m e sticky neg fmt hm]
      split <;> simp [mk, Ldf.val]
    · rw [roundTo_neg]
      cases neg <;> simp [signOf, hx, hx.le]

lemma roundTo_bounds (m : Big) (e : ℤ) (sticky neg : Bool) (fmt : LdfFmt) (hr : InRange m e)
    (hprec : sticky = true → fmt.prec < m.val.size) : (roundTo m e sticky neg fmt).m.val < 2 ^ fmt.prec
    ∧ fmt.format.lowq ≤ (roundTo m e sticky neg fmt).e ∧ (roundTo m e sticky neg fmt).e ≤ (finfo fmt).emax := by
  have hb := finfo_bounds fmt
  have hzero : (mk .finite neg).m.val < 2 ^ fmt.prec := Nat.two_pow_pos _
  by_cases hm : m.val = 0
  · rw [roundTo, if_pos ((bigIsZero_iff m).2 hm)]
    exact ⟨hzero, hb.2.2.2.1.le, hb.2.2.2.2.1⟩
  · obtain ⟨-, hlt, hle, h0⟩ := roundPair_spec m e sticky fmt hr
      (δ := if sticky then 1 / 2 else 0) (by split <;> norm_num) (by split <;> norm_num)
      (by cases sticky <;> norm_num) hprec hm
    rw [roundTo_eq m e sticky neg fmt hm]
    split_ifs with hmax
    · refine ⟨hlt, hle, ?_⟩
      show (roundPair m e sticky (finfo fmt)).2 ≤ _
      rcases eq_or_ne (roundPair m e sticky (finfo fmt)).1.val 0 with hz | hz
      · have := h0 hz
        omega
      · rw [mul_two_zpow_lt_iff _ _ _ hz] at hmax
        have : (roundPair m e sticky (finfo fmt)).1.val.size ≠ 0 :=
          fun h => hz (Nat.size_eq_zero.1 h)
        omega
    · exact ⟨hzero, hb.2.2.2.1.le, hb.2.2.2.2.1⟩

end EmbCC.LdFloat
