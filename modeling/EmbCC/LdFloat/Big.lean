import EmbCC.Lib.Digits

/-!
# Arbitrary-precision unsigned integers

The limb arithmetic that `ldfloat.c` rounds with: little-endian 32-bit limbs
without a leading zero. Each operation is the source's loop over limbs, with
its carry, its borrow or its in-place `|=`, and has one lemma that says which
natural number it computes: `bigShl_val`, `bigShr_val`, `bigAdd_val`,
`bigSub_val`, `bigMul_val`, `bigDiv_val`, `bigCmp_eq`, `bigBitlen_eq`.

Limbs are natural numbers below `2 ^ 32`; the sums and products the loops form in
`unsigned long` stay below `2 ^ 64`, so no operation on them wraps. The one cast that can
lose something, `(int)(k / 32)` of a shift count, is kept as `cInt`.
-/

namespace EmbCC.LdFloat

open Nat List

open Digits

/-! ## Numbers in limbs -/

/-- `struct big`: the limbs in use, each of 32 bits, the last one not zero. -/
structure Big where
  d : List ℕ
  fits : Fits (2 ^ 32) d
  trimmed : d.getLast? ≠ some 0
deriving DecidableEq

/-- The number the limbs stand for. -/
def Big.val (b : Big) : ℕ := ofDigits (2 ^ 32) b.d

/-- The `int` a `long` is cast to. -/
def cInt (k : ℤ) : ℤ := k.bmod (2 ^ 32)

lemma cInt_of_range {k : ℤ} (h0 : 0 ≤ k) (h1 : k < 2 ^ 31) : cInt k = k := by
  unfold cInt
  rw [Int.bmod_eq_of_le] <;> omega

/-- `big_trim`: the limbs up to the last one that is not zero. -/
def bigTrim (d : List ℕ) (h : Fits (2 ^ 32) d) : Big where
  d := d.rdropWhile (· == 0)
  fits := h.of_sublist (List.rdropWhile_prefix _ _).sublist
  trimmed := by
    intro h0
    have hne : d.rdropWhile (· == 0) ≠ [] := by
      intro hnil
      simp [hnil] at h0
    rw [List.getLast?_eq_some_getLast hne, Option.some_inj] at h0
    exact List.rdropWhile_last_not _ d hne (by simp [h0])

@[simp] lemma bigTrim_val (d : List ℕ) (h : Fits (2 ^ 32) d) : (bigTrim d h).val = ofDigits (2 ^ 32) d :=
  ofDigits_rdropWhile _ _

/-- `big_new`: no limb in use. -/
def bigNew : Big := ⟨[], fits_nil _, by simp⟩

@[simp] lemma bigNew_val : bigNew.val = 0 := rfl

lemma fits_limbs (v : ℕ) : Fits (2 ^ 32) [v % 2 ^ 32, v / 2 ^ 32 % 2 ^ 32] := by
  simp only [fits_cons, fits_nil, and_true]
  omega

def bigFromU64 (v : ℕ) : Big := bigTrim [v % 2 ^ 32, v / 2 ^ 32 % 2 ^ 32] (fits_limbs v)

lemma bigFromU64_val {v : ℕ} (h : v < 2 ^ 64) : (bigFromU64 v).val = v := by
  simp only [bigFromU64, bigTrim_val, ofDigits_cons, ofDigits_nil]
  omega

/-- `big_is_zero`: no limb is in use. -/
def bigIsZero (a : Big) : Bool := a.d.length == 0

/-- The bits of the top limb that `big_bitlen` counts; 32 rounds empty any limb. -/
def topBits : ℕ → ℕ → ℕ
  | 0, _ => 0
  | f + 1, top => if top = 0 then 0 else topBits f (top / 2) + 1

def bigBitlen (a : Big) : ℤ :=
  match a.d.getLast? with
  | none => 0
  | some top => ((a.d.length - 1) * 32 + topBits 32 top : ℕ)

def bigBit (a : Big) (i : ℤ) : Bool :=
  if i < 0 ∨ (a.d.length : ℤ) ≤ i / 32 then false
  else (a.d.getD (i / 32).toNat 0 >>> (i % 32).toNat) % 2 == 1

lemma Big.eq_concat (a : Big) (h : a.d ≠ []) : ∃ l x, a.d = l ++ [x] ∧ x ≠ 0 ∧ Fits (2 ^ 32) l ∧ x < 2 ^ 32 := by
  obtain ⟨l, x, hd⟩ : ∃ l x, a.d = l ++ [x] := ⟨_, _, (dropLast_append_getLast h).symm⟩
  have hf := a.fits
  rw [hd, fits_append, fits_cons] at hf
  refine ⟨l, x, hd, ?_, hf.1, hf.2.1⟩
  rintro rfl
  exact a.trimmed (by simp [hd])

lemma Big.val_eq_zero_iff (a : Big) : a.val = 0 ↔ a.d = [] := by
  refine ⟨fun h => ?_, fun h => by simp [Big.val, h]⟩
  by_contra hne
  obtain ⟨l, x, hd, hx, -⟩ := a.eq_concat hne
  rw [Big.val, hd, ofDigits_append, ofDigits_singleton] at h
  exact hx (by simpa using (Nat.add_eq_zero_iff.1 h).2)

@[simp] lemma bigIsZero_iff (a : Big) : bigIsZero a = true ↔ a.val = 0 := by
  simp [bigIsZero, a.val_eq_zero_iff]

lemma bigIsZero_of_ne {a : Big} (h : a.val ≠ 0) : bigIsZero a = false := by
  rwa [← Bool.not_eq_true, bigIsZero_iff]

lemma Big.val_lt (a : Big) : a.val < 2 ^ (a.d.length * 32) := by
  rw [mul_comm, pow_mul]
  exact ofDigits_lt (by norm_num) a.fits

lemma topBits_eq (f : ℕ) {top : ℕ} (h : top < 2 ^ f) : topBits f top = top.size := by
  induction f generalizing top with
  | zero => simp_all [topBits]
  | succ f ih =>
    rw [topBits]
    split
    · simp_all
    · rename_i h0
      rw [ih (by rw [pow_succ] at h; omega)]
      conv_rhs => rw [← bit_bodd_div2 top, div2_val]
      rw [size_bit (by rw [← div2_val, bit_bodd_div2]; exact h0)]

lemma bigBitlen_eq (a : Big) : bigBitlen a = a.val.size := by
  by_cases h : a.d = []
  · simp [bigBitlen, Big.val, h]
  · obtain ⟨l, x, hd, hx, hl, hx32⟩ := a.eq_concat h
    have hs := size_ofDigits_concat (by norm_num) hl hx
    simp only [bigBitlen, Big.val, hd, getLast?_concat, length_append,
      length_singleton, Nat.add_sub_cancel, topBits_eq 32 hx32, hs]

lemma bigBit_eq (a : Big) (i : ℕ) : bigBit a i = a.val.testBit i := by
  rw [Big.val, testBit_ofDigits (by norm_num) a.fits]
  unfold bigBit
  have hdiv : ((i : ℤ) / 32).toNat = i / 32 := by omega
  have hmod : ((i : ℤ) % 32).toNat = i % 32 := by omega
  split_ifs with h
  · rw [getD_eq_default _ _ (by omega)]
    simp
  · rw [hdiv, hmod, testBit, one_and_eq_mod_two]
    rcases mod_two_eq_zero_or_one (a.d.getD (i / 32) 0 >>> (i % 32)) with h | h <;> rw [h] <;> rfl

/-! ## Comparison -/

/-- The limbs from the top down, at the first place where they differ. -/
def cmpLoop : List ℕ → List ℕ → ℤ
  | x :: xs, y :: ys => if x ≠ y then (if x < y then -1 else 1) else cmpLoop xs ys
  | _, _ => 0

def bigCmp (a b : Big) : ℤ :=
  if a.d.length ≠ b.d.length then (if a.d.length < b.d.length then -1 else 1)
  else cmpLoop a.d.reverse b.d.reverse

variable {a b : Big} {q l : List ℕ} {s k x c : ℕ}

lemma Big.val_lt_of_length_lt (h : a.d.length < b.d.length) : a.val < b.val := by
  have ha := ofDigits_lt (by norm_num) a.fits
  obtain ⟨l, x, hd, hx, -, -⟩ := b.eq_concat (by rintro h0; simp [h0] at h)
  have hl : a.d.length ≤ l.length := by simpa [hd] using h
  calc a.val < (2 ^ 32) ^ a.d.length := ha
    _ ≤ (2 ^ 32) ^ l.length := Nat.pow_le_pow_right (by norm_num) hl
    _ ≤ (2 ^ 32) ^ l.length * x := Nat.le_mul_of_pos_right _ (Nat.pos_of_ne_zero hx)
    _ ≤ b.val := by
      rw [Big.val, hd, ofDigits_append, ofDigits_singleton]
      exact Nat.le_add_left _ _

/-- The comparison from the top limb down is that of the numbers. -/
lemma cmpLoop_reverse {l' : List ℕ} (hl : Fits (2 ^ 32) l) (hl' : Fits (2 ^ 32) l') (hn : l.length = l'.length) :
    cmpLoop l.reverse l'.reverse = ((ofDigits (2 ^ 32) l : ℕ) - (ofDigits (2 ^ 32) l' : ℕ) : ℤ).sign := by
  induction l using reverseRecOn generalizing l' with
  | nil =>
    obtain rfl : l' = [] := length_eq_zero_iff.1 hn.symm
    simp [cmpLoop]
  | append_singleton l x ih =>
    rcases eq_nil_or_concat l' with rfl | ⟨l', y, rfl⟩
    · simp at hn
    rw [concat_eq_append] at hl' ⊢
    rw [fits_append] at hl hl'
    have hn' : l.length = l'.length := by simpa using hn
    simp only [reverse_append, reverse_singleton, singleton_append, cmpLoop]
    rcases lt_trichotomy x y with hxy | rfl | hxy
    · have h := ofDigits_lt_of_top (by norm_num) hl.1 hn' hxy
      rw [if_pos hxy.ne, if_pos hxy, Int.sign_eq_neg_one_of_neg (by omega)]
    · rw [if_neg (by simp), ih hl.1 hl'.1 hn']
      simp [ofDigits_append, hn']
    · have h := ofDigits_lt_of_top (by norm_num) hl'.1 hn'.symm hxy
      rw [if_pos hxy.ne', if_neg (by omega), Int.sign_eq_one_of_pos (by omega)]

lemma bigCmp_eq (a b : Big) : bigCmp a b = (a.val - b.val : ℤ).sign := by
  unfold bigCmp
  split_ifs with h h'
  · have := Big.val_lt_of_length_lt h'
    rw [Int.sign_eq_neg_one_of_neg (by omega)]
  · have := Big.val_lt_of_length_lt (a := b) (b := a) (by omega)
    rw [Int.sign_eq_one_of_pos (by omega)]
  · exact cmpLoop_reverse a.fits b.fits (not_not.1 h)

lemma bigCmp_nonneg (a b : Big) : 0 ≤ bigCmp a b ↔ b.val ≤ a.val := by
  rw [bigCmp_eq, Int.sign_nonneg_iff]
  omega

/-! ## Shifts -/

/-- One limb of `big_shl` after another; `c` is what the limb before left in the slot. -/
def shlLoop (s : ℕ) : List ℕ → ℕ → List ℕ
  | [], c => [c]
  | x :: xs, c => (c ||| (x <<< s) % 2 ^ 32) :: shlLoop s xs ((x <<< s) >>> 32)

lemma shl_carry_lt (hx : x < 2 ^ 32) : (x <<< s) >>> 32 < 2 ^ s := by
  rw [shiftLeft_eq, shiftRight_eq_div_pow, Nat.div_lt_iff_lt_mul (by norm_num)]
  exact ((Nat.mul_lt_mul_right (Nat.two_pow_pos s)).2 hx).trans_eq (mul_comm _ _)

lemma shlLoop_fits (hs : s < 32) (h : Fits (2 ^ 32) l) (hc : c < 2 ^ s) : Fits (2 ^ 32) (shlLoop s l c) := by
  have h2 : 2 ^ s < 2 ^ 32 := Nat.pow_lt_pow_right (by norm_num) hs
  induction l generalizing c with
  | nil => simpa [shlLoop] using hc.trans h2
  | cons x l ih =>
    rw [fits_cons] at h
    rw [shlLoop, fits_cons]
    exact ⟨or_lt_two_pow (hc.trans h2) (mod_lt _ (by norm_num)), ih h.2 (shl_carry_lt h.1)⟩

/-- The loop of `big_shl` within a limb, with the carry. -/
lemma shlLoop_val (hs : s < 32) (l : List ℕ) (hl : Fits (2 ^ 32) l) (hc : c < 2 ^ s) :
    ofDigits (2 ^ 32) (shlLoop s l c) = ofDigits (2 ^ 32) l * 2 ^ s + c := by
  induction l generalizing c with
  | nil => simp [shlLoop]
  | cons x l ih =>
    rw [fits_cons] at hl
    have hlow : c ||| (x <<< s) % 2 ^ 32 = c + (x <<< s) % 2 ^ 32 := by
      have h32 : 2 ^ 32 = 2 ^ s * 2 ^ (32 - s) := by rw [← pow_add]; congr 1; omega
      rw [Nat.or_comm, shiftLeft_eq, h32, mul_comm x, mul_mod_mul_left, ← two_pow_add_eq_or_of_lt hc, add_comm]
    rw [shlLoop, ofDigits_cons, ofDigits_cons, ih hl.2 (shl_carry_lt hl.1), hlow, shiftRight_eq_div_pow]
    have hx := mod_add_div (x <<< s) (2 ^ 32)
    rw [shiftLeft_eq] at hx ⊢
    linear_combination hx

def bigShl (a : Big) (k : ℤ) : Big :=
  if a.d.length = 0 ∨ k = 0 then a
  else
    let w := (cInt (k / 32)).toNat
    let s := (k % 32).toNat
    bigTrim (replicate w 0 ++ shlLoop s a.d 0)
      (fits_append.2 ⟨fits_replicate_zero (by norm_num) w,
        shlLoop_fits (by omega) a.fits (Nat.two_pow_pos s)⟩)

lemma bigShl_val (a : Big) (hk : k < 2 ^ 36) : (bigShl a k).val = a.val * 2 ^ k := by
  unfold bigShl
  split_ifs with h
  · rcases h with h | h
    · have h0 := a.val_eq_zero_iff.2 (length_eq_zero_iff.1 h)
      rw [h0, zero_mul]
    · rw [Int.natCast_eq_zero.1 h, pow_zero, mul_one]
  · have hw : (cInt (k / 32)).toNat = k / 32 := by
      rw [cInt_of_range (by omega) (by omega)]
      omega
    have hs : ((k : ℤ) % 32).toNat = k % 32 := by omega
    have hlt : k % 32 < 32 := mod_lt _ (by norm_num)
    rw [bigTrim_val, hw, hs, ofDigits_append, Nat.ofDigits_replicate_zero, length_replicate,
      zero_add, shlLoop_val hlt a.d a.fits (Nat.two_pow_pos _), add_zero, ← pow_mul, mul_left_comm, ← pow_add, div_add_mod]
    rfl

/-- One limb of `big_shr` after another: its own high bits and the low ones of the next. -/
def shrLoop (s : ℕ) : List ℕ → List ℕ
  | [] => []
  | [x] => [x >>> s]
  | x :: y :: l =>
    (x >>> s ||| if s ≠ 0 then (y <<< (32 - s)) % 2 ^ 32 else 0) :: shrLoop s (y :: l)

lemma shrLoop_fits (s : ℕ) (h : Fits (2 ^ 32) l) : Fits (2 ^ 32) (shrLoop s l) := by
  have hshr : ∀ x < 2 ^ 32, x >>> s < 2 ^ 32 := fun x hx => (shiftRight_le x s).trans_lt hx
  induction l using shrLoop.induct with
  | case1 => simp [shrLoop]
  | case2 x => simpa [shrLoop] using hshr x (h x (by simp))
  | case3 x y l ih =>
    rw [fits_cons] at h
    rw [shrLoop, fits_cons]
    refine ⟨or_lt_two_pow (hshr x h.1) ?_, ih h.2⟩
    split
    · exact mod_lt _ (by norm_num)
    · norm_num

/-- The loop of `big_shr` within a limb. -/
lemma shrLoop_val (hs : s < 32) (h : Fits (2 ^ 32) l) : ofDigits (2 ^ 32) (shrLoop s l) = ofDigits (2 ^ 32) l / 2 ^ s := by
  induction l using shrLoop.induct with
  | case1 => simp [shrLoop]
  | case2 x => simp [shrLoop, shiftRight_eq_div_pow]
  | case3 x y l ih =>
    rw [fits_cons] at h
    rw [shrLoop, ofDigits_cons, ih h.2, @Nat.ofDigits_cons (2 ^ 32) x]
    generalize hn : ofDigits (2 ^ 32) (y :: l) = n
    have hy : n % 2 ^ 32 = y := by
      rw [← hn, ofDigits_cons, add_mul_mod_self_left, mod_eq_of_lt (fits_cons.1 h.2).1]
    rcases Nat.eq_zero_or_pos s with rfl | hpos
    · simp
    · have h32 : 2 ^ 32 = 2 ^ s * 2 ^ (32 - s) := by rw [← pow_add]; congr 1; omega
      have hxs : x >>> s < 2 ^ (32 - s) := by
        rw [shiftRight_eq_div_pow, Nat.div_lt_iff_lt_mul (Nat.two_pow_pos s), mul_comm, ← h32]
        exact h.1
      have hlow : (y <<< (32 - s)) % 2 ^ 32 = 2 ^ (32 - s) * (n % 2 ^ s) := by
        rw [shiftLeft_eq, ← hy, mul_comm, h32, mul_comm (2 ^ s), mul_mod_mul_left,
          mul_comm (2 ^ (32 - s)) (2 ^ s), mod_mul_right_mod]
      rw [if_pos hpos.ne', hlow, Nat.or_comm, ← two_pow_add_eq_or_of_lt hxs, shiftRight_eq_div_pow, h32, mul_assoc (2 ^ s) _ n,
        add_mul_div_left _ _ (Nat.two_pow_pos s)]
      have hdm := mod_add_div n (2 ^ s)
      calc 2 ^ (32 - s) * (n % 2 ^ s) + x / 2 ^ s + 2 ^ s * 2 ^ (32 - s) * (n / 2 ^ s)
          = x / 2 ^ s + 2 ^ (32 - s) * (n % 2 ^ s + 2 ^ s * (n / 2 ^ s)) := by ring
        _ = _ := by rw [hdm]

/-- `big_shr`: the shifted number, and `sticky` with any lost bit added. -/
def bigShr (a : Big) (k : ℤ) (sticky : Bool) : Big × Bool :=
  if k ≤ 0 then (a, sticky)
  else
    let w := cInt (k / 32)
    let s := (k % 32).toNat
    (if (a.d.length : ℤ) ≤ w then bigNew
      else bigTrim (shrLoop s (a.d.drop w.toNat))
        (shrLoop_fits s (a.fits.of_sublist (List.drop_sublist _ _))),
      sticky || (range (min k (a.d.length * 32)).toNat).any fun i => bigBit a i)

lemma bigShr_val (a : Big) (hk : k < 2 ^ 36) (sticky : Bool) : (bigShr a k sticky).1.val = a.val / 2 ^ k := by
  unfold bigShr
  split
  · obtain rfl : k = 0 := by omega
    simp
  · have hw : cInt (k / 32) = (k / 32 : ℕ) := by
      rw [cInt_of_range (by omega) (by omega)]
      omega
    have hs : ((k : ℤ) % 32).toNat = k % 32 := by omega
    have hlt : k % 32 < 32 := mod_lt _ (by norm_num)
    have hsplit : (2 : ℕ) ^ k = (2 ^ 32) ^ (k / 32) * 2 ^ (k % 32) := by
      rw [← pow_mul, ← pow_add, div_add_mod]
    have hdrop := ofDigits_drop (by norm_num) a.fits (k / 32)
    simp only [hw, hs, Int.toNat_natCast]
    rw [hsplit, ← Nat.div_div_eq_div_mul]
    split_ifs with hn
    · rw [drop_of_length_le (by omega), ofDigits_nil] at hdrop
      rw [Big.val.eq_1 a, ← hdrop, Nat.zero_div, bigNew_val]
    · rw [bigTrim_val, shrLoop_val hlt (a.fits.of_sublist (drop_sublist _ _)), hdrop]
      rfl

lemma bigShr_sticky (a : Big) (k : ℕ) (sticky : Bool) :
    (bigShr a k sticky).2 = true ↔ sticky = true ∨ a.val % 2 ^ k ≠ 0 := by
  have hval := a.val_lt
  -- a lost bit below `min k (32 * n)` is set exactly when the remainder is not zero
  have hrest : ((range (min (k : ℤ) (a.d.length * 32)).toNat).any fun i => bigBit a i) = true ↔ a.val % 2 ^ k ≠ 0 := by
    simp only [any_eq_true, mem_range, bigBit_eq]
    constructor
    · rintro ⟨i, hi, hbit⟩ h0
      have hz : (a.val % 2 ^ k).testBit i = false := by rw [h0, zero_testBit]
      rw [testBit_mod_two_pow, hbit] at hz
      simp only [Bool.and_true, decide_eq_false_iff_not] at hz
      omega
    · intro hne
      obtain ⟨i, hi⟩ := exists_testBit_of_ne_zero hne
      rw [testBit_mod_two_pow, Bool.and_eq_true, decide_eq_true_eq] at hi
      have hlen : i < a.d.length * 32 := by
        by_contra hge
        have h2 := testBit_lt_two_pow (hval.trans_le (Nat.pow_le_pow_right (by norm_num) (Nat.le_of_not_lt hge)))
        rw [h2] at hi
        exact absurd hi.2 (by simp)
      exact ⟨i, by omega, hi.2⟩
  unfold bigShr
  split
  · obtain rfl : k = 0 := by omega
    simp [mod_one]
  · rw [Bool.or_eq_true, hrest]

/-! ## Addition and subtraction -/

/-- The loop of `big_add`, up to the longer operand, and the last carry. -/
def addLoop : List ℕ → List ℕ → ℕ → List ℕ
  | [], [], carry => [carry]
  | x :: xs, [], carry => (carry + x) % 2 ^ 32 :: addLoop xs [] ((carry + x) / 2 ^ 32)
  | [], y :: ys, carry => (carry + y) % 2 ^ 32 :: addLoop [] ys ((carry + y) / 2 ^ 32)
  | x :: xs, y :: ys, carry =>
    (carry + x + y) % 2 ^ 32 :: addLoop xs ys ((carry + x + y) / 2 ^ 32)

/-- The loop of `big_add`, with the carry. -/
lemma addLoop_spec (l l' : List ℕ) (c : ℕ) (hl : Fits (2 ^ 32) l) (hl' : Fits (2 ^ 32) l') (hc : c ≤ 1) : Fits (2 ^ 32)
    (addLoop l l' c) ∧ ofDigits (2 ^ 32) (addLoop l l' c) = ofDigits (2 ^ 32) l + ofDigits (2 ^ 32) l' + c := by
  induction l, l', c using addLoop.induct with
  | case1 c =>
    simp only [addLoop, fits_cons, fits_nil, and_true, ofDigits_singleton, ofDigits_nil]
    omega
  | case2 x xs c ih =>
    rw [fits_cons] at hl
    obtain ⟨hf, hv⟩ := ih hl.2 hl' (by omega)
    rw [addLoop, fits_cons, ofDigits_cons, ofDigits_cons, hv, ofDigits_nil]
    exact ⟨⟨mod_lt _ (by norm_num), hf⟩, by omega⟩
  | case3 y ys c ih =>
    rw [fits_cons] at hl'
    obtain ⟨hf, hv⟩ := ih hl hl'.2 (by omega)
    rw [addLoop, fits_cons, ofDigits_cons, ofDigits_cons, hv, ofDigits_nil]
    exact ⟨⟨mod_lt _ (by norm_num), hf⟩, by omega⟩
  | case4 x xs y ys c ih =>
    rw [fits_cons] at hl hl'
    obtain ⟨hf, hv⟩ := ih hl.2 hl'.2 (by omega)
    rw [addLoop, fits_cons, ofDigits_cons, ofDigits_cons, ofDigits_cons, hv]
    exact ⟨⟨mod_lt _ (by norm_num), hf⟩, by omega⟩

def bigAdd (a b : Big) : Big :=
  bigTrim (addLoop a.d b.d 0) (addLoop_spec a.d b.d 0 a.fits b.fits zero_le_one).1

@[simp] lemma bigAdd_val (a b : Big) : (bigAdd a b).val = a.val + b.val := by
  rw [bigAdd, bigTrim_val, (addLoop_spec a.d b.d 0 a.fits b.fits zero_le_one).2]
  rfl

/-- The loop of `big_sub` over the limbs of `a`, with the borrow of the limb before. -/
def subLoop : List ℕ → List ℕ → ℤ → List ℕ
  | [], _, _ => []
  | x :: xs, ys, borrow =>
    let s : ℤ := x - borrow - ys.headD 0
    (if s < 0 then s + 2 ^ 32 else s).toNat :: subLoop xs ys.tail (if s < 0 then 1 else 0)

lemma subLoop_fits (l l' : List ℕ) {b : ℤ} (hl : Fits (2 ^ 32) l) (hl' : Fits (2 ^ 32) l')
    (hb : b = 0 ∨ b = 1) : Fits (2 ^ 32) (subLoop l l' b) := by
  induction l generalizing l' b with
  | nil => simp [subLoop]
  | cons x l ih =>
    rw [fits_cons] at hl
    have hy : l'.headD 0 < 2 ^ 32 ∧ Fits (2 ^ 32) l'.tail := by
      cases l' with
      | nil => simp
      | cons y ys => exact fits_cons.1 hl'
    rw [subLoop, fits_cons]
    refine ⟨?_, ih _ hl.2 hy.2 (by split <;> simp)⟩
    split <;> omega

/-- The loop of `big_sub`, with the borrow. -/
lemma subLoop_val (l l' : List ℕ) {b : ℤ} (hl : Fits (2 ^ 32) l) (hl' : Fits (2 ^ 32) l')
    (hb : b = 0 ∨ b = 1) (hle : ((ofDigits (2 ^ 32) l' : ℕ) : ℤ) + b ≤ (ofDigits (2 ^ 32) l : ℕ)) :
    ((ofDigits (2 ^ 32) (subLoop l l' b) : ℕ) : ℤ) = (ofDigits (2 ^ 32) l : ℕ) - (ofDigits (2 ^ 32) l' : ℕ) - b := by
  induction l generalizing l' b with
  | nil =>
    simp only [subLoop, ofDigits_nil] at hle ⊢
    omega
  | cons x l ih =>
    rw [fits_cons] at hl
    have hy : l'.headD 0 < 2 ^ 32 ∧ Fits (2 ^ 32) l'.tail ∧
        ofDigits (2 ^ 32) l' = l'.headD 0 + 2 ^ 32 * ofDigits (2 ^ 32) l'.tail := by
      cases l' with
      | nil => simp
      | cons y ys => exact ⟨(fits_cons.1 hl').1, (fits_cons.1 hl').2, ofDigits_cons ..⟩
    obtain ⟨hy1, hy2, hy3⟩ := hy
    rw [hy3, ofDigits_cons] at hle
    rw [subLoop, ofDigits_cons, ofDigits_cons, hy3]
    have ih' := ih l'.tail (b := if x - b - l'.headD 0 < 0 then 1 else 0) hl.2 hy2 (by split <;> simp)
    split at ih' <;> rename_i hs
    · have := ih' (by omega)
      simp only [hs, if_true]
      omega
    · have := ih' (by omega)
      simp only [hs, if_false]
      omega

def bigSub (a b : Big) : Big :=
  bigTrim (subLoop a.d b.d 0) (subLoop_fits a.d b.d a.fits b.fits (.inl rfl))

lemma bigSub_val (h : b.val ≤ a.val) : (bigSub a b).val = a.val - b.val := by
  have hv := subLoop_val a.d b.d a.fits b.fits (.inl rfl) (by simpa [Big.val] using h)
  rw [bigSub, bigTrim_val]
  unfold Big.val at ⊢
  omega

/-! ## Multiplication -/

/-- The inner loop of `big_mul`: limb `x` of `a` times `b` added into `r`, the last carry
stored in the limb after. -/
def mulRow (x : ℕ) : List ℕ → List ℕ → ℕ → List ℕ
  | _, [], _ => []
  | [], _ :: rs, carry => carry :: rs
  | y :: ys, r :: rs, carry =>
    (x * y + r + carry) % 2 ^ 32 :: mulRow x ys rs ((x * y + r + carry) / 2 ^ 32)

/-- The outer loop of `big_mul`: limb `i` of the result is final after round `i`. -/
def mulLoop : List ℕ → List ℕ → List ℕ → List ℕ
  | [], _, r => r
  | x :: xs, ys, r =>
    match mulRow x ys r 0 with
    | [] => []
    | z :: zs => z :: mulLoop xs ys zs

@[simp] lemma mulRow_length (x : ℕ) (l r : List ℕ) (c : ℕ) : (mulRow x l r c).length = r.length := by
  induction l, r, c using mulRow.induct x with
  | case1 => simp [mulRow]
  | case2 => simp [mulRow]
  | case3 y ys r rs c ih => rw [mulRow, length_cons, ih, length_cons]

lemma mulRow_fits (hx : x < 2 ^ 32) (l r : List ℕ) (hl : Fits (2 ^ 32) l)
    (hr : Fits (2 ^ 32) r) (hc : c < 2 ^ 32) : Fits (2 ^ 32) (mulRow x l r c) := by
  induction l, r, c using mulRow.induct x with
  | case1 => simp [mulRow]
  | case2 r rs c => exact fits_cons.2 ⟨hc, (fits_cons.1 hr).2⟩
  | case3 y ys r rs c ih =>
    rw [fits_cons] at hl hr
    refine fits_cons.2 ⟨mod_lt _ (by norm_num), ih hl.2 hr.2 ?_⟩
    rw [Nat.div_lt_iff_lt_mul (by norm_num)]
    nlinarith [hl.1, hr.1]

lemma mulRow_val (x : ℕ) (l r : List ℕ) (c : ℕ) (hlen : l.length < r.length) (hz : r.getD l.length 0 = 0) :
    ofDigits (2 ^ 32) (mulRow x l r c) = x * ofDigits (2 ^ 32) l + ofDigits (2 ^ 32) r + c := by
  induction l, r, c using mulRow.induct x with
  | case1 => simp at hlen
  | case2 r rs c =>
    obtain rfl : r = 0 := by simpa using hz
    simp only [mulRow, ofDigits_cons, ofDigits_nil]
    ring
  | case3 y ys r rs c ih =>
    rw [mulRow, ofDigits_cons, ih (by simpa using hlen) (by simpa using hz)]
    simp only [ofDigits_cons]
    have hdm := mod_add_div (x * y + r + c) (2 ^ 32)
    linear_combination hdm

lemma mulRow_getD (x : ℕ) (l r : List ℕ) (c i : ℕ) (hi : l.length < i) : (mulRow x l r c).getD i 0 = r.getD i 0 := by
  induction l, r, c using mulRow.induct x generalizing i with
  | case1 => simp
  | case2 r rs c =>
    obtain ⟨j, rfl⟩ := exists_eq_succ_of_ne_zero (Nat.pos_iff_ne_zero.1 hi)
    simp [mulRow]
  | case3 y ys r rs c ih =>
    obtain ⟨j, rfl⟩ := exists_eq_succ_of_ne_zero (Nat.ne_zero_of_lt hi)
    exact ih j (by simpa using hi)

lemma mulLoop_fits (l l' r : List ℕ) (hl : Fits (2 ^ 32) l) (hl' : Fits (2 ^ 32) l')
    (hr : Fits (2 ^ 32) r) : Fits (2 ^ 32) (mulLoop l l' r) := by
  induction l generalizing r with
  | nil => exact hr
  | cons x l ih =>
    rw [fits_cons] at hl
    have hrow := mulRow_fits hl.1 l' r hl' hr (c := 0) (by norm_num)
    rw [mulLoop]
    cases hm : mulRow x l' r 0 with
    | nil => simp
    | cons z zs =>
      rw [hm, fits_cons] at hrow
      exact fits_cons.2 ⟨hrow.1, ih zs hl.2 hrow.2⟩

/-- The loop of `big_mul` adds the product to what stands there. -/
lemma mulLoop_val (l l' r : List ℕ) (hlen : r.length = l.length + l'.length) (hz : ∀ i, l'.length ≤ i → r.getD i 0 = 0) :
    ofDigits (2 ^ 32) (mulLoop l l' r) = ofDigits (2 ^ 32) l * ofDigits (2 ^ 32) l' + ofDigits (2 ^ 32) r := by
  induction l generalizing r with
  | nil => simp [mulLoop]
  | cons x l ih =>
    rw [length_cons] at hlen
    have hrow := mulRow_val x l' r 0 (by omega) (hz _ le_rfl)
    have hlen' := mulRow_length x l' r 0
    rw [mulLoop]
    cases hm : mulRow x l' r 0 with
    | nil => simp [hm] at hlen'; omega
    | cons z zs =>
      rw [hm, ofDigits_cons] at hrow
      rw [hm, length_cons] at hlen'
      have hzs : ∀ i, l'.length ≤ i → zs.getD i 0 = 0 := by
        intro i hi
        have hrest := mulRow_getD x l' r 0 (i + 1) (by omega)
        rw [hm, getD_cons_succ, hz (i + 1) (by omega)] at hrest
        exact hrest
      rw [ofDigits_cons, ih zs (by omega) hzs, ofDigits_cons]
      linear_combination hrow

def bigMul (a b : Big) : Big :=
  if a.d.length = 0 ∨ b.d.length = 0 then bigNew
  else
    bigTrim (mulLoop a.d b.d (replicate (a.d.length + b.d.length) 0))
      (mulLoop_fits _ _ _ a.fits b.fits (fits_replicate_zero (by norm_num) _))

@[simp] lemma bigMul_val (a b : Big) : (bigMul a b).val = a.val * b.val := by
  unfold bigMul
  split_ifs with h
  · rcases h with h | h
    · rw [a.val_eq_zero_iff.2 (length_eq_zero_iff.1 h), zero_mul, bigNew_val]
    · rw [b.val_eq_zero_iff.2 (length_eq_zero_iff.1 h), mul_zero, bigNew_val]
  · rw [bigTrim_val, mulLoop_val _ _ _ (by simp), Nat.ofDigits_replicate_zero, add_zero]
    · rfl
    · intro i _
      rw [getD_eq_getElem?_getD, getElem?_replicate]
      split <;> rfl

/-! ## Division -/

/-- The shift-and-subtract loop of `big_div`, counting the bit index down. -/
def divLoop (den : Big) : ℕ → Big → List ℕ → Big × List ℕ
  | 0, r, q => (r, q)
  | i + 1, r, q =>
    let t := bigShl den i
    if 0 ≤ bigCmp r t then
      divLoop den i (bigSub r t) (q.modify (i / 32) (· ||| 1 <<< (i % 32)))
    else divLoop den i r q

lemma setBit_fits (h : Fits (2 ^ 32) q) (i : ℕ) : Fits (2 ^ 32) (q.modify (i / 32) (· ||| 1 <<< (i % 32))) := by
  refine fits_modify h _ fun x hx => or_lt_two_pow hx ?_
  rw [one_shiftLeft]
  exact Nat.pow_lt_pow_right (by norm_num) (mod_lt _ (by norm_num))

lemma divLoop_fits (den : Big) (i : ℕ) (r : Big) (h : Fits (2 ^ 32) q) : Fits (2 ^ 32) (divLoop den i r q).2 := by
  induction i generalizing r q with
  | zero => exact h
  | succ i ih =>
    rw [divLoop]
    split
    · exact ih _ (setBit_fits h i)
    · exact ih _ h

/-- `big_div`: the quotient, and whether the division left a remainder. -/
def bigDiv (num den : Big) : Big × Bool :=
  let s := bigBitlen num - bigBitlen den
  let rq := divLoop den (s + 1).toNat num (replicate (cInt (s / 32) + 2).toNat 0)
  (bigTrim rq.2 (divLoop_fits den _ num (fits_replicate_zero (by norm_num) _)),
    !bigIsZero rq.1)

/-- The loop of `big_div`: the remainder stays below the divisor shifted by the bits left. -/
lemma divLoop_spec (den : Big) (hden : 0 < den.val) (i : ℕ) (r : Big) (q : List ℕ) (hi : i < 2 ^ 36)
    (hr : r.val < den.val * 2 ^ i) (hq : Fits (2 ^ 32) q) (hlen : i ≤ q.length * 32) (hdvd : 2 ^ i ∣ ofDigits (2 ^ 32) q) :
    (divLoop den i r q).1.val = r.val % den.val ∧ ofDigits (2 ^ 32) (divLoop den i r q).2 = ofDigits
    (2 ^ 32) q + r.val / den.val := by
  induction i generalizing r q with
  | zero =>
    rw [pow_zero, mul_one] at hr
    rw [divLoop, mod_eq_of_lt hr, div_eq_of_lt hr]
    exact ⟨rfl, rfl⟩
  | succ i ih =>
    have ht := bigShl_val den (k := i) (by omega)
    have hdvd' : 2 ^ i ∣ ofDigits (2 ^ 32) q := (pow_dvd_pow 2 (le_succ i)).trans hdvd
    rw [divLoop]
    simp only [bigCmp_nonneg, ht]
    split_ifs with hle
    · have hsub := bigSub_val (a := r) (by rw [ht]; exact hle)
      rw [ht] at hsub
      have hclear : (ofDigits (2 ^ 32) q).testBit i = false := by
        obtain ⟨k, hk⟩ := hdvd
        rw [hk, testBit_two_pow_mul]
        simp
      have hmod := ofDigits_modify_or (by norm_num) hq (i := i) (by omega) hclear
      obtain ⟨h1, h2⟩ := ih (bigSub r (bigShl den i)) _ (by omega)
        (by rw [hsub]; rw [pow_succ, ← mul_assoc] at hr; omega) (setBit_fits hq i)
        (by rw [length_modify]; omega)
        (by rw [hmod]; exact (Nat.dvd_add_right hdvd').2 dvd_rfl)
      rw [h1, h2, hmod, hsub]
      obtain ⟨k, hk⟩ := Nat.exists_eq_add_of_le hle
      rw [hk, Nat.add_sub_cancel_left, mul_add_mod, mul_add_div hden, add_assoc]
      exact ⟨rfl, rfl⟩
    · exact ih r q (by omega) (by omega) hq (by omega) hdvd'

/-- `big_div` gives the quotient, and whether a remainder is left. -/
lemma bigDiv_spec {num den : Big} (hden : 0 < den.val) (hle : den.val.size ≤ num.val.size) (hnum : num.val.size < 2 ^ 35) :
    (bigDiv num den).1.val = num.val / den.val ∧ ((bigDiv num den).2 = true ↔ num.val % den.val ≠ 0) := by
  obtain ⟨s, hs⟩ := Nat.exists_eq_add_of_le hle
  have hs' : bigBitlen num - bigBitlen den = s := by
    rw [bigBitlen_eq, bigBitlen_eq, hs]
    omega
  have hw : (cInt (s / 32) + 2).toNat = s / 32 + 2 := by
    rw [cInt_of_range (by omega) (by omega)]
    omega
  have hr : num.val < den.val * 2 ^ (s + 1) := by
    obtain ⟨k, hk⟩ := exists_eq_succ_of_ne_zero (fun h0 => hden.ne' (Nat.size_eq_zero.1 h0) : den.val.size ≠ 0)
    have hden' : 2 ^ k ≤ den.val := Nat.lt_size.1 (by omega)
    calc num.val < 2 ^ num.val.size := lt_size_self _
      _ = 2 ^ k * 2 ^ (s + 1) := by rw [hs, hk, succ_add_eq_add_succ, pow_add]
      _ ≤ _ := Nat.mul_le_mul_right _ hden'
  obtain ⟨h1, h2⟩ := divLoop_spec den hden (s + 1) num (replicate (s / 32 + 2) 0)
    (by omega) hr (fits_replicate_zero (by norm_num) _) (by rw [length_replicate]; omega)
    (by rw [Nat.ofDigits_replicate_zero]; exact dvd_zero _)
  have hcast : ((s : ℤ) + 1).toNat = s + 1 := by omega
  rw [Nat.ofDigits_replicate_zero, zero_add] at h2
  simp only [bigDiv, hs', hw, hcast]
  refine ⟨by rw [bigTrim_val, h2], ?_⟩
  rw [Bool.not_eq_true', ← Bool.not_eq_true, bigIsZero_iff, h1]

end EmbCC.LdFloat
