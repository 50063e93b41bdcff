import EmbCC.Opt.DivMagic.Emit

/-!
# The lowerings divide

The lowerings of `pass_divmagic` for a dividend of any size: `shiftHigh_gives` and
`correctHigh_gives` for what follows the multiplication, then one lemma for each
lowering and for the choice between them, and at the end the instruction the pass
replaces. The pass reads the constant as a `long`, C its low 32 bits, and
`rewriteIns_exact_iff` says which constants that does not hurt.
-/

namespace EmbCC.Opt.DivMagic

open Int Ir Function
open Bool (false_eq_true)

/-! ## What follows the multiplication -/

lemma log2Pow2L_eq_some {v k : ℕ} (h : log2Pow2L v = some k) : v = 2 ^ k := by
  simp only [log2Pow2L] at h
  split_ifs at h with hc
  push Not at hc
  obtain ⟨j, rfl⟩ := (Nat.and_sub_one_eq_zero_iff_isPowerOfTwo hc.1).1 hc.2
  rw [← Option.some.inj h, Nat.log2_two_pow]

lemma log2Pow2L_eq_none {v : ℕ} (h : log2Pow2L v = none) (k : ℕ) : v ≠ 2 ^ k := by
  rintro rfl
  simp only [log2Pow2L] at h
  split_ifs at h with hc
  rcases hc with hc | hc
  · exact absurd hc (by positivity)
  · exact hc ((Nat.and_sub_one_eq_zero_iff_isPowerOfTwo (by positivity)).2 ⟨k, rfl⟩)

lemma toInt32_emod (z : ℤ) : toInt32 z % 2 ^ 32 = z % 2 ^ 32 := by
  rw [toInt32, bmod]
  split_ifs <;> omega

lemma u32_word_toInt32 {n : ℕ} (h : n < 2 ^ 32) : u32 (word (toInt32 n)) = n := by
  rw [word_congr (toInt32_emod n), u32_word_of_lt h]

section
variable {temps0 : ℤ → Option Val} {e0 e : Buf} {x hi : ℤ} {X H : BitVec 64}
variable {a b : BitVec 64} {t D k c : ℤ} {sh d m s : ℕ} {mg : Magics}

lemma dmShr_unsigned (h : Holds temps0 e0 e hi H) {n : ℕ} (hn : u32 H = n) (hs : s < 32)
    (hword : s = 0 → H = word n) : Gives temps0 e0 e (dmShr e hi s false) (word (n / 2 ^ s : ℕ)) := by
  rw [dmShr]
  split_ifs with h0
  · exact hn ▸ shru_gives h hs
  · obtain rfl : s = 0 := not_not.1 h0
    simpa [hword rfl] using Gives.of_holds h

lemma half_add {x' h' : ℕ} (hs : 1 ≤ s) (hle : h' ≤ x') : ((x' - h') / 2 + h') / 2 ^ (s - 1) = (x' + h') / 2 ^ s := by
  obtain ⟨k, rfl⟩ : ∃ k, s = k + 1 := ⟨s - 1, by omega⟩
  rw [pow_succ', ← Nat.div_div_eq_div_mul, Nat.add_sub_cancel]
  congr 1
  omega

lemma u32_word_sub (h : u32 b ≤ u32 a) : u32 (word (s32 a - s32 b)) = u32 a - u32 b := by
  have ha := s32_emod a
  have hb := s32_emod b
  rw [u32_word]
  omega

lemma u32_word_add (h : u32 a + u32 b < 2 ^ 32) : u32 (word (s32 a + s32 b)) = u32 a + u32 b := by
  have ha := s32_emod a
  have hb := s32_emod b
  rw [u32_word]
  omega

/-- From the high half to the unsigned quotient, with a multiplier of 32 bits or of 33. -/
lemma shiftHigh_gives {mg : Magicu} (hmg : UnsignedMagic d mg m) (hx : Holds temps0 e0 e x X) (hh : Holds temps0 e0 e hi H)
    (hH : u32 H = u32 X * mg.m / 2 ^ 32) (hword : mg.s = 0 → H = word (u32 X * mg.m / 2 ^ 32 : ℕ)) : Gives temps0 e0 e
    (shiftHigh e x hi mg.add mg.s) (word (u32 X / d : ℕ)) := by
  have hX := u32_lt X
  have hdiv := hmg.div _ hX
  have hs := hmg.s_le
  rw [pow_add, ← Nat.div_div_eq_div_mul, hmg.m_eq] at hdiv
  cases hadd : mg.add with
  | false =>
    rw [hadd] at hs hdiv
    rw [← hdiv]
    exact dmShr_unsigned hh hH (Nat.lt_succ_of_le hs) hword
  | true =>
    have hpos := hmg.s_pos hadd
    rw [hadd] at hs hdiv
    simp only [if_true] at hs hdiv
    have hle : u32 H ≤ u32 X := by
      rw [hH]
      refine Nat.div_le_of_le_mul ?_
      rw [Nat.mul_comm]
      exact Nat.mul_le_mul_right _ hmg.m_lt.le
    have hsum : u32 X * (mg.m + 2 ^ 32) / 2 ^ 32 = u32 X + u32 H := by
      rw [hH, Nat.mul_add, Nat.add_mul_div_right _ _ (by norm_num), Nat.add_comm]
    rw [hsum, ← half_add hpos hle] at hdiv
    have h4 := sub_gives hx hh false
    have h5 := shru_gives h4.holds (k := 1) (by norm_num)
    rw [u32_word_sub hle, pow_one] at h5
    have hu5 : u32 (word ((u32 X - u32 H) / 2 : ℕ)) = (u32 X - u32 H) / 2 := u32_word_of_lt (by omega)
    have h6 := add_gives h5.holds (h5.keeps (h4.keeps hh)) false
    have hu6 := u32_word_add (a := word ((u32 X - u32 H) / 2 : ℕ)) (b := H) (by omega)
    have h46 := (h4.trans h5).trans h6
    rw [hu5] at hu6
    rw [← hdiv]
    simp only [shiftHigh, Bool.not_true, false_eq_true, if_false]
    split_ifs with h1
    · have h7 := shru_gives h6.holds (k := mg.s - 1) (by omega)
      rw [hu6] at h7
      exact h46.trans h7
    · obtain h0 : mg.s - 1 = 0 := by omega
      rw [h0, pow_zero, Nat.div_one, ← hu6, word_u32_word]
      exact h46

lemma mul_lt_two_pow {a b : ℕ} (ha : a < 2 ^ 32) (hb : b < 2 ^ 32) : a * b < 2 ^ 64 :=
  (Nat.mul_lt_mul'' ha hb).trans_le (by norm_num)

lemma high_lt {a b : ℕ} (ha : a < 2 ^ 32) (hb : b < 2 ^ 32) : a * b / 2 ^ 32 < 2 ^ 32 :=
  Nat.div_lt_of_lt_mul ((mul_lt_two_pow ha hb).trans_le (by norm_num))

/-! ## Unsigned lowerings -/

lemma mulhUnsigned_gives {mg : Magicu} (hx : Holds temps0 e0 e x X) (hmg : UnsignedMagic d mg m) :
    Gives temps0 e0 e (mulhUnsigned e x mg) (word (u32 X / d : ℕ)) := by
  have hh := dmOpC_gives hx rfl (.inl rfl) (v := toInt32 mg.m) (foldBin_mulhu4 X _ .eq)
  rw [norm_ofInt, u32_word_toInt32 hmg.m_lt] at hh
  exact hh.trans (shiftHigh_gives hmg (hh.keeps hx) hh.holds
    (u32_word_of_lt (high_lt (u32_lt X) hmg.m_lt)) fun _ => rfl)

/-- `dm_div32`, unsigned: a shift, a comparison or a multiplication. -/
lemma dmDiv32_unsigned (hx : Holds temps0 e0 e x X) (hd : (D % 2 ^ 32).toNat = d) (h1 : 1 ≤ d) :
    ∃ r, dmDiv32 e x D false = some r ∧ Gives temps0 e0 e r (word (u32 X / d : ℕ)) := by
  have hX := u32_lt X
  have hlt : d < 2 ^ 32 := by omega
  simp only [dmDiv32, hd, Bool.not_false, if_true]
  split
  next k hk =>
    obtain rfl := log2Pow2L_eq_some hk
    exact ⟨_, rfl, shru_gives hx ((Nat.pow_lt_pow_iff_right (by norm_num)).1 hlt)⟩
  next hnone =>
    have hne := log2Pow2L_eq_none hnone 0
    split_ifs with hbig
    · have hc := dmConst_gives hx (toInt32 d) 4
      obtain ⟨temps, hran, -, hxv⟩ := hc.keeps hx
      obtain ⟨temps', hran', -, hcv⟩ := hc.holds
      obtain rfl := hran.unique hran'
      rw [norm_ofInt] at hcv
      have hge := foldBin_geu4 X (word (toInt32 d))
      rw [u32_word_toInt32 hlt] at hge
      have hquot : ((u32 X / d : ℕ) : ℤ) = if d ≤ u32 X then 1 else 0 := by
        split_ifs with hle
        · rw [show u32 X / d = 1 from Nat.div_eq_of_lt_le (by omega) (by omega)]
          rfl
        · rw [Nat.div_eq_of_lt (by omega)]
          rfl
      rw [hquot]
      exact ⟨_, rfl, hc.trans (.push hran (execIns_binary rfl (.inl rfl) rfl rfl hxv hcv hge))⟩
    · obtain ⟨mg, m, hmagic, hmg⟩ := magicU32_spec (show 2 ≤ d by omega) hlt
      exact ⟨_, by rw [hmagic, Option.map_some], mulhUnsigned_gives hx hmg⟩

/-- The unsigned lowering through a 64-bit multiply. -/
lemma divUnsigned64_gives {mg : Magicu} (nd : Bool) (hx : Holds temps0 e0 e x X) (h2 : 2 ≤ d)
    (hmg : UnsignedMagic d mg m) : Gives temps0 e0 e (divUnsigned64 nd e x mg) (word (u32 X / d : ℕ)) := by
  have hX := u32_lt X
  have hprod := mul_lt_two_pow hX hmg.m_lt
  have hhalf : u32 X / d < 2 ^ 31 := Nat.div_lt_of_lt_mul (by nlinarith)
  have hword : word (u32 X / d : ℕ) = BitVec.ofInt 64 (u32 X / d : ℕ) :=
    word_eq_ofInt (le_trans (by norm_num) (natCast_nonneg _)) (by exact_mod_cast hhalf)
  have hxe := ext_gives hx false
  rw [foldExt_unsigned] at hxe
  have hhi := dmOpC_gives hxe.holds rfl (.inr rfl) (v := mg.m) (foldBin_mul8 .eq false)
  have hto := (hxe.trans hhi).keeps hx
  simp only [divUnsigned64]
  by_cases hfold : (!mg.add && decide (mg.s > 0) && !nd) = true
  · simp only [hfold]
    simp only [Bool.and_eq_true, Bool.not_eq_true'] at hfold
    obtain ⟨⟨hadd, -⟩, -⟩ := hfold
    have hs := hmg.s_le
    have hm := hmg.m_eq
    have hdiv := hmg.div _ hX
    simp only [hadd, false_eq_true, if_false, Nat.add_zero] at hs hm
    have hsh := dmOpC_gives hhi.holds rfl (.inr rfl) (foldBin_shru8 .eq hprod (k := 32 + mg.s) (by omega))
    rw [hm] at hdiv
    rw [hdiv, ← hword] at hsh
    simpa [shiftHigh, dmShr, hadd] using (hxe.trans hhi).trans hsh
  · simp only [hfold]
    have hsh := dmOpC_gives hhi.holds rfl (.inr rfl) (foldBin_shru8 .eq hprod (k := 32) (by omega))
    have hhigh := high_lt hX hmg.m_lt
    refine ((hxe.trans hhi).trans hsh).trans (shiftHigh_gives hmg (hsh.keeps hto) hsh.holds (u32_ofInt hhigh) fun h0 => ?_)
    have hadd : mg.add = false := by
      cases h : mg.add with
      | false => rfl
      | true => have := hmg.s_pos h; omega
    have hdiv := hmg.div _ hX
    rw [hmg.m_eq, hadd, h0] at hdiv
    simp only [false_eq_true, if_false, Nat.add_zero] at hdiv
    rw [hdiv, hword]

lemma dmShr_signed (h : Holds temps0 e0 e t (word k)) (h1 : -2 ^ 31 ≤ k) (h2 : k < 2 ^ 31) (hs : s < 32) :
    Gives temps0 e0 e (dmShr e t s true) (word (k / 2 ^ s)) := by
  rw [dmShr]
  split_ifs with h0
  · have := shrs_gives h hs
    rwa [s32_word_of_lt h1 h2] at this
  · obtain rfl : s = 0 := not_not.1 h0
    simpa using Gives.of_holds h

/-! ## Signed lowerings -/

/-- What is added to the high half of `x * c`, where `c` is the signed reading of the multiplier. -/
def correction (x D c : ℤ) : ℤ :=
  if D > 0 ∧ c < 0 then x else if D < 0 ∧ c > 0 then -x else 0

lemma word_add_left (a b : ℤ) : word (s32 (word a) + b) = word (a + b) := by
  have := s32_emod (word a)
  rw [u32_word] at this
  exact word_congr (by omega)

/-- From the high half to the quotient rounded toward zero. -/
lemma correctHigh_gives (hx : Holds temps0 e0 e x X) (ht : Holds temps0 e0 e t (word k)) (hs : s < 32)
    (h1 : -2 ^ 31 ≤ k + correction (s32 X) D c) (h2 : k + correction (s32 X) D c < 2 ^ 31) :
    Gives temps0 e0 e (correctHigh e x t D c s) (word ((k + correction (s32 X) D c) / 2 ^ s +
        if (k + correction (s32 X) D c) / 2 ^ s < 0 then 1 else 0)) := by
  have hcorr : Gives temps0 e0 e (if D > 0 ∧ c < 0 then dmOp e .add t x 4 true 0 else if D < 0
        ∧ c > 0 then dmOp e .sub t x 4 true 0 else (t, e)) (word (k + correction (s32 X) D c)) := by
    rw [correction]
    split_ifs
    · have := add_gives ht hx true
      rwa [word_add_left] at this
    · have := sub_gives ht hx true
      rwa [sub_eq_add_neg, word_add_left] at this
    · simpa using Gives.of_holds ht
  generalize k + correction (s32 X) D c = h at *
  have hsh := dmShr_signed hcorr.holds h1 h2 hs
  have hpow : (0 : ℤ) < 2 ^ s := by positivity
  have hq1 : -2 ^ 31 ≤ h / 2 ^ s := by
    rw [Int.le_ediv_iff_mul_le hpow]
    nlinarith [show (1 : ℤ) ≤ 2 ^ s from hpow]
  have hq2 : h / 2 ^ s < 2 ^ 31 := by
    rw [Int.ediv_lt_iff_lt_mul hpow]
    nlinarith [show (1 : ℤ) ≤ 2 ^ s from hpow]
  generalize h / 2 ^ s = q at *
  have hsb := shru_gives hsh.holds (k := 31) (by norm_num)
  have hbit : ((u32 (word q) / 2 ^ 31 : ℕ) : ℤ) = if q < 0 then 1 else 0 := by
    rw [u32_word]
    split_ifs <;> omega
  rw [hbit] at hsb
  have hadd := add_gives (hsb.keeps hsh.holds) hsb.holds true
  rw [word_add_left, s32_word_of_lt (by split_ifs <;> norm_num) (by split_ifs <;> norm_num)] at hadd
  exact ((hcorr.trans hsh).trans hsb).trans hadd

section
variable (hmg : SignedMagic D mg m) (hD : D ≠ 0)
include hmg hD

lemma correction_spec (x : ℤ) (hc : c = mg.m ∨ c = toInt32 mg.m) :
    (if D < 0 then -x else x) * m = x * c + correction x D c * 2 ^ 32 ∧ -2 ^ 31 ≤ c ∧ c ≤ 2 ^ 31 := by
  have hm := hmg.m_lt
  have hmod : bmod m (2 ^ 32) = if m < 2 ^ 31 then (m : ℤ) else m - 2 ^ 32 := by
    rw [bmod]
    split_ifs <;> omega
  have heq := hmg.m_eq
  rw [hmod] at heq
  have hwrap : toInt32 mg.m = if D < 0 ∧ m = 2 ^ 31 then -2 ^ 31 else mg.m := by
    rw [toInt32, heq, bmod]
    split_ifs <;> omega
  rw [hwrap] at hc
  simp only [correction]
  have hc' : c = mg.m ∨ (D < 0 ∧ m = 2 ^ 31 ∧ c = -2 ^ 31) := by
    split_ifs at hc with h
    · exact hc.imp_right fun hc => ⟨h.1, h.2, hc⟩
    · exact .inl (hc.elim id id)
  rcases hc' with rfl | ⟨hneg, hm', rfl⟩
  · rw [heq]
    refine ⟨?_, by split_ifs <;> omega⟩
    split_ifs <;> first | omega | ring
  · rw [hm', if_pos hneg, if_neg (by omega), if_neg (by omega)]
    refine ⟨?_, le_rfl, by norm_num⟩
    push_cast
    ring

lemma SignedMagic.tdiv {x : ℤ} (h1 : -2 ^ 31 ≤ x) (h2 : x < 2 ^ 31) : (if D < 0 then -x else x) * m / 2 ^ (32 + mg.s) +
      (if (if D < 0 then -x else x) * m / 2 ^ (32 + mg.s) < 0 then 1 else 0) = x.tdiv D := by
  rcases lt_or_gt_of_ne hD with hneg | hpos
  · rw [if_pos hneg, hmg.div (-x) (by omega) (by omega) (by omega), show D.natAbs = -D by omega, Int.neg_tdiv_neg]
  · rw [if_neg (by omega), hmg.div x h1 (by omega) (fun _ => h2), show D.natAbs = D by omega]

/-- With a multiplier for the divisor that is C's quotient. -/
lemma correctHigh_tdiv (hc : c = mg.m ∨ c = toInt32 mg.m) (hx : Holds temps0 e0 e x X)
    (ht : Holds temps0 e0 e t (word (s32 X * c / 2 ^ 32))) :
    Gives temps0 e0 e (correctHigh e x t D c mg.s) (word ((s32 X).tdiv D)) := by
  have h1 := le_s32 X
  have h2 := s32_lt X
  obtain ⟨hprod, -⟩ := correction_spec hmg hD (s32 X) hc
  have hm : m < 2 ^ 32 := by exact_mod_cast hmg.m_lt
  have heq : s32 X * c / 2 ^ 32 + correction (s32 X) D c = (if D < 0 then -s32 X else s32 X) * m / 2 ^ 32 := by
    rw [hprod, add_mul_ediv_right _ _ (by norm_num)]
  have hlow : -2 ^ 31 ≤ s32 X * c / 2 ^ 32 + correction (s32 X) D c := by
    rw [heq, Int.le_ediv_iff_mul_le (by norm_num)]
    split_ifs <;> nlinarith
  have hhigh : s32 X * c / 2 ^ 32 + correction (s32 X) D c < 2 ^ 31 := by
    rw [heq, Int.ediv_lt_iff_lt_mul (by norm_num)]
    split_ifs <;> nlinarith
  have hs := hmg.s_le
  have := correctHigh_gives hx ht (s := mg.s) (by omega) hlow hhigh
  rwa [heq, ediv_ediv_of_nonneg (by norm_num), ← pow_add, hmg.tdiv hD h1 h2] at this

end

lemma mulhSigned_gives (hx : Holds temps0 e0 e x X) (hmg : SignedMagic D mg m) (hD : D ≠ 0) :
    Gives temps0 e0 e (mulhSigned e x D mg) (word ((s32 X).tdiv D)) := by
  have hh := dmOpC_gives hx rfl (.inl rfl) (v := toInt32 mg.m) (foldBin_mulhs4 X _ .eq)
  rw [norm_ofInt, s32_word, show (toInt32 mg.m).bmod (2 ^ 32) = toInt32 mg.m from bmod_bmod] at hh
  exact hh.trans (correctHigh_tdiv hmg hD (.inr rfl) (hh.keeps hx) hh.holds)

/-- The signed lowering through a 64-bit multiply. -/
lemma divSigned64_gives (nd : Bool) (hx : Holds temps0 e0 e x X) (hmg : SignedMagic D mg m) (hD : D ≠ 0) :
    Gives temps0 e0 e (divSigned64 nd e x D mg) (word ((s32 X).tdiv D)) := by
  have h1 := le_s32 X
  have h2 := s32_lt X
  obtain ⟨hspec, hc1, hc2⟩ := correction_spec hmg hD (s32 X) (.inl rfl)
  have hlow : -2 ^ 62 ≤ s32 X * mg.m := by nlinarith
  have hhigh : s32 X * mg.m ≤ 2 ^ 62 := by nlinarith
  have hs := hmg.s_le
  have hxe := ext_gives hx true
  rw [foldExt_signed] at hxe
  have hhi := dmOpC_gives hxe.holds rfl (.inr rfl) (v := mg.m) (foldBin_mul8 .eq true)
  have hto := (hxe.trans hhi).keeps hx
  have hbound : ∀ f, -2 ^ 31 ≤ s32 X * mg.m / 2 ^ (32 + f) ∧
      s32 X * mg.m / 2 ^ (32 + f) < 2 ^ 31 := fun f => by
    have hf : 1 ≤ 2 ^ f := one_le_pow₀ (by norm_num)
    rw [Int.le_ediv_iff_mul_le (by positivity), Int.ediv_lt_iff_lt_mul (by positivity), pow_add]
    constructor <;> nlinarith
  have hsh : ∀ f ≤ 30, Gives temps0 e0 _ (dmOpC _ .shr _ ((32 + f : ℕ) : ℤ) 8 true)
      (word (s32 X * mg.m / 2 ^ (32 + f))) := fun f hf => by
    rw [word_eq_ofInt (hbound f).1 (hbound f).2]
    exact dmOpC_gives hhi.holds rfl (.inr rfl) (foldBin_shrs8 .eq (by omega) (by omega) (by omega))
  simp only [divSigned64]
  by_cases hfold : (!(D > 0 ∧ mg.m < 0) && !(D < 0 ∧ mg.m > 0) && decide (mg.s > 0) && !nd) = true
  · simp only [hfold]
    simp only [Bool.and_eq_true, Bool.not_eq_true', decide_eq_false_iff_not] at hfold
    obtain ⟨⟨⟨hn1, hn2⟩, -⟩, -⟩ := hfold
    have hzero : correction (s32 X) D mg.m = 0 := by rw [correction, if_neg hn1, if_neg hn2]
    have hg := hsh mg.s hs
    have := correctHigh_gives (hg.keeps hto) hg.holds (s := 0) (by norm_num)
      (by rw [hzero]; linarith [hbound mg.s]) (by rw [hzero]; linarith [hbound mg.s])
    rw [hzero, add_zero, pow_zero, ediv_one] at this
    rw [hzero, zero_mul, add_zero] at hspec
    rw [← hspec, hmg.tdiv hD h1 h2] at this
    exact ((hxe.trans hhi).trans hg).trans this
  · simp only [hfold]
    have hg := hsh 0 (by norm_num)
    exact ((hxe.trans hhi).trans hg).trans (correctHigh_tdiv hmg hD (.inl rfl) (hg.keeps hto) hg.holds)

/-! ## Powers of two -/

lemma tdiv_two_pow (x : ℤ) (k : ℕ) : x.tdiv (2 ^ k) = (x + if x < 0 then 2 ^ k - 1 else 0) / 2 ^ k := by
  have hpow : (0 : ℤ) < 2 ^ k := by positivity
  split_ifs with h
  · obtain ⟨n, rfl⟩ : ∃ n, x = -n := ⟨-x, by omega⟩
    have hdiv := mul_ediv_add_emod n (2 ^ k)
    have hsplit : -n + (2 ^ k - 1) = (2 ^ k - 1 - n % 2 ^ k) + -(n / 2 ^ k) * 2 ^ k := by linarith
    have hzero : (2 ^ k - 1 - n % 2 ^ k) / 2 ^ k = 0 := ediv_eq_zero_of_lt (by omega) (by omega)
    rw [Int.neg_tdiv, tdiv_eq_ediv_of_nonneg (by omega), hsplit, add_mul_ediv_right _ _ hpow.ne', hzero, zero_add]
  · rw [add_zero, tdiv_eq_ediv_of_nonneg (by omega)]

lemma bias_eq (X : BitVec 64) (hlt : sh < 32) : ((u32 (word (s32 X / 2 ^ 31)) / 2 ^ (32 - sh) : ℕ) : ℤ) =
      if s32 X < 0 then 2 ^ sh - 1 else 0 := by
  have h1 := le_s32 X
  have h2 := s32_lt X
  rw [u32_word]
  split_ifs with hneg
  · have hall : (s32 X / 2 ^ 31 % 2 ^ 32).toNat = 2 ^ (32 - sh) * 2 ^ sh - 1 := by
      rw [← pow_add, Nat.sub_add_cancel (by omega)]
      omega
    have hone : 1 ≤ 2 ^ sh := Nat.one_le_two_pow
    have hdiv : (2 ^ (32 - sh) * 2 ^ sh - 1) / 2 ^ (32 - sh) = 2 ^ sh - 1 := by
      rw [Nat.mul_sub_div _ _ _ (by positivity)]
      simp
    rw [hall, hdiv]
    push_cast [hone]
    ring
  · rw [show s32 X / 2 ^ 31 = 0 by omega]
    simp

/-- The shifts for a power of two, with the bias that rounds toward zero. -/
lemma divPow2_gives (hx : Holds temps0 e0 e x X) (h0 : sh ≠ 0) (hD : D = 2 ^ sh ∨ D = -2 ^ sh) (hlt : sh < 32) :
    Gives temps0 e0 e (divPow2 e x D sh) (word ((s32 X).tdiv D)) := by
  have h1 := le_s32 X
  have h2 := s32_lt X
  have hpow : (1 : ℤ) ≤ 2 ^ sh := one_le_pow₀ (by norm_num)
  have hpow' : (2 : ℤ) ^ sh ≤ 2 ^ 31 := pow_le_pow_right₀ (by norm_num) (by omega)
  have hg1 := shrs_gives hx (k := 31) (by norm_num)
  have hg2 := shru_gives hg1.holds (k := 32 - sh) (by omega)
  rw [bias_eq X hlt] at hg2
  have hg3 := add_gives (hg2.keeps (hg1.keeps hx)) hg2.holds true
  rw [s32_word_of_lt (by split_ifs <;> omega) (by split_ifs <;> omega)] at hg3
  have hg4 := shrs_gives hg3.holds hlt
  rw [s32_word_of_lt (by split_ifs <;> omega) (by split_ifs <;> omega), ← tdiv_two_pow] at hg4
  have hq := ((hg1.trans hg2).trans hg3).trans hg4
  simp only [divPow2, if_neg h0]
  rcases hD with rfl | rfl
  · rw [if_neg (by omega)]
    exact hq
  · rw [if_pos (by omega), Int.tdiv_neg]
    have hz := dmConst_gives hg4.holds 0 4
    rw [norm_ofInt] at hz
    have hsub := sub_gives hz.holds (hz.keeps hg4.holds) true
    rw [sub_eq_add_neg, word_add_left, zero_add] at hsub
    have hneg : word (-s32 (word ((s32 X).tdiv (2 ^ sh)))) = word (-(s32 X).tdiv (2 ^ sh)) := by
      have := s32_emod (word ((s32 X).tdiv (2 ^ sh)))
      rw [u32_word] at this
      exact word_congr (by omega)
    rw [hneg] at hsub
    exact (hq.trans hz).trans hsub

/-! ## The quotient -/

/-- C's quotient of the register at 32 bits, which truncates; the divisor is cut to 32 bits. -/
def cDiv (sg : Bool) (X : BitVec 64) (D : ℤ) : ℤ :=
  if sg then (s32 X).tdiv (toInt32 D) else (u32 X : ℤ) / (D % 2 ^ 32)

/-- C's remainder of the register at 32 bits. -/
def cMod (sg : Bool) (X : BitVec 64) (D : ℤ) : ℤ :=
  if sg then (s32 X).tmod (toInt32 D) else (u32 X : ℤ) % (D % 2 ^ 32)

lemma cDiv_unsigned (X : BitVec 64) (D : ℤ) : cDiv false X D = (u32 X / (D % 2 ^ 32).toNat : ℕ) := by
  have : ((D % 2 ^ 32).toNat : ℤ) = D % 2 ^ 32 := toNat_of_nonneg (emod_nonneg _ (by norm_num))
  rw [natCast_div, this]
  rfl

lemma toInt32_of_lt (h1 : -2 ^ 31 ≤ D) (h2 : D < 2 ^ 31) : toInt32 D = D := bmod_eq_of_le (by omega) (by omega)

lemma toInt32_bounds (D : ℤ) : -2 ^ 31 ≤ toInt32 D ∧ toInt32 D < 2 ^ 31 := by
  rw [toInt32, bmod]
  split_ifs <;> omega

lemma magnitude (D : ℤ) : (if D < 0 then -D else D).toNat = D.natAbs := by
  split_ifs <;> omega

lemma quotient_unsigned (T : Target) (hx : Holds temps0 e0 e x X) (h0 : D % 2 ^ 32 ≠ 0)
    (h1 : T.mulh32 = true ∨ D % 2 ^ 32 ≠ 1) :
    ∃ r, quotient T e x D false = some r ∧ Gives temps0 e0 e r (word (cDiv false X D)) := by
  rw [cDiv_unsigned]
  simp only [quotient, false_eq_true, false_and, not_false_eq_true, and_true, if_false]
  split_ifs with hT
  · exact dmDiv32_unsigned hx (by rw [toInt32_emod]) (by omega)
  · have h2 : 2 ≤ (D % 2 ^ 32).toNat := by
      have := h1.resolve_left hT
      omega
    obtain ⟨mg, m, hmagic, hmg⟩ := magicU32_spec h2 (by omega)
    exact ⟨_, by rw [hmagic, Option.map_some], divUnsigned64_gives _ hx h2 hmg⟩

/-- A power of two: the shifts divide by the constant as the pass reads it. -/
lemma quotient_pow2 (T : Target) (hx : Holds temps0 e0 e x X) (hp : log2Pow2L D.natAbs = some sh) (h0 : sh ≠ 0)
    (hlt : sh < 32) : ∃ r, quotient T e x D true = some r ∧ Gives temps0 e0 e r (word ((s32 X).tdiv D)) := by
  have hsh := log2Pow2L_eq_some hp
  have hD : D = 2 ^ sh ∨ D = -2 ^ sh := by
    have : ((2 ^ sh : ℕ) : ℤ) = 2 ^ sh := by push_cast; rfl
    omega
  refine ⟨divPow2 e x D sh, ?_, divPow2_gives hx h0 hD hlt⟩
  simp [quotient, magnitude, hp]

lemma quotient_signed (T : Target) (hx : Holds temps0 e0 e x X) (h1 : D ≠ 1) (hm1 : D ≠ -1) (h0 : D ≠ 0)
    (hlow : -2 ^ 31 ≤ D) (hhigh : D < 2 ^ 31) :
    ∃ r, quotient T e x D true = some r ∧ Gives temps0 e0 e r (word (cDiv true X D)) := by
  have hself := toInt32_of_lt hlow hhigh
  rw [show cDiv true X D = (s32 X).tdiv D by simp only [cDiv, if_true, hself]]
  cases hp : log2Pow2L D.natAbs with
  | some sh =>
    have hsh := log2Pow2L_eq_some hp
    have hne : sh ≠ 0 := by
      rintro rfl
      omega
    exact quotient_pow2 T hx hp hne ((Nat.pow_lt_pow_iff_right (a := 2) (by norm_num)).1 (by omega))
  | none =>
    obtain ⟨mg, m, hmagic, hmg⟩ := magicS32_spec (show 2 ≤ D.natAbs by omega) hlow hhigh
    by_cases hT : T.mulh32 = true
    · exact ⟨_, by simp [quotient, magnitude, hp, hT, dmDiv32, hself, hmagic], mulhSigned_gives hx hmg h0⟩
    · exact ⟨_, by simp [quotient, magnitude, hp, hT, hmagic], divSigned64_gives T.noDivshift hx hmg h0⟩

/-- `dm_div32` is given the divisor cut to 32 bits. -/
lemma quotient_cut {T : Target} (hx : Holds temps0 e0 e x X) (hT : T.mulh32 = true)
    (hp : log2Pow2L D.natAbs = none) (h0 : D % 2 ^ 32 ≠ 0) (h1 : toInt32 D ≠ 1) (hm1 : toInt32 D ≠ -1) :
    ∃ r, quotient T e x D true = some r ∧ Gives temps0 e0 e r (word (cDiv true X D)) := by
  obtain ⟨hlow, hhigh⟩ := toInt32_bounds D
  have hne : toInt32 D ≠ 0 := fun h => h0 (by rw [← toInt32_emod, h]; rfl)
  obtain ⟨mg, m, hmagic, hmg⟩ := magicS32_spec (show 2 ≤ (toInt32 D).natAbs by omega) hlow hhigh
  exact ⟨_, by simp [quotient, magnitude, hp, hT, dmDiv32, hmagic], mulhSigned_gives hx hmg hne⟩

lemma s32_word_modEq (z : ℤ) : s32 (word z) ≡ z [ZMOD 2 ^ 32] := by
  have := s32_emod (word z)
  rw [u32_word] at this
  rw [Int.ModEq]
  omega

lemma toInt32_modEq (D : ℤ) : toInt32 D ≡ D [ZMOD 2 ^ 32] := toInt32_emod D

/-- The remainder from the quotient. -/
lemma sub_cDiv_mul (sg : Bool) (X : BitVec 64) (D : ℤ) : s32 X - cDiv sg X D * D ≡ cMod sg X D [ZMOD 2 ^ 32] := by
  cases sg with
  | true =>
    rw [show cMod true X D = s32 X - cDiv true X D * toInt32 D by
      simp only [cMod, cDiv, if_true]
      rw [tmod_def, mul_comm]]
    exact ((toInt32_modEq D).symm.mul_left _).sub_left _
  | false =>
    have hX : s32 X ≡ u32 X [ZMOD 2 ^ 32] := by
      rw [Int.ModEq, s32_emod, emod_eq_of_lt (by omega) (by exact_mod_cast u32_lt X)]
    rw [show cMod false X D = u32 X - cDiv false X D * (D % 2 ^ 32) by
      simp only [cMod, cDiv, false_eq_true, if_false]
      rw [emod_def, mul_comm]]
    exact hX.sub ((mod_modEq _ _).symm.mul_left _)

lemma mul_gives (hx : Holds temps0 e0 e x X) (v : ℤ) (sg : Bool) :
    Gives temps0 e0 e (dmOpC e .mul x v 4 sg) (word (s32 X * s32 (word v))) := by
  refine dmOpC_gives hx rfl (.inl rfl) ?_
  rw [norm_ofInt, foldBin_mul4]

end

/-! ## The instruction in its place -/

/-- The pass takes the instruction for a division by `D`, and lowers it for a dividend of any size. -/
structure Lowers (T : Target) (fn : Func) (src : Ins) (D : ℤ) : Prop where
  divisor : divisor T fn src = some D
  long : narrowMagic T fn src D = none
  taken : ¬(T.pow2Only ∧ ¬(src.sign ∧ (log2Pow2L (if D < 0 then -D else D).toNat).isSome))

lemma divisor_spec {T : Target} {fn : Func} {src : Ins} {D : ℤ} (h : DivMagic.divisor T fn src = some D) :
    0 ≤ src.dst ∧ D ≠ 1 ∧ (src.sign = true → D ≠ -1) ∧ -2 ^ 63 ≤ D ∧ D < 2 ^ 63 := by
  simp only [DivMagic.divisor] at h
  split_ifs at h with h1
  obtain ⟨c, -, hc⟩ := Option.bind_eq_some_iff.1 h
  split_ifs at hc with h2
  cases hc
  push Not at h1 h2
  have hlow := c.le_toInt
  have hhigh := c.toInt_lt
  refine ⟨h1.2.2.2, h2.2.1, fun hs h => ?_, by simpa using hlow, by simpa using hhigh⟩
  have := (h2.2.2 h).2
  rw [hs] at this
  cases this

lemma Ran.finish {temps temps' : ℤ → Option Val} {e e' : Buf} (h : Ran temps e e' temps') {d : ℤ} (hd : 0 ≤ d)
    {i : Ins} {R : BitVec 64} (hi : execIns temps' i = some (setTemp temps' d (ofLong R))) :
    ∃ code temps'', e'.nb ++ [i] = e.nb ++ code ∧ execSeq temps code = some temps'' ∧
      temps'' d = some (ofLong R) ∧ ∀ t < (e.nv : ℤ), t ≠ d → temps'' t = temps t := by
  obtain ⟨code, hcode, hexec⟩ := h.exec
  refine ⟨code ++ [i], setTemp temps' d (ofLong R), by simp [hcode], ?_, ?_, fun t ht hne => ?_⟩
  · rw [execSeq_append, hexec, Option.bind_some, execSeq_singleton, hi]
  · rw [setTemp, if_neg (by omega), update_self]
  · rw [setTemp, if_neg (by omega), update_of_ne hne, h.keep t ht]

/-- The code in place of `src` is found, and leaves `v` in the destination; no other register there
was before is changed. -/
def Lowered (T : Target) (fn : Func) (src : Ins) (e : Buf) (temps : ℤ → Option Val) (v : ℤ) : Prop :=
  ∃ e' code temps', rewriteIns T fn e src = some e' ∧ e'.nb = e.nb ++ code ∧ e.nv ≤ e'.nv ∧
    execSeq temps code = some temps' ∧ temps' src.dst = some (ofLong (word v)) ∧
    ∀ t < (e.nv : ℤ), t ≠ src.dst → temps' t = temps t

/-- In whatever code and registers it stands, the replacement leaves what C says. -/
def Exact (T : Target) (fn : Func) (src : Ins) (D : ℤ) : Prop :=
  ∀ (e : Buf) (temps : ℤ → Option Val) (X : BitVec 64), src.a < e.nv → temps src.a = some (ofLong X) →
    Lowered T fn src e temps (if src.op = .mod then cMod src.sign X D else cDiv src.sign X D)

section
variable {T : Target} {fn : Func} {src : Ins} {D V : ℤ} {e : Buf} {temps : ℤ → Option Val} {X : BitVec 64}
variable {r : ℤ × Buf}

lemma word_inj {a b : ℤ} (h : word a = word b) : a ≡ b [ZMOD 2 ^ 32] := by
  have := congrArg u32 h
  rw [u32_word, u32_word] at this
  rw [Int.ModEq]
  omega

lemma finish_leaves (hdst : 0 ≤ src.dst) (hX : Holds temps e e src.a X) (hq : Gives temps e e r (word V)) :
    ∃ code temps', (finish r.2 src r.1 D src.sign).nb = e.nb ++ code ∧ execSeq temps code = some temps' ∧
      temps' src.dst = some (ofLong (word (if src.op = .mod then s32 X - V * D else V))) ∧
      ∀ t < (e.nv : ℤ), t ≠ src.dst → temps' t = temps t := by
  rw [finish]
  split_ifs with hmod
  · have hm := mul_gives hq.holds D src.sign
    obtain ⟨temps', hran, -, hxv⟩ := (hq.trans hm).keeps hX
    obtain ⟨temps'', hran', -, hmv⟩ := hm.holds
    obtain rfl := hran.unique hran'
    refine hran.finish hdst (execIns_binary rfl (.inl rfl) rfl rfl hxv hmv ?_)
    rw [foldBin_sub4]
    have hmul : s32 (word (s32 (word V) * s32 (word D))) ≡ V * D [ZMOD 2 ^ 32] :=
      (s32_word_modEq _).trans ((s32_word_modEq _).mul (s32_word_modEq _))
    exact congrArg some (word_congr (hmul.sub_left _))
  · obtain ⟨temps', hran, -, hqv⟩ := hq.holds
    exact hran.finish hdst (by simp [execIns, isCore, valueOpnds, eachRead, evalCore, hqv])

lemma le_finish (e : Buf) (src : Ins) (q D : ℤ) (sg : Bool) : e.nv ≤ (finish e src q D sg).nv := by
  rw [finish]
  split_ifs
  · exact Nat.le_add_right e.nv 2
  · exact le_rfl

lemma Lowers.rewriteIns_eq (hl : Lowers T fn src D) (e : Buf) : rewriteIns T fn e src =
    (quotient T e src.a D src.sign).map fun r => finish r.2 src r.1 D src.sign := by
  rw [rewriteIns, hl.divisor]
  simp only [hl.long]
  rw [if_neg hl.taken]

/-- What the code leaves is what follows from the quotient it computes. -/
lemma lowered_iff (hl : Lowers T fn src D) (ha : src.a < e.nv) (hx : temps src.a = some (ofLong X))
    (hr : quotient T e src.a D src.sign = some r) (hq : Gives temps e e r (word V)) (v : ℤ) :
    Lowered T fn src e temps v ↔ (if src.op = .mod then s32 X - V * D else V) ≡ v [ZMOD 2 ^ 32] := by
  obtain ⟨hdst, -⟩ := divisor_spec hl.divisor
  obtain ⟨code, temps', hnb, hexec, hval, hkeep⟩ :=
    finish_leaves (D := D) hdst ⟨temps, Ran.refl temps e, ha, hx⟩ hq
  have hrw : rewriteIns T fn e src = some (finish r.2 src r.1 D src.sign) := by
    rw [hl.rewriteIns_eq, hr, Option.map_some]
  constructor
  · rintro ⟨e', code', temps'', he, hcode, -, hexec', hval', -⟩
    obtain rfl := Option.some.inj (hrw.symm.trans he)
    obtain rfl := List.append_cancel_left (hnb.symm.trans hcode)
    obtain rfl := Option.some.inj (hexec.symm.trans hexec')
    have := congrArg toLong (Option.some.inj (hval.symm.trans hval'))
    exact word_inj (by simpa using this)
  · intro h
    obtain ⟨_, hran, -⟩ := hq.holds
    exact ⟨_, code, temps', hrw, hnb, hran.le.trans (le_finish ..), hexec, by rw [hval, word_congr h], hkeep⟩

end

/-! ## Which divisors -/

/-- The divisors the code is exact for. A signed one is read as a `long` where C cuts it to 32 bits:
it has to fit, or to be cut by `dm_div32`, whose multiplication does not divide by 1 or -1. `2 ^ 31`
where C divides by `-2 ^ 31` gives the quotient the wrong sign, which a remainder does not show. -/
def Divides (T : Target) (src : Ins) (D : ℤ) : Prop :=
  if src.sign then (-2 ^ 31 ≤ D ∧ D < 2 ^ 31) ∨
    (T.mulh32 ∧ log2Pow2L D.natAbs = none ∧ toInt32 D ≠ 1 ∧ toInt32 D ≠ -1) ∨ (src.op = .mod ∧ D = 2 ^ 31)
  else T.mulh32 ∨ D % 2 ^ 32 ≠ 1

instance (T : Target) (src : Ins) (D : ℤ) : Decidable (Divides T src D) :=
  inferInstanceAs (Decidable (ite ..))

section
variable {T : Target} {fn : Func} {src : Ins} {D : ℤ}

lemma log2Pow2L_top : log2Pow2L ((2 ^ 31 : ℤ).natAbs) = some 31 := by decide

/-- For these divisors every lowering is exact. -/
lemma exact_of_divides (hl : Lowers T fn src D) (h0 : D % 2 ^ 32 ≠ 0) (h : Divides T src D) : Exact T fn src D := by
  obtain ⟨-, h1, hm1, -⟩ := divisor_spec hl.divisor
  intro e temps X ha hx
  have hX : Holds temps e e src.a X := ⟨temps, Ran.refl temps e, ha, hx⟩
  have hgood : (∃ r, quotient T e src.a D src.sign = some r ∧ Gives temps e e r (word (cDiv src.sign X D))) →
      Lowered T fn src e temps (if src.op = .mod then cMod src.sign X D else cDiv src.sign X D) := by
    rintro ⟨r, hr, hq⟩
    rw [lowered_iff hl ha hx hr hq]
    split_ifs
    · exact sub_cDiv_mul src.sign X D
    · rfl
  cases hsg : src.sign with
  | false =>
    rw [hsg] at hgood
    simp only [Divides, hsg, false_eq_true, if_false] at h
    exact hgood (quotient_unsigned T hX h0 h)
  | true =>
    rw [hsg] at hgood
    simp only [Divides, hsg, if_true] at h
    rcases h with ⟨hlow, hhigh⟩ | ⟨hT, hp, h1, hm1⟩ | ⟨hmod, rfl⟩
    · exact hgood (quotient_signed T hX h1 (hm1 hsg) (by rintro rfl; simp at h0) hlow hhigh)
    · exact hgood (quotient_cut hX hT hp h0 h1 hm1)
    · obtain ⟨r, hr, hq⟩ := quotient_pow2 T hX log2Pow2L_top (by norm_num) (by norm_num)
      rw [lowered_iff hl ha hx (by rw [hsg, hr]) hq, if_pos hmod, if_pos hmod]
      have hneg : toInt32 (2 ^ 31) = -2 ^ 31 := rfl
      rw [cMod, if_pos rfl, hneg, Int.tmod_neg, Int.tmod_def, mul_comm]

/-- A dividend whose quotient is wrong. -/
lemma not_exact (hl : Lowers T fn src D) (X : BitVec 64) {V : ℤ}
    (hq : ∀ e temps, Holds temps e e src.a X →
      ∃ r, quotient T e src.a D src.sign = some r ∧ Gives temps e e r (word V))
    (hdiv : src.op ≠ .mod → ¬V ≡ cDiv src.sign X D [ZMOD 2 ^ 32])
    (hmod : src.op = .mod → ¬s32 X - V * D ≡ cMod src.sign X D [ZMOD 2 ^ 32]) : ¬Exact T fn src D := by
  intro h
  have ha : src.a < ((src.a.toNat + 1 : ℕ) : ℤ) := by omega
  obtain ⟨r, hr, hgives⟩ := hq ⟨[], src.a.toNat + 1⟩ _ ⟨fun _ => some (ofLong X), .refl _ _, ha, rfl⟩
  have := (lowered_iff hl ha rfl hr hgives _).1 (h ⟨[], src.a.toNat + 1⟩ _ X ha rfl)
  split_ifs at this with hop
  · exact hmod hop this
  · exact hdiv hop this

section
variable {temps : ℤ → Option Val} {e : Buf} {x : ℤ}

/-- What the 64-bit lowering makes of `1 / 1`: the search finds no multiplier for a divisor of 1. -/
lemma divUnsigned64_one (nd : Bool) (hx : Holds temps e e x (word 1)) :
    Gives temps e e (divUnsigned64 nd e x ⟨0, true, 0⟩) (word 0) := by
  have hxe := ext_gives hx false
  have hhi : Gives temps e _ (dmOpC _ .mul _ (0 : ℕ) 8 false) 0 := dmOpC_gives hxe.holds rfl (.inr rfl) (by decide)
  have hsh : Gives temps e _ (dmOpC _ .shr _ (32 : ℕ) 8 false) 0 := dmOpC_gives hhi.holds rfl (.inr rfl) (by decide)
  have h3 := (hxe.trans hhi).trans hsh
  have h4 : Gives temps e _ (dmOp _ .sub x _ 4 false 0) 1 :=
    dmOp_gives (h3.keeps hx) hsh.holds rfl (.inl rfl) (by decide)
  have h5 : Gives temps e _ (dmOpC _ .shr _ 1 4 false) 0 := dmOpC_gives h4.holds rfl (.inl rfl) (by decide)
  have h6 : Gives temps e _ (dmOp _ .add _ _ 4 false 0) (word 0) :=
    dmOp_gives h5.holds (h5.keeps (h4.keeps hsh.holds)) rfl (.inl rfl) (by decide)
  exact ((h3.trans h4).trans h5).trans h6

/-- What `dm_div32` makes of `1 / 1` and `1 / -1`. -/
lemma mulhSigned_unit {D : ℤ} (hD : D = 1 ∨ D = -1) (hx : Holds temps e e x (word 1)) :
    ∃ mg, magicS32 D = some mg ∧ Gives temps e e (mulhSigned e x D mg) (word 0) := by
  rcases hD with rfl | rfl
  · refine ⟨⟨1, 0⟩, by decide, ?_⟩
    have hh : Gives temps e e (dmOpC e .mulh x 1 4 true) (word 0) := dmOpC_gives hx rfl (.inl rfl) (by decide)
    have := correctHigh_gives (D := 1) (c := 1) (s := 0) (hh.keeps hx) hh.holds (by norm_num) (by decide) (by decide)
    exact hh.trans this
  · refine ⟨⟨-1, 0⟩, by decide, ?_⟩
    have hh : Gives temps e e (dmOpC e .mulh x (-1) 4 true) (word (-1)) := dmOpC_gives hx rfl (.inl rfl) (by decide)
    have := correctHigh_gives (D := -1) (c := -1) (s := 0) (hh.keeps hx) hh.holds (by norm_num) (by decide) (by decide)
    exact hh.trans this

/-- What the 64-bit lowering makes of the least dividend by `2 ^ 31 + 1`, which is `1 - 2 ^ 31` to C. -/
lemma divSigned64_long (nd : Bool) (hx : Holds temps e e x (word (-2 ^ 31))) :
    Gives temps e e (divSigned64 nd e x (2 ^ 31 + 1) ⟨-1, 31⟩) (word 0) := by
  have hxe := ext_gives hx true
  have hhi : Gives temps e _ (dmOpC _ .mul _ (-1) 8 true) (2 ^ 31) := dmOpC_gives hxe.holds rfl (.inr rfl) (by decide)
  have hsh : Gives temps e _ (dmOpC _ .shr _ (32 : ℕ) 8 true) (word 0) :=
    dmOpC_gives hhi.holds rfl (.inr rfl) (by decide)
  have h3 := (hxe.trans hhi).trans hsh
  have hneg : correction (s32 (word (-2 ^ 31))) (2 ^ 31 + 1) (-1) = -2 ^ 31 := by decide
  have hc := correctHigh_gives (D := 2 ^ 31 + 1) (c := -1) (s := 31) (h3.keeps hx) hsh.holds (by norm_num)
    (by rw [hneg]; norm_num) (by rw [hneg]; norm_num)
  rw [hneg] at hc
  exact h3.trans hc

end

/-- A divisor that is no power of two and does not fit has a signed lowering on a 64-bit machine only
if it is `2 ^ 31 + 1`. -/
lemma quotient_long (e : Buf) (x : ℤ) (hT : ¬T.mulh32) (hp : log2Pow2L D.natAbs = none) (h : 2 ^ 31 < D.natAbs)
    (hlong : D.natAbs ≤ 2 ^ 63) (hne : D ≠ 2 ^ 31 + 1) : quotient T e x D true = none := by
  simp [quotient, magnitude, hp, hT, magicS32, searchS_never h hlong hne]

section
variable (hl : Lowers T fn src D)
include hl

lemma not_exact_unsigned (hsg : src.sign = false) (hT : ¬T.mulh32) (hone : D % 2 ^ 32 = 1) : ¬Exact T fn src D := by
  have hmagic : magicU32 (D % 2 ^ 32).toNat = some ⟨0, true, 0⟩ := by
    rw [hone]
    decide
  refine not_exact hl (word 1) (V := 0) (fun e temps hx => ⟨_, ?_, divUnsigned64_one T.noDivshift hx⟩)
    (fun _ => ?_) (fun _ => ?_)
  · simp only [quotient, hsg, hT, hmagic, Option.map_some, false_and, if_false, false_eq_true]
  · rw [hsg, cDiv, if_neg Bool.false_ne_true, hone]
    decide
  · rw [hsg, cMod, if_neg Bool.false_ne_true, hone, zero_mul]
    decide

lemma not_exact_pow2 (hsg : src.sign = true) (hop : src.op ≠ .mod) (hD : D = 2 ^ 31) : ¬Exact T fn src D := by
  subst hD
  refine not_exact hl (word (-2 ^ 31)) (V := -1) (fun e temps hx => ?_) (fun _ => ?_) (fun h => absurd h hop)
  · rw [hsg]
    exact quotient_pow2 T hx log2Pow2L_top (by norm_num) (by norm_num)
  · rw [hsg]
    decide

lemma not_exact_unit (hsg : src.sign = true) (hT : T.mulh32) (hp : log2Pow2L D.natAbs = none)
    (hD : toInt32 D = 1 ∨ toInt32 D = -1) : ¬Exact T fn src D := by
  refine not_exact hl (word 1) (V := 0) (fun e temps hx => ?_) (fun _ => ?_) (fun _ => ?_)
  · obtain ⟨mg, hmagic, hg⟩ := mulhSigned_unit hD hx
    exact ⟨_, by simp [quotient, magnitude, hsg, hp, hT, dmDiv32, hmagic], hg⟩
  · rw [hsg, cDiv, if_pos rfl]
    rcases hD with hD | hD <;> rw [hD] <;> decide
  · rw [hsg, cMod, if_pos rfl, zero_mul]
    rcases hD with hD | hD <;> rw [hD] <;> decide

/-- On a 64-bit machine the search for a longer divisor does not end, or finds a wrong multiplier.
-/
lemma not_exact_long (hsg : src.sign = true) (hT : ¬T.mulh32) (hp : log2Pow2L D.natAbs = none)
    (h : 2 ^ 31 < D.natAbs) (hlong : D.natAbs ≤ 2 ^ 63) : ¬Exact T fn src D := by
  by_cases hD : D = 2 ^ 31 + 1
  · have hmagic : magicS32 D = some ⟨-1, 31⟩ := by
      rw [hD]
      decide +kernel
    refine not_exact hl (word (-2 ^ 31)) (V := 0) (fun e temps hx => ⟨divSigned64 T.noDivshift e src.a D ⟨-1, 31⟩, ?_, ?_⟩)
      (fun _ => ?_) (fun _ => ?_)
    · simp [quotient, magnitude, hsg, hp, hT, hmagic]
    · rw [hD]
      exact divSigned64_long T.noDivshift hx
    · rw [hsg, hD]
      decide
    · rw [hsg, hD]
      decide
  · intro hex
    obtain ⟨e', -, -, he, -⟩ := hex ⟨[], src.a.toNat + 1⟩ (fun _ => some (ofLong 0)) 0 (by dsimp only; omega) rfl
    rw [hl.rewriteIns_eq, hsg, quotient_long _ _ hT hp h hlong hD] at he
    cases he

end

/-- The replacement of a division or a remainder by a constant is what C says for every dividend,
exactly for these divisors. -/
theorem rewriteIns_exact_iff (hl : Lowers T fn src D) (h0 : D % 2 ^ 32 ≠ 0) :
    Exact T fn src D ↔ Divides T src D := by
  refine ⟨fun h => ?_, exact_of_divides hl h0⟩
  by_contra hd
  refine absurd h ?_
  obtain ⟨-, -, -, hlow, hhigh⟩ := divisor_spec hl.divisor
  cases hsg : src.sign with
  | false =>
    simp only [Divides, hsg, false_eq_true, if_false, not_or, not_not] at hd
    exact not_exact_unsigned hl hsg hd.1 hd.2
  | true =>
    simp only [Divides, hsg, if_true, not_or] at hd
    obtain ⟨hfit, hcut, hmod⟩ := hd
    cases hp : log2Pow2L D.natAbs with
    | some sh =>
      -- of the powers of two only `2 ^ 31` has a low word and does not fit
      have hsh := log2Pow2L_eq_some hp
      have hlt : sh < 32 := by
        by_contra hge
        have hdvd : 2 ^ 32 ∣ D.natAbs := hsh ▸ Nat.pow_dvd_pow 2 (by omega)
        omega
      have hD : D = 2 ^ 31 := by
        interval_cases sh <;> omega
      exact not_exact_pow2 hl hsg (fun hop => hmod ⟨hop, hD⟩) hD
    | none =>
      have hne := log2Pow2L_eq_none hp 31
      by_cases hT : T.mulh32 = true
      · exact not_exact_unit hl hsg hT hp (by tauto)
      · exact not_exact_long hl hsg hT hp (by omega) (by omega)

/-- After the pass `code` stands for `src`: it is `src`, or leaves what C says for its divisor, and no other
register of the function is changed. -/
def StandsFor (T : Target) (fn : Func) (src : Ins) (code : List Ins) : Prop :=
  code = [src] ∨ ∃ D, divisor T fn src = some D ∧ ∀ temps X, temps src.a = some (ofLong X) →
    ∃ temps', execSeq temps code = some temps' ∧ temps' src.dst = some (ofLong (word
        (if src.op = .mod then cMod src.sign X D else cDiv src.sign X D))) ∧
      ∀ t < (fn.nvregs : ℤ), t ≠ src.dst → temps' t = temps t

/-- The pass takes only divisors for which its lowering is exact. -/
def ExactDivisors (T : Target) (fn : Func) : Prop :=
  ∀ src ∈ fn.ins, src.a < fn.nvregs ∧ ∀ D, divisor T fn src = some D →
    narrowMagic T fn src D = none ∧ D % 2 ^ 32 ≠ 0 ∧ Divides T src D

lemma rewriteIns_standsFor (h : ExactDivisors T fn) (hsrc : src ∈ fn.ins) (he : fn.nvregs ≤ e.nv) :
    ∃ e' code, rewriteIns T fn e src = some e' ∧ e'.nb = e.nb ++ code ∧ fn.nvregs ≤ e'.nv ∧ StandsFor T fn src code := by
  obtain ⟨ha, hd⟩ := h src hsrc
  cases hD : divisor T fn src with
  | none => exact ⟨⟨e.nb ++ [src], e.nv⟩, [src], by simp only [rewriteIns, hD], rfl, he, .inl rfl⟩
  | some D =>
    obtain ⟨hn, h0, hdiv⟩ := hd D hD
    by_cases hp : T.pow2Only ∧ ¬(src.sign ∧ (log2Pow2L (if D < 0 then -D else D).toNat).isSome)
    · exact ⟨⟨e.nb ++ [src], e.nv⟩, [src], by simp only [rewriteIns, hD, hn, if_pos hp], rfl, he, .inl rfl⟩
    · have hex := fun temps X => exact_of_divides ⟨hD, hn, hp⟩ h0 hdiv e temps X (by omega)
      obtain ⟨e', code, -, hrw, hnb, hle, -⟩ := hex (fun _ => some (ofLong 0)) 0 rfl
      refine ⟨e', code, hrw, hnb, he.trans hle, .inr ⟨D, hD, fun temps X hx => ?_⟩⟩
      obtain ⟨e₁, code₁, temps', hrw₁, hnb₁, -, hexec, hval, hkeep⟩ := hex temps X hx
      obtain rfl := Option.some.inj (hrw.symm.trans hrw₁)
      obtain rfl := List.append_cancel_left (hnb.symm.trans hnb₁)
      exact ⟨temps', hexec, hval, fun t ht => hkeep t (by omega)⟩

/-- The pass ends, and its code is in order what stands for each instruction. -/
theorem passDivmagic_standsFor (h : ExactDivisors T fn) : ∃ g cs, passDivmagic T fn = some g ∧ g.ins = cs.flatten ∧
    List.Forall₂ (StandsFor T fn) fn.ins cs := by
  rw [passDivmagic]
  split_ifs with hoff
  · exact ⟨fn, fn.ins.map ([·]), rfl, (List.flatMap_singleton' _).symm,
      List.forall₂_map_right_iff.2 (List.forall₂_same.2 fun _ _ => .inl rfl)⟩
  · obtain ⟨e, cs, hfold, hnb, hall⟩ := @foldlM_pieces (rewriteIns T fn) (StandsFor T fn) fn.nvregs fn.ins
      { nv := fn.nvregs } (fun _ hsrc _ he => rewriteIns_standsFor h hsrc he) le_rfl
    exact ⟨_, cs, by rw [hfold]; rfl, by simpa using hnb, hall⟩

end

/-- A 64-bit machine. -/
def wide : Target := { ptrSize := 8, hasMulh := false, callsHelper := fun _ => false }

/-- `r1 = r0 / imm`. -/
def divBy (imm : BitVec 64) : Ins := { op := .div, dst := 1, a := 0, w := 4, sign := true, imm, immB := true }

/-- Every dividend by `-7`, on a 64-bit machine. -/
theorem rewriteIns_exact_iff_seven : Exact wide ⟨[], 0, 0, 2, 0, [], []⟩ (divBy (-7)) (-7) ↔
    Divides wide (divBy (-7)) (-7) :=
  rewriteIns_exact_iff ⟨rfl, rfl, by decide⟩ (by decide)

/-- `INT_MIN / (int)0x80000000`, whose divisor the IR holds as 2147483648, is `-1` in the code of a
64-bit machine, and 1 in C. For `(int)0xFFFFFFF9` the pass does not end. -/
theorem rewriteIns_long_divisor :
    Lowers wide ⟨[], 0, 0, 2, 0, [], []⟩ (divBy 0x80000000) 0x80000000 ∧
      Lowered wide ⟨[], 0, 0, 2, 0, [], []⟩ (divBy 0x80000000) ⟨[], 2⟩
        (fun _ => some (ofLong (word (-2 ^ 31)))) (-1) ∧
      cDiv true (word (-2 ^ 31)) 0x80000000 = 1 ∧
      ∀ e, rewriteIns wide ⟨[], 0, 0, 2, 0, [], []⟩ e (divBy 0xFFFFFFF9) = none := by
  have hl : Lowers wide ⟨[], 0, 0, 2, 0, [], []⟩ (divBy 0x80000000) 0x80000000 := ⟨rfl, rfl, by decide⟩
  refine ⟨hl, ?_, by decide, fun e => ?_⟩
  · obtain ⟨r, hr, hq⟩ := quotient_pow2 (e := ⟨[], 2⟩) (x := 0) (D := 0x80000000) (X := word (-2 ^ 31)) wide
      ⟨fun _ => some (ofLong (word (-2 ^ 31))), .refl _ _, by norm_num, rfl⟩ log2Pow2L_top (by norm_num) (by norm_num)
    exact (lowered_iff hl (by decide) rfl hr hq _).2 (by decide)
  · rw [Lowers.rewriteIns_eq (D := 0xFFFFFFF9) ⟨rfl, rfl, by decide⟩]
    rfl

end EmbCC.Opt.DivMagic
