import EmbCC.Rt.SoftfpRound

/-!
# The operations are correctly rounded

`unpack_spec` takes a finite pattern apart. Each operation then has one lemma that its
significand stands for the exact result, and `roundPack_rounds` does the rest. The
lemma at the end collects the four, for all pairs of finite patterns.
-/

namespace EmbCC.Rt

open Nat Rounding

/-! ## Unpacking -/

/-- A nonzero number taken apart: `m` is its magnitude. -/
structure Normal (a : Fp) (m : ℚ) : Prop where
  cls : a.cls = .normal
  low : 2 ^ 55 ≤ a.sig
  high : a.sig < 2 ^ 56
  guard : 8 ∣ a.sig
  magnitude : m = a.sig * 2 ^ (a.exp - 55)

variable {m ma mb : ℚ} {u : BitVec 64}

lemma Normal.pos {a : Fp} (h : Normal a m) : 0 < m := by
  have : (0 : ℚ) < a.sig := by exact_mod_cast (show 0 < a.sig by have := h.low; omega)
  rw [h.magnitude]
  positivity

lemma zpow_eq_mul {a b : ℤ} (k : ℕ) (h : a = b + k) : (2 : ℚ) ^ a = 2 ^ k * 2 ^ b := by
  rw [h, zpow_add₀ (by norm_num), zpow_natCast, mul_comm]

lemma unpack_fields (u : BitVec 64) : (u.toNat >>> 52) &&& expmax = expField u ∧ u.toNat &&& 0xfffffffffffff = fracField u ∧
      u.toNat.testBit 63 = u.msb := by
  refine ⟨?_, ?_, ?_⟩
  · rw [shiftRight_eq_div_pow]
    exact and_two_pow_sub_one_eq_mod _ 11
  · exact and_two_pow_sub_one_eq_mod _ 52
  · rw [BitVec.msb_eq_getLsbD_last]
    rfl

/-- Unpacking a finite number: its sign, and its magnitude with the leading bit at its place. -/
lemma unpack_spec (h : Finite u) : (unpack u.toNat).sign = u.msb ∧
    ((unpack u.toNat).cls = .zero ∧ magnitude u = 0 ∨ Normal (unpack u.toNat) (magnitude u)) := by
  obtain ⟨he, hf, hs⟩ := unpack_fields u
  have hfrac : fracField u < 2 ^ 52 := mod_lt _ (by norm_num)
  have hne : expField u ≠ expmax := h
  simp only [unpack, he, hf, hs]
  by_cases h0 : expField u = 0
  · by_cases hf0 : fracField u = 0
    · simp [h0, hf0, magnitude]
    · have hu : u64 (fracField u <<< 3) = fracField u * 8 := by
        rw [u64, shiftLeft_eq, mod_eq_of_lt (by omega)]
      obtain ⟨j, hup, hlow, hhigh, -⟩ := normUp_spec 64 (1 - bias) (S := fracField u * 8) (by omega) (by omega) (by omega)
      simp only [h0, hf0, if_true, if_false, hu, hup]
      refine ⟨trivial, .inr ⟨rfl, hlow, hhigh, ?_, ?_⟩⟩
      · exact Dvd.dvd.mul_right (Dvd.intro_left _ rfl) _
      · rw [magnitude, if_pos h0, bias, zpow_eq_mul (b := 1 - 1023 - j - 55) (3 + j) (by push_cast; ring), pow_add]
        push_cast
        ring
  · have hor : fracField u ||| 0x10000000000000 = 2 ^ 52 + fracField u := by
      rw [Nat.or_comm]
      exact (two_pow_add_eq_or_of_lt hfrac 1).symm
    have hu : u64 ((fracField u ||| 0x10000000000000) <<< 3) = (2 ^ 52 + fracField u) * 8 := by
      rw [hor, u64, shiftLeft_eq, mod_eq_of_lt (by omega)]
    simp only [h0, hne, if_false, hu]
    refine ⟨trivial, .inr ⟨rfl, by simp only; omega, by simp only; omega, Dvd.intro_left _ rfl, ?_⟩⟩
    rw [magnitude, if_neg h0, bias, zpow_eq_mul (b := expField u - 1023 - 55) 3 (by push_cast; ring)]
    push_cast
    ring

lemma rounds_zero (s : Bool) : Rounds s 0 (dZero s) := by
  have h : Rounds s (signFactor s * 0) (packRaw s 0 0) := rounds_pack (by norm_num) (by norm_num) (by
    rw [magnitude_subnormal s (by norm_num), cast_zero, zero_mul]
    exact nearestEven_zero le_rfl (zpow_pos (by norm_num) _))
  rwa [mul_zero] at h

lemma mem_magnitude (u : BitVec 64) : binary64.Mem (magnitude u) := by
  have hf : fracField u < 2 ^ 52 := mod_lt _ (by norm_num)
  rw [magnitude]
  split_ifs with h0
  · refine ⟨fracField u, -1074, ?_, le_rfl, by rw [Int.cast_natCast]⟩
    exact_mod_cast hf.trans (by norm_num [binary64])
  · refine ⟨(2 ^ 52 + fracField u : ℕ), (expField u : ℤ) - 1075, ?_, ?_, by push_cast; rfl⟩
    · rw [abs_cast]
      exact_mod_cast show 2 ^ 52 + fracField u < 2 ^ 53 by omega
    · show (-1074 : ℤ) ≤ _
      omega

lemma rounds_self (h : Finite u) : Rounds u.msb (value u) u := by
  refine ⟨rfl, value u, NearestEven.signFactor _ (Fmt.nearestEven_of_mem (mem_magnitude u)), ?_⟩
  rw [if_pos (by
    rw [value, abs_signFactor_mul _ (magnitude_nonneg u)]
    exact magnitude_lt h)]
  exact ⟨h, rfl⟩

lemma signFactor_mul_neg_iff (s : Bool) (hm : 0 < m) : signFactor s * m < 0 ↔ s = true := by
  cases s <;> simp [signFactor, hm, hm.le]

/-! ## Addition -/

/-- Aligning keeps the bits lost in the last one. -/
lemma alignSig_spec {sig : ℕ} (shift : ℕ) (hlow : 2 ^ 55 ≤ sig) (hhigh : sig < 2 ^ 56) (h8 : 8 ∣ sig) : Tight 2
    (alignSig sig shift) ((sig : ℚ) / 2 ^ shift) ∧ alignSig sig shift < 2 ^ 56 ∧ (1 ≤ shift → alignSig sig shift < 2 ^ 55)
    ∧ ((sig : ℚ) / 2 ^ shift = alignSig sig shift ∨ alignSig sig shift < 2 ^ 54) := by
  rw [alignSig]
  rcases Nat.eq_zero_or_pos shift with rfl | hpos
  · rw [if_neg (by norm_num), if_neg (lt_irrefl 0), pow_zero, div_one]
    exact ⟨.exact 2 sig, hhigh, fun h => absurd h (by norm_num), .inl rfl⟩
  · by_cases hbig : shift > 63
    · rw [if_pos hbig, if_pos (by omega)]
      have hpow : (2 : ℚ) ^ 63 ≤ 2 ^ shift := pow_le_pow_right₀ (by norm_num) hbig.le
      have hs1 : (sig : ℚ) < 2 ^ 56 := by exact_mod_cast hhigh
      refine ⟨.inr ⟨0, by norm_num, by norm_num, by positivity, ?_⟩, by norm_num, by norm_num, .inr (by norm_num)⟩
      rw [div_lt_iff₀ (by positivity)]
      push_cast
      linarith
    · rw [if_neg hbig, if_pos hpos, shiftSticky_eq]
      have hshort : ∀ k : ℕ, k ≤ shift → ∀ c, 2 ^ 56 ≤ 2 ^ k * (2 * c) → jam shift sig < 2 * c :=
        fun k hk c hc => jam_lt (lt_of_lt_of_le hhigh (hc.trans (by gcongr; omega)))
      refine ⟨.jam_exact shift sig, ?_, fun _ => ?_, ?_⟩
      · exact (hshort 1 hpos (2 ^ 54) (by norm_num)).trans (by norm_num)
      · exact hshort 1 hpos (2 ^ 54) (by norm_num)
      · rcases le_or_gt shift 3 with hle | hgt
        · have hdvd : 2 ^ shift ∣ sig := (pow_dvd_pow 2 hle).trans h8
          left
          rw [jam_of_dvd (mod_eq_zero_of_dvd hdvd), cast_div hdvd (by positivity)]
          push_cast
          rfl
        · exact .inr (hshort 2 (by omega) (2 ^ 53) (by norm_num))

lemma Stands.rounds {S : ℕ} {y : ℚ} (h : Stands S y) (s : Bool) (exp : ℤ) {x : ℚ}
    (hx : x = signFactor s * (y * 2 ^ (exp - 55))) : Rounds (decide (x < 0)) x (roundPack s exp S) := by
  have hy : 0 < y := by
    rcases h.room with hexact | hbig
    · rw [hexact]
      exact_mod_cast h.pos
    · have := (h.tight.lt_iff (2 ^ 53)).not.1 (by omega)
      exact lt_of_lt_of_le (by positivity) (not_lt.1 this)
  have hsign : decide (x < 0) = s := by
    rw [Bool.eq_iff_iff, decide_eq_true_eq, hx]
    exact signFactor_mul_neg_iff s (by positivity)
  rw [hsign, hx]
  exact roundPack_rounds s exp h

/-- The sum of aligned numbers, rounded once. -/
lemma addAligned_rounds {a b : Fp} (ha : Normal a ma) (hb : Normal b mb) (hexp : b.exp ≤ a.exp) {x : ℚ}
    (hx : x = signFactor a.sign * ma + signFactor b.sign * mb) : Rounds (decide (x < 0)) x (addAligned a b) := by
  have hlow := ha.low
  have hhigh := ha.high
  have heven : Even a.sig := even_iff_two_dvd.2 (dvd_trans (by norm_num) ha.guard)
  obtain ⟨sh, hsh⟩ : ∃ sh : ℕ, (a.exp - b.exp).toNat = sh := ⟨_, rfl⟩
  obtain ⟨htight, hlt, hshort, hroom⟩ := alignSig_spec sh hb.low hb.high hb.guard
  have hzero : sh = 0 → alignSig b.sig sh = b.sig := by
    rintro rfl
    simp [alignSig]
  -- both in units of the larger operand's last bit
  have hmb : mb = (b.sig : ℚ) / 2 ^ sh * 2 ^ (a.exp - 55) := by
    rw [hb.magnitude, zpow_eq_mul (a := a.exp - 55) (b := b.exp - 55) sh (by omega)]
    field_simp
  rw [ha.magnitude, hmb] at hx
  simp only [addAligned, hsh]
  generalize alignSig b.sig sh = bs at *
  generalize hyb : (b.sig : ℚ) / 2 ^ sh = yb at *
  split_ifs with hsame heq hgt
  · have hu : u64 (a.sig + bs) = a.sig + bs := mod_eq_of_lt (by omega)
    rw [hu]
    refine Stands.rounds ⟨by omega, by omega, htight.add_left heven, .inr (by omega)⟩ a.sign a.exp ?_
    rw [hx, ← hsame]
    ring
  all_goals
    have hneg : signFactor b.sign = -signFactor a.sign := by
      revert hsame
      cases a.sign <;> cases b.sign <;> simp [signFactor]
    rw [hneg] at hx
  · -- an equal aligned significand is an exact one
    have hexact := hroom.resolve_right (by omega)
    have hx0 : x = 0 := by
      rw [hx, hexact, heq]
      ring
    rw [hx0]
    exact rounds_zero false
  · refine Stands.rounds (y := a.sig - yb) ⟨by omega, by omega, htight.sub_left heven hgt.le, ?_⟩ a.sign a.exp ?_
    · rcases hroom with hexact | hsmall
      · exact .inl (by rw [hexact, cast_sub hgt.le])
      · exact .inr (by omega)
    · rw [hx]
      ring
  · have hsh0 : sh = 0 := by
      by_contra hne
      omega
    have hexact : yb = bs := by rw [hzero hsh0, ← hyb, hsh0, pow_zero, div_one]
    have hle : a.sig ≤ bs := by omega
    refine Stands.rounds (y := bs - a.sig) ⟨by omega, by omega, .inl ?_, .inl ?_⟩ b.sign a.exp ?_
    · rw [cast_sub hle]
    · rw [cast_sub hle]
    · rw [hx, hneg, hexact]
      ring

/-- The 128-bit product in two halves. -/
lemma mul64_spec {a b : ℕ} (ha : a < 2 ^ 64) (hb : b < 2 ^ 64) : mul64 a b = (a * b / 2 ^ 64, a * b % 2 ^ 64) := by
  obtain ⟨ah, al, rfl, hal, hah⟩ : ∃ ah al, a = 2 ^ 32 * ah + al ∧ al < 2 ^ 32 ∧ ah < 2 ^ 32 :=
    ⟨a / 2 ^ 32, a % 2 ^ 32, by omega, by omega, by omega⟩
  obtain ⟨bh, bl, rfl, hbl, hbh⟩ : ∃ bh bl, b = 2 ^ 32 * bh + bl ∧ bl < 2 ^ 32 ∧ bh < 2 ^ 32 :=
    ⟨b / 2 ^ 32, b % 2 ^ 32, by omega, by omega, by omega⟩
  have hprod : (2 ^ 32 * ah + al) * (2 ^ 32 * bh + bl) =
      2 ^ 64 * (ah * bh) + 2 ^ 32 * (al * bh) + 2 ^ 32 * (ah * bl) + al * bl := by ring
  have hpiece : ∀ {c d : ℕ}, c < 2 ^ 32 → d < 2 ^ 32 → c * d ≤ (2 ^ 32 - 1) * (2 ^ 32 - 1) :=
    fun hc hd => Nat.mul_le_mul (by omega) (by omega)
  have h1 := hpiece hal hbl
  have h2 := hpiece hal hbh
  have h3 := hpiece hah hbl
  have h4 := hpiece hah hbh
  have hmask : ∀ n : ℕ, n &&& 0xffffffff = n % 2 ^ 32 := fun n => and_two_pow_sub_one_eq_mod n 32
  have ea : (2 ^ 32 * ah + al) % 2 ^ 32 = al := by omega
  have eb : (2 ^ 32 * bh + bl) % 2 ^ 32 = bl := by omega
  have ea' : (2 ^ 32 * ah + al) / 2 ^ 32 % 2 ^ 32 = ah := by omega
  have eb' : (2 ^ 32 * bh + bl) / 2 ^ 32 % 2 ^ 32 = bh := by omega
  simp only [mul64, hmask, u64, shiftRight_eq_div_pow, shiftLeft_eq, ea, eb, ea', eb']
  generalize al * bh = lh at *
  refine Prod.ext ?_ ?_
  · simp only
    omega
  · have hmid : ∀ m : ℕ, m * 2 ^ 32 % 2 ^ 64 = 2 ^ 32 * (m % 2 ^ 32) := fun m => by omega
    simp only [hmid]
    rw [Nat.or_comm, ← two_pow_add_eq_or_of_lt (mod_lt _ (by positivity))]
    omega

lemma mulSig_eq {P : ℕ} (hP : P < 2 ^ 112) : u64 ((P / 2 ^ 64) <<< (64 - 56)) ||| (P % 2 ^ 64) >>> 56 |||
      (if P % 2 ^ 64 &&& (1 <<< 56 - 1) ≠ 0 then 1 else 0) = jam 56 P := by
  have hmask : P % 2 ^ 64 &&& (1 <<< 56 - 1) = P % 2 ^ 56 := by
    rw [one_shiftLeft, and_two_pow_sub_one_eq_mod]
    omega
  have hsig : u64 ((P / 2 ^ 64) <<< (64 - 56)) ||| (P % 2 ^ 64) >>> 56 = P / 2 ^ 56 := by
    rw [shiftLeft_eq, shiftRight_eq_div_pow, u64, mod_eq_of_lt (by omega), mul_comm, ← two_pow_add_eq_or_of_lt (by omega)]
    omega
  rw [hsig, hmask, jam]
  simp only [ne_eq, ite_not]

lemma signFactor_xor (s t : Bool) : signFactor (s ^^ t) = signFactor s * signFactor t := by
  cases s <;> cases t <;> simp [signFactor]

/-! ## Multiplication and division -/

lemma mul_rounds {a b : Fp} (ha : Normal a ma) (hb : Normal b mb) (s : Bool) :
    Rounds s (signFactor s * (ma * mb)) (roundPack s (a.exp + b.exp + 1) (jam 56 (a.sig * b.sig))) := by
  have hlow : 2 ^ 55 * 2 ^ 55 ≤ a.sig * b.sig := Nat.mul_le_mul ha.low hb.low
  have hhigh : a.sig * b.sig < 2 ^ 56 * 2 ^ 56 := Nat.mul_lt_mul'' ha.high hb.high
  have hbig : 2 ^ 54 ≤ jam 56 (a.sig * b.sig) := le_jam (by omega)
  have hlt : jam 56 (a.sig * b.sig) < 2 * 2 ^ 55 := jam_lt (by omega)
  have h := roundPack_rounds s (a.exp + b.exp + 1) ⟨by omega, by omega, Tight.jam_exact 56 (a.sig * b.sig), .inr hbig⟩
  convert h using 2
  rw [ha.magnitude, hb.magnitude, zpow_eq_mul (a := a.exp + b.exp + 1 - 55) (b := a.exp - 55 + (b.exp - 55)) 56
    (by push_cast; ring), zpow_add₀ (by norm_num)]
  push_cast
  field_simp

/-- The loop of the division: the remainder stays below twice the divisor. -/
lemma divLoop_spec {b : ℕ} (hb : b < 2 ^ 62) {k q : ℕ} (rem : ℕ) (hrem : rem < 2 * b) (hq : 2 ^ k ∣ q) :
    ∃ t rem', divLoop b k rem q = (rem', q + t) ∧ t < 2 ^ k ∧ rem * 2 ^ k = 2 * (b * t) + rem' ∧ rem' < 2 * b := by
  induction k generalizing rem q with
  | zero => exact ⟨0, rem, by simp [divLoop], by norm_num, by simp, hrem⟩
  | succ k ih =>
    have hu : ∀ r < b, u64 (r <<< 1) = 2 * r := fun r hr => by
      rw [u64, shiftLeft_eq, mod_eq_of_lt (by omega)]
      omega
    have hdvd : 2 ^ k ∣ q := (pow_dvd_pow 2 (le_succ k)).trans hq
    by_cases hge : rem ≥ b
    · have hor : q ||| 1 <<< k = q + 2 ^ k := by
        obtain ⟨c, rfl⟩ := hq
        rw [one_shiftLeft, two_pow_add_eq_or_of_lt (Nat.pow_lt_pow_right (by norm_num) (lt_succ_self k))]
      obtain ⟨t, rem', heq, ht, hval, hlt⟩ :=
        ih (2 * (rem - b)) (by omega) (Dvd.dvd.add hdvd dvd_rfl)
      refine ⟨2 ^ k + t, rem', ?_, by rw [pow_succ]; omega, ?_, hlt⟩
      · simp only [divLoop, if_pos hge, hor]
        rw [hu _ (by omega), heq, Nat.add_assoc]
      · obtain ⟨d, rfl⟩ : ∃ d, rem = b + d := ⟨rem - b, by omega⟩
        rw [Nat.add_sub_cancel_left] at hval
        rw [pow_succ]
        linarith
    · obtain ⟨t, rem', heq, ht, hval, hlt⟩ := ih (2 * rem) (by omega) hdvd
      refine ⟨t, rem', ?_, by rw [pow_succ]; omega, ?_, hlt⟩
      · simp only [divLoop, if_neg hge]
        rw [hu _ (by omega), heq]
      · rw [pow_succ]
        linarith

/-- The quotient with the remainder in its last bit, rounded once. -/
lemma div_rounds {a b : Fp} (ha : Normal a ma) (hb : Normal b mb) (s : Bool) :
    Rounds s (signFactor s * (ma / mb)) (roundPack s (a.exp - b.exp - 1)
      ((divLoop b.sig 57 a.sig 0).2 ||| if (divLoop b.sig 57 a.sig 0).1 ≠ 0 then 1 else 0)) := by
  have := ha.low
  have := ha.high
  have := hb.low
  have := hb.high
  obtain ⟨t, rem, heq, ht, hval, hlt⟩ := divLoop_spec (b := b.sig) (by omega) a.sig (by omega) (dvd_zero _)
  rw [Nat.zero_add] at heq
  rw [heq]
  have hexact : (a.sig : ℚ) * 2 ^ 56 / b.sig = t + rem / (2 * b.sig) := by
    have hcast : (a.sig : ℚ) * 2 ^ 57 = 2 * (b.sig * t) + rem := by exact_mod_cast hval
    field_simp
    linarith
  have htight : Tight 2 (t ||| if rem ≠ 0 then 1 else 0) ((a.sig : ℚ) * 2 ^ 56 / b.sig) := by
    rw [hexact]
    split_ifs with h0
    · have hr0 : (0 : ℚ) < rem := by exact_mod_cast Nat.pos_of_ne_zero h0
      have hr1 : (rem : ℚ) / (2 * b.sig) < 1 := by
        rw [div_lt_one (by positivity)]
        exact_mod_cast hlt
      have hpos : (0 : ℚ) < rem / (2 * b.sig) := by positivity
      have hlow : ((2 * (t / 2) : ℕ) : ℚ) ≤ t := by exact_mod_cast mul_div_le t 2
      have hhigh : (t : ℚ) + 1 ≤ ((2 * (t / 2 + 1) : ℕ) : ℚ) := by
        exact_mod_cast (show t + 1 ≤ 2 * (t / 2 + 1) by omega)
      rw [or_one_eq]
      exact .inr ⟨t / 2, by omega, by omega, by linarith, by linarith⟩
    · obtain rfl : rem = 0 := not_not.1 h0
      exact .inl (by simp)
  have hbig : 2 ^ 54 ≤ t := by
    by_contra hc
    have : b.sig * t ≤ 2 ^ 56 * 2 ^ 54 := Nat.mul_le_mul (by omega) (by omega)
    omega
  have hor : t ≤ t ||| if rem ≠ 0 then 1 else 0 := left_le_or
  have hor' : (t ||| if rem ≠ 0 then 1 else 0) < 2 ^ 64 :=
    or_lt_two_pow (by omega) (by split_ifs <;> norm_num)
  have h := roundPack_rounds s (a.exp - b.exp - 1) ⟨by omega, hor', htight, .inr (by omega)⟩
  convert h using 2
  rw [ha.magnitude, hb.magnitude, zpow_eq_mul (b := a.exp - b.exp - 1 - 55 + (b.exp - 55)) 56
    (by push_cast; ring), zpow_add₀ (by norm_num)]
  field_simp

/-! ## The operations -/

/-- IEEE's sign of a sum: its own, and for a sum that is zero the sign both operands have, else
plus. -/
def sumSign (sx sy : Bool) (sum : ℚ) : Bool := decide (sum < 0) || (decide (sum = 0) && sx && sy)

lemma value_eq_zero (h : magnitude u = 0) : value u = 0 := by rw [value, h, mul_zero]

lemma sumSign_of_ne {sx sy : Bool} {x : ℚ} (h : x ≠ 0) : sumSign sx sy x = decide (x < 0) := by
  simp [sumSign, h]

lemma negate_fields (u : BitVec 64) (n : Bool) : expField (u ^^^ BitVec.ofNat 64 (n.toNat <<< 63)) = expField u ∧
      fracField (u ^^^ BitVec.ofNat 64 (n.toNat <<< 63)) = fracField u ∧
      (u ^^^ BitVec.ofNat 64 (n.toNat <<< 63)).msb = (u.msb ^^ n) := by
  have hlow : (u ^^^ BitVec.ofNat 64 (n.toNat <<< 63)).toNat % 2 ^ 63 = u.toNat % 2 ^ 63 := by
    rw [BitVec.toNat_xor, xor_mod_two_pow]
    cases n <;> simp
  refine ⟨?_, ?_, ?_⟩
  · simp only [expField]
    omega
  · simp only [fracField]
    omega
  · rw [BitVec.msb_xor]
    congr 1
    cases n <;> decide

lemma negate_value (u : BitVec 64) (n : Bool) : value (u ^^^ BitVec.ofNat 64 (n.toNat <<< 63)) = signFactor n * value u := by
  obtain ⟨he, hf, hs⟩ := negate_fields u n
  rw [value, value, magnitude, magnitude, he, hf, hs, signFactor_xor]
  ring

/-- Addition and subtraction round the exact result once. -/
lemma addsub_rounds {x y : BitVec 64} (hx : Finite x) (hy : Finite y) (n : Bool) : Rounds
    (sumSign x.msb (y.msb ^^ n) (value x + signFactor n * value y)) (value x + signFactor n * value y) (addsub x y n) := by
  obtain ⟨hsx, hcx⟩ := unpack_spec hx
  obtain ⟨hsy, hcy⟩ := unpack_spec hy
  have hvy : signFactor n * value y = signFactor (y.msb ^^ n) * magnitude y := by
    rw [value, signFactor_xor]
    ring
  have hflip : ∀ b : Fp, (if n = true then { b with sign := !b.sign } else b) =
      { b with sign := b.sign ^^ n } := fun b => by cases n <;> simp
  simp only [addsub, hflip]
  simp only [hsy]
  generalize unpack x.toNat = a at *
  generalize unpack y.toNat = b at *
  rcases hcx with ⟨hca, hmx⟩ | hna
  · have hvx : value x = 0 := value_eq_zero hmx
    rcases hcy with ⟨hcb, hmy⟩ | hnb
    · have hsum : value x + signFactor n * value y = 0 := by rw [hvx, hvy, hmy]; ring
      have hs : sumSign x.msb (y.msb ^^ n) 0 = (x.msb && (y.msb ^^ n)) := by simp [sumSign]
      simpa [hca, hcb, hsx, hsum, hs] using rounds_zero _
    · obtain ⟨he, -, hs⟩ := negate_fields y n
      have hself := rounds_self (by rw [Finite, he]; exact hy)
      rw [negate_value, hs] at hself
      have hpos := hnb.pos
      have hsign : sumSign x.msb (y.msb ^^ n) (signFactor n * value y) = (y.msb ^^ n) := by
        rw [hvy, sumSign_of_ne (by cases (y.msb ^^ n) <;> simp [signFactor, hpos.ne']), Bool.eq_iff_iff, decide_eq_true_eq]
        exact signFactor_mul_neg_iff _ hpos
      simpa [hca, hnb.cls, hvx, hsign] using hself
  · have hpos := hna.pos
    have hvx : value x = signFactor a.sign * magnitude x := by rw [hsx]; rfl
    rcases hcy with ⟨hcb, hmy⟩ | hnb
    · have hy0 : signFactor n * value y = 0 := by rw [hvy, hmy, mul_zero]
      have hsign : sumSign x.msb (y.msb ^^ n) (value x) = x.msb := by
        rw [sumSign_of_ne (by rw [hvx]; cases a.sign <;> simp [signFactor, hpos.ne']), Bool.eq_iff_iff, decide_eq_true_eq]
        exact signFactor_mul_neg_iff _ hpos
      simpa [hna.cls, hcb, hy0, hsign] using rounds_self hx
    · have hnb' : Normal { b with sign := y.msb ^^ n } (magnitude y) :=
        ⟨hnb.cls, hnb.low, hnb.high, hnb.guard, hnb.magnitude⟩
      have hsign : sumSign x.msb (y.msb ^^ n) (value x + signFactor n * value y) =
          decide (value x + signFactor n * value y < 0) := by
        have hne : x.msb = true → (y.msb ^^ n) = true → value x + signFactor n * value y ≠ 0 := by
          intro h1 h2
          rw [hvx, hvy, hsx, h1, h2]
          have := hnb.pos
          simp only [signFactor, if_true]
          linarith
        rw [sumSign]
        cases h1 : x.msb <;> cases h2 : (y.msb ^^ n) <;> simp [h1, h2, hne]
      rw [hsign]
      simp only [hna.cls, hnb.cls, reduceCtorEq, or_self, and_self, if_false]
      split_ifs
      · exact addAligned_rounds hnb' hna (by simp only; omega) (by rw [hvx, hvy]; ring)
      · exact addAligned_rounds hna hnb' (by simp only; omega) (by rw [hvx, hvy])

lemma value_mul (x y : BitVec 64) : value x * value y = signFactor (x.msb ^^ y.msb) * (magnitude x * magnitude y) := by
  rw [value, value, signFactor_xor]
  ring

lemma value_div (x y : BitVec 64) : value x / value y = signFactor (x.msb ^^ y.msb) * (magnitude x / magnitude y) := by
  have hinv : (signFactor y.msb)⁻¹ = signFactor y.msb := by cases y.msb <;> norm_num [signFactor]
  rw [value, value, signFactor_xor, div_eq_mul_inv, mul_inv, hinv, div_eq_mul_inv]
  ring

lemma muldf3_rounds {x y : BitVec 64} (hx : Finite x) (hy : Finite y) :
    Rounds (x.msb ^^ y.msb) (value x * value y) (muldf3 x y) := by
  obtain ⟨hsx, hcx⟩ := unpack_spec hx
  obtain ⟨hsy, hcy⟩ := unpack_spec hy
  rw [value_mul]
  simp only [muldf3, hsx, hsy]
  generalize unpack x.toNat = a at *
  generalize unpack y.toNat = b at *
  rcases hcx with ⟨hca, hmx⟩ | hna
  · rcases hcy with ⟨hcb, -⟩ | hnb
    · simpa [hca, hcb, hmx] using rounds_zero _
    · simpa [hca, hnb.cls, hmx] using rounds_zero _
  · rcases hcy with ⟨hcb, hmy⟩ | hnb
    · simpa [hna.cls, hcb, hmy] using rounds_zero _
    · have hha := hna.high
      have hhb := hnb.high
      have hprod : a.sig * b.sig < 2 ^ 112 := (Nat.mul_lt_mul'' hha hhb).trans_le (by norm_num)
      have h := mul_rounds hna hnb (x.msb ^^ y.msb)
      rw [← mulSig_eq hprod] at h
      simpa only [hna.cls, hnb.cls, reduceCtorEq, or_self, if_false, mul64_spec (hha.trans (by norm_num))
        (hhb.trans (by norm_num))] using h

lemma divdf3_rounds {x y : BitVec 64} (hx : Finite x) (hy : Finite y) (h0 : value y ≠ 0) :
    Rounds (x.msb ^^ y.msb) (value x / value y) (divdf3 x y) := by
  obtain ⟨hsx, hcx⟩ := unpack_spec hx
  obtain ⟨hsy, hcy⟩ := unpack_spec hy
  rw [value_div]
  simp only [divdf3, hsx, hsy]
  generalize unpack y.toNat = b at *
  have hnb : Normal b (magnitude y) := hcy.resolve_left fun h => h0 (value_eq_zero h.2)
  rcases hcx with ⟨hca, hmx⟩ | hna
  · simpa [hca, hnb.cls, hmx] using rounds_zero _
  · have h := div_rounds hna hnb (x.msb ^^ y.msb)
    simpa only [hna.cls, hnb.cls, reduceCtorEq, or_self, if_false] using h

/-- Addition, subtraction, multiplication and division of finite numbers are correctly rounded. -/
theorem softfp_rounds {x y : BitVec 64} (hx : Finite x) (hy : Finite y) :
    Rounds (sumSign x.msb y.msb (value x + value y)) (value x + value y) (adddf3 x y) ∧
      Rounds (sumSign x.msb (!y.msb) (value x - value y)) (value x - value y) (subdf3 x y) ∧
      Rounds (x.msb ^^ y.msb) (value x * value y) (muldf3 x y) ∧
      (value y ≠ 0 → Rounds (x.msb ^^ y.msb) (value x / value y) (divdf3 x y)) := by
  have hadd := addsub_rounds hx hy false
  have hsub := addsub_rounds hx hy true
  have hminus : value x + signFactor true * value y = value x - value y := by
    simp [signFactor, sub_eq_add_neg]
  have hplus : value x + signFactor false * value y = value x + value y := by simp [signFactor]
  rw [hplus, Bool.xor_false] at hadd
  rw [hminus, Bool.xor_true] at hsub
  exact ⟨hadd, hsub, muldf3_rounds hx hy, divdf3_rounds hx hy⟩

/-- One and minus the least denormal. -/
theorem softfp_rounds_denormal :
    Rounds (sumSign false true (value 0x3ff0000000000000 + value 0x8000000000000001))
        (value 0x3ff0000000000000 + value 0x8000000000000001)
        (adddf3 0x3ff0000000000000 0x8000000000000001) ∧
      Rounds (sumSign false false (value 0x3ff0000000000000 - value 0x8000000000000001))
        (value 0x3ff0000000000000 - value 0x8000000000000001)
        (subdf3 0x3ff0000000000000 0x8000000000000001) ∧
      Rounds true (value 0x3ff0000000000000 * value 0x8000000000000001)
        (muldf3 0x3ff0000000000000 0x8000000000000001) ∧
      (value 0x8000000000000001 ≠ 0 → Rounds true (value 0x3ff0000000000000 / value 0x8000000000000001)
          (divdf3 0x3ff0000000000000 0x8000000000000001)) :=
  softfp_rounds (x := 0x3ff0000000000000) (y := 0x8000000000000001) (by decide) (by decide)

-- 1.5 + 2.25 and 1 / 3
example : adddf3 0x3ff8000000000000 0x4002000000000000 = 0x400e000000000000 := by decide +kernel
example : divdf3 0x3ff0000000000000 0x4008000000000000 = 0x3fd5555555555555 := by decide +kernel

end EmbCC.Rt
