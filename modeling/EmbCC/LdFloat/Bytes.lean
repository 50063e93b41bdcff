import EmbCC.LdFloat.Arith

/-!
# Byte images

`ldf_encode` and `ldf_from_bytes`. Every format is one layout, from the low bit: the significand
field, the biased exponent, the sign; what differs is the widths (`LdfFmt.sigBits`,
`LdfFmt.expBits`) and that the x87 significand stores its integer bit. `packBytes_word` and
`unpack_fields` state the layout once for all formats, and the round trips
(`ldfEncode_ldfFromBytes`, `ldfFromBytes_ldfEncode`) are proved over it.
-/

namespace EmbCC.LdFloat

open List Nat Bool Digits

/-! ## The images of a number -/

def fmtBytes : LdfFmt → ℕ
  | .half | .bf16 => 2
  | .float => 4
  | .double => 8
  | .x87 | .quad => 16

/-- `low64`: the low 64 bits of `m >> k`. -/
def low64 (m : Big) (k : ℤ) : ℕ :=
  let t := (bigShr m k false).1
  let v := if t.d.length > 0 then t.d.getD 0 0 else 0
  if t.d.length > 1 then v ||| t.d.getD 1 0 <<< 32 else v

/-- The exponent and significand fields of an infinity or a NaN. -/
def specialFields (kind : Kind) (fmt : LdfFmt) : ℕ × Big :=
  let fi := finfo fmt
  ((2 * fi.bias + 1).toNat,
    if fmt = .x87 then
      if kind = .nan then bigShl (bigFromU64 3) 62 else bigShl (bigFromU64 1) 63
    else if kind = .nan then bigShl (bigFromU64 1) (fi.p - 2)
    else bigNew)

/-- The exponent and significand fields of a finite value that is in the format. -/
def finiteFields (r : Ldf) (fmt : LdfFmt) : ℕ × Big :=
  let fi := finfo fmt
  if bigIsZero r.m then (0, bigNew)
  else
    let L := bigBitlen r.m
    let E := r.e + L - 1
    if E ≥ fi.emin then
      let norm := bigShl r.m (fi.p - L)
      ((E + fi.bias).toNat,
        if fmt = .x87 then norm else bigSub norm (bigShl (bigFromU64 1) (fi.p - 1)))
    else (0, bigShl r.m (r.e - (fi.emin - (fi.p - 1))))

/-- The two words of the image: the fields put in their places. -/
def packWords (fmt : LdfFmt) (biased : ℕ) (mant : Big) (neg : Bool) : ℕ × ℕ :=
  let sign := if neg then 1 else 0
  let lo := low64 mant 0
  match fmt with
  | .x87 => (lo, biased ||| sign <<< 15)
  | .quad => (lo, low64 mant 64 ||| biased <<< 48 ||| sign <<< 63)
  | .double => (lo ||| (biased <<< 52 ||| sign <<< 63), 0)
  | .half => (lo ||| (biased <<< 10 ||| sign <<< 15), 0)
  | .bf16 => (lo ||| (biased <<< 7 ||| sign <<< 15), 0)
  | .float => (lo ||| (biased <<< 23 ||| sign <<< 31), 0)

/-- `n` bytes of a word, low byte first. -/
def storeBytes (n w : ℕ) : List UInt8 := (List.range n).map fun i => UInt8.ofNat (w >>> (8 * i))

/-- The bytes of the image: `out` was cleared, so x87 keeps six zeros of padding. -/
def packBytes (fmt : LdfFmt) (biased : ℕ) (mant : Big) (neg : Bool) : List UInt8 :=
  let (lo, hi) := packWords fmt biased mant neg
  storeBytes (min 8 (fmtBytes fmt)) lo ++
    match fmt with
    | .x87 => storeBytes 2 hi ++ List.replicate 6 0
    | .quad => storeBytes 8 hi
    | _ => []

/-- `ldf_encode` of an infinity or a NaN. -/
def encodeSpecial (a : Ldf) (fmt : LdfFmt) : List UInt8 :=
  packBytes fmt (specialFields a.kind fmt).1 (specialFields a.kind fmt).2 a.neg

/-- `ldf_encode`: a finite value is rounded first, and encoded again when that gave infinity. -/
def ldfEncode (a : Ldf) (fmt : LdfFmt) : List UInt8 :=
  if a.kind = .inf ∨ a.kind = .nan then encodeSpecial a fmt
  else
    let r := roundTo a.m a.e false a.neg fmt
    if r.kind = .inf then encodeSpecial r fmt
    else packBytes fmt (finiteFields r fmt).1 (finiteFields r fmt).2 a.neg

/-- The loop that collects a word from its bytes. -/
def orBytes : List UInt8 → ℕ → ℕ → ℕ
  | [], _, w => w
  | b :: bs, i, w => orBytes bs (i + 1) (w ||| b.toNat <<< (8 * i))

/-- The low and the high word that `ldf_from_bytes` reads. -/
def loadWords (fmt : LdfFmt) (bytes : List UInt8) : ℕ × ℕ :=
  (orBytes (bytes.take (min 8 (fmtBytes fmt))) 0 0,
    match fmt with
    | .x87 => (bytes.getD 8 0).toNat ||| (bytes.getD 9 0).toNat <<< 8
    | .quad => orBytes ((bytes.drop 8).take 8) 0 0
    | _ => 0)

/-- The sign, the biased exponent and the significand field in the two words. -/
def unpackWords (fmt : LdfFmt) (lo hi : ℕ) : Bool × ℕ × Big :=
  match fmt with
  | .x87 => ((hi >>> 15) &&& 1 == 1, hi &&& 0x7fff, bigFromU64 lo)
  | .quad => ((hi >>> 63) &&& 1 == 1, (hi >>> 48) &&& 0x7fff,
      bigAdd (bigShl (bigFromU64 (hi &&& 0xffffffffffff)) 64) (bigFromU64 lo))
  | .double => ((lo >>> 63) &&& 1 == 1, (lo >>> 52) &&& 0x7ff, bigFromU64 (lo &&& 0xfffffffffffff))
  | .half => ((lo >>> 15) &&& 1 == 1, (lo >>> 10) &&& 0x1f, bigFromU64 (lo &&& 0x3ff))
  | .bf16 => ((lo >>> 15) &&& 1 == 1, (lo >>> 7) &&& 0xff, bigFromU64 (lo &&& 0x7f))
  | .float => ((lo >>> 31) &&& 1 == 1, (lo >>> 23) &&& 0xff, bigFromU64 (lo &&& 0x7fffff))

/-- The value of the fields; `lo` holds the x87 fraction below the integer bit. -/
def valueOfFields (fmt : LdfFmt) (lo : ℕ) (neg : Bool) (biased : ℕ) (mant : Big) : Ldf :=
  let fi := finfo fmt
  if biased = (2 * fi.bias + 1).toNat then
    let payload := if fmt = .x87 then bigFromU64 (lo &&& 0x7fffffffffffffff) else mant
    mk (if bigIsZero payload then .inf else .nan) neg
  else if biased = 0 then
    ⟨.finite, neg, mant, if bigIsZero mant then 0 else fi.emin - (fi.p - 1)⟩
  else
    ⟨.finite, neg, if fmt ≠ .x87 then bigAdd mant (bigShl (bigFromU64 1) (fi.p - 1)) else mant,
      biased - fi.bias - (fi.p - 1)⟩

def ldfFromBytes (bytes : List UInt8) (fmt : LdfFmt) : Ldf :=
  let (lo, hi) := loadWords fmt bytes
  let (neg, biased, mant) := unpackWords fmt lo hi
  valueOfFields fmt lo neg biased mant

/-! ## Bytes as a number -/

/-- The number a byte image stands for. -/
def bytesVal (l : List UInt8) : ℕ := ofDigits 256 (l.map UInt8.toNat)

@[simp] lemma bytesVal_nil : bytesVal [] = 0 := rfl

lemma bytesVal_cons (b : UInt8) (l : List UInt8) : bytesVal (b :: l) = b.toNat + 256 * bytesVal l :=
  ofDigits_cons ..

lemma bytesVal_append (l l' : List UInt8) : bytesVal (l ++ l') = bytesVal l + 2 ^ (8 * l.length) * bytesVal l' := by
  rw [bytesVal, map_append, ofDigits_append, length_map, pow_mul]
  rfl

lemma bytesVal_fits (l : List UInt8) : Fits 256 (l.map UInt8.toNat) := by
  intro x hx
  obtain ⟨b, -, rfl⟩ := mem_map.1 hx
  exact b.toNat_lt

lemma bytesVal_lt (l : List UInt8) : bytesVal l < 2 ^ (8 * l.length) := by
  have h := ofDigits_lt (by norm_num) (bytesVal_fits l)
  rwa [length_map, show 256 = 2 ^ 8 by norm_num, ← pow_mul] at h

variable {x i k biased b : ℕ} {fmt : LdfFmt} {l bytes l' : List UInt8} {mant : Big} {neg : Bool}

lemma bytesVal_inj (hlen : l.length = l'.length) (h : bytesVal l = bytesVal l') : l = l' := by
  have hmap : l.map UInt8.toNat = l'.map UInt8.toNat :=
    ofDigits_inj_of_len_eq (by norm_num) (by simpa using hlen) (bytesVal_fits l) (bytesVal_fits l') h
  exact map_injective_iff.2 (fun a b hab => UInt8.toNat_inj.1 hab) hmap

lemma bytesVal_take_drop (l : List UInt8) (n : ℕ) : bytesVal (l.take n) = bytesVal l % 2 ^ (8 * n) ∧
      bytesVal (l.drop n) = bytesVal l / 2 ^ (8 * n) := by
  rcases le_or_gt l.length n with hle | hlt
  · have hl := (bytesVal_lt l).trans_le (Nat.pow_le_pow_right (by norm_num) (by omega : 8 * l.length ≤ 8 * n))
    rw [take_of_length_le hle, drop_of_length_le hle, mod_eq_of_lt hl, div_eq_of_lt hl]
    exact ⟨rfl, rfl⟩
  · have hsplit := bytesVal_append (l.take n) (l.drop n)
    have htake := bytesVal_lt (l.take n)
    rw [length_take, min_eq_left hlt.le] at htake hsplit
    rw [take_append_drop] at hsplit
    rw [hsplit, add_mul_mod_self_left, mod_eq_of_lt htake,
      add_mul_div_left _ _ (Nat.two_pow_pos _), div_eq_of_lt htake, zero_add]
    exact ⟨rfl, rfl⟩

lemma or_shiftLeft (h : x < 2 ^ i) (y : ℕ) : x ||| y <<< i = x + 2 ^ i * y := by
  rw [Nat.or_comm, ← shiftLeft_add_eq_or_of_lt h, shiftLeft_eq]
  ring

lemma or_fields {y : ℕ} (hx : x < 2 ^ i) (hy : y < 2 ^ k) (z : ℕ) :
    x ||| (y <<< i ||| z <<< (i + k)) = x + 2 ^ i * (y + 2 ^ k * z) := by
  rw [add_comm i k, shiftLeft_add, ← shiftLeft_or_distrib, or_shiftLeft hy, or_shiftLeft hx]

lemma orBytes_eq (l : List UInt8) (i : ℕ) {w : ℕ} (h : w < 2 ^ (8 * i)) : orBytes l i w = w + 2 ^ (8 * i) * bytesVal l := by
  induction l generalizing i w with
  | nil => simp [orBytes]
  | cons b l ih =>
    have hb := b.toNat_lt
    have h8 : 2 ^ (8 * (i + 1)) = 2 ^ (8 * i) * 256 := by
      rw [mul_succ, pow_add]
      norm_num
    rw [orBytes, or_shiftLeft h, ih (i + 1), bytesVal_cons, h8]
    · ring
    · rw [h8]
      nlinarith

@[simp] lemma storeBytes_length (n w : ℕ) : (storeBytes n w).length = n := by simp [storeBytes]

lemma storeBytes_val (n w : ℕ) : bytesVal (storeBytes n w) = w % 2 ^ (8 * n) := by
  induction n with
  | zero => simp [storeBytes, mod_one]
  | succ n ih =>
    have hsucc : storeBytes (n + 1) w = storeBytes n w ++ [UInt8.ofNat (w >>> (8 * n))] := by
      simp [storeBytes, range_succ]
    rw [hsucc, bytesVal_append, ih, storeBytes_length, bytesVal_cons, bytesVal_nil, mul_zero, add_zero, UInt8.toNat_ofNat',
      shiftRight_eq_div_pow, mul_succ, pow_add, mod_mul]

lemma low64_val (m : Big) (hk : k < 2 ^ 36) : low64 m k = m.val / 2 ^ k % 2 ^ 64 := by
  rw [← bigShr_val m hk false]
  unfold low64
  generalize (bigShr m k false).1 = t
  obtain ⟨d, hd, -⟩ := t
  simp only [Big.val]
  rcases d with _ | ⟨x, _ | ⟨y, l⟩⟩
  · simp
  · have hx := (fits_cons.1 hd).1
    simp only [length_singleton, getD_cons_zero, ofDigits_singleton, zero_lt_one, lt_self_iff_false, if_true, if_false]
    rw [mod_eq_of_lt (by omega)]
  · obtain ⟨hx, hd⟩ := fits_cons.1 hd
    have hy := (fits_cons.1 hd).1
    simp only [length_cons, getD_cons_zero, getD_cons_succ, ofDigits_cons]
    rw [if_pos (by omega), if_pos (by omega), or_shiftLeft hx]
    omega

/-! ## The word an image is -/

/-- The width of the significand field; the x87 one has the integer bit in it. -/
def LdfFmt.sigBits : LdfFmt → ℕ
  | .x87 => 64
  | .quad => 112
  | .double => 52
  | .half => 10
  | .bf16 => 7
  | .float => 23

/-- The width of the exponent field. -/
def LdfFmt.expBits : LdfFmt → ℕ
  | .x87 | .quad => 15
  | .double => 11
  | .half => 5
  | .bf16 | .float => 8

/-- The number with the given fields: significand, biased exponent, sign, from the low bit. -/
def LdfFmt.word (fmt : LdfFmt) (neg : Bool) (biased mant : ℕ) : ℕ :=
  mant + 2 ^ fmt.sigBits * (biased + 2 ^ fmt.expBits * neg.toNat)

open LdfFmt

lemma packWords_word (fmt : LdfFmt) (neg : Bool) (hm : mant.val < 2 ^ fmt.sigBits) (hb : biased < 2 ^ fmt.expBits) :
    (packWords fmt biased mant neg).1 + 2 ^ 64 * (packWords fmt biased mant neg).2 = fmt.word neg biased mant.val ∧
      (packWords fmt biased mant neg).1 < 2 ^ 64 := by
  have hlo : low64 mant 0 = mant.val % 2 ^ 64 := by simpa using low64_val mant (k := 0) (by norm_num)
  have hhi : low64 mant 64 = mant.val / 2 ^ 64 % 2 ^ 64 := by
    simpa using low64_val mant (k := 64) (by norm_num)
  have hsign : (if neg then 1 else 0) = neg.toNat := by cases neg <;> rfl
  have hn := toNat_lt neg
  simp only [packWords, word, hlo, hsign]
  cases fmt <;> simp only [sigBits, expBits] at hm hb ⊢
  case x87 =>
    rw [or_shiftLeft hb]
    omega
  case quad =>
    rw [Nat.or_assoc, or_fields (by omega) hb]
    omega
  case double =>
    rw [or_fields (i := 52) (by omega) hb]
    omega
  case float =>
    rw [or_fields (i := 23) (k := 8) (by omega) hb]
    omega
  case half =>
    rw [or_fields (by omega) hb]
    omega
  case bf16 =>
    rw [or_fields (by omega) hb]
    omega

lemma packBytes_word (fmt : LdfFmt) (neg : Bool) (hm : mant.val < 2 ^ fmt.sigBits) (hb : biased < 2 ^ fmt.expBits) :
    bytesVal (packBytes fmt biased mant neg) = fmt.word neg biased mant.val ∧
      (packBytes fmt biased mant neg).length = fmtBytes fmt := by
  obtain ⟨hw, hlo⟩ := packWords_word fmt neg hm hb
  have hn := toNat_lt neg
  unfold packBytes
  generalize packWords fmt biased mant neg = w at *
  have hpad : bytesVal (replicate 6 0) = 0 := by decide
  constructor
  · rw [word] at hw ⊢
    cases fmt <;> simp only [sigBits, expBits, fmtBytes] at hm hb hw ⊢ <;>
      simp only [bytesVal_append, storeBytes_val, storeBytes_length, bytesVal_nil,
        min_def, reduceLeDiff, if_true, if_false] <;> omega
  · cases fmt <;> simp [fmtBytes]

lemma loadWords_eq (fmt : LdfFmt) (hlen : bytes.length = fmtBytes fmt) : (loadWords fmt bytes).1 = bytesVal bytes % 2 ^ 64 ∧
      (loadWords fmt bytes).2 = bytesVal bytes / 2 ^ 64 % 2 ^ (if fmt = .x87 then 16 else 64) := by
  have hlt := bytesVal_lt bytes
  have htake := fun n => (bytesVal_take_drop bytes n).1
  have hdrop := (bytesVal_take_drop bytes 8).2
  have hor : ∀ l, orBytes l 0 0 = bytesVal l := fun l => by
    simpa using orBytes_eq l 0 (w := 0) (by norm_num)
  rw [hlen] at hlt
  constructor
  · simp only [loadWords, hor, htake]
    cases fmt <;> simp only [fmtBytes, min_def, reduceLeDiff, if_true, if_false, le_refl] at hlt ⊢ <;> omega
  · cases fmt <;> simp only [loadWords, fmtBytes] at hlen hlt ⊢
    case x87 =>
      have h8 : bytes.drop 8 = bytes.getD 8 0 :: bytes.getD 9 0 :: bytes.drop 10 := by
        rw [getD_eq_getElem _ _ (by omega), getD_eq_getElem _ _ (by omega), getElem_cons_drop, getElem_cons_drop]
      have hb := (bytes.getD 8 0).toNat_lt
      have hb' := (bytes.getD 9 0).toNat_lt
      rw [h8, bytesVal_cons, bytesVal_cons] at hdrop
      rw [or_shiftLeft hb, if_pos trivial]
      omega
    case quad =>
      rw [hor, take_of_length_le (by simp [hlen]), hdrop, if_neg (by decide)]
      omega
    all_goals
      rw [if_neg (by decide)]
      omega

/-! ## Fields -/

/-- The image has the fields `neg`, `biased` and `mant`, each within its width. -/
structure HasFields (fmt : LdfFmt) (bytes : List UInt8) (neg : Bool) (biased mant : ℕ) : Prop where
  length : bytes.length = fmtBytes fmt
  word : bytesVal bytes = fmt.word neg biased mant
  mant_lt : mant < 2 ^ fmt.sigBits
  biased_lt : biased < 2 ^ fmt.expBits

lemma packBytes_hasFields (fmt : LdfFmt) (neg : Bool) (hm : mant.val < 2 ^ fmt.sigBits) (hb : biased < 2 ^ fmt.expBits) :
    HasFields fmt (packBytes fmt biased mant neg) neg biased mant.val :=
  ⟨(packBytes_word fmt neg hm hb).2, (packBytes_word fmt neg hm hb).1, hm, hb⟩

/-- Packing the fields of an image gives an image with them. -/
lemma HasFields.pack {m : ℕ} (h : HasFields fmt bytes neg b m) (hb : biased = b) (hm : mant.val = m) :
    HasFields fmt (packBytes fmt biased mant neg) neg b m := by
  subst hb hm
  exact packBytes_hasFields fmt neg h.mant_lt h.biased_lt

lemma and_mask (x n : ℕ) {mask : ℕ} (h : mask = 2 ^ n - 1) : x &&& mask = x % 2 ^ n := by
  rw [h, and_two_pow_sub_one_eq_mod]

/-- The fields of a format in one word. -/
lemma small_fields (i k : ℕ) {lo m : ℕ} (hik : i + k < 64)
    (hlo : lo = (m + 2 ^ i * (b + 2 ^ k * neg.toNat)) % 2 ^ 64) (hm : m < 2 ^ i) (hb : b < 2 ^ k) :
    ∃ a : Big, a.val = m ∧ (lo / 2 ^ (i + k) % 2 == 1, lo / 2 ^ i % 2 ^ k, bigFromU64 (lo % 2 ^ i)) = (neg, b, a) := by
  have hg := toNat_lt neg
  have hneg : (neg.toNat == 1) = neg := by cases neg <;> rfl
  generalize neg.toNat = g at *
  have hbg : b + 2 ^ k * g < 2 ^ (k + 1) := by
    rw [pow_succ]
    nlinarith
  have hw : m + 2 ^ i * (b + 2 ^ k * g) < 2 ^ 64 := by
    calc m + 2 ^ i * (b + 2 ^ k * g) < 2 ^ i * (b + 2 ^ k * g + 1) := by
          rw [mul_succ]
          omega
      _ ≤ 2 ^ i * 2 ^ (k + 1) := Nat.mul_le_mul_left _ hbg
      _ = 2 ^ (i + (k + 1)) := (pow_add ..).symm
      _ ≤ 2 ^ 64 := Nat.pow_le_pow_right (by norm_num) (by omega)
  rw [mod_eq_of_lt hw] at hlo
  have hdiv : lo / 2 ^ i = b + 2 ^ k * g := by
    rw [hlo, add_mul_div_left _ _ (Nat.two_pow_pos i), div_eq_of_lt hm, zero_add]
  have hmant : lo % 2 ^ i = m := by rw [hlo, add_mul_mod_self_left, mod_eq_of_lt hm]
  have hm64 : m < 2 ^ 64 := hm.trans_le (Nat.pow_le_pow_right (by norm_num) (by omega))
  refine ⟨bigFromU64 m, bigFromU64_val hm64, ?_⟩
  rw [pow_add, ← Nat.div_div_eq_div_mul, hdiv, add_mul_div_left _ _ (Nat.two_pow_pos k), div_eq_of_lt hb, zero_add,
    mod_eq_of_lt hg, hneg, add_mul_mod_self_left, mod_eq_of_lt hb, hmant]

/-- The words hold the fields that the bytes do. -/
lemma unpackWords_fields {mant : ℕ} (h : HasFields fmt bytes neg biased mant) : ∃ b : Big, b.val = mant ∧
      unpackWords fmt (loadWords fmt bytes).1 (loadWords fmt bytes).2 = (neg, biased, b) := by
  obtain ⟨hlo, hhi⟩ := loadWords_eq fmt h.length
  obtain ⟨-, hw, hm, hb⟩ := h
  rw [hw, word] at hlo hhi
  generalize (loadWords fmt bytes).1 = lo at *
  generalize (loadWords fmt bytes).2 = hi at *
  have hn := toNat_lt neg
  have hneg : ∀ {x : ℕ}, x % 2 = neg.toNat → (x % 2 == 1) = neg := fun hx => by
    rw [hx]
    cases neg <;> rfl
  have hval : ∀ {x : ℕ}, x < 2 ^ 64 → (bigFromU64 x).val = x := fun hx => bigFromU64_val hx
  cases fmt <;> simp only [unpackWords, shiftRight_eq_div_pow, and_one_is_mod, sigBits,
    expBits, if_true, if_false, reduceCtorEq] at *
  case x87 =>
    rw [and_mask _ 15 (by norm_num)]
    obtain ⟨h1, h2, h3⟩ : hi / 2 ^ 15 % 2 = neg.toNat ∧ hi % 2 ^ 15 = biased ∧ lo = mant := by omega
    exact ⟨bigFromU64 lo, by rw [hval (by omega), h3], by rw [hneg h1, h2]⟩
  case quad =>
    rw [and_mask _ 15 (by norm_num), and_mask _ 48 (by norm_num)]
    obtain ⟨h1, h2, h3⟩ : hi / 2 ^ 63 % 2 = neg.toNat ∧ hi / 2 ^ 48 % 2 ^ 15 = biased ∧ hi % 2 ^ 48 * 2 ^ 64 + lo = mant := by
      omega
    have h48 := bigShl_val (bigFromU64 (hi % 2 ^ 48)) (k := 64) (by norm_num)
    rw [hval (by omega)] at h48
    refine ⟨bigAdd (bigShl (bigFromU64 (hi % 2 ^ 48)) 64) (bigFromU64 lo), ?_, by rw [hneg h1, h2]⟩
    rw [bigAdd_val, hval (by omega), ← h3]
    exact congrArg (· + lo) h48
  case double =>
    rw [and_mask _ 11 (by norm_num), and_mask _ 52 (by norm_num)]
    exact small_fields 52 11 (by omega) hlo hm hb
  case float =>
    rw [and_mask _ 8 (by norm_num), and_mask _ 23 (by norm_num)]
    exact small_fields 23 8 (by omega) hlo hm hb
  case half =>
    rw [and_mask _ 5 (by norm_num), and_mask _ 10 (by norm_num)]
    exact small_fields 10 5 (by omega) hlo hm hb
  case bf16 =>
    rw [and_mask _ 8 (by norm_num), and_mask _ 7 (by norm_num)]
    exact small_fields 7 8 (by omega) hlo hm hb

/-! ## Reading special values -/

/-- The exponent field of the infinities and the NaNs. -/
def LdfFmt.expMax (fmt : LdfFmt) : ℕ := 2 ^ fmt.expBits - 1

lemma layout (fmt : LdfFmt) : (2 * (finfo fmt).bias + 1).toNat = fmt.expMax ∧ (finfo fmt).bias * 2 + 1 = fmt.expMax ∧
      (finfo fmt).emin = 1 - (finfo fmt).bias ∧ (finfo fmt).emax = (finfo fmt).bias ∧ 0 < (finfo fmt).bias
      ∧ fmt.expMax < 2 ^ fmt.expBits ∧ fmt.sigBits + (if fmt = .x87 then 0 else 1) = fmt.prec
      ∧ fmt.format.lowq = (finfo fmt).emin - (fmt.prec - 1) := by cases fmt <;> decide

/-- The significand of a normal number: its integer bit is stored, or is implied. -/
def LdfFmt.intBit (fmt : LdfFmt) : ℕ := if fmt = .x87 then 0 else 2 ^ (fmt.prec - 1)

/-- The bits of the significand field below the integer bit. -/
def LdfFmt.frac (fmt : LdfFmt) (mant : ℕ) : ℕ := if fmt = .x87 then mant % 2 ^ 63 else mant

lemma bigShl_int_val (a : Big) {k : ℤ} (h0 : 0 ≤ k) (h1 : k < 2 ^ 36) : (bigShl a k).val = a.val * 2 ^ k.toNat := by
  obtain ⟨n, rfl⟩ := Int.eq_ofNat_of_zero_le h0
  exact bigShl_val a (by omega)

lemma bigFromU64_one : (bigFromU64 1).val = 1 := bigFromU64_val (by norm_num)

lemma implied_val (fmt : LdfFmt) : (bigShl (bigFromU64 1) ((finfo fmt).p - 1)).val = 2 ^ (fmt.prec - 1) := by
  have hb := finfo_bounds fmt
  rw [← prec_cast, bigShl_int_val _ (by omega) (by omega), bigFromU64_one, one_mul]
  congr 1
  omega

section
variable {fmt : LdfFmt} {bytes : List UInt8} {neg : Bool} {biased mant : ℕ}

lemma ldfFromBytes_fields (h : HasFields fmt bytes neg biased mant) :
    ∃ b : Big, b.val = mant ∧ (fmt = .x87 → (loadWords fmt bytes).1 = mant) ∧
      ldfFromBytes bytes fmt = valueOfFields fmt (loadWords fmt bytes).1 neg biased b := by
  obtain ⟨b, hb, hu⟩ := unpackWords_fields h
  refine ⟨b, hb, ?_, ?_⟩
  · rintro rfl
    have hm : mant < 2 ^ 64 := h.mant_lt
    rw [(loadWords_eq _ h.length).1, h.word, word, sigBits, add_mul_mod_self_left, mod_eq_of_lt hm]
  · simp only [ldfFromBytes, hu]

lemma ldfFromBytes_special (h : HasFields fmt bytes neg fmt.expMax mant) :
    ldfFromBytes bytes fmt = mk (if fmt.frac mant = 0 then .inf else .nan) neg := by
  obtain ⟨b, hb, hlo, hv⟩ := ldfFromBytes_fields h
  rw [hv, valueOfFields, (layout fmt).1]
  simp only [if_true, frac]
  by_cases hx : fmt = .x87
  · simp only [hx, if_true, ← hlo hx]
    rw [and_mask _ 63 (by norm_num)]
    simp only [bigIsZero_iff, bigFromU64_val (show (loadWords .x87 bytes).1 % 2 ^ 63 < 2 ^ 64 by omega)]
  · simp only [hx, if_false, bigIsZero_iff, hb]

lemma ldfFromBytes_subnormal (h : HasFields fmt bytes neg 0 mant) : ∃ b : Big, b.val = mant ∧ ldfFromBytes bytes fmt =
      ⟨.finite, neg, b, if mant = 0 then 0 else fmt.format.lowq⟩ := by
  obtain ⟨b, hb, -, hv⟩ := ldfFromBytes_fields h
  have hl := layout fmt
  refine ⟨b, hb, ?_⟩
  rw [hv, valueOfFields, hl.1, if_neg (by omega), if_pos rfl]
  simp only [bigIsZero_iff, hb]
  rfl

lemma ldfFromBytes_normal (h : HasFields fmt bytes neg biased mant) (h0 : biased ≠ 0)
    (hmax : biased ≠ fmt.expMax) : ∃ b : Big, b.val = mant + fmt.intBit ∧ ldfFromBytes bytes fmt =
      ⟨.finite, neg, b, biased - (finfo fmt).bias - (fmt.prec - 1)⟩ := by
  obtain ⟨b, hb, -, hv⟩ := ldfFromBytes_fields h
  rw [hv, valueOfFields, (layout fmt).1, if_neg hmax, if_neg h0, ← prec_cast]
  refine ⟨_, ?_, rfl⟩
  rw [intBit]
  by_cases hx : fmt = .x87
  · rw [if_neg (not_not.2 hx), if_pos hx, hb, add_zero]
  · rw [if_pos hx, if_neg hx, bigAdd_val, prec_cast, implied_val, hb]

end

/-! ## Writing -/

section
variable {fmt : LdfFmt} {r : Ldf}

lemma specialFields_inf (fmt : LdfFmt) : (specialFields .inf fmt).1 = fmt.expMax ∧
      (specialFields .inf fmt).2.val = if fmt = .x87 then 2 ^ 63 else 0 := by
  refine ⟨(layout fmt).1, ?_⟩
  simp only [specialFields, reduceCtorEq, if_false]
  split
  · rw [bigShl_int_val _ (by norm_num) (by norm_num), bigFromU64_one, one_mul]
    rfl
  · rfl

lemma finiteFields_zero (h : r.m.val = 0) : finiteFields r fmt = (0, bigNew) := by
  rw [finiteFields, if_pos ((bigIsZero_iff r.m).2 h)]

lemma finiteFields_normal (h0 : r.m.val ≠ 0) (hp : r.m.val < 2 ^ fmt.prec) (hE : (finfo fmt).emin ≤ r.e + r.m.val.size - 1) :
    ((finiteFields r fmt).1 : ℤ) = r.e + r.m.val.size - 1 + (finfo fmt).bias ∧
      (finiteFields r fmt).2.val + fmt.intBit = r.m.val * 2 ^ (fmt.prec - r.m.val.size) := by
  have hz := bigIsZero_of_ne h0
  have hl := layout fmt
  have hb := finfo_bounds fmt
  have hsize := size_le.2 hp
  have hnorm : (bigShl r.m ((finfo fmt).p - r.m.val.size)).val = r.m.val * 2 ^ (fmt.prec - r.m.val.size) := by
    rw [← prec_cast, bigShl_int_val _ (by omega) (by omega)]
    congr 2
    omega
  have hlead : 2 ^ (fmt.prec - 1) ≤ r.m.val * 2 ^ (fmt.prec - r.m.val.size) := by
    obtain ⟨s, hs⟩ := exists_eq_succ_of_ne_zero (fun h => h0 (size_eq_zero.1 h) : r.m.val.size ≠ 0)
    calc 2 ^ (fmt.prec - 1) = 2 ^ s * 2 ^ (fmt.prec - r.m.val.size) := by
          rw [← pow_add]
          congr 1
          omega
      _ ≤ _ := mul_le_mul_right _ (lt_size.1 (by omega))
  rw [finiteFields]
  simp only [hz, false_eq_true, if_false, bigBitlen_eq]
  rw [if_pos hE]
  refine ⟨Int.toNat_of_nonneg (by omega), ?_⟩
  simp only [intBit]
  split
  · rw [hnorm, add_zero]
  · rw [bigSub_val (by rw [hnorm, implied_val]; exact hlead), hnorm, implied_val]
    omega

lemma finiteFields_subnormal (h0 : r.m.val ≠ 0) (hlow : fmt.format.lowq ≤ r.e)
    (hE : r.e + r.m.val.size - 1 < (finfo fmt).emin) : (finiteFields r fmt).1 = 0 ∧
      (finiteFields r fmt).2.val = r.m.val * 2 ^ (r.e - fmt.format.lowq).toNat := by
  have hz := bigIsZero_of_ne h0
  have hb := finfo_bounds fmt
  have hl := layout fmt
  rw [finiteFields]
  simp only [hz, bigBitlen_eq]
  rw [if_neg (not_le.2 hE)]
  exact ⟨rfl, bigShl_int_val _ (by show 0 ≤ r.e - fmt.format.lowq; omega) (by show r.e - fmt.format.lowq < _; omega)⟩

lemma add_intBit_lt_iff (fmt : LdfFmt) {mant : ℕ} : mant + fmt.intBit < 2 ^ fmt.prec ↔ mant < 2 ^ fmt.sigBits := by
  have hl := (layout fmt).2.2.2.2.2.2.1
  rw [intBit]
  split <;> rename_i hx
  · rw [add_zero, ← hl, if_pos hx, add_zero]
  · rw [if_neg hx] at hl
    rw [← hl, Nat.add_sub_cancel, pow_succ]
    omega

lemma mul_two_pow_lt (m k : ℕ) : m * 2 ^ k < 2 ^ (m.size + k) := by
  rw [pow_add]
  exact (Nat.mul_lt_mul_right (Nat.two_pow_pos k)).2 (lt_size_self m)

/-- Zeros below a significand count in its exponent. -/
lemma val_shift (m : ℕ) {q e : ℤ} {k : ℕ} (h : e = q + k) : ((m * 2 ^ k : ℕ) : ℚ) * 2 ^ q = m * 2 ^ e := by
  rw [h, zpow_add₀ two_ne_zero, zpow_natCast]
  push_cast
  ring

/-- What is packed from a finite value is read back as that value. -/
lemma decode_finite (neg : Bool) (hp : r.m.val < 2 ^ fmt.prec) (hlow : fmt.format.lowq ≤ r.e)
    (hmax : r.m.val ≠ 0 → r.m.val.size + r.e ≤ (finfo fmt).emax + 1) :
    ∃ b e, ldfFromBytes (packBytes fmt (finiteFields r fmt).1 (finiteFields r fmt).2 neg) fmt =
        ⟨.finite, neg, b, e⟩ ∧ (b.val * 2 ^ e : ℚ) = r.m.val * 2 ^ r.e := by
  have hl := layout fmt
  have hsize := size_le.2 hp
  by_cases h0 : r.m.val = 0
  · rw [finiteFields_zero h0]
    have hf : HasFields fmt (packBytes fmt 0 bigNew neg) neg 0 0 :=
      packBytes_hasFields fmt neg (Nat.two_pow_pos _) (Nat.two_pow_pos _)
    obtain ⟨b, hb, hv⟩ := ldfFromBytes_subnormal hf
    exact ⟨b, _, hv, by simp [hb, h0]⟩
  by_cases hE : (finfo fmt).emin ≤ r.e + r.m.val.size - 1
  · obtain ⟨hbias, hmant⟩ := finiteFields_normal h0 hp hE
    have hlt : (finiteFields r fmt).2.val + fmt.intBit < 2 ^ fmt.prec := by
      rw [hmant]
      exact (mul_two_pow_lt _ _).trans_eq (by rw [Nat.add_sub_cancel' hsize])
    have hbmax : (finiteFields r fmt).1 ≠ 0 ∧ (finiteFields r fmt).1 < fmt.expMax := by omega
    obtain ⟨b, hb, hv⟩ := ldfFromBytes_normal (packBytes_hasFields fmt neg ((add_intBit_lt_iff fmt).1 hlt)
      (hbmax.2.trans hl.2.2.2.2.2.1)) hbmax.1 hbmax.2.ne
    refine ⟨b, _, hv, ?_⟩
    rw [hb, hmant, hbias]
    exact val_shift _ (by omega)
  · obtain ⟨hbias, hmant⟩ := finiteFields_subnormal h0 hlow (not_le.1 hE)
    have hlt : (finiteFields r fmt).2.val < 2 ^ (fmt.prec - 1) := by
      rw [hmant]
      exact (mul_two_pow_lt _ _).trans_le (Nat.pow_le_pow_right (by norm_num) (by omega))
    have hsig : (finiteFields r fmt).2.val < 2 ^ fmt.sigBits :=
      hlt.trans_le (Nat.pow_le_pow_right (by norm_num) (by split at hl <;> omega))
    obtain ⟨b, hb, hv⟩ := ldfFromBytes_subnormal (packBytes_hasFields fmt neg hsig (Nat.two_pow_pos _))
    rw [hbias]
    refine ⟨b, _, hv, ?_⟩
    have hne : (finiteFields r fmt).2.val ≠ 0 := by
      rw [hmant]
      exact mul_ne_zero h0 (Nat.two_pow_pos _).ne'
    rw [hb, if_neg hne, hmant]
    exact val_shift _ (by omega)

lemma encodeSpecial_fields (fmt : LdfFmt) (neg : Bool) :
    HasFields fmt (encodeSpecial (mk .inf neg) fmt) neg fmt.expMax (if fmt = .x87 then 2 ^ 63 else 0) := by
  obtain ⟨hb, hm⟩ := specialFields_inf fmt
  rw [encodeSpecial, ← hb, ← hm]
  refine packBytes_hasFields fmt neg ?_ (hb.trans_lt (layout fmt).2.2.2.2.2.1)
  show (specialFields .inf fmt).2.val < _
  rw [hm]
  split_ifs with hx
  · rw [hx, sigBits]
    norm_num
  · exact Nat.two_pow_pos _

end

lemma roundTo_cases {m : Big} {e : ℤ} (hr : InRange m e) {r : Ldf} (h : roundTo m e false neg fmt = r) :
    r = mk .inf neg ∨ (r.kind = .finite ∧ r.m.val < 2 ^ fmt.prec ∧ fmt.format.lowq ≤ r.e ∧
      (r.m.val ≠ 0 → r.m.val.size + r.e ≤ (finfo fmt).emax + 1)) := by
  subst h
  obtain ⟨hlt, hlow, -⟩ := roundTo_bounds m e false neg fmt hr (by simp)
  by_cases hm : m.val = 0
  · right
    rw [roundTo, if_pos ((bigIsZero_iff m).2 hm)] at *
    exact ⟨rfl, hlt, hlow, fun h => absurd rfl h⟩
  · rw [roundTo_eq m e false neg fmt hm] at *
    split_ifs at hlt with hmax
    · rw [if_pos hmax] at *
      exact .inr ⟨rfl, hlt, hlow, fun h => (mul_two_zpow_lt_iff _ _ _ h).1 hmax⟩
    · rw [if_neg hmax]
      exact .inl rfl

lemma decode_encode (v : Ldf) (fmt : LdfFmt) (hk : v.kind = .finite) (hr : InRange v.m v.e) :
    (ldfFromBytes (ldfEncode v fmt) fmt).kind = (ldfRound v fmt).kind ∧ (ldfFromBytes
    (ldfEncode v fmt) fmt).neg = (ldfRound v fmt).neg ∧ (ldfFromBytes (ldfEncode v fmt) fmt).val = (ldfRound v fmt).val := by
  have hround : ldfRound v fmt = roundTo v.m v.e false v.neg fmt := by
    rw [ldfRound, if_neg (not_not.2 hk)]
  rw [hround, ldfEncode, if_neg (by simp [hk])]
  rcases roundTo_cases hr rfl with hinf | ⟨hfin, hlt, hlow, hmax⟩
  · rw [hinf, if_pos (show (mk .inf v.neg).kind = .inf from rfl),
      ldfFromBytes_special (encodeSpecial_fields fmt v.neg), if_pos (by rw [frac]; split <;> rfl)]
    exact ⟨rfl, rfl, rfl⟩
  · rw [if_neg (by simp [hfin])]
    obtain ⟨b, e, hv, hval⟩ := decode_finite v.neg hlt hlow hmax
    rw [hv, hfin, roundTo_neg, Ldf.val, Ldf.val, roundTo_neg, hval]
    exact ⟨rfl, rfl, rfl⟩

/-! ## Round trips -/

/-- The significand field of an image. -/
def LdfFmt.mantOf (fmt : LdfFmt) (bytes : List UInt8) : ℕ := bytesVal bytes % 2 ^ fmt.sigBits

/-- The exponent field of an image. -/
def LdfFmt.expOf (fmt : LdfFmt) (bytes : List UInt8) : ℕ :=
  bytesVal bytes / 2 ^ fmt.sigBits % 2 ^ fmt.expBits

/-- The image is a NaN: the exponent is all ones, the fraction is not zero. -/
def IsNaN (fmt : LdfFmt) (bytes : List UInt8) : Prop :=
  fmt.expOf bytes = fmt.expMax ∧ fmt.frac (fmt.mantOf bytes) ≠ 0

/-- The image is canonical. Only x87 has others: its padding is zero, and its integer bit is set
exactly when the exponent is not zero. -/
def Canonical (fmt : LdfFmt) (bytes : List UInt8) : Prop :=
  fmt = .x87 → bytes.drop 10 = List.replicate 6 0 ∧
    (2 ^ 63 ≤ fmt.mantOf bytes ↔ fmt.expOf bytes ≠ 0)

lemma hasFields_of_image (hlen : bytes.length = fmtBytes fmt) (hcan : Canonical fmt bytes) :
    ∃ neg, HasFields fmt bytes neg (fmt.expOf bytes) (fmt.mantOf bytes) := by
  have hlt := bytesVal_lt bytes
  have hx87 : fmt = .x87 → bytesVal bytes < 2 ^ 80 := fun hx => by
    have hdrop := (bytesVal_take_drop bytes 10).2
    rw [(hcan hx).1, show bytesVal (replicate 6 0) = 0 by decide] at hdrop
    omega
  have hw : bytesVal bytes < 2 ^ (fmt.sigBits + fmt.expBits + 1) := by
    rw [hlen] at hlt
    cases fmt <;> simp only [fmtBytes, sigBits, expBits] at hlt ⊢
    case x87 => exact hx87 rfl
    all_goals omega
  have hq : bytesVal bytes / 2 ^ fmt.sigBits / 2 ^ fmt.expBits < 2 := by
    rw [Nat.div_div_eq_div_mul, ← pow_add, Nat.div_lt_iff_lt_mul (Nat.two_pow_pos _), mul_comm, ← pow_succ]
    exact hw
  refine ⟨bytesVal bytes / 2 ^ fmt.sigBits / 2 ^ fmt.expBits == 1, hlen, ?_,
    mod_lt _ (Nat.two_pow_pos _), mod_lt _ (Nat.two_pow_pos _)⟩
  have hneg : (bytesVal bytes / 2 ^ fmt.sigBits / 2 ^ fmt.expBits == 1).toNat =
      bytesVal bytes / 2 ^ fmt.sigBits / 2 ^ fmt.expBits := by
    generalize bytesVal bytes / 2 ^ fmt.sigBits / 2 ^ fmt.expBits = q at hq
    interval_cases q <;> rfl
  rw [word, hneg, mantOf, expOf, mod_add_div, mod_add_div]

lemma HasFields.eq {mant : ℕ} (h : HasFields fmt l neg biased mant) (h' : HasFields fmt l' neg biased mant) : l = l' :=
  bytesVal_inj (h.length.trans h'.length.symm) (h.word.trans h'.word.symm)

lemma normal_size {mant : ℕ} (hm : mant < 2 ^ fmt.sigBits)
    (hint : fmt = .x87 → 2 ^ 63 ≤ mant) : (mant + fmt.intBit).size = fmt.prec := by
  have hlow : 2 ^ (fmt.prec - 1) ≤ mant + fmt.intBit := by
    rw [intBit]
    split_ifs with hx
    · have := hint hx
      rw [hx] at *
      exact this
    · omega
  have h1 := size_le.2 ((add_intBit_lt_iff fmt).2 hm)
  have h2 := lt_size.2 hlow
  omega

section
variable {fmt : LdfFmt} {bytes : List UInt8} {neg : Bool} {biased mant : ℕ}

lemma ldfEncode_finite (neg : Bool) (m : Big) (e : ℤ) (fmt : LdfFmt) : ldfEncode ⟨.finite, neg, m, e⟩ fmt = if
      (roundTo m e false neg fmt).kind = .inf then encodeSpecial (roundTo m e false neg fmt) fmt else packBytes fmt
      (finiteFields (roundTo m e false neg fmt) fmt).1 (finiteFields (roundTo m e false neg fmt) fmt).2 neg := by
  rw [ldfEncode, if_neg (by simp)]

/-- An infinity or a NaN is written back as it was read. -/
lemma writeBack_special (h : HasFields fmt bytes neg fmt.expMax mant) (hfrac : fmt.frac mant = 0)
    (hint : fmt = .x87 → 2 ^ 63 ≤ mant) : HasFields fmt (ldfEncode (ldfFromBytes bytes fmt) fmt) neg fmt.expMax mant := by
  have hm := h.mant_lt
  have hmant : mant = if fmt = .x87 then 2 ^ 63 else 0 := by
    rw [frac] at hfrac
    split <;> rename_i hx
    · have := hint hx
      rw [hx] at hm
      rw [if_pos hx] at hfrac
      change mant < 2 ^ 64 at hm
      omega
    · rwa [if_neg hx] at hfrac
  rw [ldfFromBytes_special h, if_pos hfrac, ldfEncode, if_pos (.inl rfl)]
  conv_rhs => rw [hmant]
  exact encodeSpecial_fields fmt neg

lemma writeBack_subnormal (h : HasFields fmt bytes neg 0 mant) (hint : fmt = .x87 → mant < 2 ^ 63) :
    HasFields fmt (ldfEncode (ldfFromBytes bytes fmt) fmt) neg 0 mant := by
  obtain ⟨b, hb, hv⟩ := ldfFromBytes_subnormal h
  have hl := layout fmt
  have hbd := finfo_bounds fmt
  rw [hv, ldfEncode_finite]
  by_cases h0 : mant = 0
  · rw [roundTo, if_pos ((bigIsZero_iff b).2 (hb.trans h0)), if_neg (by simp [mk]), finiteFields_zero rfl, h0]
    exact packBytes_hasFields fmt neg (Nat.two_pow_pos _) (Nat.two_pow_pos _)
  · have hlt : b.val < 2 ^ (fmt.prec - 1) := by
      rw [hb]
      by_cases hx : fmt = .x87
      · have := hint hx
        rw [hx]
        exact this
      · rw [← hl.2.2.2.2.2.2.1, if_neg hx, Nat.add_sub_cancel]
        exact h.mant_lt
    have hsize := size_le.2 hlt
    have hb0 : b.val ≠ 0 := by rwa [hb]
    rw [if_neg h0, roundTo_of_fits neg hb0 (hlt.trans_le (Nat.pow_le_pow_right (by norm_num)
      (sub_le _ _))) le_rfl (by omega), if_neg (by simp)]
    obtain ⟨h1, h2⟩ := @finiteFields_subnormal fmt ⟨.finite, neg, b, fmt.format.lowq⟩ hb0 le_rfl
      (by show fmt.format.lowq + b.val.size - 1 < _; omega)
    rw [sub_self, Int.toNat_zero, pow_zero, mul_one, hb] at h2
    exact h.pack h1 h2

lemma writeBack_normal (h : HasFields fmt bytes neg biased mant) (h0 : biased ≠ 0) (hmax : biased ≠ fmt.expMax)
    (hint : fmt = .x87 → 2 ^ 63 ≤ mant) : HasFields fmt (ldfEncode (ldfFromBytes bytes fmt) fmt) neg biased mant := by
  obtain ⟨b, hb, hv⟩ := ldfFromBytes_normal h h0 hmax
  have hl := layout fmt
  have hbd := finfo_bounds fmt
  have hblt := h.biased_lt
  have hsize := normal_size h.mant_lt hint
  rw [← hb] at hsize
  have hb0 : b.val ≠ 0 := fun hz => by
    rw [hz, size_zero] at hsize
    omega
  have hexp : fmt.expMax + 1 = 2 ^ fmt.expBits := Nat.sub_add_cancel Nat.one_le_two_pow
  rw [hv, ldfEncode_finite, roundTo_of_fits neg hb0 (hsize ▸ lt_size_self _) (by omega) (by omega), if_neg (by simp)]
  obtain ⟨h1, h2⟩ := @finiteFields_normal fmt ⟨.finite, neg, b, biased - (finfo fmt).bias - (fmt.prec - 1)⟩ hb0
    (hsize ▸ lt_size_self _) (by simp only [hsize]; omega)
  simp only [hsize] at h1 h2
  rw [Nat.sub_self, pow_zero, mul_one, hb, Nat.add_right_cancel_iff] at h2
  exact h.pack (by omega) h2

end

lemma encode_decode (fmt : LdfFmt) (bytes : List UInt8) (hlen : bytes.length = fmtBytes fmt) (hnan : ¬ IsNaN fmt bytes)
    (hcan : Canonical fmt bytes) : ldfEncode (ldfFromBytes bytes fmt) fmt = bytes := by
  obtain ⟨neg, hf⟩ := hasFields_of_image hlen hcan
  have hx : fmt = .x87 → (2 ^ 63 ≤ fmt.mantOf bytes ↔ fmt.expOf bytes ≠ 0) := fun h => (hcan h).2
  refine HasFields.eq ?_ hf
  rcases eq_or_ne (fmt.expOf bytes) fmt.expMax with hmax | hmax
  · have hne : fmt.expMax ≠ 0 := by cases fmt <;> decide
    rw [hmax] at hf ⊢
    refine writeBack_special hf ?_ fun h => (hx h).2 (hmax ▸ hne)
    by_contra hfrac
    exact hnan ⟨hmax, hfrac⟩
  rcases eq_or_ne (fmt.expOf bytes) 0 with h0 | h0
  · rw [h0] at hf ⊢
    exact writeBack_subnormal hf fun h => by
      have := hx h
      omega
  · exact writeBack_normal hf h0 hmax fun h => (hx h).2 h0

/-- Reading and writing are inverse: every image that is canonical and not a NaN survives the
round trip, and a finite value comes back as the value of the format nearest to it. -/
theorem image_roundTrip (fmt : LdfFmt) :
    (∀ bytes : List UInt8, bytes.length = fmtBytes fmt → ¬ IsNaN fmt bytes → Canonical fmt bytes →
      ldfEncode (ldfFromBytes bytes fmt) fmt = bytes) ∧
    (∀ v : Ldf, v.kind = .finite → InRange v.m v.e →
      (ldfFromBytes (ldfEncode v fmt) fmt).kind = (ldfRound v fmt).kind ∧
      (ldfFromBytes (ldfEncode v fmt) fmt).neg = (ldfRound v fmt).neg ∧
      (ldfFromBytes (ldfEncode v fmt) fmt).val = (ldfRound v fmt).val ∧
      RoundsTo fmt v.val (ldfRound v fmt)) := by
  refine ⟨encode_decode fmt, fun v hk hr => ?_⟩
  obtain ⟨h1, h2, h3⟩ := decode_encode v fmt hk hr
  refine ⟨h1, h2, h3, ?_⟩
  rw [ldfRound, if_neg (not_not.2 hk)]
  exact roundTo_exact v.m v.e v.neg fmt hr

/-- The round trips of `1.0f` and of the integer one. -/
theorem image_roundTrip_one :
    ldfEncode (ldfFromBytes [0x00, 0x00, 0x80, 0x3f] .float) .float = [0x00, 0x00, 0x80, 0x3f] ∧
    (ldfFromBytes (ldfEncode (ldfFromInt 1 false) .float) .float).val =
      (ldfRound (ldfFromInt 1 false) .float).val :=
  ⟨(image_roundTrip .float).1 [0x00, 0x00, 0x80, 0x3f] rfl (by unfold IsNaN; decide) (fun h => by cases h),
    ((image_roundTrip .float).2 (ldfFromInt 1 false) rfl (ldfFromInt_inRange 1 false).exact).2.2.1⟩

end EmbCC.LdFloat
