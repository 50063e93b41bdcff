import Mathlib

/-!
# Constants on RISC-V (`rv_li`)

`li_emit` builds a constant from its low twelve bits, which an `addi` adds with their sign, and from what is
left, which a `lui` or a shorter sequence and a shift provide. The long long arithmetic wraps around, and so do
the registers: that the difference `v - lo` wraps near `2 ^ 63` does no harm (`liEmit_value`).

`rv_w` may replace an instruction by a 16-bit form of it. `rv_li_len` counts four bytes for each, so it is the
number of bytes only without compression (`rvLi_compressed`).
-/

namespace EmbCC.Arch.Rv

open BitVec
open BitVec (ofInt)
open Function List Bool Int

/-- The instructions `li_emit` emits; an immediate is the field that the encoding keeps. -/
inductive Ins
  | addi (rd rs1 : ℕ) (imm : BitVec 12)
  | addiw (rd rs1 : ℕ) (imm : BitVec 12)
  | lui (rd : ℕ) (hi20 : BitVec 20)
  | slli (rd rs1 sh : ℕ)
deriving DecidableEq, Repr

/-- `rv_fits`. -/
def rvFits (v : BitVec 64) (bits : ℕ) : Bool :=
  decide (-2 ^ (bits - 1) ≤ v.toInt ∧ v.toInt ≤ 2 ^ (bits - 1) - 1)

/-- `hi20_of`. -/
def hi20Of (v : BitVec 64) : BitVec 64 := (v + 0x800#64).sshiftRight 12 &&& 0xfffff#64

/-- `lo12_of`. -/
def lo12Of (v : BitVec 64) : BitVec 64 := ((v &&& 0xfff#64) ^^^ 0x800#64) - 0x800#64

lemma xor_bit {x : ℕ} (hx : x < 4096) : x ^^^ 2048 = (x + 2048) % 4096 := by
  have h : ∀ a < 64, ∀ b < 64, (64 * a + b) ^^^ 2048 = (64 * a + b + 2048) % 4096 := by decide +kernel
  have hsplit : x = 64 * (x / 64) + x % 64 := by omega
  rw [hsplit]
  exact h _ (by omega) _ (by omega)

lemma lo12Of_toInt (v : BitVec 64) : (lo12Of v).toInt = (v.toInt + 2048) % 4096 - 2048 := by
  have hand : (v &&& 0xfff#64).toNat = v.toNat % 4096 := by
    exact Nat.and_two_pow_sub_one_eq_mod v.toNat 12
  have hxor : ((v &&& 0xfff#64) ^^^ 0x800#64).toNat = (v.toNat % 4096 + 2048) % 4096 := by
    rw [toNat_xor, hand]
    exact xor_bit (Nat.mod_lt _ (by decide))
  have hv := toInt_eq_toNat_cond v
  have hlo := toInt_eq_toNat_cond (lo12Of v)
  have hsub : (lo12Of v).toNat = (2 ^ 64 - 2048 + (v.toNat % 4096 + 2048) % 4096) % 2 ^ 64 := by
    rw [lo12Of, BitVec.toNat_sub, hxor]
    rfl
  have hmod : (v.toInt + 2048) % 4096 = ((v.toNat % 4096 + 2048) % 4096 : ℕ) := by
    split at hv <;> omega
  split at hlo <;> omega

/-- What is left of `v` above its low twelve bits. -/
def rest (v : BitVec 64) : BitVec 64 := (v - lo12Of v).sshiftRight 12

lemma rest_toInt (v : BitVec 64) : 4096 * (rest v).toInt = v.toInt - (lo12Of v).toInt ∨
      (4096 * (rest v).toInt = v.toInt - (lo12Of v).toInt - 2 ^ 64 ∧ 2 ^ 63 - 2048 ≤ v.toInt) := by
  have hlo := lo12Of_toInt v
  have hle := le_toInt v
  have hlt := toInt_lt (x := v)
  rw [rest, toInt_sshiftRight, shiftRight_eq_div_pow, toInt_sub, bmod_def]
  split <;> omega

variable {v : BitVec 64}

/-- Beyond 32 bits what is left is smaller. -/
lemma rest_lt (h : rvFits v 32 = false) : (rest v).toInt.natAbs < v.toInt.natAbs := by
  have hlo := lo12Of_toInt v
  rw [rvFits, decide_eq_false_iff_not] at h
  rcases rest_toInt v with hr | ⟨hr, hv⟩ <;> omega

/-- `li_emit`: the instructions, each of which counts four bytes. -/
def liEmit (rd : ℕ) (v : BitVec 64) (xlen : ℕ) : List Ins :=
  if rvFits v 12 then [.addi rd 0 (v.setWidth 12)]
  else
    let lo := lo12Of v
    if h : rvFits v 32 = true then
      let narrow := xlen == 64 && (hi20Of v &&& 0x80000#64) != 0
      .lui rd ((hi20Of v).setWidth 20) ::
        if lo = 0 then []
        else [if narrow then .addiw rd rd (lo.setWidth 12) else .addi rd rd (lo.setWidth 12)]
    else
      liEmit rd (rest v) xlen ++ .slli rd rd 12 ::
        if lo = 0 then [] else [.addi rd rd (lo.setWidth 12)]
termination_by v.toInt.natAbs
decreasing_by exact rest_lt (eq_false_iff.2 h)

/-- `narrow32`. -/
def narrow32 (v : BitVec 64) : BitVec 64 :=
  let u := v.setWidth 32
  if u &&& 0x80000000#32 ≠ 0 then u.setWidth 64 - 0x100000000#64 else u.setWidth 64

/-- `rv_li`: `none` is the internal error. -/
def rvLi (rd : ℕ) (v : BitVec 64) (xlen : ℕ) : Option (List Ins) :=
  if xlen = 32 then
    if v.toInt < -2147483648 ∨ v.toInt > 4294967295 then none else some (liEmit rd (narrow32 v) xlen)
  else some (liEmit rd v xlen)

/-- `rv_li_len`. -/
def rvLiLen (v : BitVec 64) (xlen : ℕ) : ℕ :=
  4 * (liEmit 0 (if xlen = 32 then narrow32 v else v) xlen).length

/-- Has the instruction a 16-bit form? The cases of `rv_compress` for these instructions. -/
def compresses (xlen : ℕ) : Ins → Bool
  | .addi rd rs1 imm =>
    let immi := imm.toInt
    (rd == 0 && rs1 == 0 && immi == 0) ||
    (rd != 0 && rs1 == rd && immi != 0 && decide (-32 ≤ immi ∧ immi < 32)) ||
    (rd != 0 && rs1 == 0 && decide (-32 ≤ immi ∧ immi < 32)) ||
    (rd != 0 && rs1 != 0 && immi == 0) ||
    (rd == 2 && rs1 == 2 && immi != 0 && immi % 16 == 0 && decide (-512 ≤ immi ∧ immi < 512)) ||
    (decide (8 ≤ rd ∧ rd ≤ 15) && rs1 == 2 && decide (0 < immi ∧ immi < 1024) && immi % 4 == 0)
  | .addiw rd rs1 imm =>
    xlen == 64 && rd != 0 && (rs1 == rd || rs1 == 0) && decide (-32 ≤ imm.toInt ∧ imm.toInt < 32)
  | .lui rd hi20 =>
    rd != 0 && rd != 2 && hi20.toInt != 0 && decide (-32 ≤ hi20.toInt ∧ hi20.toInt < 32)
  | .slli rd rs1 sh => rd != 0 && rs1 == rd && sh != 0 && (xlen == 64 || decide (sh < 32))

/-- The bytes `rv_w` makes of instructions; `rvc` is `g_rvc`. -/
def bytes (rvc : Bool) (xlen : ℕ) (is : List Ins) : ℕ :=
  (is.map fun i => if rvc && compresses xlen i then 2 else 4).sum

/-- Reading a register; `x0` is zero. -/
def read {xlen : ℕ} (x : ℕ → BitVec xlen) (r : ℕ) : BitVec xlen := if r = 0 then 0 else x r

/-- The instruction set's meaning of an instruction. -/
def exec {xlen : ℕ} (x : ℕ → BitVec xlen) : Ins → ℕ → BitVec xlen
  | .addi rd rs1 imm => update x rd (read x rs1 + imm.signExtend xlen)
  | .addiw rd rs1 imm =>
    update x rd (((read x rs1 + imm.signExtend xlen).setWidth 32).signExtend xlen)
  | .lui rd hi20 => update x rd ((hi20 ++ 0#12).signExtend xlen)
  | .slli rd rs1 sh => update x rd (read x rs1 <<< sh)

lemma fits_iff {bits : ℕ} : rvFits v bits = true ↔ -2 ^ (bits - 1) ≤ v.toInt ∧ v.toInt ≤ 2 ^ (bits - 1) - 1 := by
  rw [rvFits, decide_eq_true_iff]

lemma signExtend_eq {m : ℕ} (x : BitVec m) (xlen : ℕ) : x.signExtend xlen = ofInt xlen x.toInt := rfl

/-- The sign comes back with twelve bits. -/
lemma setWidth_twelve (hl : -2048 ≤ v.toInt) (hu : v.toInt < 2048) : (v.setWidth 12).toInt = v.toInt := by
  have hv := toInt_eq_toNat_cond v
  rw [toInt_setWidth, bmod_def]
  split at hv <;> omega

lemma lo12Of_range (v : BitVec 64) : -2048 ≤ (lo12Of v).toInt ∧ (lo12Of v).toInt < 2048 := by
  have := lo12Of_toInt v
  omega

lemma hi20Of_toNat (h : rvFits v 32 = true) : ((hi20Of v).toNat : ℤ) = (v.toInt + 2048) / 4096 % 2 ^ 20 := by
  obtain ⟨hl, hu⟩ := fits_iff.1 h
  have hadd : (v + 0x800#64).toInt = v.toInt + 2048 := by
    have h800 : (0x800#64).toInt = 2048 := by decide
    rw [toInt_add, h800, bmod_def]
    split <;> omega
  have hsh : ((v + 0x800#64).sshiftRight 12).toInt = (v.toInt + 2048) / 4096 := by
    rw [toInt_sshiftRight, shiftRight_eq_div_pow, hadd]
    rfl
  have hand : (hi20Of v).toNat = ((v + 0x800#64).sshiftRight 12).toNat % 2 ^ 20 := by
    exact Nat.and_two_pow_sub_one_eq_mod _ 20
  have hcond := toInt_eq_toNat_cond ((v + 0x800#64).sshiftRight 12)
  split at hcond <;> omega

/-- What a `lui` of the high bits provides. -/
lemma lui_toInt (h : rvFits v 32 = true) :
    ((hi20Of v).setWidth 20 ++ 0#12).toInt = (v.toInt - (lo12Of v).toInt).bmod (2 ^ 32) := by
  have hhi := hi20Of_toNat h
  have hlo := lo12Of_toInt v
  have hnat : ((hi20Of v).setWidth 20 ++ 0#12).toNat = 4096 * (hi20Of v).toNat := by
    rw [toNat_append, toNat_setWidth, Nat.mod_eq_of_lt (by omega)]
    simp only [toNat_ofNat, Nat.zero_mod, Nat.or_zero]
    omega
  rw [toInt_eq_toNat_bmod, hnat, bmod_def, bmod_def]
  split <;> omega

lemma and_ne_zero_iff {w : ℕ} {x y : BitVec w} (k : ℕ) (hy : y.toNat = 2 ^ k) : x &&& y ≠ 0 ↔ x.toNat / 2 ^ k % 2 = 1 := by
  rw [ne_eq, ← toNat_inj, toNat_and, hy, Nat.and_two_pow, Nat.toNat_testBit]
  simp

/-- The top bit of the field is the sign of what the `lui` provides. -/
lemma narrow_iff (h : rvFits v 32 = true) :
    (hi20Of v &&& 0x80000#64) ≠ 0 ↔ (v.toInt - (lo12Of v).toInt).bmod (2 ^ 32) < 0 := by
  have hhi := hi20Of_toNat h
  have hlo := lo12Of_toInt v
  rw [and_ne_zero_iff 19 rfl, bmod_def]
  split <;> omega

section
variable {xlen rd : ℕ}

lemma read_update (hrd : rd ≠ 0) (x : ℕ → BitVec xlen) (w : BitVec xlen) : read (update x rd w) rd = w := by
  rw [read, if_neg hrd, update_self]

/-- An optional `addi` of the low bits. -/
lemma exec_lo (hrd : rd ≠ 0) {x : ℕ → BitVec xlen} {n : ℤ} (v : BitVec 64) (hx : read x rd = ofInt xlen n) :
    read ((if lo12Of v = 0 then [] else [.addi rd rd ((lo12Of v).setWidth 12)]).foldl exec x) rd =
      ofInt xlen (n + (lo12Of v).toInt) := by
  obtain ⟨hl, hu⟩ := lo12Of_range v
  split
  · rename_i h
    rw [foldl_nil, hx, h]
    simp
  · rw [foldl_cons, foldl_nil, exec, read_update hrd, hx, signExtend_eq, setWidth_twelve hl hu, ofInt_add]

lemma ofInt_congr {a b : ℤ} (h : a % 2 ^ xlen = b % 2 ^ xlen) : ofInt xlen a = ofInt xlen b := by
  apply eq_of_toNat_eq
  exact congrArg Int.toNat (by exact_mod_cast h)

/-- An `addiw` narrows the sum. -/
lemma setWidth_ofInt (n : ℤ) : ((ofInt 64 n).setWidth 32).toInt = n.bmod (2 ^ 32) := by
  rw [toInt_setWidth, toNat_ofInt, bmod_def, bmod_def]
  split <;> omega

/-- The constants of one `lui`. -/
lemma exec_lui (hrd : rd ≠ 0) {v : BitVec 64} (hv : rvFits v 32 = true) (hx : xlen = 64 ∨ xlen = 32) (x : ℕ → BitVec xlen) :
    read ((if lo12Of v = 0 then [] else [if xlen == 64 && (hi20Of v &&& 0x80000#64) != 0
        then Ins.addiw rd rd ((lo12Of v).setWidth 12) else .addi rd rd ((lo12Of v).setWidth 12)]).foldl exec
      (exec x (.lui rd ((hi20Of v).setWidth 20)))) rd = ofInt xlen v.toInt := by
  obtain ⟨hl, hu⟩ := lo12Of_range v
  obtain ⟨hvl, hvu⟩ := fits_iff.1 hv
  have hnarrow := narrow_iff hv
  have hread : read (exec x (.lui rd ((hi20Of v).setWidth 20))) rd =
      ofInt xlen ((v.toInt - (lo12Of v).toInt).bmod (2 ^ 32)) := by
    rw [exec, read_update hrd, signExtend_eq, lui_toInt hv]
  have hbmod := bmod_def (v.toInt - (lo12Of v).toInt) (2 ^ 32)
  have hlow := lo12Of_toInt v
  by_cases hn : xlen = 64 ∧ (hi20Of v &&& 0x80000#64) ≠ 0 ∧ lo12Of v ≠ 0
  · obtain ⟨rfl, hn, hlo⟩ := hn
    rw [if_neg hlo, if_pos (by simpa using hn), foldl_cons, foldl_nil, exec, read_update hrd, hread,
      signExtend_eq ((lo12Of v).setWidth 12), setWidth_twelve hl hu, ← ofInt_add, signExtend_eq, setWidth_ofInt]
    congr 1
    rw [bmod_add_bmod, Int.sub_add_cancel, bmod_def]
    split <;> omega
  · have hplain : (if lo12Of v = 0 then [] else [if xlen == 64 && (hi20Of v &&& 0x80000#64) != 0
        then Ins.addiw rd rd ((lo12Of v).setWidth 12) else .addi rd rd ((lo12Of v).setWidth 12)]) =
        if lo12Of v = 0 then [] else [.addi rd rd ((lo12Of v).setWidth 12)] := by
      split
      · rfl
      · rename_i hlo
        rw [if_neg]
        simp only [and_eq_true, beq_iff_eq, bne_iff_ne]
        exact fun h => hn ⟨h.1, h.2, hlo⟩
    rw [hplain, exec_lo hrd v hread]
    apply ofInt_congr
    rcases hx with rfl | rfl
    · by_cases hlo : lo12Of v = 0
      · have h0 : (lo12Of v).toInt = 0 := by rw [hlo]; rfl
        split at hbmod <;> omega
      · have hpos := mt hnarrow.2 fun h => hn ⟨rfl, h, hlo⟩
        split at hbmod <;> omega
    · split at hbmod <;> omega

lemma liEmit_value (hrd : rd ≠ 0) {v : BitVec 64} (hv : xlen = 64 ∨ xlen = 32 ∧ rvFits v 32 = true)
    (x : ℕ → BitVec xlen) : read ((liEmit rd v xlen).foldl exec x) rd = ofInt xlen v.toInt := by
  induction hsize : v.toInt.natAbs using Nat.strong_induction_on generalizing v x with
  | _ size ih =>
    rw [liEmit]
    split
    · rename_i h12
      have hfit := fits_iff.1 h12
      rw [foldl_cons, foldl_nil, exec, read_update hrd, signExtend_eq, setWidth_twelve (by omega) (by omega), read, if_pos rfl]
      exact zero_add _
    · split
      · rename_i h32
        exact exec_lui hrd h32 (hv.imp_right And.left) x
      · rename_i h32
        obtain rfl : xlen = 64 := hv.resolve_right fun h => h32 h.2
        have hrest := ih _ (hsize ▸ rest_lt (eq_false_iff.2 h32)) (.inl rfl) x rfl
        have hshift : read (exec ((liEmit rd (rest v) 64).foldl exec x) (.slli rd rd 12)) rd =
            ofInt 64 ((rest v).toInt * 4096) := by
          rw [exec, read_update hrd, hrest, shiftLeft_eq_mul_twoPow, ofInt_mul]
          rfl
        rw [foldl_append, foldl_cons, exec_lo hrd v hshift]
        apply ofInt_congr
        rcases rest_toInt v with h | ⟨h, -⟩ <;> omega

lemma narrow32_toInt (v : BitVec 64) : (narrow32 v).toInt = v.toInt.bmod (2 ^ 32) := by
  have hu : (v.setWidth 32).toNat = v.toNat % 2 ^ 32 := toNat_setWidth ..
  have hw : ((v.setWidth 32).setWidth 64).toNat = v.toNat % 2 ^ 32 := by
    rw [toNat_setWidth, hu]
    omega
  have hv := toInt_eq_toNat_cond v
  simp only [narrow32, and_ne_zero_iff (y := 0x80000000#32) 31 rfl, bmod_def]
  split
  · rw [toInt_sub, toInt_eq_toNat_cond, hw, show (0x100000000#64).toInt = 2 ^ 32 by decide, bmod_def]
    split at hv <;> split <;> omega
  · rw [toInt_eq_toNat_cond, hw]
    split at hv <;> omega

lemma liEmit_length (r rd : ℕ) (v : BitVec 64) (xlen : ℕ) : (liEmit r v xlen).length = (liEmit rd v xlen).length := by
  induction hsize : v.toInt.natAbs using Nat.strong_induction_on generalizing v with
  | _ size ih =>
    rw [liEmit.eq_def r, liEmit.eq_def rd]
    split
    · rfl
    · split
      · simp only [length_cons]
        split <;> rfl
      · rename_i h32
        rw [length_append, length_append, ih _ (hsize ▸ rest_lt (eq_false_iff.2 h32)) (rest v) rfl]
        split <;> rfl

end

/-- On RV64 for every value, and on RV32 for those that are 32 bits with or without a sign: the instructions leave
the value in their register, and without compression `rv_li_len` is the number of their bytes. -/
theorem rvLi_correct (xlen rd : ℕ) (v : BitVec 64) (rvc : Bool) (x : ℕ → BitVec xlen) (hrd : rd ≠ 0)
    (hx : xlen = 64 ∨ xlen = 32 ∧ -2 ^ 31 ≤ v.toInt ∧ v.toInt ≤ 2 ^ 32 - 1) :
    ∃ is, rvLi rd v xlen = some is ∧ read (is.foldl exec x) rd = ofInt xlen v.toInt ∧
      (rvc = false → bytes rvc xlen is = rvLiLen v xlen) := by
  have hlen w : bytes false xlen (liEmit rd w xlen) = 4 * (liEmit 0 w xlen).length := by
    simp [bytes, liEmit_length 0 rd, mul_comm]
  rcases hx with rfl | ⟨rfl, hl, hu⟩
  · exact ⟨_, if_neg (by decide), liEmit_value hrd (.inl rfl) x, fun h => h ▸ hlen v⟩
  · have hn := narrow32_toInt v
    rw [bmod_def] at hn
    have hfit : rvFits (narrow32 v) 32 = true := fits_iff.2 (by split at hn <;> omega)
    refine ⟨liEmit rd (narrow32 v) 32, ?_, ?_, fun h => h ▸ hlen (narrow32 v)⟩
    · rw [rvLi, if_pos rfl, if_neg (by omega)]
    · rw [liEmit_value hrd (.inr ⟨rfl, hfit⟩)]
      apply ofInt_congr
      split at hn <;> omega

theorem rvLi_correct_maxLong : ∃ is, rvLi 10 0x7fffffffffffffff#64 64 = some is ∧
    read (is.foldl exec fun _ => (0 : BitVec 64)) 10 = ofInt 64 (0x7fffffffffffffff#64).toInt ∧
      (false = false → bytes false 64 is = rvLiLen 0x7fffffffffffffff#64 64) :=
  rvLi_correct 64 10 _ false _ (by decide) (.inl rfl)

/-- With compression five takes two bytes, and `rv_li_len` says four. -/
theorem rvLi_compressed : ∃ is, rvLi 10 5#64 64 = some is ∧ bytes true 64 is = 2 ∧ rvLiLen 5#64 64 = 4 := by
  have hemit rd : liEmit rd 5#64 64 = [.addi rd 0 5#12] := by
    rw [liEmit, if_pos (by decide)]
    rfl
  refine ⟨_, if_neg (by decide), ?_, ?_⟩
  · rw [hemit]
    decide
  · rw [rvLiLen, if_neg (by decide), hemit]
    rfl

end EmbCC.Arch.Rv
