import Mathlib

/-!
# The integers of `printf`

`__fmt_int` writes the digits of a number into a buffer of 32 characters, least
significant first, and `FMT_RUN` decides the number and the base. Base 2 can need
64 digits, so `%llb` of `2 ^ 32` runs out of the buffer (`fmtRun_overruns`). The
digits fit and denote the number with every other conversion, and with `%b` exactly
of the numbers below `2 ^ 32` (`fmtInt_denotes`).
-/

namespace EmbCC.Libc.Printf

/-- The integer conversions. -/
inductive Conv
  | d | i | u | o | x | X | b | B
  deriving DecidableEq

/-- The length modifiers; `int` is what `default` reads. -/
inductive Len
  | char | short | int | long | llong | size | ptrdiff | max

/-- How many bits the type has that a length modifier names. -/
structure Abi where
  bits : Len → ℕ
  le : ∀ len, bits len ≤ 64

structure Flags where
  minus : Bool := false
  plus : Bool := false
  space : Bool := false
  hash : Bool := false
  zero : Bool := false

def DIGL : List Char := "0123456789abcdef".toList
def DIGU : List Char := "0123456789ABCDEF".toList

/-- The digit loop of `__fmt_int`, with `room` characters left in `d`; `none` is a store behind
the end. -/
def digits (dig : List Char) (base : ℕ) : ℕ → ℕ → Option (List Char)
  | 0, _ => none
  | room + 1, v =>
    (if v / base = 0 then some [] else digits dig base room (v / base)).map (dig.getD (v % base) '0' :: ·)

/-- `d[32]` after the loop. -/
def buffer (v base : ℕ) (upper : Bool) (prec : ℤ) : Option (List Char) :=
  if v = 0 ∧ prec = 0 then some [] else digits (if upper then DIGU else DIGL) base 32 v

/-- `__fmt_pad`. -/
def pad (c : Char) (n : ℤ) : List Char := List.replicate n.toNat c

/-- `__fmt_int`: what it emits. -/
def fmtInt (v base : ℕ) (upper : Bool) (flags : Flags) (width prec : ℤ) (sign pre : String) :
    Option (List Char) :=
  (buffer v base upper prec).map fun d =>
    let nd : ℤ := d.length
    let zeros := if prec > nd then prec - nd else 0
    let body := nd + zeros + sign.length + pre.length
    let zpad := if flags.zero ∧ ¬flags.minus ∧ prec < 0 then width - body else 0
    let spad := width - body - (if zpad > 0 then zpad else 0)
    (if flags.minus then [] else pad ' ' spad) ++ sign.toList ++ pre.toList ++ pad '0' zpad ++
      pad '0' zeros ++ d.reverse ++ if flags.minus then pad ' ' spad else []

variable (T : Abi)

/-- The value `%d` and `%i` read. A `size_t` is not negative. -/
def fetch (len : Len) (a : BitVec 64) : ℤ :=
  match len with
  | .size => ((a.setWidth (T.bits .size)).setWidth 64).toInt
  | len => (a.setWidth (T.bits len)).toInt

/-- The value the other conversions read. A `ptrdiff_t` keeps its sign. -/
def ufetch (len : Len) (a : BitVec 64) : ℕ :=
  match len with
  | .ptrdiff => ((a.setWidth (T.bits .ptrdiff)).signExtend 64).toNat
  | len => (a.setWidth (T.bits len)).toNat

def Conv.base : Conv → ℕ
  | .d | .i | .u => 10
  | .o => 8
  | .b | .B => 2
  | .x | .X => 16

/-- The number whose digits are written. -/
def value (conv : Conv) (len : Len) (a : BitVec 64) : ℕ :=
  match conv with
  | .d | .i =>
    let v := fetch T len a
    if v < 0 then (-(v + 1)).toNat + 1 else v.toNat
  | _ => ufetch T len a

/-- The integer cases of `FMT_RUN`. -/
def fmtRun (conv : Conv) (len : Len) (a : BitVec 64) (flags : Flags) (width prec : ℤ) :
    Option (List Char) :=
  match conv with
  | .d | .i =>
    let sign := if fetch T len a < 0 then "-" else if flags.plus then "+"
      else if flags.space then " " else ""
    fmtInt (value T conv len a) 10 false flags width prec sign ""
  | _ =>
    let v := value T conv len a
    let pfx := if flags.hash ∧ v ≠ 0 then
        match conv with
        | .x => "0x"
        | .X => "0X"
        | .b => "0b"
        | .B => "0B"
        | .o => "0"
        | _ => ""
      else ""
    fmtInt v conv.base (conv == .X) flags width prec "" pfx

/-- The value of a digit. -/
def digitVal (c : Char) : ℕ := DIGL.idxOf c.toLower

variable {T} {dig : List Char} {base room v : ℕ} {ds : List Char}

lemma digits_isSome (hb : 1 < base) : (digits dig base (room + 1) v).isSome ↔ v < base ^ (room + 1) := by
  induction room generalizing v with
  | zero => simp [digits, Nat.ne_zero_of_lt hb]
  | succ room ih =>
    rw [digits, Option.isSome_map]
    split
    · rename_i h0
      have hv := (Nat.div_eq_zero_iff.1 h0).resolve_left (by omega)
      simpa using hv.trans_le (Nat.le_self_pow (by omega) base)
    · rw [ih, Nat.div_lt_iff_lt_mul (by omega), ← pow_succ]

lemma digits_denote (hd : dig = DIGL ∨ dig = DIGU) (hb : 1 < base) (hb16 : base ≤ 16)
    (h : digits dig base room v = some ds) : Nat.ofDigits base (ds.map digitVal) = v := by
  induction room generalizing v ds with
  | zero => cases h
  | succ room ih =>
    have hdig : digitVal (dig.getD (v % base) '0') = v % base := by
      have hlt : v % base < 16 := (Nat.mod_lt v (by omega)).trans_le hb16
      generalize v % base = k at hlt
      rcases hd with rfl | rfl <;> interval_cases k <;> rfl
    obtain ⟨ds, hds, rfl⟩ := Option.map_eq_some_iff.1 h
    rw [List.map_cons, Nat.ofDigits_cons, hdig]
    split at hds
    · rename_i h0
      obtain rfl := Option.some.inj hds
      have := Nat.div_add_mod v base
      simpa [h0] using this
    · rw [ih hds, Nat.mod_add_div]

lemma toInt_bounds {w : ℕ} (hw : w ≤ 64) (x : BitVec w) : -2 ^ 64 < x.toInt ∧ x.toInt < 2 ^ 64 := by
  have hpow := Nat.pow_le_pow_right (by norm_num : 0 < 2) hw
  rw [BitVec.toInt_eq_toNat_cond]
  split <;> omega

lemma toNat_lt {w : ℕ} (hw : w ≤ 64) (x : BitVec w) : x.toNat < 2 ^ 64 :=
  x.isLt.trans_le (Nat.pow_le_pow_right (by norm_num) hw)

lemma value_lt (conv : Conv) (len : Len) (a : BitVec 64) : value T conv len a < 2 ^ 64 := by
  have hs : -2 ^ 64 < fetch T len a ∧ fetch T len a < 2 ^ 64 := by
    cases len <;> exact toInt_bounds (by simp [T.le]) _
  have hu : ufetch T len a < 2 ^ 64 := by cases len <;> exact toNat_lt (by simp [T.le]) _
  unfold value
  split
  · dsimp only
    split <;> omega
  · dsimp only
    split <;> omega
  · exact hu

/-- The buffer has room for the number exactly when it has at most 32 binary digits or another base. -/
lemma value_fits_iff (conv : Conv) (len : Len) (a : BitVec 64) :
    value T conv len a < conv.base ^ 32 ↔ (conv = .b ∨ conv = .B → value T conv len a < 2 ^ 32) := by
  have hlt := value_lt (T := T) conv len a
  cases conv with
  | b => simp [Conv.base]
  | B => simp [Conv.base]
  | _ => simpa using hlt.trans (by norm_num [Conv.base])

lemma fmtInt_shows {upper : Bool} {flags : Flags} {width prec : ℤ} {sign pre : String}
    (h : buffer v base upper prec = some ds) :
    ∃ l r, fmtInt v base upper flags width prec sign pre = some (l ++ ds.reverse ++ r) :=
  ⟨_, _, congrArg _ h⟩

/-- The loop ends inside the buffer exactly when the number fits it. -/
lemma buffer_isSome (hb : 1 < base) (upper : Bool) (prec : ℤ) :
    (buffer v base upper prec).isSome ↔ v < base ^ 32 := by
  unfold buffer
  split
  · rename_i h0
    simp [h0.1, Nat.zero_lt_of_lt hb]
  · exact digits_isSome hb

lemma buffer_denotes {upper : Bool} {prec : ℤ} (hb : 1 < base) (hb16 : base ≤ 16)
    (h : buffer v base upper prec = some ds) : Nat.ofDigits base (ds.map digitVal) = v := by
  unfold buffer at h
  split at h
  · rename_i h0
    cases h
    exact h0.1.symm
  · refine digits_denote ?_ hb hb16 h
    split <;> simp

/-- The digits are stored inside the buffer, denote the number and are what is printed between
padding, sign and prefix, exactly when the call is not `%b` or `%B` of `2 ^ 32` or more. -/
theorem fmtInt_denotes (conv : Conv) (len : Len) (a : BitVec 64) (flags : Flags) (width prec : ℤ) :
    (∃ d, buffer (value T conv len a) conv.base (conv == .X) prec = some d ∧
      Nat.ofDigits conv.base (d.map digitVal) = value T conv len a ∧
      ∃ l r, fmtRun T conv len a flags width prec = some (l ++ d.reverse ++ r)) ↔
    (conv = .b ∨ conv = .B → value T conv len a < 2 ^ 32) := by
  have hb : 1 < conv.base ∧ conv.base ≤ 16 := by cases conv <;> decide
  rw [← value_fits_iff, ← buffer_isSome hb.1 (conv == .X) prec]
  constructor
  · rintro ⟨d, hd, -⟩
    simp [hd]
  · intro h
    obtain ⟨d, hd⟩ := Option.isSome_iff_exists.1 h
    refine ⟨d, hd, buffer_denotes hb.1 hb.2 hd, ?_⟩
    cases conv <;> exact fmtInt_shows hd

/-- A 64-bit target. -/
def lp64 : Abi where
  bits
    | .char => 8
    | .short => 16
    | .int => 32
    | _ => 64
  le len := by cases len <;> decide

theorem fmtRun_overruns : fmtRun lp64 .b .llong (2 ^ 32) {} 0 (-1) = none := by
  decide

end EmbCC.Libc.Printf
