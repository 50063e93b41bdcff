import Mathlib.Data.Nat.Bitwise
import Mathlib.Tactic.Ring

/-!
# Bit streams

A number of `n` bits as a list, the least significant bit first (`toBits`), the
number a list stands for (`ofBits`), and bytes read as one stream of bits. What a
bit writer does to its accumulator (`toBits_or_shiftLeft`) and what a bit reader
takes from its buffer (`toBits_split`) are then statements about appending.
-/

namespace Bits

open Nat Function

/-- The `n` low bits of `v`, the least significant first. -/
def toBits (n v : ℕ) : List Bool := (List.range n).map v.testBit

/-- The number whose bits these are, the least significant first. -/
def ofBits (l : List Bool) : ℕ := l.foldr (fun b a => b.toNat + 2 * a) 0

/-- The bits of a byte string, byte after byte. -/
def stream (bs : List (BitVec 8)) : List Bool := bs.flatMap fun b => toBits 8 b.toNat

@[simp] lemma length_toBits (n v : ℕ) : (toBits n v).length = n := by simp [toBits]

@[simp] lemma toBits_zero (v : ℕ) : toBits 0 v = [] := rfl

@[simp] lemma stream_nil : stream [] = [] := rfl

@[simp] lemma stream_cons (b : BitVec 8) (bs : List (BitVec 8)) : stream (b :: bs) = toBits 8 b.toNat ++ stream bs := rfl

@[simp] lemma stream_append (as bs : List (BitVec 8)) : stream (as ++ bs) = stream as ++ stream bs := by simp [stream]

lemma length_stream (bs : List (BitVec 8)) : (stream bs).length = 8 * bs.length := by
  induction bs with
  | nil => rfl
  | cons b bs ih => simp [ih]; ring

variable {n v m x : ℕ}

lemma toBits_congr {w : ℕ} (h : ∀ j < n, v.testBit j = w.testBit j) : toBits n v = toBits n w :=
  List.map_congr_left fun j hj => h j (List.mem_range.1 hj)

lemma toBits_split (m n v : ℕ) : toBits (m + n) v = toBits m v ++ toBits n (v >>> m) := by
  simp [toBits, List.range_add]

lemma toBits_or_shiftLeft (hx : x < 2 ^ m) (n v : ℕ) : toBits (m + n) (x ||| v <<< m) = toBits m x ++ toBits n v := by
  rw [toBits_split]
  congr 1
  · refine toBits_congr fun j hj => ?_
    simp [hj]
  · refine toBits_congr fun j _ => ?_
    have hz : x.testBit (m + j) = false :=
      testBit_lt_two_pow (hx.trans_le (Nat.pow_le_pow_right (by decide) (Nat.le_add_right m j)))
    simp [hz]

lemma or_shiftLeft_lt (hx : x < 2 ^ m) (hv : v < 2 ^ n) : x ||| v <<< m < 2 ^ (m + n) := by
  refine or_lt_two_pow (hx.trans_le (Nat.pow_le_pow_right (by decide) (by omega))) ?_
  rw [shiftLeft_eq, Nat.mul_comm, Nat.pow_add]
  exact Nat.mul_lt_mul_of_pos_left hv (Nat.two_pow_pos m)

lemma shiftRight_lt (hv : v < 2 ^ (m + n)) : v >>> m < 2 ^ n := by
  rw [shiftRight_eq_div_pow]
  exact Nat.div_lt_of_lt_mul (by rwa [← Nat.pow_add])

lemma ofBits_toBits (n v : ℕ) : ofBits (toBits n v) = v % 2 ^ n := by
  induction n generalizing v with
  | zero => simp [ofBits, mod_one]
  | succ n ih =>
    have hcons : toBits (n + 1) v = v.testBit 0 :: toBits n (v / 2) := by
      simp [toBits, List.range_succ_eq_map, testBit_succ]
    have hhead : (v.testBit 0).toNat = v % 2 := by
      rcases mod_two_eq_zero_or_one v with h | h <;> simp [h]
    have hmod : v % 2 ^ (n + 1) = v % 2 + 2 * (v / 2 % 2 ^ n) := by rw [Nat.pow_succ', mod_mul]
    rw [hcons, hmod, ← ih, ← hhead]
    rfl

lemma ofBits_toBits_of_lt (h : v < 2 ^ n) : ofBits (toBits n v) = v := by
  rw [ofBits_toBits, mod_eq_of_lt h]

end Bits
