import Mathlib

/-!
# Words in a byte memory

A memory is a byte at every address. A word of `k` bytes is stored low byte
first; writing one changes its own bytes only (`writeLE_of_not_mem`), and it is
read back as written (`readLE_writeLE`) until one of its bytes is written again
(`readLE_congr`).
-/

namespace Words

/-- A byte at every address. -/
abbrev Mem := ℕ → BitVec 8

/-- The word of `k` bytes at an address. -/
def readLE (m : Mem) (a : ℕ) : ℕ → ℕ
  | 0 => 0
  | k + 1 => (m a).toNat + 256 * readLE m (a + 1) k

/-- A word of `k` bytes written at an address. -/
def writeLE (m : Mem) (a k v : ℕ) : Mem := fun x =>
  if a ≤ x ∧ x < a + k then BitVec.ofNat 8 (v / 256 ^ (x - a)) else m x

variable {m m' : Mem} {a b k j v x : ℕ}

lemma writeLE_of_not_mem (h : x < a ∨ a + k ≤ x) : writeLE m a k v x = m x := if_neg (by omega)

lemma readLE_congr (h : ∀ x, a ≤ x → x < a + k → m' x = m x) : readLE m' a k = readLE m a k := by
  induction k generalizing a with
  | zero => rfl
  | succ k ih =>
    rw [readLE, readLE, h a le_rfl (by omega), ih fun x hx hxk => h x (by omega) (by omega)]

lemma readLE_digits (h : ∀ i < k, (m (a + i)).toNat = v / 256 ^ i % 256) : readLE m a k = v % 256 ^ k := by
  induction k generalizing a v with
  | zero => rw [readLE, pow_zero, Nat.mod_one]
  | succ k ih =>
    have hlow : (m a).toNat = v % 256 := by simpa using h 0 (by omega)
    have hrest : readLE m (a + 1) k = v / 256 % 256 ^ k := ih fun i hi => by
      rw [show a + 1 + i = a + (i + 1) by omega, h (i + 1) (by omega), Nat.div_div_eq_div_mul, ← pow_succ']
    rw [readLE, hlow, hrest, pow_succ', Nat.mod_mul]

lemma readLE_writeLE : readLE (writeLE m a k v) a k = v % 256 ^ k :=
  readLE_digits fun i hi => by
    rw [writeLE, if_pos (by omega), BitVec.toNat_ofNat, Nat.add_sub_cancel_left]

lemma readLE_writeLE_of_apart (h : b + j ≤ a ∨ a + k ≤ b) : readLE (writeLE m a k v) b j = readLE m b j :=
  readLE_congr fun _ _ _ => writeLE_of_not_mem (by omega)

end Words
