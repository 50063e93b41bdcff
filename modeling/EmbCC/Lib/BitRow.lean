import Mathlib

/-!
# Rows of bits

A set of numbers kept as 64-bit words, number `b` being bit `b % 64` of word `b / 64`. What
putting a number in and taking one out do to membership, and the usual loop over the members:
take the lowest set bit of a word, clear it with `x & (x - 1)`, go on until the word is zero.
The position of the lowest bit is a parameter; all that is asked of it is that it is right on
the powers of two `x & -x` can be.
-/

namespace BitRow

open Function

/-- Words of 64 bits. -/
abbrev Row := ℕ → BitVec 64

/-- Is `b` a member? -/
def has (r : Row) (b : ℕ) : Bool := (r (b / 64)).getLsbD (b % 64)

/-- With `b` put in. -/
def set (r : Row) (b : ℕ) : Row := update r (b / 64) (r (b / 64) ||| 1#64 <<< (b % 64))

/-- With `b` taken out. -/
def clear (r : Row) (b : ℕ) : Row :=
  update r (b / 64) (r (b / 64) &&& ~~~(1#64 <<< (b % 64)))

variable {k : ℕ} {x : BitVec 64}

lemma getLsbD_bit {j : ℕ} (hk : k < 64) : (1#64 <<< k).getLsbD j = decide (j = k) := by
  rw [← BitVec.twoPow_eq, BitVec.getLsbD_twoPow]
  simp [hk, eq_comm]

@[simp] lemma has_zero (b : ℕ) : has (fun _ => 0#64) b = false := by simp [has]

lemma eq_of_word {b c : ℕ} (hw : c / 64 = b / 64) (hb : c % 64 = b % 64) : c = b := by omega

@[simp] lemma has_set (r : Row) (b c : ℕ) : has (set r b) c = (has r c || decide (c = b)) := by
  unfold has set
  by_cases hw : c / 64 = b / 64
  · have hiff : c % 64 = b % 64 ↔ c = b := ⟨eq_of_word hw, fun h => h ▸ rfl⟩
    rw [hw, update_self, BitVec.getLsbD_or, getLsbD_bit (Nat.mod_lt b (by decide))]
    simp only [hiff]
  · have hne : c ≠ b := fun h => hw (h ▸ rfl)
    rw [update_of_ne hw]
    simp [hne]

@[simp] lemma has_clear (r : Row) (b c : ℕ) : has (clear r b) c = (has r c && !decide (c = b)) := by
  unfold has clear
  by_cases hw : c / 64 = b / 64
  · have hiff : c % 64 = b % 64 ↔ c = b := ⟨eq_of_word hw, fun h => h ▸ rfl⟩
    have hlt : c % 64 < 64 := Nat.mod_lt c (by decide)
    rw [hw, update_self, BitVec.getLsbD_and, BitVec.getLsbD_not, getLsbD_bit (Nat.mod_lt b (by decide))]
    simp only [hiff, hlt, decide_true, Bool.true_and]
  · have hne : c ≠ b := fun h => hw (h ▸ rfl)
    rw [update_of_ne hw]
    simp [hne]

/-- Bit `k` is the lowest set one. -/
structure Lowest (x : BitVec 64) (k : ℕ) : Prop where
  set : x.getLsbD k = true
  below : ∀ j < k, x.getLsbD j = false

lemma Lowest.lt (h : Lowest x k) : k < 64 := BitVec.lt_of_getLsbD h.set

lemma exists_lowest (hx : x ≠ 0) : ∃ k, Lowest x k := by
  have hex : ∃ k, x.getLsbD k = true := by
    by_contra hno
    push Not at hno
    refine hx (BitVec.eq_of_getLsbD_eq fun i _ => ?_)
    simpa using hno i
  refine ⟨Nat.find hex, Nat.find_spec hex, fun j hj => ?_⟩
  simpa using Nat.find_min hex hj

lemma Lowest.getLsbD_and_neg (h : Lowest x k) {i : ℕ} (hi : i < 64) : (x.getLsbD i && (-x).getLsbD i) = decide (i = k) := by
  rw [BitVec.getLsbD_neg]
  rcases lt_trichotomy i k with hik | rfl | hik
  · simp [h.below i hik, hik.ne]
  · have hno : ¬∃ j < i, x.getLsbD j = true := by
      rintro ⟨j, hj, hjt⟩
      simp [h.below j hj] at hjt
    simp [h.set, hno]
  · have hex : ∃ j < i, x.getLsbD j = true := ⟨k, hik, h.set⟩
    cases hxi : x.getLsbD i <;> simp [hi, hex, hik.ne']

lemma Lowest.and_neg (h : Lowest x k) : x &&& -x = 1#64 <<< k := by
  refine BitVec.eq_of_getLsbD_eq fun i hi => ?_
  rw [BitVec.getLsbD_and, h.getLsbD_and_neg hi, getLsbD_bit h.lt]

lemma Lowest.and_pred (h : Lowest x k) (i : ℕ) : (x &&& (x - 1)).getLsbD i = (x.getLsbD i && !decide (i = k)) := by
  have hsub : x - 1 = ~~~(-x) := (BitVec.not_neg x).symm
  by_cases hi : i < 64
  · rw [hsub, BitVec.getLsbD_and, BitVec.getLsbD_not, ← h.getLsbD_and_neg hi]
    cases x.getLsbD i <;> simp [hi]
  · simp [BitVec.getLsbD_of_ge x i (by omega)]

section
variable (low : BitVec 64 → ℕ)

/-- The members in one word, lowest first. A word has at most 64, so 64 turns see it empty. -/
def wordMembers (base : ℕ) : ℕ → BitVec 64 → List ℕ
  | 0, _ => []
  | turns + 1, bits =>
    if bits = 0 then [] else (base + low bits) :: wordMembers base turns (bits &&& (bits - 1))

/-- The members in the first `words` words. -/
def members (words : ℕ) (r : Row) : List ℕ :=
  (List.range words).flatMap fun w => wordMembers low (w * 64) 64 (r w)

variable {low} (hlow : ∀ x k, Lowest x k → low x = k)
include hlow

/-- The bits of one word, in order. -/
lemma wordMembers_spec (base turns : ℕ) (bits : BitVec 64)
    (h : ∀ k, bits.getLsbD k = true → 64 - turns ≤ k) : (wordMembers low base turns bits).Pairwise (· < ·) ∧
      ∀ b, b ∈ wordMembers low base turns bits ↔ ∃ k, bits.getLsbD k = true ∧ b = base + k := by
  induction turns generalizing bits with
  | zero =>
    refine ⟨List.Pairwise.nil, fun b => ?_⟩
    have hno : ¬∃ k, bits.getLsbD k = true ∧ b = base + k := by
      rintro ⟨k, hk, -⟩
      have := h k hk
      have := BitVec.lt_of_getLsbD hk
      omega
    simp [wordMembers, hno]
  | succ turns ih =>
    rw [wordMembers]
    by_cases hz : bits = 0
    · simp [hz]
    rw [if_neg hz]
    obtain ⟨k, hk⟩ := exists_lowest hz
    rw [hlow bits k hk]
    have hrest := fun j => hk.and_pred j
    have habove : ∀ j, (bits &&& (bits - 1)).getLsbD j = true → k < j ∧ bits.getLsbD j = true := by
      intro j hj
      rw [hrest j] at hj
      obtain ⟨hjb, hjk⟩ : bits.getLsbD j = true ∧ ¬j = k := by simpa using hj
      refine ⟨lt_of_le_of_ne (not_lt.1 fun hlt => ?_) (Ne.symm hjk), hjb⟩
      simp [hk.below j hlt] at hjb
    obtain ⟨hpw, hmem⟩ := ih (bits &&& (bits - 1)) fun j hj => by
      have := h k hk.set
      have := (habove j hj).1
      omega
    refine ⟨List.pairwise_cons.2 ⟨fun b hb => ?_, hpw⟩, fun b => ?_⟩
    · obtain ⟨j, hj, rfl⟩ := (hmem b).1 hb
      have := (habove j hj).1
      omega
    · rw [List.mem_cons, hmem]
      constructor
      · rintro (rfl | ⟨j, hj, rfl⟩)
        · exact ⟨k, hk.set, rfl⟩
        · exact ⟨j, (habove j hj).2, rfl⟩
      · rintro ⟨j, hj, rfl⟩
        by_cases hjk : j = k
        · exact .inl (by rw [hjk])
        · exact .inr ⟨j, by rw [hrest j]; simp [hj, hjk], rfl⟩

/-- The members of a row, each once. -/
lemma members_spec (words : ℕ) (r : Row) : (members low words r).Nodup ∧
      ∀ b, b ∈ members low words r ↔ b < 64 * words ∧ has r b = true := by
  have hword := fun w => wordMembers_spec hlow (w * 64) 64 (r w) fun k _ => by omega
  have hin : ∀ w b, b ∈ wordMembers low (w * 64) 64 (r w) ↔ b / 64 = w ∧ has r b = true := by
    intro w b
    rw [(hword w).2 b]
    constructor
    · rintro ⟨k, hk, rfl⟩
      have hlt := BitVec.lt_of_getLsbD hk
      have hdiv : (w * 64 + k) / 64 = w := by omega
      have hmod : (w * 64 + k) % 64 = k := by omega
      exact ⟨hdiv, by rw [has, hdiv, hmod]; exact hk⟩
    · rintro ⟨rfl, hb⟩
      exact ⟨b % 64, hb, by omega⟩
  refine ⟨List.nodup_flatMap.2 ⟨fun w _ => (hword w).1.imp fun h => h.ne, ?_⟩, fun b => ?_⟩
  · refine List.nodup_range.imp fun {v w} hvw b hbv hbw => hvw ?_
    rw [← ((hin v b).1 hbv).1, ← ((hin w b).1 hbw).1]
  · simp only [members, List.mem_flatMap, List.mem_range, hin]
    constructor
    · rintro ⟨w, hw, rfl, hb⟩
      exact ⟨by omega, hb⟩
    · rintro ⟨hlt, hb⟩
      exact ⟨b / 64, by omega, rfl, hb⟩

end
end BitRow
