import EmbCC.Libc.Regex.Matcher

/-!
# What a tree matches

`Matches m n i j`: the tree `n` matches the string from `i` to `j`. A repetition is any
number of iterations within its bounds, empty ones included. `repFrom_step` is what a
backtracking matcher needs: a repetition stops, or takes one more iteration, and one
that matches nothing is only worth taking towards the minimum.
-/

namespace EmbCC.Libc.Regex

/-- `c` iterations. -/
def iter (R : ℕ → ℕ → Prop) : ℕ → ℕ → ℕ → Prop
  | 0, i, j => i = j
  | c + 1, i, j => ∃ p, R i p ∧ iter R c p j

/-- After `count` iterations, as many more as the bounds allow. -/
def RepFrom (R : ℕ → ℕ → Prop) (min : ℕ) (max : Option ℕ) (count i j : ℕ) : Prop :=
  ∃ c, iter R c i j ∧ min ≤ count + c ∧ ∀ x ∈ max, count + c ≤ x

/-- A word character at `i`, within the string. -/
def Text.WordAfter (m : Text) (i : ℕ) : Prop := i < m.hi ∧ isWord (m.at i)

/-- A word character before `i`, within the string. -/
def Text.WordBefore (m : Text) (i : ℕ) : Prop := m.lo < i ∧ isWord (m.at (i - 1))

mutual

/-- The tree matches from `i` to `j`. -/
def Matches (m : Text) : Node → ℕ → ℕ → Prop
  | .empty, i, j => i = j
  | .char c, i, j => i < m.hi ∧ m.at i = c ∧ j = i + 1
  | .any, i, j => i < m.hi ∧ m.at i ≠ 0 ∧ ¬(m.at i = 10 ∧ m.newline) ∧ j = i + 1
  | .set bits neg, i, j =>
    i < m.hi ∧ bits.getLsbD (m.at i) ∧ ¬(m.at i = 10 ∧ neg ∧ m.newline) ∧ j = i + 1
  | .bol, i, j => i = j ∧ ((i = 0 ∧ ¬m.notbol) ∨ (0 < i ∧ m.at (i - 1) = 10 ∧ m.newline))
  | .eol, i, j => i = j ∧ ((i = m.hi ∧ ¬m.noteol) ∨ (i < m.hi ∧ m.at i = 10 ∧ m.newline))
  | .bufbeg, i, j => i = j ∧ i = m.lo
  | .bufend, i, j => i = j ∧ i = m.hi
  | .wordb, i, j => i = j ∧ ¬(m.WordBefore i ↔ m.WordAfter i)
  | .nwordb, i, j => i = j ∧ (m.WordBefore i ↔ m.WordAfter i)
  | .wbeg, i, j => i = j ∧ ¬m.WordBefore i ∧ m.WordAfter i
  | .wend, i, j => i = j ∧ m.WordBefore i ∧ ¬m.WordAfter i
  | .group _ kid, i, j => Matches m kid i j
  | .bref _, _, _ => False
  | .cat kids, i, j => MatchesCat m kids i j
  | .alt kids, i, j => MatchesAlt m kids i j
  | .rep min max kid, i, j => RepFrom (Matches m kid) min max 0 i j

/-- One after another. -/
def MatchesCat (m : Text) : List Node → ℕ → ℕ → Prop
  | [], i, j => i = j
  | kid :: kids, i, j => ∃ p, Matches m kid i p ∧ MatchesCat m kids p j

/-- One of them. -/
def MatchesAlt (m : Text) : List Node → ℕ → ℕ → Prop
  | [], _, _ => False
  | kid :: kids, i, j => Matches m kid i j ∨ MatchesAlt m kids i j

end

mutual

/-- No back-reference in the tree. -/
def Node.noBref : Node → Bool
  | .bref _ => false
  | .group _ kid => kid.noBref
  | .cat kids => noBrefs kids
  | .alt kids => noBrefs kids
  | .rep _ _ kid => kid.noBref
  | _ => true

/-- None in any of them. -/
def noBrefs : List Node → Bool
  | [] => true
  | kid :: kids => kid.noBref && noBrefs kids

end

lemma below_iff {count : ℕ} {max : Option ℕ} : below count max ↔ ∀ x ∈ max, count < x := by
  cases max <;> simp [below]

section
variable {R : ℕ → ℕ → Prop} {min : ℕ} {max : Option ℕ} {count i j : ℕ}

/-- A repetition takes one more turn, or ends. -/
lemma repFrom_step (hmax : ∀ x ∈ max, count ≤ x) : RepFrom R min max count i j ↔
    (below count max ∧ ∃ p, R i p ∧ ¬(p = i ∧ min < count + 1) ∧ RepFrom R min max (count + 1) p j) ∨
      (min ≤ count ∧ i = j) := by
  constructor
  · rintro ⟨c, hiter, hmin, hle⟩
    -- an empty iteration that is not needed is dropped, so the induction is on their number
    induction c with
    | zero => exact .inr ⟨hmin, hiter⟩
    | succ c ih =>
      obtain ⟨p, hp, hrest⟩ := hiter
      by_cases hskip : p = i ∧ min < count + 1
      · obtain ⟨rfl, hcount⟩ := hskip
        exact ih hrest (by omega) fun x hx => by have := hle x hx; omega
      · refine .inl ⟨below_iff.2 fun x hx => by have := hle x hx; omega, p, hp, hskip, c, hrest, by omega, fun x hx => ?_⟩
        have := hle x hx
        omega
  · rintro (⟨-, p, hp, -, c, hiter, hmin, hle⟩ | ⟨hmin, rfl⟩)
    · refine ⟨c + 1, ⟨p, hp, hiter⟩, by omega, fun x hx => ?_⟩
      have := hle x hx
      omega
    · exact ⟨0, rfl, by omega, fun x hx => by have := hmax x hx; omega⟩

end

section
variable {m : Text} {n : Node}

lemma matches_one (hn : n.isOne) (i j : ℕ) : Matches m n i j ↔ one m n i ∧ j = i + 1 := by
  cases n with
  | char c => by_cases h : i < m.hi <;> simp [Matches, one, h]
  | any => by_cases h : i < m.hi <;> simp [Matches, one, h]; tauto
  | set bits neg =>
    by_cases h : i < m.hi
    · cases neg <;> cases hnl : m.newline <;> simp [Matches, one, h, hnl]
      tauto
    · simp [Matches, one, h]
  | _ => cases hn

/-- An anchor or a word assertion. -/
def Node.isAnchor : Node → Bool
  | .bol | .eol | .wordb | .nwordb | .wbeg | .wend | .bufbeg | .bufend => true
  | _ => false

lemma matches_anchor (hn : n.isAnchor) (i j : ℕ) : Matches m n i j ↔ anchorOk m n i ∧ i = j := by
  have hbefore : m.WordBefore i ↔ (i > m.lo && isWord (m.at (i - 1))) = true := by
    simp [Text.WordBefore]
  have hafter : m.WordAfter i ↔ (i < m.hi && isWord (m.at i)) = true := by simp [Text.WordAfter]
  cases n with
  | bol =>
    rw [Matches, and_comm]
    simp [anchorOk, and_assoc]
  | eol =>
    rw [Matches, and_comm]
    simp [anchorOk, and_assoc]
  | bufbeg => simp [Matches, anchorOk, and_comm]
  | bufend => simp [Matches, anchorOk, and_comm]
  | wordb =>
    rw [Matches, hbefore, hafter, and_comm, ← Bool.eq_iff_iff]
    simp [anchorOk]
  | nwordb =>
    rw [Matches, hbefore, hafter, and_comm, ← Bool.eq_iff_iff]
    simp [anchorOk]
  | wbeg =>
    rw [Matches, hbefore, hafter, and_comm]
    simp only [anchorOk]
    grind
  | wend =>
    rw [Matches, hbefore, hafter, and_comm]
    simp only [anchorOk]
    grind
  | _ => cases hn

lemma iter_one (hn : n.isOne) {c i j : ℕ} : iter (Matches m n) c i j ↔ (∀ t < c, one m n (i + t)) ∧ j = i + c := by
  induction c generalizing i with
  | zero => exact ⟨fun h => ⟨fun t ht => by omega, h.symm⟩, fun h => h.2.symm⟩
  | succ c ih =>
    simp only [iter, matches_one hn, ih]
    constructor
    · rintro ⟨p, ⟨h0, rfl⟩, hrest, rfl⟩
      refine ⟨fun t ht => ?_, by omega⟩
      cases t with
      | zero => exact h0
      | succ t => rw [show i + (t + 1) = i + 1 + t by omega]; exact hrest t (by omega)
    · rintro ⟨hall, rfl⟩
      refine ⟨i + 1, ⟨hall 0 (by omega), rfl⟩, fun t ht => ?_, by omega⟩
      rw [show i + 1 + t = i + (t + 1) by omega]
      exact hall (t + 1) (by omega)

/-- The run of single characters is the longest one. -/
lemma le_runLen (i cap c : ℕ) : c ≤ runLen m n i cap ↔ c ≤ cap ∧ ∀ t < c, one m n (i + t) := by
  induction cap generalizing i c with
  | zero =>
    rw [runLen]
    constructor
    · intro h
      exact ⟨h, fun t ht => by omega⟩
    · exact And.left
  | succ cap ih =>
    rw [runLen]
    cases c with
    | zero => simp
    | succ c =>
      by_cases h0 : one m n i = true
      · rw [if_pos h0, Nat.succ_le_succ_iff, ih]
        constructor
        · rintro ⟨hle, hall⟩
          refine ⟨by omega, fun t ht => ?_⟩
          cases t with
          | zero => exact h0
          | succ t => rw [show i + (t + 1) = i + 1 + t by omega]; exact hall t (by omega)
        · rintro ⟨hle, hall⟩
          refine ⟨by omega, fun t ht => ?_⟩
          rw [show i + 1 + t = i + (t + 1) by omega]
          exact hall (t + 1) (by omega)
      · rw [if_neg h0]
        constructor
        · intro h
          omega
        · rintro ⟨-, hall⟩
          exact absurd (hall 0 (by omega)) h0

lemma one_lt {i : ℕ} (h : one m n i = true) : i < m.hi := by
  by_contra hc
  rw [one, if_pos (by omega)] at h
  cases h

lemma repFrom_one (hn : n.isOne) {min : ℕ} {max : Option ℕ} {i p : ℕ} : RepFrom (Matches m n) min max 0 i p ↔
      ∃ c, min ≤ c ∧ c ≤ runLen m n i (max.getD (m.hi - i)) ∧ p = i + c := by
  simp only [RepFrom, iter_one hn, le_runLen, Nat.zero_add]
  constructor
  · rintro ⟨c, ⟨hall, rfl⟩, hmin, hle⟩
    refine ⟨c, hmin, ⟨?_, hall⟩, rfl⟩
    cases max with
    | some x => exact hle x rfl
    | none =>
      rw [Option.getD_none]
      cases c with
      | zero => omega
      | succ c => have := one_lt (hall c (by omega)); omega
  · rintro ⟨c, hmin, ⟨hle, hall⟩, rfl⟩
    refine ⟨c, ⟨hall, rfl⟩, hmin, fun x hx => ?_⟩
    obtain rfl : max = some x := hx
    exact hle

end
end EmbCC.Libc.Regex
