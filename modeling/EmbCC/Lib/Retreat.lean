import Mathlib

/-!
# Retreating flags

A greatest-fixpoint analysis with one flag an object. Every flag starts from a
given value and is only ever cleared. A node, in its turn, clears the flag it
owns when its own code asks for it or when a flag it needs is clear. Nodes take
their turns in the order of a list, round after round.

`rounds_eq_false` says which flags are clear after `r` rounds: those clear at
the start, and those of the nodes from which a chain of needs leads to a
reason, with fewer than `r` needs that go forward in the list. A need that goes
back is settled in the same round, one that goes forward costs a round.
-/

namespace Retreat

open Function List
variable {F : Type*} [DecidableEq F]

/-- A node: the flag it owns, if any, whether its own code lets the flag stay, and the flags it
needs. -/
structure Node (F : Type*) where
  owner : Option F
  ok : Bool
  needs : List F

/-- The turn of a node. -/
def turn (s : F → Bool) (n : Node F) : F → Bool :=
  match n.owner with
  | none => s
  | some f => if n.ok && n.needs.all s then s else update s f false

/-- Every node takes its turn. -/
def round (ns : List (Node F)) (s : F → Bool) : F → Bool := ns.foldl turn s

/-- From the node at a place, a chain of needs leads to a reason to clear its flag, with so many
needs that do not go back in the list. -/
inductive Chain (ns : List (Node F)) (s : F → Bool) : ℕ → ℕ → Prop
  | own {k : ℕ} {n : Node F} (hn : ns[k]? = some n) (hok : n.ok = false) : Chain ns s k 0
  | start {k : ℕ} {n : Node F} {f : F} (hn : ns[k]? = some n) (hf : f ∈ n.needs)
      (hs : s f = false) : Chain ns s k 0
  | back {k j c : ℕ} {n m : Node F} {f : F} (hn : ns[k]? = some n) (hf : f ∈ n.needs)
      (hm : ns[j]? = some m) (ho : m.owner = some f) (hj : j < k) (h : Chain ns s j c) :
      Chain ns s k c
  | forth {k j c : ℕ} {n m : Node F} {f : F} (hn : ns[k]? = some n) (hf : f ∈ n.needs)
      (hm : ns[j]? = some m) (ho : m.owner = some f) (hj : k ≤ j) (h : Chain ns s j c) :
      Chain ns s k (c + 1)

/-- The flag is clear after `r` rounds and the turns of the first `k` nodes of the next. -/
def Cleared (ns : List (Node F)) (s : F → Bool) (r k : ℕ) (f : F) : Prop :=
  s f = false ∨ ∃ j m c, ns[j]? = some m ∧ m.owner = some f ∧ Chain ns s j c ∧
    (c < r ∨ c ≤ r ∧ j < k)

variable {ns : List (Node F)} {s t : F → Bool} {n : Node F} {r k : ℕ} {f g : F}

lemma turn_eq_false : turn t n f = false ↔ t f = false ∨ n.owner = some f ∧ (n.ok = false ∨ ∃ g ∈ n.needs, t g = false) := by
  unfold turn
  cases ho : n.owner with
  | none => simp
  | some g =>
    dsimp only
    have hall : (n.ok && n.needs.all t) = true ↔ ¬ (n.ok = false ∨ ∃ g ∈ n.needs, t g = false) := by
      simp only [Bool.and_eq_true, all_eq_true, not_or, Bool.not_eq_false, not_exists, not_and]
    by_cases h : (n.ok && n.needs.all t) = true
    · rw [if_pos h]
      exact ⟨.inl, fun hf => hf.resolve_right fun hc => hall.1 h hc.2⟩
    · rw [if_neg h, update_apply]
      have hc := not_not.1 fun hc => h (hall.2 hc)
      split_ifs with hfg
      · simp [hfg, hc]
      · simp [Ne.symm hfg]

section
variable (hn : ns[k]? = some n) (ht : ∀ g, t g = false ↔ Cleared ns s r k g)
include hn ht

omit [DecidableEq F] in
lemma chain_iff_reason : (∃ c ≤ r, Chain ns s k c) ↔ n.ok = false ∨ ∃ g ∈ n.needs, t g = false := by
  constructor
  · rintro ⟨c, hc, h⟩
    cases h with
    | own hn' hok => exact .inl (Option.mem_unique hn hn' ▸ hok)
    | start hn' hf hs =>
      obtain rfl := Option.mem_unique hn hn'
      exact .inr ⟨_, hf, (ht _).2 (.inl hs)⟩
    | back hn' hf hm ho hj h =>
      obtain rfl := Option.mem_unique hn hn'
      exact .inr ⟨_, hf, (ht _).2 (.inr ⟨_, _, _, hm, ho, h, .inr ⟨hc, hj⟩⟩)⟩
    | forth hn' hf hm ho hj h =>
      obtain rfl := Option.mem_unique hn hn'
      exact .inr ⟨_, hf, (ht _).2 (.inr ⟨_, _, _, hm, ho, h, .inl hc⟩)⟩
  · rintro (hok | ⟨g, hg, htg⟩)
    · exact ⟨0, Nat.zero_le _, .own hn hok⟩
    · rcases (ht g).1 htg with hs | ⟨j, m, c, hm, ho, h, hc⟩
      · exact ⟨0, Nat.zero_le _, .start hn hg hs⟩
      · rcases Nat.lt_or_ge j k with hj | hj
        · exact ⟨c, by omega, .back hn hg hm ho hj h⟩
        · exact ⟨c + 1, by omega, .forth hn hg hm ho hj h⟩

lemma cleared_turn (f : F) : turn t n f = false ↔ Cleared ns s r (k + 1) f := by
  rw [turn_eq_false, ← chain_iff_reason hn ht, ht]
  constructor
  · rintro ((hs | ⟨j, m, c, hm, ho, h, hc⟩) | ⟨ho, c, hc, h⟩)
    · exact .inl hs
    · exact .inr ⟨j, m, c, hm, ho, h, by omega⟩
    · exact .inr ⟨k, n, c, hn, ho, h, .inr ⟨hc, Nat.lt_succ_self k⟩⟩
  · rintro (hs | ⟨j, m, c, hm, ho, h, hc⟩)
    · exact .inl (.inl hs)
    · by_cases hjk : j = k
      · subst hjk
        obtain rfl := Option.mem_unique hn hm
        exact .inr ⟨ho, c, by omega, h⟩
      · exact .inl (.inr ⟨j, m, c, hm, ho, h, by omega⟩)

end

lemma cleared_take (hk : k ≤ ns.length) (ht : ∀ g, t g = false ↔ Cleared ns s r 0 g) (f : F) :
    (ns.take k).foldl turn t f = false ↔ Cleared ns s r k f := by
  induction k generalizing f with
  | zero => exact ht f
  | succ k ih =>
    have hn : ns[k]? = some ns[k] := List.getElem?_eq_getElem hk
    rw [take_add_one, hn, Option.toList_some, foldl_append, foldl_cons, foldl_nil]
    exact cleared_turn hn (ih (Nat.le_of_succ_le hk)) f

lemma rounds_eq_false (r : ℕ) (f : F) : (round ns)^[r] s f = false ↔
    s f = false ∨ ∃ k n c, ns[k]? = some n ∧ n.owner = some f ∧ Chain ns s k c ∧ c < r := by
  suffices h : ∀ f, (round ns)^[r] s f = false ↔ Cleared ns s r 0 f by
    rw [h, Cleared]
    simp only [Nat.not_lt_zero, and_false, or_false]
  induction r with
  | zero => simp [Cleared]
  | succ r ih =>
    intro f
    have h := cleared_take le_rfl ih f
    rw [take_length] at h
    rw [iterate_succ_apply', round, h]
    constructor
    · rintro (hs | ⟨j, m, c, hm, ho, h, hc⟩)
      · exact .inl hs
      · exact .inr ⟨j, m, c, hm, ho, h, by omega⟩
    · rintro (hs | ⟨j, m, c, hm, ho, h, hc⟩)
      · exact .inl hs
      · have hj := (List.getElem?_eq_some_iff.1 hm).1
        exact .inr ⟨j, m, c, hm, ho, h, by omega⟩

end Retreat
