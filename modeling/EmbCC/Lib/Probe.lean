import Mathlib

/-!
# Linear probing

A table of slots that is searched from a first slot on, around its end, for one
that is empty or holds what is looked for (`probe`). The search ends while there
is an empty slot (`probe_isSome`), which there is while the table holds fewer
things than it has slots (`exists_empty`).
-/

namespace Probe

open Nat Finset
variable {β : Type*} {table : ℕ → Option β} {same : β → Bool} {cap h k s : ℕ}

/-- The first slot from `h` on that is empty or passes the test, in at most so many steps. -/
def probe (table : ℕ → Option β) (same : β → Bool) (cap : ℕ) : ℕ → ℕ → Option ℕ
  | 0, _ => none
  | k + 1, h =>
    match table h with
    | none => some h
    | some x => if same x then some h else probe table same cap k ((h + 1) % cap)

/-- The probe ends at a free place or at the key. -/
lemma probe_spec (hh : h < cap) (hs : probe table same cap k h = some s) :
    s < cap ∧ ∀ x, table s = some x → same x = true := by
  induction k generalizing h with
  | zero => cases hs
  | succ k ih =>
    rw [probe] at hs
    cases hx : table h with
    | none =>
      rw [hx] at hs
      cases hs
      exact ⟨hh, fun x h => absurd h (by simp [hx])⟩
    | some x =>
      rw [hx] at hs
      dsimp only at hs
      split at hs
      · cases hs
        refine ⟨hh, fun y hy => ?_⟩
        obtain rfl := Option.mem_unique hx hy
        assumption
      · exact ih (mod_lt _ (by omega)) hs

lemma full_of_probe_eq_none (hh : h < cap) (hs : probe table same cap k h = none) {t : ℕ}
    (ht : t < k) : (table ((h + t) % cap)).isSome := by
  induction k generalizing h t with
  | zero => omega
  | succ k ih =>
    rw [probe] at hs
    cases hx : table h with
    | none => simp [hx] at hs
    | some x =>
      rw [hx] at hs
      dsimp only at hs
      split at hs
      · cases hs
      · cases t with
        | zero => rw [Nat.add_zero, mod_eq_of_lt hh, hx]; rfl
        | succ t =>
          have := ih (mod_lt _ (by omega)) hs (lt_of_succ_lt_succ ht)
          rwa [mod_add_mod, Nat.add_assoc, Nat.add_comm 1] at this

lemma probe_isSome (hh : h < cap) (hs : s < cap) (hempty : table s = none) : (probe table same cap cap h).isSome := by
  by_contra hnone
  rw [Option.not_isSome_iff_eq_none] at hnone
  have hfull := full_of_probe_eq_none hh hnone (mod_lt (s + cap - h) (show 0 < cap by omega))
  rw [add_mod_mod, show h + (s + cap - h) = s + cap by omega, add_mod_right, mod_eq_of_lt hs, hempty] at hfull
  cases hfull

lemma exists_empty {table : ℕ → Option ℕ} {n : ℕ} (hlt : ∀ s < cap, ∀ j, table s = some j → j < n)
    (hinj : ∀ s < cap, ∀ s' < cap, ∀ j, table s = some j → table s' = some j → s = s') (hn : n < cap) :
    ∃ s < cap, table s = none := by
  by_contra hall
  push Not at hall
  have hmap : Set.MapsTo (fun s => (table s).getD 0) (range cap) (range n) := by
    intro s hs
    obtain ⟨j, hj⟩ := Option.ne_none_iff_exists'.1 (hall s (mem_range.1 hs))
    simpa [hj] using hlt s (mem_range.1 hs) j hj
  have hinjOn : Set.InjOn (fun s => (table s).getD 0) (range cap) := by
    intro s hs s' hs' heq
    obtain ⟨j, hj⟩ := Option.ne_none_iff_exists'.1 (hall s (mem_range.1 hs))
    obtain ⟨j', hj'⟩ := Option.ne_none_iff_exists'.1 (hall s' (mem_range.1 hs'))
    simp only [hj, hj', Option.getD_some] at heq
    exact hinj s (mem_range.1 hs) s' (mem_range.1 hs') j hj (heq ▸ hj')
  have hcard := card_le_card_of_injOn _ hmap hinjOn
  rw [card_range, card_range] at hcard
  omega

end Probe
