import Mathlib

/-!
# Moves between registers

Sequences of register moves, and what it means that one does what all the moves of a list do
at once (`Realizes`). Moves of which none writes what another reads do so in any order
(`run_of_disjoint`). In a set of moves each of whose destinations is still read, every
register that is read is a destination: the moves are cycles (`mem_dst_of_all_read`).
-/

namespace ParallelMove

open List Function
variable {ρ α : Type*} [DecidableEq ρ]

/-- `dst` gets what `src` holds. -/
structure Move (ρ : Type*) where
  dst : ρ
  src : ρ
deriving DecidableEq, Repr

/-- The registers after a sequence of moves. -/
def run (ms : List (Move ρ)) (regs : ρ → α) : ρ → α :=
  ms.foldl (fun regs m => update regs m.dst (regs m.src)) regs

lemma run_concat (ms : List (Move ρ)) (m : Move ρ) (regs : ρ → α) :
    run (ms ++ [m]) regs = update (run ms regs) m.dst (run ms regs m.src) := by
  rw [run, foldl_append]
  rfl

lemma run_of_notMem {ms : List (Move ρ)} {r : ρ} (h : ∀ m ∈ ms, m.dst ≠ r) (regs : ρ → α) : run ms regs r = regs r := by
  induction ms generalizing regs with
  | nil => rfl
  | cons m ms ih =>
    rw [run, foldl_cons, ← run, ih fun n hn => h n (.tail _ hn), update_of_ne (h m (.head _)).symm]

/-- The sequence `out` does what the moves do all at once, and besides their destinations changes
only registers of `free`. -/
def Realizes (ms out : List (Move ρ)) (free : ρ → Prop) : Prop :=
  ∀ ⦃α : Type⦄ (regs : ρ → α), (∀ m ∈ ms, run out regs m.dst = regs m.src) ∧
    ∀ r, (∀ m ∈ ms, m.dst ≠ r) → ¬free r → run out regs r = regs r

lemma run_of_disjoint {ms : List (Move ρ)} (hd : (ms.map Move.dst).Nodup)
    (h : ∀ m ∈ ms, ∀ n ∈ ms, m.src ≠ n.dst) (regs : ρ → α) : ∀ m ∈ ms, run ms regs m.dst = regs m.src := by
  induction ms generalizing regs with
  | nil => exact fun m hm => absurd hm not_mem_nil
  | cons n ms ih =>
    rw [map_cons, nodup_cons] at hd
    intro m hm
    rw [run, foldl_cons, ← run]
    rcases List.mem_cons.1 hm with rfl | hm
    · have hlast : ∀ k ∈ ms, k.dst ≠ m.dst := fun k hk he => hd.1 (he ▸ mem_map_of_mem hk)
      rw [run_of_notMem hlast, update_self]
    · rw [ih hd.2 (fun a ha b hb => h a (.tail _ ha) b (.tail _ hb)) _ m hm, update_of_ne (h m (.tail _ hm) n (.head _))]

omit [DecidableEq ρ] in
lemma mem_dst_of_all_read {ms : List (Move ρ)} (hd : (ms.map Move.dst).Nodup)
    (h : ∀ m ∈ ms, m.dst ∈ ms.map Move.src) : ∀ m ∈ ms, m.src ∈ ms.map Move.dst := by
  have hsub : ms.map Move.dst ⊆ ms.map Move.src := fun r hr => by
    obtain ⟨m, hm, rfl⟩ := List.mem_map.1 hr
    exact h m hm
  have hperm : (ms.map Move.dst).Perm (ms.map Move.src) :=
    (subperm_of_subset hd hsub).perm_of_length_le (by simp)
  exact fun m hm => hperm.mem_iff.2 (mem_map_of_mem hm)

end ParallelMove
