import EmbCC.Libc.Regex.Matcher

/-!
# The matcher's fuel

Every call of `match` counts a step, and a chain of frames is no longer than the calls
that pushed them, so the calls that can be open at once are bounded by the steps that are
left. With that much fuel one more unit changes nothing (`fuel_spec`), and so the search
of `regexec` is the one of the source, which counts no depth (`matchNode_fuel`).
-/

namespace EmbCC.Libc.Regex

/-- From `s` steps on the two searches agree; one that goes on has not passed the limit. -/
def SameFrom (s : ℕ) (f g : State → Bool × State) : Prop :=
  ∀ st, s ≤ st.steps → st.steps ≤ stepLimit →
    f st = g st ∧ ((f st).1 = false → st.steps ≤ (f st).2.steps ∧ (f st).2.steps ≤ stepLimit)

namespace SameFrom
variable {s : ℕ} {f f' g g' : State → Bool × State}

lemma stay (b : Bool) : SameFrom s (fun st => (b, st)) fun st => (b, st) :=
  fun _ _ h => ⟨rfl, fun _ => ⟨Nat.le_refl _, h⟩⟩

lemma orElse (hf : SameFrom s f f') (hg : SameFrom s g g') :
    SameFrom s (fun st => Regex.orElse (f st) g) fun st => Regex.orElse (f' st) g' := by
  intro st hs hle
  obtain ⟨heq, hsteps⟩ := hf st hs hle
  simp only [Regex.orElse, ← heq]
  by_cases hr : (f st).1 = true
  · simp [hr]
  · obtain ⟨h1, h2⟩ := hsteps (by simpa using hr)
    obtain ⟨heq', hsteps'⟩ := hg (f st).2 (by omega) h2
    simp only [if_neg hr, ← heq', true_and]
    intro h
    have := hsteps' h
    omega

lemma tick (h : s + 1 ≤ stepLimit → SameFrom (s + 1) f f') :
    SameFrom s (fun st => Regex.tick st f) fun st => Regex.tick st f' := by
  intro st hs hle
  simp only [Regex.tick]
  by_cases hlimit : st.steps + 1 > stepLimit
  · simp [hlimit]
  · obtain ⟨heq, hsteps⟩ := h (by omega) { st with steps := st.steps + 1 } (by simpa using hs)
      (by simpa using hlimit)
    simp only [if_neg hlimit, heq, true_and]
    intro hr
    rw [heq] at hsteps
    have := hsteps hr
    dsimp only at this
    omega

lemma ite {p : Prop} [Decidable p] (h : SameFrom s f f') :
    SameFrom s (fun st => if p then f st else (false, st)) fun st => if p then f' st else (false, st) := by
  split_ifs
  · exact h
  · exact stay false

lemma tryAll {α : Type} {f f' : α → State → Bool × State} {as : List α} (h : ∀ a ∈ as, SameFrom s (f a) (f' a)) :
    SameFrom s (Regex.tryAll (as.map f)) (Regex.tryAll (as.map f')) := by
  induction as with
  | nil => exact stay false
  | cons a as ih =>
    exact (h a List.mem_cons_self).orElse (ih fun b hb => h b (List.mem_cons_of_mem a hb))

lemma giveBack {min : ℕ} {f f' : ℕ → State → Bool × State} (h : ∀ j, SameFrom s (f j) (f' j))
    (run : ℕ) : SameFrom s (Regex.giveBack min f run) (Regex.giveBack min f' run) := by
  induction run with
  | zero =>
    intro st
    rw [Regex.giveBack, Regex.giveBack]
    split_ifs
    · exact stay false st
    · exact (h 0).orElse (tick fun _ => stay false) st
  | succ run ih =>
    intro st
    rw [Regex.giveBack, Regex.giveBack]
    split_ifs
    · exact stay false st
    · exact (h (run + 1)).orElse (tick fun _ st hs => ih st (Nat.le_of_succ_le hs)) st

end SameFrom

/-- The calls of `match` that can be open, with `s` steps made and the chain `k`; for `next` one more. -/
def depth (s : ℕ) (k : List Frame) : ℕ := 3 * (stepLimit + 1 - s) + k.length

/-- One more unit changes nothing of `next`. -/
def NextFuel (m : Text) (fuel : ℕ) : Prop :=
  ∀ s k i, s ≤ stepLimit → depth s k + 1 ≤ fuel → SameFrom s (next m fuel k i) (next m (fuel + 1) k i)

/-- One more unit changes nothing of `match`. -/
def MatchFuel (m : Text) (fuel : ℕ) : Prop :=
  ∀ s n i k, s ≤ stepLimit → depth s k ≤ fuel →
    SameFrom s (matchNode m fuel n i k) (matchNode m (fuel + 1) n i k)

section
variable {m : Text} {fuel : ℕ}

/-- One more level of the continuation has fuel. -/
lemma nextFuel_succ (hnext : NextFuel m fuel) (hmatch : MatchFuel m fuel) : NextFuel m (fuel + 1) := by
  rintro s (_ | ⟨f, k⟩) i hs hd st hst hle
  · rw [next, next]
    have hsteps : (done m i st).2.steps = st.steps := by rw [done]; split_ifs <;> rfl
    exact ⟨rfl, fun _ => by omega⟩
  have hlen : depth s k + 1 ≤ fuel := Nat.le_of_succ_le_succ hd
  match f with
  | .seq [] => rw [next, next]; exact hnext s k i hs hlen st hst hle
  | .seq (kid :: kids) => rw [next, next]; exact hmatch s kid i (_ :: k) hs hlen st hst hle
  | .group g gstart =>
    rw [next, next]
    obtain ⟨heq, hsteps⟩ := hnext s k i hs hlen
      { st with cap := Function.update st.cap g (regoff gstart, regoff i) } hst hle
    rw [heq] at hsteps
    simp only [heq, true_and]
    exact hsteps
  | .rep min max kid idx start =>
    rw [next, next]
    by_cases hskip : i = start ∧ idx + 1 > min
    · rw [if_pos hskip, if_pos hskip]
      exact SameFrom.stay false st hst hle
    · simp only [if_neg hskip]
      exact ((hmatch s kid i (_ :: k) hs hlen).ite.orElse (hnext s k i hs hlen).ite) st hst hle

/-- One more level of the matcher has fuel. -/
lemma matchFuel_succ (hnext : NextFuel m fuel) (hmatch : MatchFuel m fuel) : MatchFuel m (fuel + 1) := by
  intro s n i k _ hd st hst hle
  refine SameFrom.tick (fun hs st hst hle => ?_) st hst hle
  have hlen : depth (s + 1) k + 1 ≤ fuel := by simp only [depth] at hd ⊢; omega
  have hnext (i : ℕ) := hnext (s + 1) k i hs hlen
  match n with
  | .empty => exact hnext i st hst hle
  | .char c => exact (hnext (i + 1)).ite st hst hle
  | .any => exact (hnext (i + 1)).ite st hst hle
  | .set bits neg => exact (hnext (i + 1)).ite st hst hle
  | .group num kid => exact hmatch (s + 1) kid i (_ :: k) hs hlen st hst hle
  | .bref num =>
    dsimp only
    cases brefLen m (st.cap num) i with
    | none => exact SameFrom.stay false st hst hle
    | some len => exact hnext (i + len) st hst hle
  | .cat [] => exact hnext i st hst hle
  | .cat (kid :: kids) => exact hmatch (s + 1) kid i (_ :: k) hs hlen st hst hle
  | .alt kids =>
    exact SameFrom.tryAll (fun kid _ => hmatch (s + 1) kid i k hs (Nat.le_of_succ_le hlen)) st hst hle
  | .rep min max kid =>
    by_cases hone : kid.isOne = true
    · simp only [if_pos hone]
      exact SameFrom.giveBack (fun j => hnext (i + j)) _ st hst hle
    · simp only [if_neg hone]
      exact ((hmatch (s + 1) kid i (_ :: k) hs hlen).ite.orElse (hnext i).ite) st hst hle
  | .bol | .eol | .wordb | .nwordb | .wbeg | .wend | .bufbeg | .bufend => exact (hnext i).ite st hst hle

lemma fuel_spec (m : Text) (fuel : ℕ) : NextFuel m fuel ∧ MatchFuel m fuel := by
  induction fuel with
  | zero =>
    refine ⟨fun s k i _ hd => by omega, fun s n i k hs hd => ?_⟩
    rw [depth] at hd
    omega
  | succ fuel ih => exact ⟨nextFuel_succ ih.1 ih.2, matchFuel_succ ih.1 ih.2⟩

end

lemma matchNode_fuel (m : Text) (n : Node) (start : ℕ) (extra : ℕ) :
    matchNode m (callDepth + extra) n start [] {} = matchNode m callDepth n start [] {} := by
  induction extra with
  | zero => rfl
  | succ extra ih =>
    rw [← ih]
    refine ((fuel_spec m (callDepth + extra)).2 0 n start [] (Nat.zero_le _) ?_ {} (Nat.zero_le _) (Nat.zero_le _)).1.symm
    simp [depth, callDepth]

end EmbCC.Libc.Regex
