import Mathlib

/-!
# Traces of deterministic systems

A deterministic transition system whose steps are silent or carry an
observation, and what it means that one can stand in for another: they emit
the same finite traces, up to a wild observation of the first, after which
anything goes (`Refines`). `refines_of_match` is the rule to prove it. A
relation between the states need not match step for step. It is enough that
related states run silently into related states, at least one step on each
side, or into states that make the same visible step.
-/

namespace Trace

open Option List Prod

open Relation (ReflTransGen TransGen)
variable {C D E O : Type*}

/-- A step of `A` from `c` to `c'` without an observation. -/
def Silent (A : C → Option (Option O × C)) (c c' : C) : Prop := A c = some (none, c')

/-- A step of `A` from `c` to `c'`, visible or not. -/
def Step (A : C → Option (Option O × C)) (c c' : C) : Prop := ∃ o, A c = some (o, c')

/-- The states a run from `c` passes. -/
def Reaches (A : C → Option (Option O × C)) : C → C → Prop := ReflTransGen (Step A)

/-- The observations of the first `n` steps. -/
def run (A : C → Option (Option O × C)) : ℕ → C → List O
  | 0, _ => []
  | n + 1, c =>
    match A c with
    | none => []
    | some (none, c') => run A n c'
    | some (some o, c') => o :: run A n c'

/-- The state after `n` steps. -/
def after (A : C → Option (Option O × C)) : ℕ → C → Option C
  | 0, c => some c
  | n + 1, c => (A c).bind fun p => after A n p.2

/-- Some finite run from `c` emits exactly `τ`. -/
def Emits (A : C → Option (Option O × C)) (c : C) (τ : List O) : Prop := ∃ n, run A n c = τ

variable {A : C → Option (Option O × C)} {B : D → Option (Option O × D)}
variable {c c' a t : C} {o : Option O} {τ : List O} {P : Type*} {b d : D} {R : C → D → Prop}

lemma after_congr {B : C → Option (Option O × C)}
    (h : ∀ d, Reaches A c d → (B d).map snd = (A d).map snd) (n : ℕ) : after B n c = after A n c := by
  induction n generalizing c with
  | zero => rfl
  | succ n ih =>
    have hc := h c .refl
    rw [after, after]
    cases ha : A c with
    | none =>
      rw [ha, map_none, map_eq_none_iff] at hc
      rw [hc]
      rfl
    | some p =>
      rw [ha] at hc
      obtain ⟨q, hq, hpq⟩ := Option.map_eq_some_iff.1 hc
      rw [hq, bind_some, bind_some, hpq]
      exact ih fun d hd => h d (.head ⟨p.1, ha⟩ hd)

lemma Reaches.of_after (n : ℕ) (h : after A n c = some c') : Reaches A c c' := by
  induction n generalizing c with
  | zero => exact some.inj h ▸ .refl
  | succ n ih =>
    obtain ⟨p, hp, h⟩ := Option.bind_eq_some_iff.1 h
    exact .head ⟨p.1, hp⟩ (ih h)

lemma emits_nil (c : C) : Emits A c [] := ⟨0, rfl⟩

lemma run_silent (h : Silent A c c') (n : ℕ) : run A (n + 1) c = run A n c' := by
  rw [run, show A c = some (none, c') from h]

lemma run_visible {o : O} (h : A c = some (some o, c')) (n : ℕ) : run A (n + 1) c = o :: run A n c' := by
  rw [run, h]

lemma run_halt (h : A c = none) (n : ℕ) : run A n c = [] := by
  cases n with
  | zero => rfl
  | succ n => rw [run, h]

lemma Emits.of_silent (h : ReflTransGen (Silent A) c c') (he : Emits A c' τ) : Emits A c τ := by
  induction h using ReflTransGen.head_induction_on with
  | refl => exact he
  | head hs _ ih =>
    obtain ⟨n, hn⟩ := ih
    exact ⟨n + 1, (run_silent hs n).trans hn⟩

lemma Emits.cons {o : O} (h : A c = some (some o, c')) (he : Emits A c' τ) : Emits A c (o :: τ) := by
  obtain ⟨n, rfl⟩ := he
  exact ⟨n + 1, run_visible h n⟩

lemma run_of_silent (h : ReflTransGen (Silent A) c c') :
    ∃ k, (∀ n, n ≤ k → run A n c = []) ∧ ∀ n, run A (k + n) c = run A n c' := by
  induction h using ReflTransGen.head_induction_on with
  | refl => exact ⟨0, fun n hn => by rw [Nat.le_zero.1 hn]; rfl, fun n => by rw [Nat.zero_add]⟩
  | head hs _ ih =>
    obtain ⟨k, hshort, hlong⟩ := ih
    refine ⟨k + 1, fun n hn => ?_, fun n => ?_⟩
    · cases n with
      | zero => rfl
      | succ n => rw [run_silent hs, hshort n (by omega)]
    · rw [Nat.add_right_comm, run_silent hs, hlong]

lemma run_of_silent_trans (h : TransGen (Silent A) c c') :
    ∃ k, 0 < k ∧ (∀ n, n ≤ k → run A n c = []) ∧ ∀ n, run A (k + n) c = run A n c' := by
  obtain ⟨d, hs, hrest⟩ := TransGen.head'_iff.1 h
  obtain ⟨k, hshort, hlong⟩ := run_of_silent hrest
  refine ⟨k + 1, Nat.succ_pos k, fun n hn => ?_, fun n => ?_⟩
  · cases n with
    | zero => rfl
    | succ n => rw [run_silent hs, hshort n (by omega)]
  · rw [Nat.add_right_comm, run_silent hs, hlong]

lemma Emits.of_prefix {τ' : List O} (h : τ' <+: τ) (he : Emits A c τ) : Emits A c τ' := by
  obtain ⟨n, rfl⟩ := he
  induction n generalizing c τ' with
  | zero => exact List.prefix_nil.1 h ▸ emits_nil c
  | succ n ih =>
    rw [run] at h
    split at h
    · exact List.prefix_nil.1 h ▸ emits_nil c
    · rename_i c' hc
      exact (ih h).of_silent (.single hc)
    · rename_i o c' hc
      rcases List.prefix_cons_iff.1 h with rfl | ⟨σ, rfl, hσ⟩
      · exact emits_nil c
      · exact (ih hσ).cons hc

lemma run_le (c : C) {m n : ℕ} (h : m ≤ n) : run A m c <+: run A n c := by
  induction m generalizing c n with
  | zero => exact nil_prefix
  | succ m ih =>
    obtain _ | n := n
    · omega
    · rw [run, run]
      split
      · exact nil_prefix
      · exact ih _ (by omega)
      · exact (prefix_cons_inj _).2 (ih _ (by omega))

lemma Emits.eq_of_length {σ : List O} (h : Emits A c τ) (h' : Emits A c σ) (hl : τ.length = σ.length) : τ = σ := by
  obtain ⟨m, rfl⟩ := h
  obtain ⟨n, rfl⟩ := h'
  rcases le_total m n with hmn | hmn
  · exact (run_le c hmn).eq_of_length hl
  · exact ((run_le c hmn).eq_of_length hl.symm).symm

/-- The system with its observations seen through `f`. -/
def viewed {P : Type*} (f : O → Option P) (A : C → Option (Option O × C)) :
    C → Option (Option P × C) := fun c => (A c).map fun p => (p.1.bind f, p.2)

lemma viewed_of_step (f : O → Option P) (h : A c = some (o, c')) : viewed f A c = some (o.bind f, c') := by
  rw [viewed, h]
  rfl

lemma Reaches.of_viewed {f : O → Option P} (h : Reaches (viewed f A) c c') : Reaches A c c' := by
  refine ReflTransGen.mono (fun a b hab => ?_) _ _ h
  obtain ⟨o, ho⟩ := hab
  obtain ⟨p, hp, heq⟩ := Option.map_eq_some_iff.1 ho
  exact ⟨p.1, by rw [hp, ← (mk.inj heq).2]⟩

/-- `B` may stand in for `A`: what `A` emits `B` emits, and what `B` emits `A` emits, up to a
wild observation of `A`. -/
structure Refines (U : O → Prop) (A : C → Option (Option O × C)) (a : C)
    (B : D → Option (Option O × D)) (b : D) : Prop where
  complete : ∀ τ, (∀ o ∈ τ, ¬ U o) → Emits A a τ → Emits B b τ
  sound : ∀ τ, Emits B b τ → Emits A a τ ∨ ∃ σ o, U o ∧ σ <+: τ ∧ Emits A a (σ ++ [o])

variable {U : O → Prop}

lemma Refines.refl (A : C → Option (Option O × C)) (a : C) : Refines U A a A a :=
  ⟨fun _ _ h => h, fun _ h => .inl h⟩

lemma Refines.trans {F : E → Option (Option O × E)} {e : E}
    (h1 : Refines U A a B b) (h2 : Refines U B b F e) : Refines U A a F e := by
  refine ⟨fun τ hτ h => h2.complete τ hτ (h1.complete τ hτ h), fun τ h => ?_⟩
  rcases h2.sound τ h with hb | ⟨σ, o, ho, hσ, hb⟩
  · exact h1.sound τ hb
  · rcases h1.sound _ hb with ha | ⟨ρ, o', ho', hρ, ha⟩
    · exact .inr ⟨σ, o, ho, hσ, ha⟩
    · rcases List.prefix_concat_iff.1 hρ with rfl | hρ
      · exact .inr ⟨σ, o, ho, hσ, ha.of_prefix (prefix_append _ _)⟩
      · exact .inr ⟨ρ, o', ho', hρ.trans hσ, ha⟩

/-- Two states advance together into related states, or the first makes a wild step. -/
inductive Match (U : O → Prop) (A : C → Option (Option O × C)) (B : D → Option (Option O × D))
    (R : C → D → Prop) (a : C) (b : D) : Prop
  | silent {c : C} {d : D} : TransGen (Silent A) a c → TransGen (Silent B) b d → R c d →
      Match U A B R a b
  | visible {t c : C} {u d : D} {o : O} : ReflTransGen (Silent A) a t →
      ReflTransGen (Silent B) b u → A t = some (some o, c) → B u = some (some o, d) → R c d →
      Match U A B R a b
  | halt {t : C} {u : D} : ReflTransGen (Silent A) a t → ReflTransGen (Silent B) b u →
      A t = none → B u = none → Match U A B R a b
  | wild {t c : C} {o : O} : ReflTransGen (Silent A) a t → A t = some (some o, c) → U o →
      Match U A B R a b

lemma Match.of_step (ha : A a = some (o, c)) (hb : B b = some (o, d)) (h : R c d) : Match U A B R a b := by
  cases o with
  | none => exact .silent (.single ha) (.single hb) h
  | some o => exact .visible .refl .refl ha hb h

/-- From `b` to `d` in one step or more, of which at most one is seen, as `o`. -/
inductive Follows (B : D → Option (Option O × D)) (b : D) : Option O → D → Prop
  | silent {d : D} : TransGen (Silent B) b d → Follows B b none d
  | visible {u d : D} {o : O} : ReflTransGen (Silent B) b u → B u = some (some o, d) →
      Follows B b (some o) d

lemma Follows.of_step (h : B b = some (o, d)) : Follows B b o d := by
  cases o with
  | none => exact .silent (.single h)
  | some o => exact .visible .refl h

lemma Follows.reaches (h : Follows B b o d) : Reaches B b d := by
  cases h with
  | silent h => exact ReflTransGen.mono (fun _ _ hs => ⟨none, hs⟩) _ _ h.to_reflTransGen
  | visible h hs => exact .tail (ReflTransGen.mono (fun _ _ hs => ⟨none, hs⟩) _ _ h) ⟨_, hs⟩

lemma Match.of_follows (ha : A a = some (o, c)) (hb : Follows B b o d) (h : R c d) : Match U A B R a b := by
  cases hb with
  | silent hb => exact .silent (.single ha) hb h
  | visible hb hs => exact .visible .refl hb ha hs h

lemma reaches_of_follows (hR : ∀ a b o c, R a b → A a = some (o, c) → ∃ d, Follows B b o d ∧ R c d)
    (hab : R a b) (h : Reaches A a c) : ∃ d, Reaches B b d ∧ R c d := by
  induction h with
  | refl => exact ⟨b, .refl, hab⟩
  | tail _ hs ih =>
    obtain ⟨d, hd, hr⟩ := ih
    obtain ⟨o, ho⟩ := hs
    obtain ⟨d', hf, hr'⟩ := hR _ d o _ hr ho
    exact ⟨d', hd.trans hf.reaches, hr'⟩

lemma run_to_visible {o : O} (h : ReflTransGen (Silent A) a t) (ht : A t = some (some o, c)) (n : ℕ) :
    run A n a = [] ∨ ∃ m, m < n ∧ run A n a = o :: run A m c := by
  obtain ⟨k, hshort, hlong⟩ := run_of_silent h
  rcases le_or_gt n k with hle | hlt
  · exact .inl (hshort n hle)
  · obtain ⟨m, rfl⟩ := Nat.exists_eq_add_of_lt hlt
    exact .inr ⟨m, by omega, by rw [Nat.add_assoc, hlong, run_visible ht]⟩

lemma run_to_silent (h : TransGen (Silent A) a c) (n : ℕ) : run A n a = [] ∨ ∃ m, m < n ∧ run A n a = run A m c := by
  obtain ⟨k, hk, hshort, hlong⟩ := run_of_silent_trans h
  rcases le_or_gt n k with hle | hlt
  · exact .inl (hshort n hle)
  · obtain ⟨m, rfl⟩ := Nat.exists_eq_add_of_le hlt.le
    exact .inr ⟨m, by omega, hlong m⟩

lemma run_to_halt (h : ReflTransGen (Silent A) a t) (ht : A t = none) (n : ℕ) : run A n a = [] := by
  obtain ⟨k, hshort, hlong⟩ := run_of_silent h
  rcases le_or_gt n k with hle | hlt
  · exact hshort n hle
  · obtain ⟨m, rfl⟩ := Nat.exists_eq_add_of_le hlt.le
    rw [hlong, run_halt ht]

section
variable {R : C → D → Prop} (hR : ∀ a b, R a b → Match U A B R a b)
include hR

/-- What the first machine shows, the matched second one shows too, up to an undefined event. -/
lemma complete_of_match (n : ℕ) {a : C} {b : D} (hab : R a b) (hU : ∀ o ∈ run A n a, ¬ U o) : Emits B b (run A n a) := by
  -- on the number of steps of `A`, which every case of `Match` lowers
  induction n using Nat.strong_induction_on generalizing a b with
  | _ n ih =>
    cases hR a b hab with
    | silent h1 h2 hr =>
      rcases run_to_silent h1 n with hn | ⟨m, hm, hn⟩
      · exact hn ▸ emits_nil b
      · rw [hn] at hU ⊢
        exact (ih m hm hr hU).of_silent h2.to_reflTransGen
    | visible h1 h2 ha hb hr =>
      rcases run_to_visible h1 ha n with hn | ⟨m, hm, hn⟩
      · exact hn ▸ emits_nil b
      · rw [hn] at hU ⊢
        exact ((ih m hm hr fun o ho => hU o (.tail _ ho)).cons hb).of_silent h2
    | halt h1 _ ha _ => exact run_to_halt h1 ha n ▸ emits_nil b
    | wild h1 ha ho =>
      rcases run_to_visible h1 ha n with hn | ⟨m, _, hn⟩
      · exact hn ▸ emits_nil b
      · exact absurd ho (hU _ (hn ▸ .head _))

/-- What the second machine shows, the first one does, or comes to an undefined event first. -/
lemma sound_of_match (n : ℕ) {a : C} {b : D} (hab : R a b) :
    Emits A a (run B n b) ∨ ∃ σ o, U o ∧ σ <+: run B n b ∧ Emits A a (σ ++ [o]) := by
  induction n using Nat.strong_induction_on generalizing a b with
  | _ n ih =>
    cases hR a b hab with
    | silent h1 h2 hr =>
      rcases run_to_silent h2 n with hn | ⟨m, hm, hn⟩
      · exact .inl (hn ▸ emits_nil a)
      · rw [hn]
        rcases ih m hm hr with h | ⟨σ, o, ho, hσ, h⟩
        · exact .inl (h.of_silent h1.to_reflTransGen)
        · exact .inr ⟨σ, o, ho, hσ, h.of_silent h1.to_reflTransGen⟩
    | visible h1 h2 ha hb hr =>
      rcases run_to_visible h2 hb n with hn | ⟨m, hm, hn⟩
      · exact .inl (hn ▸ emits_nil a)
      · rw [hn]
        rcases ih m hm hr with h | ⟨σ, o, ho, hσ, h⟩
        · exact .inl ((h.cons ha).of_silent h1)
        · exact .inr ⟨_ :: σ, o, ho, (prefix_cons_inj _).2 hσ, (h.cons ha).of_silent h1⟩
    | halt _ h2 _ hb => exact .inl (run_to_halt h2 hb n ▸ emits_nil a)
    | wild h1 ha ho => exact .inr ⟨[], _, ho, nil_prefix, ((emits_nil _).cons ha).of_silent h1⟩

lemma refines_of_match {a : C} {b : D} (hab : R a b) : Refines U A a B b where
  complete := by
    rintro τ hτ ⟨n, rfl⟩
    exact complete_of_match hR n hab hτ
  sound := by
    rintro τ ⟨n, rfl⟩
    exact sound_of_match hR n hab

end
end Trace
