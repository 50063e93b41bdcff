import Mathlib.Logic.Relation
import Mathlib.Data.Set.Basic
import Mathlib.Tactic.Common

/-!
# The futex lock

`lock.c` under any number of threads: each takes its atomic steps on the word in
any order with the others. The word is 0 when the lock is free, 1 when it is held,
and 2 when it is held and somebody might be waiting. `atomicStep` is the code
between two calls of the system; sleeping and waking are the system's, and a wait
may always return early, as `__os_futex_wait` says.

`Inv` is what every reachable state has. It gives mutual exclusion, and that no
wake is lost: while somebody sleeps, the word says so or somebody awake is going
to look (`lock_safe`).
-/

namespace EmbCC.Libc.Lock

open Function

/-- Where a thread is. -/
inductive Pc
  /-- Not in `__lock`, and without the lock. -/
  | out
  /-- At the compare-exchange of `__lock`. -/
  | start
  /-- At the exchange in front of the loop. -/
  | mark
  /-- At the futex wait. -/
  | wait
  /-- Asleep in the futex wait. -/
  | asleep
  /-- At the exchange that ends a turn of the loop. -/
  | retry
  /-- With the lock; its next step is the decrement of `__unlock`. -/
  | held
  /-- At the store of `__unlock`. -/
  | clear
  /-- At the futex wake. -/
  | wake
deriving DecidableEq, Repr

/-- `c = __atomic_exchange_n(&l->v, 2)` and the test of the loop: where it leads, and the word. -/
def exchange (v : ℤ) : Pc × ℤ :=
  let c := v
  (if c ≠ 0 then .wait else .held, 2)

/-- One atomic step of a thread on the word `v`: where it is then, and what the word holds. -/
def atomicStep : Pc → ℤ → Option (Pc × ℤ)
  | .start, v =>
    if v = 0 then some (.held, 1)
    else
      -- the failed compare-exchange has left the word in `c`
      let c := v
      some (if c ≠ 2 then .mark else if c ≠ 0 then .wait else .held, v)
  | .mark, v => some (exchange v)
  | .retry, v => some (exchange v)
  | .held, v => some (if v ≠ 1 then .clear else .out, v - 1)
  | .clear, _ => some (.wake, 0)
  | _, _ => none

/-- The word, and where each thread is. -/
structure State (T : Type) where
  v : ℤ
  pc : T → Pc

/-- `LOCK_INIT`, and no thread has called anything yet. -/
def State.init (T : Type) : State T := ⟨0, fun _ => .out⟩

section
variable {T : Type} [DecidableEq T]

/-- The thread `t` goes on at `p`. -/
def State.goto (s : State T) (t : T) (p : Pc) : State T :=
  { s with pc := Function.update s.pc t p }

/-- One step of the whole. -/
inductive Step (s : State T) : State T → Prop
  | call (t : T) (h : s.pc t = .out) : Step s (s.goto t .start)
  | trylock (t : T) (h : s.pc t = .out) (hv : s.v = 0) : Step s ⟨1, Function.update s.pc t .held⟩
  | atomic (t : T) {p : Pc} {v : ℤ} (h : atomicStep (s.pc t) s.v = some (p, v)) :
      Step s ⟨v, Function.update s.pc t p⟩
  | sleep (t : T) (h : s.pc t = .wait) (hv : s.v = 2) : Step s (s.goto t .asleep)
  | back (t : T) (h : s.pc t = .wait ∨ s.pc t = .asleep) : Step s (s.goto t .retry)
  | wake (t : T) (woken : T → Bool) (h : s.pc t = .wake) (hw : ∀ u, woken u → s.pc u = .asleep)
      (hsome : (∃ u, s.pc u = .asleep) → ∃ u, woken u) :
      Step s ⟨s.v, Function.update (fun u => if woken u then .retry else s.pc u) t .out⟩

/-- The states that some interleaving comes to. -/
def Reachable (s : State T) : Prop := Relation.ReflTransGen Step (State.init T) s

/-- The thread has the lock, or has not yet cleared the word. -/
def Pc.Owns (p : Pc) : Prop := p = .held ∨ p = .clear

/-- The thread is awake and will set the word to 2 or wake somebody. -/
def Pc.Looks (p : Pc) : Prop := p = .clear ∨ p = .wake ∨ p = .wait ∨ p = .retry

/-- The thread wants the lock. -/
def Pc.Wants (p : Pc) : Prop :=
  p = .start ∨ p = .mark ∨ p = .wait ∨ p = .asleep ∨ p = .retry

structure Inv (s : State T) : Prop where
  word : s.v = 0 ∨ s.v = 1 ∨ s.v = 2
  one : ∀ t u, (s.pc t).Owns → (s.pc u).Owns → t = u
  free : s.v = 0 → ∀ t, ¬(s.pc t).Owns
  heard : ∀ t, s.pc t = .asleep → s.v = 2 ∨ ∃ u, (s.pc u).Looks

omit [DecidableEq T] in
lemma inv_init : Inv (State.init T) where
  word := .inl rfl
  one _ _ h := by simp [State.init, Pc.Owns] at h
  free _ _ h := by simp [State.init, Pc.Owns] at h
  heard _ h := by simp [State.init] at h

variable {s : State T} {t : T}

/-- What a step of one thread has to keep for the lock's invariant. -/
lemma Inv.update (hs : Inv s) {p : Pc} {v : ℤ} (hword : v = 0 ∨ v = 1 ∨ v = 2) (htakes : p.Owns → (s.pc t).Owns ∨ s.v = 0)
    (hfree : v = 0 → ¬p.Owns ∧ (s.v = 0 ∨ (s.pc t).Owns)) (hheard : v = 2 ∨ p.Looks
    ∨ (s.v ≠ 2 ∧ ¬(s.pc t).Looks ∧ p ≠ .asleep)) : Inv ⟨v, Function.update s.pc t p⟩ := by
  have hother : ∀ u, u ≠ t → Function.update s.pc t p u = s.pc u := fun u hu =>
    Function.update_of_ne hu ..
  -- an owner beside `t` was the owner before, so `t` was not one and cannot become one
  have hlone : ∀ u, u ≠ t → (s.pc u).Owns → ¬p.Owns := fun u hu hown hp => by
    rcases htakes hp with h | h
    · exact hu (hs.one u t hown h)
    · exact hs.free h u hown
  refine ⟨hword, fun u w hu hw => ?_, fun h0 u hu => ?_, fun u hu => ?_⟩
  · dsimp only at hu hw
    rcases eq_or_ne u t with rfl | hut <;> rcases eq_or_ne w u with rfl | hwu
    · rfl
    · rw [update_self] at hu
      rw [hother w hwu] at hw
      exact absurd hu (hlone w hwu hw)
    · rfl
    · rw [hother u hut] at hu
      rcases eq_or_ne w t with rfl | hwt
      · rw [update_self] at hw
        exact absurd hw (hlone u hut hu)
      · rw [hother w hwt] at hw
        exact hs.one u w hu hw
  · obtain ⟨hp, h⟩ := hfree h0
    dsimp only at hu
    rcases eq_or_ne u t with rfl | hut
    · rw [update_self] at hu
      exact hp hu
    · rw [hother u hut] at hu
      rcases h with h | h
      · exact hs.free h u hu
      · exact hut (hs.one u t hu h)
  · dsimp only at hu ⊢
    rcases hheard with h | h | ⟨hv, hlook, hp⟩
    · exact .inl h
    · exact .inr ⟨t, by rwa [update_self]⟩
    · have hut : u ≠ t := by
        rintro rfl
        rw [update_self] at hu
        exact hp hu
      rw [hother u hut] at hu
      obtain ⟨w, hw⟩ := (hs.heard u hu).resolve_left hv
      have hwt : w ≠ t := by
        rintro rfl
        exact hlook hw
      exact .inr ⟨w, by rwa [hother w hwt]⟩

lemma Inv.exchange (hs : Inv s) (t : T) : Inv ⟨(exchange s.v).2, Function.update s.pc t (exchange s.v).1⟩ := by
  refine hs.update (.inr (.inr rfl)) (fun h => .inr ?_) (fun h => absurd (show (2 : ℤ) = 0 from h) (by decide)) (.inl rfl)
  by_contra hv
  simp [Lock.exchange, hv, Pc.Owns] at h

/-- An atomic operation of a thread. -/
lemma Inv.atomic (hs : Inv s) {p : Pc} {v : ℤ}
    (h : atomicStep (s.pc t) s.v = some (p, v)) : Inv ⟨v, Function.update s.pc t p⟩ := by
  cases hpc : s.pc t with
  | start =>
    rw [hpc, atomicStep] at h
    split_ifs at h with hv
    · cases h
      exact hs.update (.inr (.inl rfl)) (fun _ => .inr hv) (fun h => absurd h (by decide))
        (.inr (.inr ⟨by rw [hv]; decide, by simp [hpc, Pc.Looks], by decide⟩))
    · obtain ⟨hp, rfl⟩ := Prod.mk.inj (Option.some.inj h)
      rcases eq_or_ne s.v 2 with h2 | h2
      · obtain rfl : Pc.wait = p := by simpa [h2] using hp
        exact hs.update hs.word (fun h => by simp [Pc.Owns] at h) (fun h => absurd h hv) (.inl h2)
      · obtain rfl : Pc.mark = p := by simpa [h2] using hp
        exact hs.update hs.word (fun h => by simp [Pc.Owns] at h) (fun h => absurd h hv)
          (.inr (.inr ⟨h2, by simp [hpc, Pc.Looks], by decide⟩))
  | mark =>
    rw [hpc] at h
    cases h
    exact hs.exchange t
  | retry =>
    rw [hpc] at h
    cases h
    exact hs.exchange t
  | held =>
    rw [hpc] at h
    obtain ⟨hp, rfl⟩ := Prod.mk.inj (Option.some.inj h)
    have hown : (s.pc t).Owns := .inl hpc
    rcases hs.word with hv | hv | hv
    · exact absurd hown (hs.free hv t)
    · obtain rfl : Pc.out = p := by simpa [hv] using hp
      exact hs.update (.inl (by omega)) (fun h => by simp [Pc.Owns] at h) (fun _ => ⟨by simp [Pc.Owns], .inr hown⟩)
        (.inr (.inr ⟨by omega, by simp [hpc, Pc.Looks], by decide⟩))
    · obtain rfl : Pc.clear = p := by simpa [hv] using hp
      exact hs.update (.inr (.inl (by omega))) (fun _ => .inl hown) (fun h => by omega) (.inr (.inl (.inl rfl)))
  | clear =>
    rw [hpc] at h
    cases h
    exact hs.update (.inl rfl) (fun h => by simp [Pc.Owns] at h)
      (fun _ => ⟨by simp [Pc.Owns], .inr (.inr hpc)⟩) (.inr (.inl (.inr (.inl rfl))))
  | out => rw [hpc] at h; cases h
  | wait => rw [hpc] at h; cases h
  | asleep => rw [hpc] at h; cases h
  | wake => rw [hpc] at h; cases h

/-- A wake-up moves only sleepers, and at least one if there is one. -/
lemma Inv.wake (hs : Inv s) {woken : T → Bool} (h : s.pc t = .wake)
    (hw : ∀ u, woken u → s.pc u = .asleep) (hsome : (∃ u, s.pc u = .asleep) → ∃ u, woken u) :
    Inv ⟨s.v, Function.update (fun u => if woken u then .retry else s.pc u) t .out⟩ := by
  have hpc : ∀ u, u ≠ t → Function.update (fun u => if woken u then Pc.retry else s.pc u) t .out u =
      if woken u then .retry else s.pc u := fun u hu => Function.update_of_ne hu ..
  have howns : ∀ u, (Function.update (fun u => if woken u then Pc.retry else s.pc u) t .out u).Owns → (s.pc u).Owns := by
    intro u hu
    rcases eq_or_ne u t with rfl | hut
    · simp [Pc.Owns] at hu
    · rw [hpc u hut] at hu
      split_ifs at hu
      · simp [Pc.Owns] at hu
      · exact hu
  refine ⟨hs.word, fun u w hu hw => hs.one u w (howns u hu) (howns w hw),
    fun h0 u hu => hs.free h0 u (howns u hu), fun u hu => ?_⟩
  dsimp only at hu ⊢
  have hut : u ≠ t := by
    rintro rfl
    simp at hu
  rw [hpc u hut] at hu
  have hasleep : s.pc u = .asleep := by
    split_ifs at hu
    exact hu
  obtain ⟨w, hwoken⟩ := hsome ⟨u, hasleep⟩
  have hwt : w ≠ t := by
    rintro rfl
    have := hw w hwoken
    rw [h] at this
    cases this
  refine .inr ⟨w, ?_⟩
  rw [hpc w hwt, if_pos hwoken]
  exact .inr (.inr (.inr rfl))

/-- Every step keeps the invariant. -/
lemma Inv.step {s' : State T} (hs : Inv s) (h : Step s s') : Inv s' := by
  cases h with
  | call t h =>
    refine hs.update hs.word (fun h => by simp [Pc.Owns] at h) (fun h0 => ⟨by simp [Pc.Owns], .inl h0⟩) ?_
    rcases eq_or_ne s.v 2 with hv | hv
    · exact .inl hv
    · exact .inr (.inr ⟨hv, by simp [h, Pc.Looks], by decide⟩)
  | trylock t h hv =>
    exact hs.update (.inr (.inl rfl)) (fun _ => .inr hv) (fun h => absurd h (by decide))
      (.inr (.inr ⟨by rw [hv]; decide, by simp [h, Pc.Looks], by decide⟩))
  | atomic t h => exact hs.atomic h
  | sleep t h hv =>
    exact hs.update hs.word (fun h => by simp [Pc.Owns] at h) (fun h0 => ⟨by simp [Pc.Owns], .inl h0⟩) (.inl hv)
  | back t h =>
    exact hs.update hs.word (fun h => by simp [Pc.Owns] at h)
      (fun h0 => ⟨by simp [Pc.Owns], .inl h0⟩) (.inr (.inl (.inr (.inr (.inr rfl)))))
  | wake t woken h hw hsome => exact hs.wake h hw hsome

lemma Reachable.inv (h : Reachable s) : Inv s := by
  induction h with
  | refl => exact inv_init
  | tail _ hstep ih => exact ih.step hstep

/-- A lost wake: the lock is free, but all who want it sleep on it, and no wake is on its way. -/
structure Stranded (s : State T) : Prop where
  free : s.v = 0
  sleeper : ∃ t, s.pc t = .asleep
  asleep : ∀ t, (s.pc t).Wants → s.pc t = .asleep
  unheard : ∀ t, s.pc t ≠ .wake

omit [DecidableEq T] in
/-- Under the invariant nobody sleeps on a lock that no one will wake. -/
lemma Inv.not_stranded (hs : Inv s) : ¬Stranded s := by
  intro h
  obtain ⟨t, ht⟩ := h.sleeper
  obtain ⟨u, hu⟩ := (hs.heard t ht).resolve_left (by rw [h.free]; decide)
  rcases hu with hu | hu | hu | hu
  · exact hs.free h.free u (.inr hu)
  · exact h.unheard u hu
  · have := h.asleep u (.inr (.inr (.inl hu)))
    rw [hu] at this
    cases this
  · have := h.asleep u (.inr (.inr (.inr (.inr hu))))
    rw [hu] at this
    cases this

/-- In every state of every interleaving at most one thread has the lock, and no wake is lost. -/
theorem lock_safe {s : State T} (h : Reachable s) :
    (∀ t u, s.pc t = .held → s.pc u = .held → t = u) ∧ ¬Stranded s :=
  ⟨fun t u ht hu => h.inv.one t u (.inl ht) (.inl hu), h.inv.not_stranded⟩

end

/-- One thread has the lock and the other sleeps on it. -/
theorem lock_safe_contended : ∃ s : State Bool, s.pc true = .held ∧ s.pc false = .asleep ∧
      (∀ t u, s.pc t = .held → s.pc u = .held → t = u) ∧ ¬Stranded s := by
  have h1 : Reachable ((State.init Bool).goto true .start) := .single (.call true rfl)
  have h2 := h1.tail (.atomic true (show atomicStep .start 0 = some (.held, 1) from rfl))
  have h3 := h2.tail (.call false rfl)
  have h4 := h3.tail (.atomic false (show atomicStep .start 1 = some (.mark, 1) from rfl))
  have h5 := h4.tail (.atomic false (show atomicStep .mark 1 = some (.wait, 2) from rfl))
  have h6 := h5.tail (.sleep false rfl rfl)
  exact ⟨_, rfl, rfl, lock_safe h6⟩

end EmbCC.Libc.Lock
