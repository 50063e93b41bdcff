import EmbCC.Lib.ParallelMove

/-!
# A parallel move

`ra_parallel_move`: register moves that are meant to happen all at once, put into an order
in which they can be executed one by one. The loop emits every move whose destination no
pending move still reads, and when none is left of that kind it lifts a destination into
the scratch register. `-1` is `none`; the loop's running on is the fuel running out.

`raParallelMove_correct`: with different destinations and a scratch register apart from them all it
ends, and the order is right.
-/

namespace EmbCC.Arch

open List ParallelMove Function

/-! ## The scheduler -/

def raMaxpool : ℕ := 24

/-- A row of the arrays `d`, `s` and `pending`. -/
structure Pair where
  d : ℤ
  s : ℤ
  pending : Bool
deriving DecidableEq, Repr

/-- The arrays, how many moves are pending, and the moves that are out. -/
structure Sched where
  tab : List Pair
  left : ℕ
  out : List (Move ℤ)
deriving DecidableEq, Repr

/-- Drop the moves that are in place, and refuse a repeated destination. -/
def collect (moves : List (Move ℤ)) : Option (List Pair) :=
  moves.foldlM (fun tab m =>
    if m.dst = m.src then some tab
    else if tab.any (·.d == m.dst) then none
    else some (tab ++ [⟨m.dst, m.src, true⟩])) []

/-- Is the destination of row `i` still a source of another pending move? -/
def needed (tab : List Pair) (i : ℕ) (d : ℤ) : Bool :=
  tab.zipIdx.any fun p => p.1.pending && p.2 != i && p.1.s == d

/-- The body of the loop that emits moves; `none` when `max` are out. -/
def emitAt (max : ℕ) (st : Sched × Bool) (i : ℕ) : Option (Sched × Bool) :=
  match st.1.tab[i]? with
  | none => some st
  | some p =>
    if !p.pending || needed st.1.tab i p.d then some st
    else if st.1.out.length ≥ max then none
    else some ({ tab := st.1.tab.set i { p with pending := false }
                 left := st.1.left - 1
                 out := st.1.out ++ [⟨p.d, p.s⟩] }, true)

/-- One pass over the table, and whether it emitted anything. -/
def emitPass (max : ℕ) (st : Sched) : Option (Sched × Bool) :=
  (range st.tab.length).foldlM (emitAt max) (st, false)

/-- Lift the destination of the first pending move into the scratch register, and let whoever reads it read
that. -/
def breakCycle (scratch : ℤ) (max : ℕ) (st : Sched) : Option Sched :=
  match st.tab.find? (·.pending) with
  | none => some st
  | some p =>
    if st.out.length ≥ max then none
    else some { st with
      tab := st.tab.map fun q => if q.pending && q.s == p.d then { q with s := scratch } else q
      out := st.out ++ [⟨scratch, p.d⟩] }

/-- The loop while moves are left: `none` when the fuel runs out first, `some none` for `-1`. -/
def schedule (scratch : ℤ) (max : ℕ) : ℕ → Sched → Option (Option (List (Move ℤ)))
  | fuel, st =>
    if st.left = 0 then some (some st.out)
    else
      match fuel with
      | 0 => none
      | fuel + 1 =>
        match emitPass max st with
        | none => some none
        | some (st, true) => schedule scratch max fuel st
        | some (st, false) =>
          match breakCycle scratch max st with
          | none => some none
          | some st => schedule scratch max fuel st

def raParallelMove (fuel : ℕ) (moves : List (Move ℤ)) (scratch : ℤ) (max : ℕ) :
    Option (Option (List (Move ℤ))) :=
  if moves.length > 2 * raMaxpool then some none
  else
    match collect moves with
    | none => some none
    | some tab => schedule scratch max fuel ⟨tab, tab.length, []⟩

example : raParallelMove 4 [⟨0, 1⟩, ⟨1, 0⟩] 9 4 = some (some [⟨9, 0⟩, ⟨0, 1⟩, ⟨1, 9⟩]) := by decide

/-- The moves that are not in place already. -/
def proper (moves : List (Move ℤ)) : List (Move ℤ) := moves.filter fun m => m.dst ≠ m.src

/-- The row a move starts as. -/
def toPair (m : Move ℤ) : Pair := ⟨m.dst, m.src, true⟩

variable {moves : List (Move ℤ)}

/-- The table holds the moves that move something, or there is none for two of one target. -/
lemma collect_from (tab : List Pair) (moves : List (Move ℤ)) (htab : (tab.map Pair.d).Nodup) :
    moves.foldlM (fun tab m => if m.dst = m.src then some tab else if tab.any (·.d == m.dst) then none
      else some (tab ++ [toPair m])) tab =
    if (tab.map Pair.d ++ (proper moves).map Move.dst).Nodup then some (tab ++ (proper moves).map toPair)
    else none := by
  induction moves generalizing tab with
  | nil => simp [proper, htab]
  | cons m moves ih =>
    rw [foldlM_cons]
    by_cases hm : m.dst = m.src
    · have hp : proper (m :: moves) = proper moves := filter_cons_of_neg (by simp [hm])
      rw [if_pos hm, hp]
      exact ih tab htab
    · have hp : proper (m :: moves) = m :: proper moves := filter_cons_of_pos (by simp [hm])
      rw [if_neg hm, hp]
      by_cases hmem : m.dst ∈ tab.map Pair.d
      · have hany : tab.any (·.d == m.dst) = true := by
          obtain ⟨p, hp, he⟩ := mem_map.1 hmem
          exact List.any_eq_true.2 ⟨p, hp, beq_iff_eq.2 he⟩
        rw [if_pos hany, if_neg]
        · rfl
        · rw [nodup_append]
          exact fun h => h.2.2 _ hmem _ (.head _) rfl
      · have hany : tab.any (·.d == m.dst) = false := by
          rw [any_eq_false]
          exact fun p hp he => hmem (mem_map.2 ⟨p, hp, beq_iff_eq.1 he⟩)
        have htab' : ((tab ++ [toPair m]).map Pair.d).Nodup := by
          rw [map_append, map_singleton, nodup_append]
          refine ⟨htab, nodup_singleton _, fun a ha b hb he => hmem ?_⟩
          rwa [he, List.mem_singleton.1 hb] at ha
        rw [hany, if_neg Bool.false_ne_true]
        refine (ih _ htab').trans ?_
        simp [toPair]

lemma collect_eq (moves : List (Move ℤ)) : collect moves =
      if ((proper moves).map Move.dst).Nodup then some ((proper moves).map toPair) else none := by
  exact (collect_from [] moves nodup_nil).trans (by simp)

/-! ## The invariant of the schedule -/

/-- What a row says of the moves that are out: a pending move's source holds what the move was given, and
the destination of one that is out holds it. -/
def Pair.Holds (p : Pair) (out : List (Move ℤ)) (p₀ : Pair) : Prop :=
  ∀ ⦃α : Type⦄ (regs : ℤ → α), run out regs (if p.pending then p.s else p.d) = regs p₀.s

/-- The table started as `tab₀`. -/
structure Sched.Inv (tab₀ : List Pair) (scratch : ℤ) (st : Sched) : Prop where
  left : st.left = st.tab.countP (·.pending)
  length : st.tab.length = tab₀.length
  dst : ∀ {i : ℕ} {p₀ p : Pair}, tab₀[i]? = some p₀ → st.tab[i]? = some p → p.d = p₀.d
  holds : ∀ {i : ℕ} {p₀ p : Pair}, tab₀[i]? = some p₀ → st.tab[i]? = some p → p.Holds st.out p₀
  apart : ∀ p ∈ st.tab, p.pending → p.s ≠ p.d
  others : ∀ ⦃α : Type⦄ (regs : ℤ → α) (r : ℤ), (∀ p ∈ tab₀, p.d ≠ r) → r ≠ scratch →
    run st.out regs r = regs r

section
variable {tab₀ tab : List Pair} {scratch d : ℤ} {st st' : Sched} {i : ℕ} {p : Pair}

lemma needed_eq_false (h : needed tab i d = false) {k : ℕ} {q : Pair}
    (hq : tab[k]? = some q) (hk : k ≠ i) (hp : q.pending) : q.s ≠ d := by
  unfold needed at h
  rw [any_eq_false] at h
  have hmem : (q, k) ∈ tab.zipIdx := List.mem_zipIdx_iff_getElem?.2 hq
  have hrow := h _ hmem
  simpa [hp, hk] using hrow

lemma needed_eq_true (h : needed tab i d = true) : ∃ (k : ℕ) (q : Pair), tab[k]? = some q ∧ k ≠ i ∧ q.pending ∧ q.s = d := by
  unfold needed at h
  rw [any_eq_true] at h
  obtain ⟨⟨q, k⟩, hmem, hrow⟩ := h
  simp only [Bool.and_eq_true, bne_iff_ne, beq_iff_eq] at hrow
  exact ⟨k, q, List.mem_zipIdx_iff_getElem?.1 hmem, hrow.1.2, hrow.1.1, hrow.2⟩

section
variable (h : st.Inv tab₀ scratch)
include h

lemma Sched.Inv.map_dst : st.tab.map Pair.d = tab₀.map Pair.d := by
  refine ext_getElem? fun k => ?_
  rw [getElem?_map, getElem?_map]
  cases hp : st.tab[k]? with
  | none => rw [getElem?_eq_none (by rw [← h.length]; exact List.getElem?_eq_none_iff.1 hp)]
  | some p =>
    have hlt : k < tab₀.length := h.length ▸ (List.getElem?_eq_some_iff.1 hp).1
    have hp0 := getElem?_eq_getElem hlt
    rw [hp0, Option.map_some, Option.map_some, h.dst hp0 hp]

lemma Sched.Inv.row (hp : st.tab[i]? = some p) : ∃ p0, tab₀[i]? = some p0 ∧ p.d = p0.d ∧ p.Holds st.out p0 := by
  have hlt : i < tab₀.length := h.length ▸ (List.getElem?_eq_some_iff.1 hp).1
  have hp0 := getElem?_eq_getElem hlt
  exact ⟨_, hp0, h.dst hp0 hp, h.holds hp0 hp⟩

lemma Sched.Inv.dst_ne (hnd : (tab₀.map Pair.d).Nodup) {k : ℕ} {q : Pair}
    (hp : st.tab[i]? = some p) (hq : st.tab[k]? = some q) (hk : k ≠ i) : q.d ≠ p.d := by
  intro he
  rw [← h.map_dst] at hnd
  have hp' : (st.tab.map Pair.d)[i]? = some p.d := by rw [getElem?_map, hp]; rfl
  have hq' : (st.tab.map Pair.d)[k]? = some p.d := by rw [getElem?_map, hq, ← he]; rfl
  have hlt := (List.getElem?_eq_some_iff.1 hq').1
  exact hk ((getElem?_inj hlt hnd).1 (hq'.trans hp'.symm))

lemma Sched.Inv.dst_ne_scratch (hscr : ∀ p ∈ tab₀, p.d ≠ scratch) (hp : p ∈ st.tab) : p.d ≠ scratch := by
  obtain ⟨i, hi⟩ := getElem?_of_mem hp
  obtain ⟨p0, hp0, hd, -⟩ := h.row hi
  exact hd ▸ hscr p0 (mem_of_getElem? hp0)

/-- A move whose target nobody needs can go out. -/
lemma Sched.Inv.emit (hnd : (tab₀.map Pair.d).Nodup)
    (hp : st.tab[i]? = some p) (hpend : p.pending) (hfree : needed st.tab i p.d = false) :
    Sched.Inv tab₀ scratch { tab := st.tab.set i { p with pending := false }
                             left := st.left - 1
                             out := st.out ++ [⟨p.d, p.s⟩] } where
  left := by
    obtain ⟨hi, rfl⟩ := List.getElem?_eq_some_iff.1 hp
    rw [h.left, countP_set hi]
    simp [hpend]
  length := by simp [h.length]
  dst := by
    intro k p0 q hp0 hq
    by_cases hk : k = i
    · subst hk
      rw [getElem?_set_self (List.getElem?_eq_some_iff.1 hp).1] at hq
      cases hq
      exact (h.dst hp0 hp : p.d = p0.d)
    · rw [getElem?_set_ne (Ne.symm hk)] at hq
      exact h.dst hp0 hq
  holds := by
    intro k p0 q hp0 hq α regs
    rw [run_concat]
    by_cases hk : k = i
    · subst hk
      rw [getElem?_set_self (List.getElem?_eq_some_iff.1 hp).1] at hq
      cases hq
      have hval := h.holds hp0 hp regs
      rw [if_pos hpend] at hval
      rw [if_neg Bool.false_ne_true, update_self, hval]
    · rw [getElem?_set_ne (Ne.symm hk)] at hq
      rw [← h.holds hp0 hq regs]
      refine update_of_ne ?_ _ _
      split_ifs with hqp
      · exact needed_eq_false hfree hq hk hqp
      · exact h.dst_ne hnd hp hq hk
  apart := by
    intro q hq hqp
    rcases mem_or_eq_of_mem_set hq with hq | rfl
    · exact h.apart q hq hqp
    · cases hqp
  others := by
    intro α regs r hr hrs
    obtain ⟨p0, hp0, hd, -⟩ := h.row hp
    have hne : r ≠ p.d := hd ▸ (hr p0 (mem_of_getElem? hp0)).symm
    rw [run_concat, update_of_ne hne, h.others regs r hr hrs]

/-- Copying a target to the scratch register, for those that still need it, keeps the moves'
meaning. -/
lemma Sched.Inv.lift (hscr : ∀ p ∈ tab₀, p.d ≠ scratch)
    (hfree : ∀ q ∈ st.tab, q.pending → q.s ≠ scratch) (d : ℤ) : Sched.Inv tab₀ scratch { st with
      tab := st.tab.map fun q => if q.pending && q.s == d then { q with s := scratch } else q
      out := st.out ++ [⟨scratch, d⟩] } := by
  have hget {k : ℕ} {q' : Pair}
      (hq' : (st.tab.map fun q => if q.pending && q.s == d then { q with s := scratch } else q)[k]? =
        some q') : ∃ q, st.tab[k]? = some q ∧ q'.d = q.d ∧ q'.pending = q.pending ∧
          (q'.s = q.s ∨ q.pending ∧ q.s = d ∧ q'.s = scratch) := by
    rw [getElem?_map] at hq'
    obtain ⟨q, hq, rfl⟩ := Option.map_eq_some_iff.1 hq'
    refine ⟨q, hq, ?_⟩
    split_ifs with hc
    · simp only [Bool.and_eq_true, beq_iff_eq] at hc
      exact ⟨rfl, rfl, .inr ⟨hc.1, hc.2, rfl⟩⟩
    · exact ⟨rfl, rfl, .inl rfl⟩
  refine ⟨?_, by simp [h.length], ?_, ?_, ?_, ?_⟩
  · rw [h.left, countP_map]
    refine countP_congr fun q _ => ?_
    simp only [comp_apply]
    split <;> rfl
  · intro k p0 q' hp0 hq'
    obtain ⟨q, hq, hd, -⟩ := hget hq'
    exact hd.trans (h.dst hp0 hq)
  · intro k p0 q' hp0 hq' α regs
    obtain ⟨q, hq, hd, hpend, hs⟩ := hget hq'
    have hval := h.holds hp0 hq regs
    have hmem := mem_of_getElem? hq
    rw [run_concat, hpend, hd, ← hval]
    rcases hs with hs | ⟨hqp, hqs, hs⟩
    · rw [hs]
      refine update_of_ne ?_ _ _
      split_ifs with hqp
      · exact hfree q hmem hqp
      · exact h.dst_ne_scratch hscr hmem
    · rw [if_pos hqp, if_pos hqp, hs, update_self, hqs]
  · intro q' hq' hq'p
    obtain ⟨k, hk⟩ := getElem?_of_mem hq'
    obtain ⟨q, hq, hd, hpend, hs⟩ := hget hk
    have hmem := mem_of_getElem? hq
    rcases hs with hs | ⟨-, -, hs⟩
    · rw [hs, hd]
      exact h.apart q hmem (hpend ▸ hq'p)
    · rw [hs, hd]
      exact (h.dst_ne_scratch hscr hmem).symm
  · intro α regs r hr hrs
    rw [run_concat, update_of_ne hrs, h.others regs r hr hrs]

lemma Sched.Inv.left_pos (hp : st.tab[i]? = some p) (hpend : p.pending) : 0 < st.left := by
  rw [h.left]
  exact List.countP_pos_iff.2 ⟨p, mem_of_getElem? hp, hpend⟩

end

/-! ## Passes over the table -/

section
variable (h : st.Inv tab₀ scratch) (hnd : (tab₀.map Pair.d).Nodup)
include h hnd

lemma emitAt_cases (max : ℕ) (b : Bool) (i : ℕ) : (emitAt max (st, b) i = none ∧ max < st.out.length + st.left) ∨
    (emitAt max (st, b) i = some (st, b) ∧ ∀ p, st.tab[i]? = some p → p.pending → needed st.tab i p.d) ∨
    ∃ st', emitAt max (st, b) i = some (st', true) ∧ st'.Inv tab₀ scratch ∧ st'.left < st.left ∧
      st'.out.length + st'.left = st.out.length + st.left := by
  unfold emitAt
  cases hp : st.tab[i]? with
  | none => exact .inr (.inl ⟨rfl, by simp⟩)
  | some p =>
    dsimp only
    by_cases hc : (!p.pending || needed st.tab i p.d) = true
    · refine .inr (.inl ⟨if_pos hc, ?_⟩)
      rintro q ⟨⟩ hpend
      simpa [hpend] using hc
    · simp only [Bool.not_eq_true, Bool.or_eq_false_iff, Bool.not_eq_eq_eq_not] at hc
      obtain ⟨hpend, hfree⟩ := hc
      have hpos := h.left_pos hp hpend
      rw [if_neg (by simp [hpend, hfree])]
      by_cases hmax : st.out.length ≥ max
      · exact .inl ⟨if_pos hmax, by omega⟩
      · refine .inr (.inr ⟨_, if_neg hmax, h.emit hnd hp hpend hfree, by simpa using hpos, ?_⟩)
        simp only [length_append, length_singleton]
        omega

/-- A pass over the table sends something out, or every pending target is needed. -/
lemma emitFold_cases (max : ℕ) (b : Bool) (is : List ℕ) : (is.foldlM (emitAt max) (st, b) = none
    ∧ max < st.out.length + st.left) ∨ (is.foldlM (emitAt max) (st, b) = some (st, b) ∧ ∀ i ∈ is, ∀ p, st.tab[i]? = some p →
    p.pending → needed st.tab i p.d) ∨ ∃ st', is.foldlM (emitAt max) (st, b) = some (st', true) ∧ st'.Inv tab₀ scratch
    ∧ st'.left < st.left ∧ st'.out.length + st'.left = st.out.length + st.left := by
  induction is generalizing st b with
  | nil => exact .inr (.inl ⟨rfl, by simp⟩)
  | cons i is ih =>
    rw [foldlM_cons]
    rcases emitAt_cases h hnd max b i with
      ⟨he, hmax⟩ | ⟨he, hi⟩ | ⟨st', he, h', hlt, hsum⟩
    · rw [he]
      exact .inl ⟨rfl, hmax⟩
    · rw [he]
      rcases ih h b with hnone | ⟨hsame, his⟩ | hsome
      · exact .inl hnone
      · refine .inr (.inl ⟨hsame, fun k hk => ?_⟩)
        rcases List.mem_cons.1 hk with rfl | hk
        · exact hi
        · exact his k hk
      · exact .inr (.inr hsome)
    · rw [he]
      rcases ih h' true with ⟨hnone, hmax⟩ | ⟨hsame, -⟩ | ⟨st'', hsome, h'', hlt', hsum'⟩
      · exact .inl ⟨hnone, by omega⟩
      · exact .inr (.inr ⟨st', hsame, h', hlt, hsum⟩)
      · exact .inr (.inr ⟨st'', hsome, h'', by omega, by omega⟩)

/-- When every pending target is needed, nobody reads the scratch register. -/
lemma Sched.Inv.scratch_free (hscr : ∀ p ∈ tab₀, p.d ≠ scratch) (hall : ∀ i p, st.tab[i]? = some p → p.pending →
    needed st.tab i p.d) : ∀ q ∈ st.tab, q.pending → q.s ≠ scratch := by
  let ms : List (Move ℤ) := (st.tab.filter (·.pending)).map fun p => ⟨p.d, p.s⟩
  have hmem {m : Move ℤ} (hm : m ∈ ms) : ∃ p ∈ st.tab, p.pending ∧ p.d = m.dst ∧ p.s = m.src := by
    obtain ⟨p, hp, rfl⟩ := mem_map.1 hm
    exact ⟨p, (mem_filter.1 hp).1, (mem_filter.1 hp).2, rfl, rfl⟩
  have hms {q : Pair} hq hqp : (⟨q.d, q.s⟩ : Move ℤ) ∈ ms :=
    mem_map.2 ⟨q, mem_filter.2 ⟨hq, hqp⟩, rfl⟩
  have hdst : (ms.map Move.dst).Nodup := by
    rw [← h.map_dst] at hnd
    rw [map_map]
    exact ((filter_sublist).map Pair.d).nodup hnd
  have hread : ∀ m ∈ ms, m.dst ∈ ms.map Move.src := by
    intro m hm
    obtain ⟨p, hp, hpend, hd, -⟩ := hmem hm
    obtain ⟨i, hi⟩ := getElem?_of_mem hp
    obtain ⟨k, q, hq, -, hqp, hqs⟩ := needed_eq_true (hall i p hi hpend)
    exact mem_map.2 ⟨_, hms (mem_of_getElem? hq) hqp, hqs.trans hd⟩
  intro q hq hqp
  obtain ⟨m, hm, hmd⟩ := mem_map.1 (mem_dst_of_all_read hdst hread _ (hms hq hqp))
  obtain ⟨p, hp, -, hd, -⟩ := hmem hm
  have hqd : p.d = q.s := hd.trans hmd
  exact hqd ▸ h.dst_ne_scratch hscr hp

end

/-- Breaking a cycle takes one move and leaves as many pending. -/
lemma breakCycle_cases (h : st.Inv tab₀ scratch) (hscr : ∀ p ∈ tab₀, p.d ≠ scratch) (max : ℕ)
    (hfree : ∀ q ∈ st.tab, q.pending → q.s ≠ scratch) (hleft : 0 < st.left) :
    (breakCycle scratch max st = none ∧ max < st.out.length + st.left) ∨ ∃ st', breakCycle scratch max st = some st'
    ∧ st'.Inv tab₀ scratch ∧ st'.left = st.left ∧ st'.out.length = st.out.length + 1 ∧ ∃ i p, st'.tab[i]? = some p ∧ p.pending
    ∧ needed st'.tab i p.d = false := by
  unfold breakCycle
  cases hfind : st.tab.find? (·.pending) with
  | none =>
    rw [h.left, countP_pos_iff] at hleft
    obtain ⟨p, hp, hpend⟩ := hleft
    exact absurd hpend (List.find?_eq_none.1 hfind p hp)
  | some p =>
    have hpend : p.pending := find?_some hfind
    have hp := mem_of_find?_eq_some hfind
    by_cases hmax : st.out.length ≥ max
    · exact .inl ⟨if_pos hmax, by omega⟩
    · refine .inr ⟨_, if_neg hmax, h.lift hscr hfree p.d, rfl, by simp, ?_⟩
      obtain ⟨i, hi⟩ := getElem?_of_mem hp
      refine ⟨i, p, ?_, hpend, ?_⟩
      · rw [getElem?_map, hi, Option.map_some, if_neg]
        simpa [hpend] using h.apart p hp hpend
      · -- whoever read `p.d` reads the scratch register now
        rw [← Bool.not_eq_true]
        intro hneeded
        obtain ⟨k, q', hq', -, hqp, hqs⟩ := needed_eq_true hneeded
        rw [getElem?_map] at hq'
        obtain ⟨q, -, rfl⟩ := Option.map_eq_some_iff.1 hq'
        split at hqs
        · exact h.dst_ne_scratch hscr hp hqs.symm
        · rename_i hne
          rw [if_neg hne] at hqp
          exact hne (by rw [hqp, hqs]; simp)

/-- The schedule ends with every move made, in two moves for each at most, or the table is too
short. -/
lemma schedule_spec (hnd : (tab₀.map Pair.d).Nodup) (hscr : ∀ p ∈ tab₀, p.d ≠ scratch) (max fuel m e : ℕ)
    (h : st.Inv tab₀ scratch) (he : e = 0 ∨ e = 1 ∧ ∃ i p, st.tab[i]? = some p ∧ p.pending ∧ needed st.tab i p.d = false)
    (hfuel : 2 * st.left ≤ fuel + e) (hout : st.out.length + 2 * st.left ≤ 2 * m + e) :
    (schedule scratch max fuel st = some none ∧ max < 2 * m) ∨ ∃ st' : Sched,
    schedule scratch max fuel st = some (some st'.out) ∧ st'.Inv tab₀ scratch ∧ st'.left = 0 := by
  induction fuel generalizing st e with
  | zero =>
    have h0 : st.left = 0 := by omega
    exact .inr ⟨st, by rw [schedule, if_pos h0], h, h0⟩
  | succ fuel ih =>
    by_cases h0 : st.left = 0
    · exact .inr ⟨st, by rw [schedule, if_pos h0], h, h0⟩
    · rw [schedule, if_neg h0, emitPass]
      rcases emitFold_cases h hnd max false (range st.tab.length) with
        ⟨hpass, hmax⟩ | ⟨hpass, hall⟩ | ⟨st', hpass, h', hlt, hsum⟩
      · rw [hpass]
        exact .inl ⟨rfl, by omega⟩
      · replace hall := fun i p (hp : st.tab[i]? = some p) =>
          hall i (List.mem_range.2 (List.getElem?_eq_some_iff.1 hp).1) p hp
        have he0 : e = 0 := by
          rcases he with rfl | ⟨-, i, p, hp, hpend, hn⟩
          · rfl
          · rw [hall i p hp hpend] at hn
            cases hn
        rw [hpass]
        dsimp only
        rcases breakCycle_cases h hscr max (h.scratch_free hnd hscr hall) (by omega) with
          ⟨hbr, hmax⟩ | ⟨st', hbr, h', hleft, hlen, hsafe⟩
        · rw [hbr]
          exact .inl ⟨rfl, by omega⟩
        · rw [hbr]
          exact ih 1 h' (.inr ⟨rfl, hsafe⟩) (by omega) (by omega)
      · rw [hpass]
        exact ih 0 h' (.inl rfl) (by omega) (by omega)

end

/-- The table as collected: nothing has gone out. -/
lemma inv_start (ms : List (Move ℤ)) (hms : ∀ m ∈ ms, m.dst ≠ m.src) (scratch : ℤ) :
    Sched.Inv (ms.map toPair) scratch ⟨ms.map toPair, (ms.map toPair).length, []⟩ where
  left := by
    rw [eq_comm, countP_eq_length]
    intro p hp
    obtain ⟨m, -, rfl⟩ := mem_map.1 hp
    rfl
  length := rfl
  dst := by
    intro i p0 p hp0 hp
    rw [Option.mem_unique hp0 hp]
  holds := by
    intro i p0 p hp0 hp α regs
    obtain rfl := Option.mem_unique hp0 hp
    obtain ⟨m, -, rfl⟩ := mem_map.1 (mem_of_getElem? hp)
    rfl
  apart := by
    intro p hp _
    obtain ⟨m, hm, rfl⟩ := mem_map.1 hp
    exact (hms m hm).symm
  others := fun _ _ _ _ _ => rfl

/-! ## The moves as a whole -/

lemma mem_proper {m : Move ℤ} : m ∈ proper moves ↔ m ∈ moves ∧ m.dst ≠ m.src := by simp [proper]

lemma schedule_proper {scratch : ℤ} (hd : ((proper moves).map Move.dst).Nodup) (hscr : ∀ m ∈ proper moves, m.dst ≠ scratch)
    {fuel : ℕ} (hfuel : 2 * (proper moves).length ≤ fuel) (max : ℕ) : (schedule scratch max fuel
    ⟨(proper moves).map toPair, ((proper moves).map toPair).length, []⟩ = some none ∧ max < 2 * (proper moves).length)
    ∨ ∃ out, schedule scratch max fuel ⟨(proper moves).map toPair, ((proper moves).map toPair).length, []⟩ = some (some out)
    ∧ Realizes (proper moves) out (· = scratch) := by
  have hnd : (((proper moves).map toPair).map Pair.d).Nodup := by rwa [map_map]
  have hpair : ∀ p ∈ (proper moves).map toPair, p.d ≠ scratch := by
    intro p hp
    obtain ⟨m, hm, rfl⟩ := mem_map.1 hp
    exact hscr m hm
  have hstart := inv_start (proper moves) (fun m hm => (mem_proper.1 hm).2) scratch
  rcases schedule_spec hnd hpair max fuel (proper moves).length 0 hstart (.inl rfl)
    (by simpa using hfuel) (by simp) with hnone | ⟨st, hst, hinv, hleft⟩
  · exact .inl hnone
  · refine .inr ⟨st.out, hst, fun α regs => ⟨fun m hm => ?_, fun r hr hrs => ?_⟩⟩
    · obtain ⟨i, hi⟩ := getElem?_of_mem hm
      have hp0 : ((proper moves).map toPair)[i]? = some (toPair m) := by rw [getElem?_map, hi]; rfl
      have hlt : i < st.tab.length := hinv.length ▸ (List.getElem?_eq_some_iff.1 hp0).1
      have hp := getElem?_eq_getElem hlt
      have hdone : ¬ st.tab[i].pending = true := fun hpend => by
        have := hinv.left_pos hp hpend
        omega
      have hval := hinv.holds hp0 hp regs
      rw [if_neg hdone, hinv.dst hp0 hp] at hval
      exact hval
    · refine hinv.others regs r (fun p hp => ?_) hrs
      obtain ⟨m, hm, rfl⟩ := mem_map.1 hp
      exact hr m hm

/-- `ra_parallel_move` with different destinations, none of them the scratch register: it ends, and
unless there is no room for twice as many moves as it was given, it puts out moves that do what
the given ones do all at once, and change nothing else but the scratch register. -/
theorem raParallelMove_correct {moves : List (Move ℤ)} {scratch : ℤ} (hn : moves.length ≤ 2 * raMaxpool)
    (hd : (moves.map Move.dst).Nodup) (hscr : ∀ m ∈ moves, m.dst ≠ scratch) {fuel : ℕ}
    (hfuel : 2 * moves.length ≤ fuel) (max : ℕ) :
    (raParallelMove fuel moves scratch max = some none ∧ max < 2 * moves.length) ∨
    ∃ out, raParallelMove fuel moves scratch max = some (some out) ∧
      Realizes moves out (· = scratch) := by
  have hsub : (proper moves).Sublist moves := filter_sublist
  have hpd : ((proper moves).map Move.dst).Nodup := (hsub.map Move.dst).nodup hd
  have hlen := hsub.length_le
  have hrun : raParallelMove fuel moves scratch max = schedule scratch max fuel
      ⟨(proper moves).map toPair, ((proper moves).map toPair).length, []⟩ := by
    rw [raParallelMove, if_neg (by omega), collect_eq, if_pos hpd]
  rw [hrun]
  rcases schedule_proper hpd (fun m hm => hscr m (mem_proper.1 hm).1) (show 2 * (proper moves).length ≤ fuel by omega) max with
    ⟨hnone, hmax⟩ | ⟨out, hout, hreal⟩
  · exact .inl ⟨hnone, by omega⟩
  · refine .inr ⟨out, hout, fun α regs => ⟨fun m hm => ?_, fun r hr => ?_⟩⟩
    · by_cases hid : m.dst = m.src
      · -- a move in place: no other move has its destination
        rw [← hid]
        refine (hreal regs).2 m.dst (fun n hn hnm => ?_) (hscr m hm)
        obtain ⟨hn', hne⟩ := mem_proper.1 hn
        obtain rfl := inj_on_of_nodup_map hd hn' hm hnm
        exact hne hid
      · exact (hreal regs).1 m (mem_proper.2 ⟨hm, hid⟩)
    · exact (hreal regs).2 r fun m hm => hr m (mem_proper.1 hm).1

/-- Two swaps and a chain. -/
theorem raParallelMove_correct_swaps :
    (raParallelMove 10 [⟨0, 1⟩, ⟨1, 0⟩, ⟨2, 3⟩, ⟨3, 2⟩, ⟨4, 0⟩] 9 10 = some none ∧ 10 < 2 * 5) ∨
    ∃ out, raParallelMove 10 [⟨0, 1⟩, ⟨1, 0⟩, ⟨2, 3⟩, ⟨3, 2⟩, ⟨4, 0⟩] 9 10 = some (some out) ∧
      Realizes [⟨0, 1⟩, ⟨1, 0⟩, ⟨2, 3⟩, ⟨3, 2⟩, ⟨4, 0⟩] out (· = 9) :=
  raParallelMove_correct (by decide) (by decide) (by decide) (by decide) 10

/-- The lists that are refused, whatever the scratch register and the room: those that are too long, and those
in which two moves that are not in place already have one destination. -/
theorem raParallelMove_rejects_iff (moves : List (Move ℤ)) :
    (∀ fuel scratch max, raParallelMove fuel moves scratch max = some none) ↔
      moves.length > 2 * raMaxpool ∨ ¬ ((proper moves).map Move.dst).Nodup := by
  constructor
  · intro h
    by_contra hc
    rw [not_or, not_not] at hc
    obtain ⟨hn, hd⟩ := hc
    obtain ⟨scratch, hscr⟩ := Infinite.exists_notMem_finset ((proper moves).map Move.dst).toFinset
    rw [mem_toFinset] at hscr
    have hrun := h (2 * (proper moves).length) scratch (2 * (proper moves).length)
    rw [raParallelMove, if_neg hn, collect_eq, if_pos hd] at hrun
    have hfree : ∀ m ∈ proper moves, m.dst ≠ scratch :=
      fun m hm he => hscr (he ▸ mem_map_of_mem hm)
    rcases schedule_proper hd hfree le_rfl (2 * (proper moves).length) with ⟨-, hmax⟩ | ⟨out, hout, -⟩
    · omega
    · cases hout.symm.trans hrun
  · intro h fuel scratch max
    rcases h with hn | hd
    · rw [raParallelMove, if_pos hn]
    · rw [raParallelMove, collect_eq, if_neg hd, ite_self]

/-- The destination is named twice with different sources, and the call succeeds: the entry in place is
dropped before the test. -/
theorem raParallelMove_accepts_conflict :
    (∃ m ∈ [(⟨1, 1⟩ : Move ℤ), ⟨1, 2⟩], ∃ n ∈ [(⟨1, 1⟩ : Move ℤ), ⟨1, 2⟩], m.dst = n.dst ∧ m.src ≠ n.src) ∧
      raParallelMove 4 [⟨1, 1⟩, ⟨1, 2⟩] 9 4 = some (some [⟨1, 2⟩]) := by
  decide

end EmbCC.Arch
