import EmbCC.Ir.Rename
import EmbCC.Lib.Chase
import EmbCC.Opt.Defs

/-!
# Copy propagation

`copyprop_by_move` rewrites the reads of one move's destination after the other, each move
as the ones before it have left it. `pass_copyprop` resolves the chains of moves first and
rewrites every read once. Each is a walk to the end of a chain: the rule has followed the
moves it has met so far (`byMove_run`), the pass all of them (`resolveAll_spec`), so they make
the same function (`passCopyprop_eq_byMove`).
-/

namespace EmbCC.Opt.Copyprop

open List Ir Chase Function Prod

/-! ## The two versions of the pass -/

/-- The move that is propagated: both ends have one definition. -/
def eligible (d : Defs) (i : Ins) : Bool :=
  decide (i.op = .mov ∧ 0 ≤ i.a ∧ 0 ≤ i.dst ∧ i.a ≠ i.dst ∧ d.cnt i.a = 1 ∧ d.cnt i.dst = 1)

def replCb (old new v : ℤ) : ℤ := if v = old then new else v

/-- One turn of `copyprop_by_move`: the code and whether a read was rewritten. -/
def byMoveTurn (d : Defs) (st : List Ins × Bool) (n : ℕ) : List Ins × Bool :=
  match st.1[n]? with
  | none => st
  | some i =>
    if eligible d i then
      (st.1.map (mapReads (replCb i.dst i.a)), st.2 || st.1.any fun j => decide (i.dst ∈ eachRead j))
    else st

def copypropByMove (fn : Func) (d : Defs) : Func × Bool :=
  let st := (range fn.ins.length).foldl (byMoveTurn d) (fn.ins, false)
  ({ fn with ins := st.1 }, st.2)

/-- `src` and `pos`: the move of a register and where it is, of those in a list of moves. -/
def sources (d : Defs) (moves : List (Ins × ℕ)) : ℤ → Option (ℤ × ℕ) :=
  moves.foldl (fun src p => if eligible d p.1 then update src p.1.dst (some (p.1.a, p.2)) else src)
    fun _ => none

/-- `root`, `nrw` and `state`. -/
structure Roots where
  root : ℤ → ℤ := fun _ => -1
  nrw : ℤ → ℕ := fun _ => 0
  state : ℤ → ℕ := fun _ => 0

section
variable (src : ℤ → Option (ℤ × ℕ))

/-- Up the chain, as far as it was not seen. -/
def climb : ℕ → (ℤ → ℕ) → List ℤ → ℤ → (ℤ → ℕ) × List ℤ × ℤ
  | 0, state, stk, u => (state, stk, u)
  | fuel + 1, state, stk, u =>
    match src u with
    | none => (state, stk, u)
    | some (a, _) =>
      if state u = 0 then climb fuel (update state u 1) (u :: stk) a else (state, stk, u)

/-- A register of the stack is resolved to `r`. -/
def settle (r : ℤ) (m : Roots) (w : ℤ) : Roots :=
  match src w with
  | none => m
  | some (s, pos) =>
    let (below, later) := match src s with
      | none => (0, true)
      | some (_, pos') => (m.nrw s, decide (pos < pos'))
    { root := update m.root w r
      nrw := update m.nrw w (below + later.toNat)
      state := update m.state w 2 }

/-- One turn of the walk; `none` when the chain is a cycle. -/
def resolve (nv : ℕ) (m : Roots) (v : ℕ) : Option Roots :=
  if src v = none ∨ m.state v = 2 then some m
  else
    let (state, stk, u) := climb src nv m.state [] v
    if (src u).isSome ∧ state u = 1 then none
    else
      let r := if src u = none then u else m.root u
      some (stk.foldl (settle src r) { m with state := state })

/-- The walk over all registers. -/
def resolveAll (nv : ℕ) : Option Roots := (range nv).foldlM (resolve src nv) {}

def cpmapCb (nv : ℕ) (root : ℤ → ℤ) (v : ℤ) : ℤ :=
  if 0 ≤ v ∧ v < nv ∧ 0 ≤ root v then root v else v

end

def passCopyprop (fn : Func) : Func × Bool :=
  let d := computeDefs fn
  let src := sources d fn.ins.zipIdx
  if fn.ins.any (eligible d) then
    match resolveAll src fn.nvregs with
    | none => copypropByMove fn d
    | some m =>
      let root := fun v => if src v = none then -1 else m.root v
      let n := ((fn.ins.flatMap eachRead).map fun v : ℤ =>
        if 0 ≤ v ∧ v < fn.nvregs ∧ 0 ≤ root v then m.nrw v else 0).sum
      ({ fn with ins := fn.ins.map (mapReads (cpmapCb fn.nvregs root)) }, decide (0 < n))
  else (fn, false)

/-! ## Copies as a graph -/

/-- Where a register's move leads. -/
def leads (src : ℤ → Option (ℤ × ℕ)) (v : ℤ) : Option ℤ := (src v).map fst

/-- Where the moves of a list lead. -/
def arrows (d : Defs) (moves : List (Ins × ℕ)) : ℤ → Option ℤ := leads (sources d moves)

section
variable {fn : Func} {d : Defs} {i : Ins} {v w : ℤ} {n : ℕ}

lemma eligible_iff : eligible d i ↔ i.op = .mov ∧ 0 ≤ i.a ∧ 0 ≤ i.dst ∧ i.a ≠ i.dst ∧ d.cnt i.a = 1 ∧ d.cnt i.dst = 1 := by
  simp [eligible]

lemma sources_append (d : Defs) (moves : List (Ins × ℕ)) (p : Ins × ℕ) : sources d (moves ++ [p]) = if eligible d p.1 then
      update (sources d moves) p.1.dst (some (p.1.a, p.2)) else sources d moves := by
  rw [sources, foldl_append]
  rfl

lemma arrows_append (d : Defs) (moves : List (Ins × ℕ)) (p : Ins × ℕ) : arrows d (moves ++ [p]) = if eligible d p.1 then
      update (arrows d moves) p.1.dst (some p.1.a) else arrows d moves := by
  funext v
  rw [arrows, leads, sources_append]
  split
  · by_cases hv : v = p.1.dst
    · rw [hv, update_self, update_self]
      rfl
    · rw [update_of_ne hv, update_of_ne hv]
      rfl
  · rfl

variable {moves : List (Ins × ℕ)}

lemma exists_of_sources {p : ℤ × ℕ} (h : sources d moves v = some p) :
    ∃ i, (i, p.2) ∈ moves ∧ eligible d i ∧ i.dst = v ∧ i.a = p.1 := by
  induction moves using reverseRecOn with
  | nil => cases h
  | append_singleton moves q ih =>
    rw [sources_append] at h
    split_ifs at h with he
    · by_cases hv : v = q.1.dst
      · rw [hv, update_self] at h
        cases h
        exact ⟨q.1, by simp, he, hv.symm, rfl⟩
      · rw [update_of_ne hv] at h
        obtain ⟨i, hi, h⟩ := ih h
        exact ⟨i, mem_append_left _ hi, h⟩
    · obtain ⟨i, hi, h⟩ := ih h
      exact ⟨i, mem_append_left _ hi, h⟩

lemma exists_of_arrows (h : arrows d moves v = some w) : ∃ i n, (i, n) ∈ moves ∧ eligible d i ∧ i.dst = v ∧ i.a = w := by
  obtain ⟨p, hp, rfl⟩ := Option.map_eq_some_iff.1 h
  obtain ⟨i, hi, h⟩ := exists_of_sources hp
  exact ⟨i, p.2, hi, h⟩

lemma cnt_of_arrows (h : arrows d moves v = some w) : (0 ≤ v ∧ d.cnt v = 1) ∧ 0 ≤ w ∧ d.cnt w = 1 := by
  obtain ⟨i, n, -, he, rfl, rfl⟩ := exists_of_arrows h
  obtain ⟨-, ha, hd, -, hca, hcd⟩ := eligible_iff.1 he
  exact ⟨⟨hd, hcd⟩, ha, hca⟩

lemma cnt_of_ends (h : Ends (arrows d moves) v w) : w = v ∨ (0 ≤ v ∧ d.cnt v = 1) ∧ 0 ≤ w ∧ d.cnt w = 1 := by
  induction h with
  | stop => exact .inl rfl
  | step hv _ ih =>
    obtain ⟨h1, h2⟩ := cnt_of_arrows hv
    rcases ih with rfl | ⟨-, h3⟩
    · exact .inr ⟨h1, h2⟩
    · exact .inr ⟨h1, h3⟩

lemma mem_countedDefs_of_eligible (fn : Func) (h : eligible d i) : i.dst ∈ countedDefs fn i := by
  obtain ⟨hop, -, hdst, -⟩ := eligible_iff.1 h
  simp [countedDefs, hop, defTarget, writesTemp, hdst]

end

/-- A move of the function copies the second register to the first. -/
def Copies (fn : Func) (v w : ℤ) : Prop :=
  ∃ i ∈ fn.ins, eligible (computeDefs fn) i ∧ i.dst = v ∧ i.a = w

/-- No chain of moves comes back to where it started. -/
def Acyclic (fn : Func) : Prop := ∀ v, ¬ Relation.TransGen (Copies fn) v v

section
variable {fn : Func} {i : Ins} {n : ℕ} {v : ℤ}

/-- Where the moves before instruction `n` lead. -/
def arrowsAt (fn : Func) (n : ℕ) : ℤ → Option ℤ := arrows (computeDefs fn) (fn.ins.zipIdx.take n)

lemma arrowsAt_succ (hi : fn.ins[n]? = some i) : arrowsAt fn (n + 1) = if eligible (computeDefs fn) i then
      update (arrowsAt fn n) i.dst (some i.a) else arrowsAt fn n := by
  have hz : fn.ins.zipIdx[n]? = some (i, n) := by simp [hi]
  rw [arrowsAt, take_add_one, hz]
  exact arrows_append _ _ (i, n)

lemma getElem_of_mem_take {m : ℕ} (h : (i, m) ∈ fn.ins.zipIdx.take n) : m < n ∧ fn.ins[m]? = some i := by
  obtain ⟨k, hk⟩ := getElem?_of_mem h
  rw [getElem?_take] at hk
  split at hk
  · rename_i hkn
    rw [getElem?_zipIdx] at hk
    obtain ⟨j, hj, hp⟩ := Option.map_eq_some_iff.1 hk
    obtain ⟨rfl, rfl⟩ := mk.inj hp
    exact ⟨by omega, by simpa using hj⟩
  · cases hk

lemma copies_of_arrowsAt {w : ℤ} (h : arrowsAt fn n v = some w) : Copies fn v w := by
  obtain ⟨i, m, hm, he, hv, hw⟩ := exists_of_arrows h
  exact ⟨i, mem_of_getElem? (getElem_of_mem_take hm).2, he, hv, hw⟩

lemma arrowsAt_dst (hi : fn.ins[n]? = some i) (he : eligible (computeDefs fn) i) : arrowsAt fn n i.dst = none := by
  by_contra hne
  obtain ⟨w, hw⟩ := Option.ne_none_iff_exists'.1 hne
  obtain ⟨j, m, hm, hej, hdst, -⟩ := exists_of_arrows hw
  obtain ⟨hlt, hj⟩ := getElem_of_mem_take hm
  exact hlt.ne ((only_of_cnt (eligible_iff.1 he).2.2.2.2.2 hi (mem_countedDefs_of_eligible fn he)).2 m
    j hj (hdst ▸ mem_countedDefs_of_eligible fn hej))

variable {f : ℤ → ℤ}

lemma eligible_mapReads (hac : Acyclic fn) (hi : fn.ins[n]? = some i) (hf : ∀ v, Ends (arrowsAt fn n) v (f v)) :
    eligible (computeDefs fn) (mapReads f i) = eligible (computeDefs fn) i := by
  rw [Bool.eq_iff_iff, eligible_iff, eligible_iff, mapReads_op, mapReads_dst]
  refine and_congr_right fun hop => ?_
  have ha : (mapReads f i).a = f i.a := by simp [mapReads, hop, Op.reads]
  rw [ha]
  have hends := hf i.a
  rcases cnt_of_ends hends with heq | ⟨⟨h0, hcnt⟩, h0', hcnt'⟩
  · rw [heq]
  · simp only [h0, h0', hcnt, hcnt', true_and]
    refine and_congr_right fun hdst => ?_
    rw [and_congr_left_iff]
    intro hcd
    refine ⟨fun hne heq => ?_, fun hne heq => ?_⟩
    · by_cases hstop : arrowsAt fn n i.a = none
      · exact hne ((hends.unique (.stop hstop)).trans heq)
      · obtain ⟨w, hw⟩ := Option.ne_none_iff_exists'.1 hstop
        obtain ⟨j, m, hm, hej, hjd, -⟩ := exists_of_arrows hw
        obtain ⟨hlt, hj⟩ := getElem_of_mem_take hm
        have hmem : i.dst ∈ countedDefs fn i := by
          simp [countedDefs, hop, defTarget, writesTemp, hdst]
        have := (only_of_cnt hcd hi hmem).2 m j hj (heq ▸ hjd ▸ mem_countedDefs_of_eligible fn hej)
        omega
    · have he : eligible (computeDefs fn) i := eligible_iff.2 ⟨hop, h0, hdst, hne, hcnt, hcd⟩
      refine hac i.dst (.head' ⟨i, mem_of_getElem? hi, he, rfl, rfl⟩ ?_)
      rw [heq] at hends
      exact Relation.ReflTransGen.mono (fun _ _ h => copies_of_arrowsAt h) _ _ hends.reflTransGen

lemma nonneg_of_ends (hf : ∀ v, Ends (arrowsAt fn n) v (f v)) (v : ℤ) (h0 : 0 ≤ v) : 0 ≤ f v := by
  rcases cnt_of_ends (hf v) with h | ⟨-, h, -⟩
  · rwa [h]
  · exact h

/-! ## One move at a time -/

/-- The code that the rule has made before its turn `n`: every read has followed the moves that
were met, and a read that had one to follow was rewritten. -/
structure Followed (fn : Func) (n : ℕ) (st : List Ins × Bool) (f : ℤ → ℤ) : Prop where
  ends : ∀ v, Ends (arrowsAt fn n) v (f v)
  code : st.1 = fn.ins.map (mapReads f)
  changed : st.2 = true ↔ ∃ j ∈ fn.ins, ∃ v ∈ eachRead j, arrowsAt fn n v ≠ none

/-- One turn of the pass follows one more copy. -/
lemma followed_turn (hac : Acyclic fn) (hi : fn.ins[n]? = some i) {st : List Ins × Bool}
    (h : Followed fn n st f) : ∃ f', Followed fn (n + 1) (byMoveTurn (computeDefs fn) st n) f' := by
  have hget : st.1[n]? = some (mapReads f i) := by rw [h.code, getElem?_map, hi]; rfl
  have hel := eligible_mapReads hac hi h.ends
  have harr := arrowsAt_succ hi
  unfold byMoveTurn
  rw [hget]
  dsimp only
  rw [hel]
  split_ifs with he
  · rw [if_pos he] at harr
    have hop := (eligible_iff.1 he).1
    have ha : (mapReads f i).a = f i.a := by simp [mapReads, hop, Op.reads]
    have hnone := arrowsAt_dst hi he
    have hne : f i.a ≠ i.dst := by
      have := (eligible_iff.1 (hel.trans he)).2.2.2.1
      rwa [ha, mapReads_dst] at this
    rw [mapReads_dst, ha]
    refine ⟨fun v => replCb i.dst (f i.a) (f v), fun v => ?_, ?_, ?_⟩
    · rw [harr, replCb]
      split_ifs with hv
      · exact (hv ▸ h.ends v).update_of_eq hnone (h.ends i.a) hne
      · exact (h.ends v).update_of_ne hnone hv
    · rw [h.code, List.map_map]
      refine map_congr_left fun j _ => ?_
      exact mapReads_mapReads (nonneg_of_ends h.ends) _ j
    · have hread : ∀ v, f v = i.dst → v = i.dst ∨ arrowsAt fn n v ≠ none := by
        intro v hv
        by_cases hstop : arrowsAt fn n v = none
        · exact .inl ((Ends.stop hstop).unique (hv ▸ h.ends v))
        · exact .inr hstop
      have hnew : ∀ v, arrowsAt fn (n + 1) v ≠ none ↔ v = i.dst ∨ arrowsAt fn n v ≠ none := by
        intro v
        rw [harr]
        by_cases hv : v = i.dst
        · simp [hv]
        · simp [hv]
      simp only [Bool.or_eq_true, h.changed, h.code, any_map, any_eq_true, comp_apply, decide_eq_true_eq, eachRead_mapReads
        (nonneg_of_ends h.ends), mem_map, hnew]
      constructor
      · rintro (⟨j, hj, v, hv, hm⟩ | ⟨j, hj, v, hv, hm⟩)
        · exact ⟨j, hj, v, hv, .inr hm⟩
        · exact ⟨j, hj, v, hv, hread v hm⟩
      · rintro ⟨j, hj, v, hv, rfl | hm⟩
        · exact .inr ⟨j, hj, i.dst, hv, (h.ends i.dst).unique (.stop hnone)⟩
        · exact .inl ⟨j, hj, v, hv, hm⟩
  · rw [if_neg he] at harr
    exact ⟨f, by rw [harr]; exact h.ends, h.code, by rw [harr]; exact h.changed⟩

lemma followed_run (hac : Acyclic fn) (hn : n ≤ fn.ins.length) :
    ∃ f, Followed fn n ((range n).foldl (byMoveTurn (computeDefs fn)) (fn.ins, false)) f := by
  induction n with
  | zero =>
    have hnone : ∀ v, arrowsAt fn 0 v = none := fun _ => rfl
    refine ⟨fun v => v, fun v => .stop (hnone v), ?_, by simp [hnone]⟩
    have hid : mapReads (fun v => v) = id := funext mapReads_id
    simp [hid]
  | succ n ih =>
    obtain ⟨f, hf⟩ := ih (by omega)
    rw [range_succ, foldl_append]
    exact followed_turn hac (getElem?_eq_getElem hn) hf

end

section
variable {src : ℤ → Option (ℤ × ℕ)} {nv fuel : ℕ} {st : ℤ → ℕ} {stk : List ℤ} {m : Roots} {u r : ℤ}

lemma leads_eq_none : leads src u = none ↔ src u = none := by simp [leads]

/-! ## The map of roots -/

/-- The registers that were not seen yet. -/
def unseen (nv : ℕ) (st : ℤ → ℕ) : Finset ℕ := (Finset.range nv).filter fun v => st v = 0

lemma card_unseen_update (hu : 0 ≤ u ∧ u < nv) (hst : st u = 0) :
    (unseen nv (update st u 1)).card < (unseen nv st).card := by
  refine Finset.card_lt_card (Finset.ssubset_iff_of_subset ?_ |>.2 ⟨u.toNat, ?_, ?_⟩)
  · intro v hv
    simp only [unseen, Finset.mem_filter] at hv ⊢
    refine ⟨hv.1, ?_⟩
    by_cases hvu : v = u
    · rw [hvu, hst]
    · simpa [hvu] using hv.2
  · simp only [unseen, Finset.mem_filter, Finset.mem_range, Int.toNat_of_nonneg hu.1]
    exact ⟨by omega, hst⟩
  · simp [unseen, Int.toNat_of_nonneg hu.1]

/-- What a climb has done: the stack goes down from where it stopped, which is the end of the chain
or a register seen before, and only what it pushed is marked. -/
structure Climbed (src : ℤ → Option (ℤ × ℕ)) (st : ℤ → ℕ) (stk : List ℤ) (u : ℤ)
    (c : (ℤ → ℕ) × List ℤ × ℤ) : Prop where
  down : Down (leads src) c.2.1 c.2.2
  stopped : src c.2.2 = none ∨ c.1 c.2.2 ≠ 0
  keep : ∀ w ∈ stk, w ∈ c.2.1
  first : src u ≠ none → st u = 0 → u ∈ c.2.1
  marked : ∀ w, c.1 w = st w ∨ c.1 w = 1 ∧ w ∈ c.2.1

/-- The climb ends at the root of the chain. -/
lemma climbed (hrange : ∀ u, src u ≠ none → 0 ≤ u ∧ u < nv) (hfuel : (unseen nv st).card ≤ fuel)
    (hdown : Down (leads src) stk u) : Climbed src st stk u (climb src fuel st stk u) := by
  induction fuel generalizing st stk u with
  | zero =>
    have hseen : src u ≠ none → st u ≠ 0 := by
      intro hsrc hst
      have := card_unseen_update (hrange u hsrc) hst
      omega
    refine ⟨hdown, ?_, fun _ h => h, fun hsrc hst => absurd hst (hseen hsrc), fun _ => .inl rfl⟩
    by_cases hsrc : src u = none
    · exact .inl hsrc
    · exact .inr (hseen hsrc)
  | succ fuel ih =>
    rw [climb]
    split
    · rename_i hsrc
      exact ⟨hdown, .inl hsrc, fun _ h => h, fun h => absurd hsrc h, fun _ => .inl rfl⟩
    · rename_i a pos hsrc
      split_ifs with hst
      · have hlt := card_unseen_update (hrange u (by simp [hsrc])) hst
        have hlead : leads src u = some a := by simp [leads, hsrc]
        have hc := @ih (update st u 1) (u :: stk) a (by omega) ⟨hlead, hdown⟩
        refine ⟨hc.down, hc.stopped, fun w hw => hc.keep w (.tail _ hw), fun _ _ => hc.keep u (.head _), fun w => ?_⟩
        rcases hc.marked w with hw | hw
        · by_cases hwu : w = u
          · rw [hwu, update_self] at hw
            exact .inr ⟨hwu ▸ hw, hwu ▸ hc.keep u (.head _)⟩
          · rw [update_of_ne hwu] at hw
            exact .inl hw
        · exact .inr hw
      · exact ⟨hdown, .inr hst, fun _ h => h, fun _ h => absurd h hst, fun _ => .inl rfl⟩

/-- The register has a move and its root is the end of its chain. -/
structure Rooted (src : ℤ → Option (ℤ × ℕ)) (m : Roots) (v : ℤ) : Prop where
  move : src v ≠ none
  ends : Ends (leads src) v (m.root v)
  count : 0 < m.nrw v

lemma settle_state (hw : src u ≠ none) (v : ℤ) : (settle src r m u).state v = if v = u then 2 else m.state v := by
  obtain ⟨p, hp⟩ := Option.ne_none_iff_exists'.1 hw
  simp only [settle, hp, update_apply]

lemma rooted_settle {w : ℤ} (hw : leads src w = some u) (hr : Ends (leads src) u r) (hu : src u = none ∨ 0 < m.nrw u) :
    Rooted src (settle src r m w) w ∧ ∀ v, Rooted src m v → Rooted src (settle src r m w) v := by
  obtain ⟨⟨s, pos⟩, hp, rfl⟩ := Option.map_eq_some_iff.1 hw
  have hself : Rooted src (settle src r m w) w := by
    refine ⟨by simp [hp], ?_, ?_⟩
    · simpa only [settle, hp, update_self] using Ends.step hw hr
    · simp only [settle, hp, update_self]
      split
      · simp
      · rename_i hs
        have := hu.resolve_left (by simp [hs])
        dsimp only at this
        omega
  refine ⟨hself, fun v hv => ?_⟩
  by_cases hvw : v = w
  · exact hvw ▸ hself
  · refine ⟨hv.move, ?_, ?_⟩
    · simpa only [settle, hp, update_of_ne hvw] using hv.ends
    · simpa only [settle, hp, update_of_ne hvw] using hv.count

lemma rooted_stack (hdown : Down (leads src) stk u) (hr : Ends (leads src) u r) (hu : src u = none ∨ 0 < m.nrw u) :
    (∀ v, Rooted src m v → Rooted src (stk.foldl (settle src r) m) v) ∧ (∀ v ∈ stk, Rooted src (stk.foldl (settle src r) m) v
    ∧ (stk.foldl (settle src r) m).state v = 2) ∧ ∀ v ∉ stk, (stk.foldl (settle src r) m).state v = m.state v := by
  induction stk generalizing m u with
  | nil => exact ⟨fun _ h => h, fun _ h => absurd h (by simp), fun _ _ => rfl⟩
  | cons w stk ih =>
    obtain ⟨hw, hdown⟩ := hdown
    obtain ⟨hself, hkeep⟩ := rooted_settle hw hr hu
    have hstate := settle_state (r := r) (m := m) hself.move
    obtain ⟨h1, h2, h3⟩ := @ih (settle src r m w) w hdown (.step hw hr) (.inr hself.count)
    rw [foldl_cons]
    refine ⟨fun v hv => h1 v (hkeep v hv), fun v hv => ?_, fun v hv => ?_⟩
    · by_cases hvs : v ∈ stk
      · exact h2 v hvs
      · obtain rfl := (mem_cons.1 hv).resolve_right hvs
        exact ⟨h1 v hself, by rw [h3 v hvs, hstate, if_pos rfl]⟩
    · rw [mem_cons, not_or] at hv
      rw [h3 v hv.2, hstate, if_neg hv.1]

/-- Between the turns of the walk, a register is resolved or was not seen. -/
structure Resolved (src : ℤ → Option (ℤ × ℕ)) (m : Roots) : Prop where
  state : ∀ v, m.state v = 0 ∨ m.state v = 2
  rooted : ∀ v, m.state v = 2 → Rooted src m v

section
variable (hrange : ∀ u, src u ≠ none → 0 ≤ u ∧ u < nv)
  (hac : ∀ v, ¬ Relation.TransGen (Arrow (leads src)) v v)
include hrange hac

/-- Resolving one register resolves its chain and disturbs no other. -/
lemma resolve_spec (hm : Resolved src m) (v : ℕ) : ∃ m', resolve src nv m v = some m' ∧ Resolved src m' ∧
      (∀ w, m.state w = 2 → m'.state w = 2) ∧ (src v ≠ none → m'.state v = 2) := by
  unfold resolve
  split
  · rename_i h
    exact ⟨m, rfl, hm, fun _ h => h, fun hsrc => h.resolve_left hsrc⟩
  · rename_i hv
    rw [not_or] at hv
    have hv0 : m.state v = 0 := (hm.state v).resolve_right hv.2
    have hcard : (unseen nv m.state).card ≤ nv := (Finset.card_filter_le _ _).trans (by simp)
    have hc := @climbed src nv nv m.state [] v hrange hcard trivial
    generalize climb src nv m.state [] v = c at hc
    obtain ⟨state, stk, u⟩ := c
    have hmark : state u = 1 → u ∈ stk := by
      intro h1
      rcases hc.marked u with h | h
      · have := hm.state u
        simp only at h
        omega
      · exact h.2
    dsimp only
    rw [if_neg fun hcyc => hac u (hc.down.transGen (hmark hcyc.2))]
    refine ⟨_, rfl, ?_⟩
    have hroot : Ends (leads src) u (if src u = none then u else m.root u) ∧ (src u = none ∨ 0 < m.nrw u) := by
      split_ifs with hsrc
      · exact ⟨.stop (leads_eq_none.2 hsrc), .inl hsrc⟩
      · have hne := hc.stopped.resolve_left hsrc
        have hne1 : state u ≠ 1 := fun h1 => hac u (hc.down.transGen (hmark h1))
        have h2 : m.state u = 2 := by
          rcases hc.marked u with h | h
          · have := hm.state u
            simp only at h hne
            omega
          · exact absurd h.1 hne1
        exact ⟨(hm.rooted u h2).ends, .inr (hm.rooted u h2).count⟩
    obtain ⟨h1, h2, h3⟩ := @rooted_stack src stk { m with state := state } u _ hc.down hroot.1 hroot.2
    have hold : ∀ w ∉ stk, state w = m.state w := fun w hw =>
      (hc.marked w).resolve_right fun h => hw h.2
    have hstate : ∀ w, m.state w = 2 →
        (stk.foldl (settle src (if src u = none then u else m.root u)) { m with state := state }).state w = 2 := by
      intro w hw
      by_cases hws : w ∈ stk
      · exact (h2 w hws).2
      · rw [h3 w hws, ← hw]
        exact hold w hws
    refine ⟨⟨fun w => ?_, fun w hw => ?_⟩, hstate, fun hsrc => (h2 v (hc.first hsrc hv0)).2⟩
    · by_cases hws : w ∈ stk
      · exact .inr (h2 w hws).2
      · rw [h3 w hws]
        dsimp only
        rw [hold w hws]
        exact hm.state w
    · by_cases hws : w ∈ stk
      · exact (h2 w hws).1
      · rw [h3 w hws] at hw
        have hr := hm.rooted w ((hold w hws) ▸ hw)
        exact h1 w ⟨hr.move, hr.ends, hr.count⟩

/-- Every copy has its root when the loop is done. -/
lemma resolveAll_spec : ∃ m, resolveAll src nv = some m ∧ ∀ v, src v ≠ none → Rooted src m v := by
  have key : ∀ k, ∃ m, (range k).foldlM (resolve src nv) {} = some m ∧ Resolved src m ∧
      ∀ v, v < k → src v ≠ none → m.state v = 2 := by
    intro k
    induction k with
    | zero => exact ⟨{}, rfl, ⟨fun _ => .inl rfl, fun _ h => by cases h⟩, fun _ h => by omega⟩
    | succ k ih =>
      obtain ⟨m, hm, hres, hdone⟩ := ih
      obtain ⟨m', hm', hres', hkeep, hk⟩ := resolve_spec hrange hac hres k
      refine ⟨m', ?_, hres', fun v hv hsrc => ?_⟩
      · rw [range_succ, foldlM_append, hm]
        simp [hm']
      · rcases Nat.lt_succ_iff_lt_or_eq.1 hv with hv | rfl
        · exact hkeep v (hdone v hv hsrc)
        · exact hk hsrc
  obtain ⟨m, hm, hres, hdone⟩ := key nv
  refine ⟨m, hm, fun v hsrc => hres.rooted v ?_⟩
  obtain ⟨h0, hlt⟩ := hrange v hsrc
  obtain ⟨k, rfl⟩ := Int.eq_ofNat_of_zero_le h0
  exact hdone k (by omega) hsrc

end
end

section
variable {fn : Func} {v : ℤ}

lemma arrowsAt_length (fn : Func) : arrowsAt fn fn.ins.length = leads (sources (computeDefs fn) fn.ins.zipIdx) := by
  rw [arrowsAt, take_of_length_le (by simp)]
  rfl

lemma sources_range (hregs : ∀ i ∈ fn.ins, ∀ t ∈ tempDefs i, t < fn.nvregs)
    (h : sources (computeDefs fn) fn.ins.zipIdx v ≠ none) : 0 ≤ v ∧ v < fn.nvregs := by
  obtain ⟨p, hp⟩ := Option.ne_none_iff_exists'.1 h
  obtain ⟨i, hi, he, rfl, -⟩ := exists_of_sources hp
  obtain ⟨hop, -, hdst, -⟩ := eligible_iff.1 he
  refine ⟨hdst, hregs i ?_ _ (by simp [tempDefs, hop, writesTemp])⟩
  exact mem_of_getElem? (List.mem_zipIdx_iff_getElem?.1 hi)

lemma arrowsAt_of_none (h : fn.ins.any (eligible (computeDefs fn)) = false) (n : ℕ) : arrowsAt fn n v = none := by
  by_contra hne
  obtain ⟨w, hw⟩ := Option.ne_none_iff_exists'.1 hne
  obtain ⟨i, hi, he, -⟩ := copies_of_arrowsAt hw
  rw [any_eq_false] at h
  exact h i hi he

/-- If no chain of moves is a cycle, the walk resolves all of them, and rewriting every read once to
the root of its chain makes the function that the rule makes one move at a time; the two also agree
on whether anything was rewritten. -/
theorem passCopyprop_eq_byMove (fn : Func)
    (hregs : ∀ i ∈ fn.ins, ∀ t ∈ tempDefs i, t < fn.nvregs) (hac : Acyclic fn) :
    (resolveAll (sources (computeDefs fn) fn.ins.zipIdx) fn.nvregs).isSome ∧
      passCopyprop fn = copypropByMove fn (computeDefs fn) := by
  have hac' : ∀ v, ¬ Relation.TransGen (Arrow (leads (sources (computeDefs fn) fn.ins.zipIdx))) v v := by
    intro v hv
    rw [← arrowsAt_length] at hv
    exact hac v (Relation.TransGen.mono (fun _ _ h => copies_of_arrowsAt h) _ _ hv)
  obtain ⟨m, hm, hroot⟩ := resolveAll_spec (fun _ => sources_range hregs) hac'
  obtain ⟨f, hf⟩ := followed_run hac le_rfl
  refine ⟨by rw [hm]; rfl, ?_⟩
  have hends := hf.ends
  have hchanged := hf.changed
  rw [arrowsAt_length] at hends
  simp only [passCopyprop, copypropByMove, hm]
  split
  · have hcode : cpmapCb fn.nvregs (fun v => if sources (computeDefs fn) fn.ins.zipIdx v = none
        then -1 else m.root v) = f := by
      funext v
      unfold cpmapCb
      by_cases hv : sources (computeDefs fn) fn.ins.zipIdx v = none
      · simp only [hv]
        rw [if_neg (by simp), (hends v).unique (.stop (leads_eq_none.2 hv))]
      · have hfv := (hends v).unique (hroot v hv).ends
        simp only [hv, if_false]
        have h0 := nonneg_of_ends hf.ends v (sources_range hregs hv).1
        rw [if_pos ⟨(sources_range hregs hv).1, (sources_range hregs hv).2, hfv ▸ h0⟩, hfv]
    rw [hcode, hf.code]
    refine Prod.ext rfl ?_
    rw [Bool.eq_iff_iff, hchanged, decide_eq_true_iff, List.sum_pos_iff_exists_pos_nat]
    simp only [mem_map, mem_flatMap, arrowsAt_length, ne_eq, leads_eq_none]
    constructor
    · rintro ⟨k, ⟨v, ⟨j, hj, hv⟩, rfl⟩, hpos⟩
      refine ⟨j, hj, v, hv, fun hnone => ?_⟩
      simp [hnone] at hpos
    · rintro ⟨j, hj, v, hv, hmove⟩
      have h0 := nonneg_of_ends hf.ends v (sources_range hregs hmove).1
      rw [(hends v).unique (hroot v hmove).ends] at h0
      refine ⟨m.nrw v, ⟨v, ⟨j, hj, hv⟩, ?_⟩, (hroot v hmove).count⟩
      simp only [hmove]
      rw [if_pos ⟨(sources_range hregs hmove).1, (sources_range hregs hmove).2, h0⟩]
  · rename_i hno
    have hnone : ∀ v, arrowsAt fn fn.ins.length v = none := fun v =>
      arrowsAt_of_none (by simpa using hno) _
    have hid : mapReads f = id := by
      have : f = fun v => v := funext fun v => (hf.ends v).unique (.stop (hnone v))
      rw [this]
      exact funext mapReads_id
    rw [hf.code, hid, List.map_id]
    refine Prod.ext rfl ?_
    rw [Bool.eq_iff_iff, hchanged]
    simp [hnone]

/-- Two moves in a row. -/
def chain : Func where
  ins := [{ op := .const, dst := 0, imm := 7, w := 4 }, { op := .mov, dst := 1, a := 0, w := 4 },
    { op := .mov, dst := 2, a := 1, w := 4 }, { op := .ret, a := 2 }]
  nvregs := 3

lemma chain_acyclic : Acyclic chain := by
  have hdown : ∀ v w, Copies chain v w → w < v := by
    rintro v w ⟨i, hi, he, rfl, rfl⟩
    simp only [chain, mem_cons, not_mem_nil, or_false] at hi
    rcases hi with rfl | rfl | rfl | rfl
    · exact absurd (eligible_iff.1 he).1 (by decide)
    · decide
    · decide
    · exact absurd (eligible_iff.1 he).1 (by decide)
  intro v hv
  have := Relation.TransGen.trans_induction_on (motive := fun {v w} _ => w < v) hv
    (fun h => hdown _ _ h) (fun _ _ h h' => h'.trans h)
  exact lt_irrefl v this

theorem passCopyprop_eq_byMove_chain : Acyclic chain ∧
    (resolveAll (sources (computeDefs chain) chain.ins.zipIdx) chain.nvregs).isSome ∧
      passCopyprop chain = copypropByMove chain (computeDefs chain) :=
  ⟨chain_acyclic, passCopyprop_eq_byMove chain (by decide) chain_acyclic⟩

end
end EmbCC.Opt.Copyprop
