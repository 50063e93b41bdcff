import EmbCC.Opt.CfgClean.Pass

/-!
# CFG cleanup: threading jumps

A label is forwarded along jumps that a run from it makes silently
(`fwdLabel_chain`), so the threaded function goes where the original goes,
only sooner (`threadJumps_refines`).
-/

namespace EmbCC.Opt.CfgClean

open List Ir Trace Function Bool
open Relation (ReflTransGen TransGen)
variable {ins : List Ins} {fn : Func} {fwd : ℤ → ℤ} {n : ℕ} {l : ℤ}

lemma labelsFrom_getElem {k : ℕ} {i : Ins} (h : (labelsFrom ins n)[k]? = some i) : ins[n + k]? = some i ∧ i.op = .label := by
  obtain ⟨t, ht⟩ := takeWhile_prefix (fun i => i.op == .label) (l := ins.drop n)
  refine ⟨?_, by simpa using mem_takeWhile_imp (mem_of_getElem? h)⟩
  rw [← getElem?_drop, ← ht, getElem?_append_left]
  · exact h
  · exact getElem?_lt h

lemma fallsInto_spec (h : fallsInto ins n l) : ∃ (m : ℕ) (i : Ins), n < m ∧ ins[m]? = some i ∧ placedLabel i = some l ∧
      ∀ k, n < k → k ≤ m → ∃ j, ins[k]? = some j ∧ j.op = .label := by
  obtain ⟨i, hi, hl⟩ := List.any_eq_true.1 h
  obtain ⟨k, hk⟩ := getElem?_of_mem hi
  obtain ⟨hget, hop⟩ := labelsFrom_getElem hk
  refine ⟨n + 1 + k, i, by omega, hget, placedLabel_eq_some.2 ⟨hop, by simpa using hl⟩, ?_⟩
  intro j hnj hjk
  have hlt : j - (n + 1) < (labelsFrom ins (n + 1)).length :=
    lt_of_le_of_lt (by omega) (getElem?_lt hk)
  obtain ⟨hj, hjop⟩ := labelsFrom_getElem (getElem?_eq_getElem hlt)
  rw [show n + 1 + (j - (n + 1)) = j by omega] at hj
  exact ⟨_, hj, hjop⟩

/-- After label `a`, and any labels on the same spot, there is only a jump to `b`. -/
def Fwd (fn : Func) (a b : ℤ) : Prop :=
  ∃ (n : ℕ) (i : Ins), labelPos fn a = some n ∧
    fn.ins[n + (labelsFrom fn.ins n).length]? = some i ∧ i.op = .jmp ∧ i.label = b

lemma fwdDirect_chain (h : 0 ≤ fwdDirect fn l) : Fwd fn l (fwdDirect fn l) := by
  unfold fwdDirect at h ⊢
  split at h
  · cases h
  · rename_i n hn
    split at h
    · rename_i i hi
      split_ifs at h with hop
      · exact ⟨n, i, hn, hi, hop, by simp [hop]⟩
      · cases h
    · cases h

/-- A table whose entries lead along jumps. -/
def Leads (fn : Func) (fwd : ℤ → ℤ) : Prop := ∀ l, 0 ≤ fwd l → TransGen (Fwd fn) l (fwd l)

lemma chase_chain (hf : Leads fn fwd) (hops : ℕ) (t : ℤ) : ReflTransGen (Fwd fn) t (chase fwd fn.nlabels hops t) := by
  induction hops generalizing t with
  | zero => exact .refl
  | succ hops ih =>
    rw [chase]
    split_ifs with h
    · exact (hf t h.2.2.1).to_reflTransGen.trans (ih (fwd t))
    · exact .refl

lemma chase_neg {nl hops : ℕ} {t : ℤ} (h : t < 0) : chase fwd nl hops t = t := by
  cases hops with
  | zero => rfl
  | succ hops => rw [chase, if_neg (by omega)]

lemma fwdTable_leads (fn : Func) : Leads fn (fwdTable fn) := by
  have hstep : ∀ (ls : List ℕ) fwd, Leads fn fwd → Leads fn (ls.foldl
      (fun fwd (l : ℕ) => update fwd l (chase fwd fn.nlabels 16 (fwd l))) fwd) := by
    intro ls
    induction ls with
    | nil => exact fun fwd h => h
    | cons l ls ih =>
      refine fun fwd h => ih _ fun t ht => ?_
      dsimp only at ht ⊢
      by_cases htl : t = l
      · subst htl
        rw [update_self] at ht ⊢
        rcases lt_or_ge (fwd l) 0 with hneg | hpos
        · rw [chase_neg hneg] at ht
          omega
        · exact (h l hpos).trans_left (chase_chain h 16 _)
      · rw [update_of_ne htl] at ht ⊢
        exact h t ht
  exact hstep _ _ fun l hl => .single (fwdDirect_chain hl)

lemma fwdLabel_chain (fn : Func) (l : ℤ) : ReflTransGen (Fwd fn) l (fwdLabel fn l) := by
  simp only [fwdLabel]
  split
  · exact .refl
  · rename_i h
    push Not at h
    exact (fwdTable_leads fn l h.2.2.1).to_reflTransGen

section
variable {W : Type} {E : Env W} {fn : Func} (hwf : WF fn)
include hwf

variable {l a b : ℤ} {n : ℕ}

lemma labelAt_of_labelPos (h : labelPos fn l = some n) : fn.prog.labelAt l = some n := by
  rcases Scan.foldl_last_eq_some h with h | ⟨-, h⟩
  · cases h
  · obtain ⟨i, hi, hl⟩ := Option.bind_eq_some_iff.1 h
    exact labelAt_of_placed hwf hi hl

lemma labelAt_of_mem (h : l ∈ fn.ins.filterMap placedLabel) : ∃ n, fn.prog.labelAt l = some n := by
  obtain ⟨n, i, hi, hl⟩ := exists_placed h
  exact ⟨n, labelAt_of_placed hwf hi hl⟩

lemma Fwd.placed (h : Fwd fn a b) : b ∈ fn.ins.filterMap placedLabel := by
  obtain ⟨n, i, -, hi, hop, rfl⟩ := h
  exact hwf.placed i (mem_of_getElem? hi) _ (by simp [eachLabel, hop])

lemma Fwd.silent (h : Fwd fn a b) (s : St W) : ∃ n m, fn.prog.labelAt a = some n ∧ fn.prog.labelAt b = some m ∧
      ReflTransGen (Silent (step fn.prog E)) (some (n, s)) (some (m, s)) := by
  obtain ⟨m, hm⟩ := labelAt_of_mem hwf (h.placed hwf)
  obtain ⟨n, i, hn, hi, hop, rfl⟩ := h
  refine ⟨n, m, labelAt_of_labelPos hwf hn, hm, ?_⟩
  refine (silent_path (Nat.le_add_right n _) (fun k hk hkn => .inr ?_) s).tail (step_jmp (prog_code hi) hop hm)
  have hlt : k - n < (labelsFrom fn.ins n).length := by omega
  obtain ⟨hj, hjop⟩ := labelsFrom_getElem (getElem?_eq_getElem hlt)
  rw [Nat.add_sub_cancel' hk] at hj
  exact ⟨_, prog_code hj, hjop⟩

lemma chain_silent (h : ReflTransGen (Fwd fn) a b) (ha : fn.prog.labelAt a = some n) (s : St W) :
    ∃ m, fn.prog.labelAt b = some m ∧ ReflTransGen (Silent (step fn.prog E)) (some (n, s)) (some (m, s)) := by
  induction h with
  | refl => exact ⟨n, ha, .refl⟩
  | tail _ hlast ih =>
    obtain ⟨m, hm, hrun⟩ := ih
    obtain ⟨m', k, hm', hk, hsil⟩ := hlast.silent hwf s
    rw [hm] at hm'
    cases hm'
    exact ⟨k, hk, hrun.trans hsil⟩

lemma chain_placed (h : ReflTransGen (Fwd fn) a b)
    (ha : a ∈ fn.ins.filterMap placedLabel) : b ∈ fn.ins.filterMap placedLabel := by
  induction h with
  | refl => exact ha
  | tail _ hlast _ => exact hlast.placed hwf

end

section
variable {fn : Func}

lemma threadJumps_getElem {n : ℕ} {i : Ins} (h : fn.ins[n]? = some i) : (threadJumps fn).ins[n]? =
      some (if forwards i.op then { i with label := fwdLabel fn i.label } else i) := by
  simp [threadJumps, h]

lemma threadJumps_labelAt (l : ℤ) : (threadJumps fn).prog.labelAt l = fn.prog.labelAt l := by
  refine labelAt_congr ?_
  simp only [Func.prog, threadJumps, map_map]
  refine map_congr_left fun i _ => ?_
  simp only [comp]
  split_ifs with hf
  · have hop : (i.op == .label) = false := by cases hop : i.op <;> simp_all [forwards]
    simp [isLabel, hop]
  · rfl

lemma threadJumps_table (k : ℕ) :
    List.Forall₂ (ReflTransGen (Fwd fn)) (fn.jt.getD k []) ((threadJumps fn).jt.getD k []) := by
  have hstep : ∀ (ins : List Ins) (jt : List (List ℤ)), List.Forall₂ (ReflTransGen (Fwd fn)) (fn.jt.getD k []) (jt.getD k []) →
      List.Forall₂ (ReflTransGen (Fwd fn)) (fn.jt.getD k []) ((ins.foldl (fun jt i =>
        if i.op = .switch then jt.modify i.jt (·.map (fwdLabel fn)) else jt) jt).getD k []) := by
    intro ins
    induction ins with
    | nil => exact fun jt h => h
    | cons i ins ih =>
      refine fun jt h => ih _ ?_
      dsimp only
      split
      · by_cases hk : i.jt = k
        · have hget : (jt.modify i.jt (·.map (fwdLabel fn))).getD k [] = (jt.getD k []).map (fwdLabel fn) := by
            subst hk
            simp only [getD_eq_getElem?_getD, getElem?_modify_eq]
            cases jt[i.jt]? <;> rfl
          rw [hget, forall₂_map_right_iff]
          exact h.imp fun a b hab => hab.trans (fwdLabel_chain fn b)
        · have hget : (jt.modify i.jt (·.map (fwdLabel fn))).getD k [] = jt.getD k [] := by
            simp [hk]
          rwa [hget]
      · exact h
  exact hstep _ _ (List.forall₂_same.2 fun _ _ => .refl)

lemma forall₂_getElem {α β : Type*} {R : α → β → Prop} {l : List α} {l' : List β}
    (h : List.Forall₂ R l l') (n : ℕ) : Option.Rel R l[n]? l'[n]? := by
  induction h generalizing n with
  | nil => exact .none
  | cons hab _ ih =>
    cases n with
    | zero => exact .some hab
    | succ n => exact ih n

lemma forall₂_mem_right {α β : Type*} {R : α → β → Prop} {l : List α} {l' : List β}
    (h : List.Forall₂ R l l') {b : β} (hb : b ∈ l') : ∃ a ∈ l, R a b := by
  induction h with
  | nil => cases hb
  | cons hab _ ih =>
    rcases List.mem_cons.1 hb with rfl | hb
    · exact ⟨_, .head _, hab⟩
    · obtain ⟨a, ha, hr⟩ := ih hb
      exact ⟨a, .tail _ ha, hr⟩

lemma threadJumps_switch (i : Ins) (v : Val) : Option.Rel (ReflTransGen (Fwd fn)) (switchTarget fn.prog i v)
      (switchTarget (threadJumps fn).prog { i with label := fwdLabel fn i.label } v) := by
  have htab := forall₂_getElem (@threadJumps_table fn i.jt) (v.toNat % 2 ^ (8 * i.w))
  simp only [switchTarget, Func.prog]
  generalize (fn.jt.getD i.jt [])[v.toNat % 2 ^ (8 * i.w)]? = x at htab
  generalize ((threadJumps fn).jt.getD i.jt [])[v.toNat % 2 ^ (8 * i.w)]? = y at htab
  cases htab with
  | some h => exact .some h
  | none =>
    dsimp only
    split
    · exact .none
    · exact .some (fwdLabel_chain fn _)

end

section
variable {W : Type} {E : Env W} {fn : Func}

/-- A threaded jump goes where the chain of jumps does. -/
lemma threadJumps_step (hwf : WF fn) (pc : ℕ) (s : St W) : step (threadJumps fn).prog E (some (pc, s)) = step fn.prog E
    (some (pc, s)) ∨ ∃ n, TransGen (Silent (step fn.prog E)) (some (pc, s)) (some (n, s)) ∧ step (threadJumps fn).prog E
    (some (pc, s)) = some (none, some (n, s)) := by
  cases hi : fn.ins[pc]? with
  | none =>
    left
    simp [step, Func.prog, threadJumps, hi]
  | some i =>
  have hi' := prog_code (threadJumps_getElem hi)
  have hgoto : ∀ {l l' : ℤ}, l ∈ fn.ins.filterMap placedLabel → ReflTransGen (Fwd fn) l l' → step fn.prog E
      (some (pc, s)) = fn.prog.goto l s → step (threadJumps fn).prog E (some (pc, s)) = (threadJumps fn).prog.goto l' s → ∃ n,
      TransGen (Silent (step fn.prog E)) (some (pc, s)) (some (n, s)) ∧ step (threadJumps fn).prog E
      (some (pc, s)) = some (none, some (n, s)) := by
    intro l l' hl hchain hold hnew
    obtain ⟨n, hn⟩ := labelAt_of_mem hwf hl
    obtain ⟨m, hm, hrun⟩ := chain_silent hwf hchain hn s
    refine ⟨m, .head' ?_ hrun, ?_⟩
    · rw [Silent, hold, Prog.goto, hn]
    · rw [hnew, Prog.goto, threadJumps_labelAt, hm]
  have hplaced : ∀ l ∈ eachLabel fn i, l ∈ fn.ins.filterMap placedLabel :=
    hwf.placed i (mem_of_getElem? hi)
  by_cases hf : forwards i.op
  · rw [if_pos hf] at hi'
    cases hop : i.op <;> simp only [hop, forwards, false_eq_true] at hf
    case jmp =>
      refine .inr (hgoto (hplaced i.label (by simp [eachLabel, hop])) (fwdLabel_chain fn i.label) ?_ ?_)
      · simp [step, prog_code hi, hop, Op.isControl, ctlStep]
      · simp [step, hi', hop, Op.isControl, ctlStep]
    case brz | brnz =>
      have hbr : i.op = .brz ∨ i.op = .brnz := by simp [hop]
      cases hv : s.temps i.a with
      | none => exact .inl ((step_branch_unset hi' hbr hv).trans (step_branch_unset (prog_code hi) hbr hv).symm)
      | some v =>
        have hold := step_branch (E := E) (prog_code hi) hbr hv
        have hnew := step_branch (E := E) hi' hbr hv
        have htk : brTaken { i with label := fwdLabel fn i.label } v = brTaken i v := rfl
        rw [htk] at hnew
        cases ht : brTaken i v with
        | true =>
          rw [ht, if_pos rfl] at hold hnew
          exact .inr (hgoto (hplaced i.label (by simp [eachLabel, hop])) (fwdLabel_chain fn i.label) hold hnew)
        | false =>
          rw [ht, if_neg (by decide)] at hold hnew
          exact .inl (hnew.trans hold.symm)
    case switch =>
      have hold := step_switch (E := E) (s := s) (prog_code hi) hop
      have hnew := step_switch (E := E) (s := s) hi' hop
      cases hv : s.temps i.a with
      | none =>
        simp only [hv, Option.bind_none] at hold hnew
        exact .inl (hnew.trans hold.symm)
      | some v =>
        simp only [hv, Option.bind_some] at hold hnew
        have hmem : ∀ l, switchTarget fn.prog i v = some l → l ∈ fn.ins.filterMap placedLabel := by
          intro l hl
          have := switchTarget_mem hl
          exact hplaced l (by simpa [eachLabel, hop, Func.table, Func.prog] using this)
        have hrel := @threadJumps_switch fn i v
        generalize switchTarget fn.prog i v = x at hold hrel hmem
        generalize switchTarget (threadJumps fn).prog _ v = y at hnew hrel
        cases hrel with
        | none => exact .inl (hnew.trans hold.symm)
        | some hchain => exact .inr (hgoto (hmem _ rfl) hchain hold hnew)
  · rw [if_neg hf] at hi'
    left
    refine step_congr (prog_code hi) hi' ?_ rfl (fun l _ => threadJumps_labelAt l) (fun l _ => threadJumps_labelAt l)
    intro hop
    simp [hop, forwards] at hf

/-- A run of the threaded code is one of the code. -/
lemma threadJumps_reaches (hwf : WF fn) {c d : Cfg W}
    (h : Reaches (step (threadJumps fn).prog E) c d) : Reaches (step fn.prog E) c d := by
  induction h with
  | refl => exact .refl
  | @tail c d _ hstep ih =>
    obtain ⟨o, hstep⟩ := hstep
    obtain _ | ⟨pc, s⟩ := c
    · cases hstep
    rcases threadJumps_step hwf pc s with heq | ⟨n, hrun, hnew⟩
    · exact ih.tail ⟨o, heq ▸ hstep⟩
    · rw [hnew] at hstep
      cases hstep
      exact ih.trans (ReflTransGen.mono (fun _ _ h => ⟨none, h⟩) _ _ hrun.to_reflTransGen)

lemma threadJumps_refines (hwf : WF fn) (c : Cfg W) :
    Refines Event.Wild (step fn.prog E) c (step (threadJumps fn).prog E) c := by
  refine refines_of_match ?_ rfl
  rintro (_ | ⟨pc, s⟩) _ rfl
  · exact .halt .refl .refl rfl rfl
  rcases threadJumps_step hwf pc s with heq | ⟨n, hrun, hnew⟩
  · obtain ⟨⟨o, d⟩, hd⟩ := Option.isSome_iff_exists.1 (step_isSome fn.prog E pc s)
    exact .of_step hd (heq.trans hd) rfl
  · exact .silent hrun (.single hnew) rfl

end

/-- Threading keeps the form of the function. -/
lemma threadJumps_wf (hwf : WF fn) : WF (threadJumps fn) := by
  have hlabels : (threadJumps fn).ins.filterMap placedLabel = fn.ins.filterMap placedLabel := by
    simp only [threadJumps, filterMap_map]
    refine filterMap_congr fun i _ => ?_
    simp only [comp]
    split
    · cases hop : i.op <;> simp_all [placedLabel, forwards]
    · rfl
  refine ⟨hwf.params, ?_, hlabels ▸ hwf.once, hlabels ▸ hwf.range, ?_⟩
  · intro i' hi' t ht
    obtain ⟨i, hi, rfl⟩ := List.mem_map.1 hi'
    refine hwf.regs i hi t ?_
    split at ht <;> exact ht
  · intro i' hi' l hl
    rw [hlabels]
    obtain ⟨i, hi, rfl⟩ := List.mem_map.1 hi'
    have hplaced := hwf.placed i hi
    have hfwd : ∀ a ∈ eachLabel fn i, ∀ b, ReflTransGen (Fwd fn) a b →
        b ∈ fn.ins.filterMap placedLabel := fun a ha b hab => chain_placed hwf hab (hplaced a ha)
    split_ifs at hl with hf
    · cases hop : i.op <;> simp only [hop, forwards, false_eq_true] at hf
      case jmp | brz | brnz =>
        obtain rfl : l = fwdLabel fn i.label := by simpa [eachLabel, hop] using hl
        exact hfwd i.label (by simp [eachLabel, hop]) _ (fwdLabel_chain fn _)
      case switch =>
        have hl' : l = fwdLabel fn i.label ∨ l ∈ (threadJumps fn).jt.getD i.jt [] := by
          simpa [eachLabel, hop, Func.table] using hl
        rcases hl' with rfl | hl'
        · exact hfwd i.label (by simp [eachLabel, hop]) _ (fwdLabel_chain fn _)
        · obtain ⟨a, ha, hab⟩ := forall₂_mem_right (@threadJumps_table fn i.jt) hl'
          exact hfwd a (by simpa [eachLabel, hop] using .inr ha) l hab
    · refine hplaced l ?_
      cases hop : i.op <;> simp_all [eachLabel, forwards]

end EmbCC.Opt.CfgClean
