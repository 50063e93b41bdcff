import EmbCC.Ir.Compact
import EmbCC.Opt.CfgClean.Decide

/-!
# CFG cleanup: inverting branches and dropping code

The rewrites that read the marks of the ones before them: a branch around a
jump is inverted, then labels that nothing names, jumps to the next label
and code that no run gets to are marked too.
-/

namespace EmbCC.Opt.CfgClean

open Ir Trace Scan List Bool Prod
open Relation (ReflTransGen TransGen)

section
variable {fn : Func} {code : List (Ins × Bool)} (hc : CodeWF fn code)
include hc

lemma CodeWF.fallsInto (hwf : WF fn) {n : ℕ} {l : ℤ} (h : CfgClean.fallsInto (code.map (·.1)) n l) : ∃ m, n < m
    ∧ (codeProg fn code).labelAt l = some m ∧ ∀ k, n < k → k ≤ m → ∃ j, code[k]? = some (j, false) ∧ j.op = .label := by
  obtain ⟨m, i, hm, hi, hl, hlabels⟩ := fallsInto_spec h
  have hget : ∀ {k : ℕ} {j : Ins}, (code.map (·.1))[k]? = some j → j.op = .label → code[k]? = some (j, false) := by
    intro k j hj hop
    rw [getElem?_map] at hj
    obtain ⟨⟨j', d⟩, hp, rfl⟩ := Option.map_eq_some_iff.1 hj
    obtain rfl := (hc.label k j' d hp hop).1
    exact hp
  have hlabel := (placedLabel_eq_some.1 hl).1
  refine ⟨m, hm, ?_, ?_⟩
  · rw [hc.labelAt]
    exact labelAt_of_placed hwf (hc.label m _ _ (hget hi hlabel) hlabel).2 hl
  intro k hk hkm
  obtain ⟨j, hj, hop⟩ := hlabels k hk hkm
  exact ⟨j, hget hj hop, hop⟩

end

lemma invertible_spec {code : List (Ins × Bool)} {n : ℕ} (h : invertible code n) : ∃ i j, code[n]? = some (i, false)
    ∧ code[n + 1]? = some (j, false) ∧ isBranch i ∧ j.op = .jmp ∧ fallsInto (code.map (·.1)) (n + 1) i.label := by
  unfold invertible at h
  split at h
  · rename_i i j hi hj
    simp only [and_eq_true, beq_iff_eq] at h
    exact ⟨i, j, hi, hj, h.1.1.1, h.1.1.2, h.2⟩
  · cases h

section
variable {fn : Func} {code : List (Ins × Bool)} {n : ℕ}
variable {p : Ins × Bool} {i j : Ins} {d e : Bool}

lemma invertBranches_other (h : code[n]? = some p) (hn : invertible code n = false)
    (hprev : (0 < n && invertible code (n - 1)) = false) : (invertBranches code)[n]? = some p := by
  rw [invertBranches, getElem?_mapIdx, h]
  simp only [Option.map_some, hn, hprev, false_eq_true, if_false]

lemma invertBranches_branch (hi : code[n]? = some (i, d)) (hj : code[n + 1]? = some (j, e)) (h : invertible code n) :
    (invertBranches code)[n]? = some ({ i with op := flipOp i.op, label := j.label }, d) := by
  simp [invertBranches, hi, h, labelOf, hj]

lemma not_invertible_jump (hj : code[n]? = some (j, e)) (hop : isBranch j = false) : invertible code n = false := by
  by_contra h
  obtain ⟨i, -, hi, -, hb, -⟩ := invertible_spec (not_eq_false _ ▸ h)
  rw [hj, Option.some.injEq, mk.injEq] at hi
  rw [hi.1, hb] at hop
  cases hop

lemma invertBranches_jump (hi : code[n]? = some (i, d))
    (hj : code[n + 1]? = some (j, e)) (hop : j.op = .jmp) (h : invertible code n) :
    (invertBranches code)[n + 1]? = some ({ j with label := i.label }, e) := by
  have hn := not_invertible_jump hj (by simp [isBranch, hop])
  simp [invertBranches, hj, hn, h, labelOf, hi]

/-! ## Inverting a branch over a jump -/

/-- What inverting keeps of an instruction and its mark: the mark, the labels and what is a branch. -/
def Inverted (p q : Ins × Bool) : Prop :=
  q.2 = p.2 ∧ (p.1.op = .label → q = p) ∧ (q.1.op = .label → p.1.op = .label) ∧ isBranch q.1 = isBranch p.1

lemma invertBranches_shape (h : code[n]? = some p) : ∃ q, (invertBranches code)[n]? = some q ∧ Inverted p q := by
  by_cases hn : invertible code n
  · obtain ⟨i, j, hi, hj, hb, -⟩ := invertible_spec hn
    rw [h, Option.some.injEq] at hi
    subst hi
    refine ⟨_, invertBranches_branch h hj hn, rfl, ?_, ?_, ?_⟩ <;>
      rcases isBranch_iff.1 hb with hop | hop <;> simp [hop, flipOp, isBranch]
  · have hn' : invertible code n = false := by simpa using hn
    by_cases hprev : (0 < n && invertible code (n - 1)) = true
    · rw [and_eq_true, decide_eq_true_eq] at hprev
      obtain ⟨m, rfl⟩ := Nat.exists_eq_succ_of_ne_zero hprev.1.ne'
      rw [Nat.succ_eq_add_one, Nat.add_sub_cancel] at hprev
      obtain ⟨i, j, hi, hj, -, hop, -⟩ := invertible_spec hprev.2
      rw [Nat.succ_eq_add_one, hj, Option.some.injEq] at h
      subst h
      exact ⟨_, invertBranches_jump hi hj hop hprev.2, rfl, by simp [hop], by simp, rfl⟩
    · exact ⟨p, invertBranches_other h hn' (by simpa using hprev), rfl, by simp, by simp, rfl⟩

lemma length_invertBranches (code : List (Ins × Bool)) : (invertBranches code).length = code.length := by
  simp [invertBranches]

/-- Inverting keeps the form of the code. -/
lemma invertBranches_wf (hc : CodeWF fn code) : CodeWF fn (invertBranches code) := by
  have hold {n : ℕ} {q : Ins × Bool} (hq : (invertBranches code)[n]? = some q) : ∃ p, code[n]? = some p ∧ Inverted p q := by
    have hlt : n < code.length := by
      rw [← length_invertBranches]
      exact getElem?_lt hq
    have hp := getElem?_eq_getElem hlt
    obtain ⟨q', hq', hshape⟩ := invertBranches_shape hp
    rw [hq, Option.some.injEq] at hq'
    exact ⟨_, hp, hq' ▸ hshape⟩
  refine ⟨?_, ?_, ?_, (length_invertBranches code).trans hc.length⟩
  · intro n i d h hop
    obtain ⟨p, hp, -, hkeep, hlab, -⟩ := hold h
    obtain rfl := hkeep (hlab hop)
    exact hc.label n i d hp hop
  · intro n i h hop
    obtain ⟨q, hq, -, hkeep, -⟩ := invertBranches_shape (hc.placed n i h hop)
    rw [hq, hkeep hop]
  · intro n i h
    obtain ⟨⟨j, d⟩, hp, rfl, -, -, hb⟩ := hold h
    rw [hb]
    exact hc.dead n j hp

end

section
variable {W : Type} {E : Env W} {fn : Func} {code : List (Ins × Bool)}

/-- The point is not the jump of a pair, which a run gets to only from the branch. -/
def NotPairJump (code : List (Ins × Bool)) : Cfg W → Prop
  | none => True
  | some (pc, _) => (0 < pc && invertible code (pc - 1)) = false

lemma notPairJump_label {l : ℤ} {n : ℕ} (h : (codeProg fn code).labelAt l = some n)
    (s : St W) : NotPairJump code (some (n, s)) := by
  rw [NotPairJump]
  by_contra hne
  rw [not_eq_false, and_eq_true, decide_eq_true_eq] at hne
  obtain ⟨-, j, -, hj, -, hop, -⟩ := invertible_spec hne.2
  rw [Nat.sub_add_cancel hne.1] at hj
  obtain ⟨k, hk, hkl, -⟩ := labelAt_spec h
  rw [codeProg_live hj, Option.some.injEq, Option.some.injEq] at hk
  rw [← hk, hop] at hkl
  cases hkl

/-- A branch over a jump and the inverted branch go to the same places. -/
lemma invert_pair (hwf : WF fn) (hc : CodeWF fn code) {n : ℕ} (h : invertible code n) (s : St W) :
    Match Event.Wild (step (codeProg fn code) E) (step (codeProg fn (invertBranches code)) E)
      (fun c d => c = d ∧ NotPairJump code c) (some (n, s)) (some (n, s)) := by
  obtain ⟨i, j, hi, hj, hb, hop, hf⟩ := invertible_spec h
  obtain ⟨m, -, hlab, -⟩ := hc.fallsInto hwf hf
  have hc' := invertBranches_wf hc
  have hlab' : ∀ l, (codeProg fn (invertBranches code)).labelAt l =
      (codeProg fn code).labelAt l := fun l => (hc'.labelAt l).trans (hc.labelAt l).symm
  have hbr := isBranch_iff.1 hb
  have hnew : (codeProg fn (invertBranches code)).code[n]? =
      some (some { i with op := flipOp i.op, label := j.label }) :=
    codeProg_live (invertBranches_branch hi hj h)
  have hjnew : (codeProg fn (invertBranches code)).code[n + 1]? =
      some (some { j with label := i.label }) := codeProg_live (invertBranches_jump hi hj hop h)
  have hbr' : flipOp i.op = .brz ∨ flipOp i.op = .brnz := by
    rcases hbr with h | h <;> simp [flipOp, h]
  cases hv : s.temps i.a with
  | none =>
    exact .visible .refl .refl (step_branch_unset (codeProg_live hi) hbr hv) (step_branch_unset hnew hbr' hv) ⟨rfl, trivial⟩
  | some v =>
    have hold := step_branch (P := codeProg fn code) (E := E) (codeProg_live hi) hbr hv
    have hflip := step_branch (E := E) hnew hbr' hv
    have hsense : brTaken { i with op := flipOp i.op, label := j.label } v = !brTaken i v := by
      simp only [brTaken]
      rcases hbr with h | h <;> rw [h] <;> cases isZero i.w v <;> rfl
    rw [hsense] at hflip
    cases ht : brTaken i v with
    | true =>
      rw [ht, if_pos rfl, Prog.goto, hlab] at hold
      rw [ht, Bool.not_true, if_neg (by decide)] at hflip
      have hjump := step_jmp (E := E) (s := s) hjnew hop ((hlab' i.label).trans hlab)
      exact .silent (.single hold) (.tail (.single hflip) hjump) ⟨rfl, notPairJump_label hlab s⟩
    | false =>
      rw [ht, if_neg (by decide)] at hold
      rw [ht, Bool.not_false, if_pos rfl, Prog.goto, hlab'] at hflip
      cases hjl : (codeProg fn code).labelAt j.label with
      | some k =>
        rw [hjl] at hflip
        have hjump := step_jmp (E := E) (s := s) (codeProg_live hj) hop hjl
        exact .silent (.tail (.single hold) hjump) (.single hflip) ⟨rfl, notPairJump_label hjl s⟩
      | none =>
        rw [hjl] at hflip
        refine .visible (.single hold) .refl ?_ hflip ⟨rfl, trivial⟩
        have hj' : (codeProg fn code).code[n + 1]? = some (some j) := codeProg_live hj
        simp [step, hj', hop, Op.isControl, ctlStep, Prog.goto, hjl]

/-- Inverting the branches keeps every run. -/
lemma invertBranches_refines (hwf : WF fn) (hc : CodeWF fn code) (s : St W) : Refines Event.Wild (step (codeProg fn code) E)
    (some (0, s)) (step (codeProg fn (invertBranches code)) E) (some (0, s)) := by
  refine refines_of_match (R := fun c d => c = d ∧ NotPairJump code c) ?_ ⟨rfl, rfl⟩
  rintro (_ | ⟨pc, t⟩) _ ⟨rfl, hnot⟩
  · exact .halt .refl .refl rfl rfl
  by_cases hinv : invertible code pc
  · exact invert_pair hwf hc hinv t
  have hinv' : invertible code pc = false := by simpa using hinv
  have hnext : ∀ u : St W, NotPairJump code (some (pc + 1, u)) := fun u => by
    simp [NotPairJump, hinv']
  have hc' := invertBranches_wf hc
  cases hp : code[pc]? with
  | none =>
    have hp' : (invertBranches code)[pc]? = none := by
      rw [List.getElem?_eq_none_iff, length_invertBranches]
      exact List.getElem?_eq_none_iff.1 hp
    refine .visible (o := .lost) (d := none) .refl .refl ?_ ?_ ⟨rfl, trivial⟩
    · simp [step, codeProg, marked, hp]
    · simp [step, codeProg, marked, hp']
  | some p =>
    have hp' := invertBranches_other hp hinv' hnot
    obtain ⟨i, d⟩ := p
    cases d with
    | true =>
      exact .of_step (step_hole (codeProg_dead hp)) (step_hole (codeProg_dead hp')) ⟨rfl, hnext t⟩
    | false =>
      have heq : step (codeProg fn (invertBranches code)) E (some (pc, t)) = step (codeProg fn code) E (some (pc, t)) :=
        step_congr (codeProg_live hp) (codeProg_live hp') (fun _ => rfl) rfl
          (fun l _ => (hc'.labelAt l).trans (hc.labelAt l).symm) (fun l _ => (hc'.labelAt l).trans (hc.labelAt l).symm)
      obtain ⟨⟨o, c⟩, hd⟩ := Option.isSome_iff_exists.1 (step_isSome (codeProg fn code) E pc t)
      refine .of_step hd (heq.trans hd) ⟨rfl, ?_⟩
      obtain _ | ⟨pc', t'⟩ := c
      · trivial
      rcases step_cases (codeProg_live hp) hd with ⟨-, rfl, ⟨rfl, -⟩ | ⟨l, -, hat⟩⟩ |
        ⟨-, ⟨_, _, _, -, -, -, rfl, -⟩ | ⟨_, -, l, -, hat⟩⟩
      · exact hnext _
      · exact notPairJump_label hat _
      · exact hnext _
      · exact notPairJump_label hat _

end

/-! ## Leaving out dead code -/

/-- Is code skipped at `n`? -/
def skipAt (fn : Func) (code : List (Ins × Bool)) (n : ℕ) : Bool :=
  stateAt (dropDead fn code) false code.zipIdx n

section
variable {fn : Func} {code : List (Ins × Bool)} {n : ℕ} {i : Ins} {d : Bool}
variable {p : Ins × Bool}

lemma zipIdx_getElem (h : code[n]? = some p) : (code.zipIdx)[n]? = some (p, n) := by simp [h]

lemma markDead_getElem (h : code[n]? = some p) :
    (markDead fn code)[n]? = some (dropDead fn code (skipAt fn code n) (p, n)).1 := by
  rw [markDead, scan_getElem, zipIdx_getElem h]
  rfl

lemma skipAt_succ (h : code[n]? = some p) : skipAt fn code (n + 1) = (dropDead fn code (skipAt fn code n) (p, n)).2 :=
  stateAt_succ _ _ (zipIdx_getElem h)

lemma markDead_label (h : code[n]? = some (i, false)) (hop : i.op = .label) :
    (markDead fn code)[n]? = some (i, decide (0 ≤ i.label ∧ i.label < fn.nlabels) &&
      !reached fn code i.label) ∧ skipAt fn code (n + 1) = false := by
  rw [markDead_getElem h, skipAt_succ h]
  simp [dropDead, hop]

lemma markDead_other (h : code[n]? = some (i, d)) (hop : i.op ≠ .label) (hs : skipAt fn code n = false) :
    (markDead fn code)[n]? = some (i, d || (i.op == .jmp && fallsInto (code.map (·.1)) n i.label)) ∧
    skipAt fn code (n + 1) = stops i (d || (i.op == .jmp && fallsInto (code.map (·.1)) n i.label)) := by
  rw [markDead_getElem h, skipAt_succ h]
  simp [dropDead, hop, hs]

lemma length_markDead (fn : Func) (code : List (Ins × Bool)) : (markDead fn code).length = code.length := by
  simp [markDead]

lemma markDead_shape {q : Ins × Bool} (h : (markDead fn code)[n]? = some q) :
    ∃ d, code[n]? = some (q.1, d) ∧ (d = true → q.2 = true) := by
  have hlt : n < code.length := by
    rw [← length_markDead fn]
    exact getElem?_lt h
  have hp := getElem?_eq_getElem hlt
  rw [markDead_getElem hp, Option.some.injEq] at h
  refine ⟨(code.get ⟨n, hlt⟩).2, ?_, ?_⟩
  · rw [hp, ← h]
    simp only [dropDead]
    split <;> rfl
  · intro hd
    rw [← h]
    simp only [dropDead]
    split <;> simp_all

lemma markDead_labelAt (hc : CodeWF fn code) {l : ℤ} (hr : reached fn code l) :
    (codeProg fn (markDead fn code)).labelAt l = (codeProg fn code).labelAt l := by
  refine labelAt_congr (ext_getElem? fun n => ?_)
  simp only [codeProg, marked, getElem?_map]
  cases hp : code[n]? with
  | none => rw [getElem?_eq_none (by rw [length_markDead]; exact List.getElem?_eq_none_iff.1 hp)]
  | some p =>
    obtain ⟨i, d⟩ := p
    obtain ⟨q, hq⟩ : ∃ q, (markDead fn code)[n]? = some q := ⟨_, markDead_getElem hp⟩
    obtain ⟨e, he, -⟩ := markDead_shape hq
    rw [hp, Option.some.injEq, mk.injEq] at he
    obtain ⟨rfl, rfl⟩ := he
    by_cases hl : q.1.op = .label ∧ q.1.label = l
    · obtain ⟨rfl, -⟩ := hc.label n q.1 d hp hl.1
      rw [(markDead_label hp hl.1).1, hl.2, hr]
      simp
    · have hnot : isLabel l (some q.1) = false := by simpa [isLabel] using hl
      have hnot' : ∀ b, isLabel l (if b = true then none else some q.1) = false := by
        intro b
        split
        · rfl
        · exact hnot
      simp [hq, hnot']

end

/-! ## Runs -/

section
variable {W : Type} {E : Env W} {fn : Func} {code : List (Ins × Bool)} {pc pc' : ℕ} {s s' : St W}

/-- Where a run may be: at a label, or where code is not skipped; and the addresses it has are of
labels that are named. -/
structure DropInv (fn : Func) (code : List (Ins × Bool)) (pc : ℕ) (s : St W) : Prop where
  place : skipAt fn code pc = false ∨ ∃ i d, code[pc]? = some (i, d) ∧ i.op = .label
  taken : ∀ l ∈ s.taken, reached fn code l

variable {i : Ins} {d : Bool} {l : ℤ}

lemma reached_of_mem {n : ℕ} (h : code[n]? = some (i, d)) (hl : l ∈ eachLabel fn i) : reached fn code l := by
  rw [reached, or_eq_true, any_eq_true]
  exact .inl ⟨(i, d), mem_of_getElem? h, by simpa using hl⟩

lemma reached_jumpLabels (h : code[pc]? = some (i, d))
    (hs : DropInv fn code pc s) (hl : l ∈ jumpLabels (codeProg fn code) i s) : reached fn code l := by
  by_cases hop : i.op = .igoto
  · exact hs.taken l (by simpa [jumpLabels, hop] using hl)
  · refine reached_of_mem h ?_
    unfold jumpLabels at hl
    unfold eachLabel
    split at hl <;> simp_all [codeProg, Func.table]

lemma dropInv_label (h : (codeProg fn code).labelAt l = some pc)
    (ht : ∀ l ∈ s.taken, reached fn code l) : DropInv fn code pc s := by
  obtain ⟨i, hi, hop, -⟩ := labelAt_spec h
  refine ⟨.inr ?_, ht⟩
  simp only [codeProg, marked, getElem?_map, Option.map_eq_some_iff] at hi
  obtain ⟨⟨j, d⟩, hj, hd⟩ := hi
  refine ⟨j, d, hj, ?_⟩
  split at hd
  · cases hd
  · rw [show j = i from Option.some.inj hd]
    exact hop

/-- A step keeps that nothing dead comes next. -/
lemma dropInv_step {o : Option Event} (hs : DropInv fn code pc s) (hp : code[pc]? = some (i, false)) (hop : i.op ≠ .label)
    (hskip : skipAt fn code pc = false) (_ : (i.op == .jmp && fallsInto (code.map (·.1)) pc i.label) = false)
    (h : step (codeProg fn code) E (some (pc, s)) = some (o, some (pc', s'))) : DropInv fn code pc' s' := by
  have hsucc := (markDead_other hp hop hskip).2
  have hfall : (i.op = .label ∨ i.op = .brz ∨ i.op = .brnz) ∨ i.op.isControl = false → skipAt fn code (pc + 1) = false := by
    intro hf
    rw [hsucc]
    cases hi : i.op <;> simp_all [stops, Op.isControl]
  rcases step_cases (codeProg_live hp) h with ⟨-, rfl, ⟨rfl, hfo⟩ | ⟨l, -, hat⟩⟩ |
    ⟨hctl, ⟨vs, rs, world, -, -, -, rfl, rfl⟩ | ⟨world, rfl, l, -, hat⟩⟩
  · exact ⟨.inl (hfall (.inl hfo)), hs.taken⟩
  · exact dropInv_label hat hs.taken
  · refine ⟨.inl (hfall (.inr hctl)), fun l hl => ?_⟩
    simp only [St.after] at hl
    split_ifs at hl with hla
    · rcases mem_cons.1 hl with rfl | hl
      · exact reached_of_mem hp (by simp [eachLabel, hla])
      · exact hs.taken l hl
    · exact hs.taken l hl
  · exact dropInv_label hat hs.taken

/-- The two codes at the same point of the same run. -/
def DropRel (fn : Func) (code : List (Ins × Bool)) (c c' : Cfg W) : Prop :=
  c = c' ∧ ∀ pc s, c = some (pc, s) → DropInv fn code pc s

lemma dropRel_of {pc : ℕ} {s : St W} (h : DropInv fn code pc s) : DropRel fn code (some (pc, s)) (some (pc, s)) := by
  refine ⟨rfl, ?_⟩
  rintro _ _ ⟨⟩
  exact h

/-- The codes match at the point. -/
def Dropped (E : Env W) (fn : Func) (code : List (Ins × Bool)) (pc : ℕ) (s : St W) : Prop :=
  Match Event.Wild (step (codeProg fn code) E) (step (codeProg fn (markDead fn code)) E)
    (DropRel fn code) (some (pc, s)) (some (pc, s))

lemma drop_label (hs : DropInv fn code pc s) (hp : code[pc]? = some (i, false)) (hop : i.op = .label) :
    Dropped E fn code pc s := by
  obtain ⟨hq, hskip⟩ := @markDead_label fn code pc i hp hop
  refine .of_step (step_label (codeProg_live hp) hop) ?_ (dropRel_of ⟨.inl hskip, hs.taken⟩)
  cases hd : (decide (0 ≤ i.label ∧ i.label < fn.nlabels) && !reached fn code i.label) with
  | true => exact step_hole (codeProg_dead (hd ▸ hq))
  | false => exact step_label (codeProg_live (hd ▸ hq)) hop

lemma drop_dead (hc : CodeWF fn code) (hs : DropInv fn code pc s)
    (hp : code[pc]? = some (i, true)) (hskip : skipAt fn code pc = false) : Dropped E fn code pc s := by
  have hb := isBranch_iff.1 (hc.dead pc i hp)
  have hop : i.op ≠ .label := by rcases hb with h | h <;> simp [h]
  obtain ⟨hq, hnext⟩ := @markDead_other fn code pc i true hp hop hskip
  have hstop : stops i true = false := by rcases hb with h | h <;> simp [stops, h]
  exact .of_step (step_hole (codeProg_dead hp)) (step_hole (codeProg_dead hq))
    (dropRel_of ⟨.inl (hnext.trans hstop), hs.taken⟩)

lemma drop_jump (hwf : WF fn) (hc : CodeWF fn code) (hs : DropInv fn code pc s) (hp : code[pc]? = some (i, false))
    (hop : i.op = .jmp) (hf : fallsInto (code.map (·.1)) pc i.label) (hskip : skipAt fn code pc = false) :
    Dropped E fn code pc s := by
  obtain ⟨hq, -⟩ := @markDead_other fn code pc i false hp (by simp [hop]) hskip
  rw [hop, hf] at hq
  obtain ⟨m, hm, hat, hlabels⟩ := hc.fallsInto hwf hf
  refine .silent (.single (step_jmp (codeProg_live hp) hop hat)) (.head' (step_hole (codeProg_dead hq))
    (silent_path hm (fun k hk hkm => ?_) s)) (dropRel_of (dropInv_label hat hs.taken))
  obtain ⟨j, hj, hjl⟩ := hlabels k hk (by omega)
  have hjq := (@markDead_label fn code k j hj hjl).1
  cases hd : (decide (0 ≤ j.label ∧ j.label < fn.nlabels) && !reached fn code j.label) with
  | true => exact .inl (codeProg_dead (hd ▸ hjq))
  | false => exact .inr ⟨j, codeProg_live (hd ▸ hjq), hjl⟩

/-- An instruction that is kept does what it did. -/
lemma drop_keep (hc : CodeWF fn code) (hs : DropInv fn code pc s) (hp : code[pc]? = some (i, false)) (hop : i.op ≠ .label)
    (hskip : skipAt fn code pc = false) (hkeep : (i.op == .jmp && fallsInto (code.map (·.1)) pc i.label) = false) :
    Dropped E fn code pc s := by
  obtain ⟨hq, -⟩ := @markDead_other fn code pc i false hp hop hskip
  rw [hkeep, Bool.or_false] at hq
  have heq : step (codeProg fn (markDead fn code)) E (some (pc, s)) = step (codeProg fn code) E (some (pc, s)) :=
    step_congr (codeProg_live hp) (codeProg_live hq) (fun _ => rfl) rfl
      (fun l hl => markDead_labelAt hc (reached_jumpLabels hp hs hl)) (fun l hl => markDead_labelAt hc (by
        rw [reached, or_eq_true]
        exact .inr (by simpa [codeProg] using hl)))
  obtain ⟨⟨o, c⟩, hd⟩ := Option.isSome_iff_exists.1 (step_isSome (codeProg fn code) E pc s)
  refine .of_step hd (heq.trans hd) ⟨rfl, ?_⟩
  rintro pc' s' rfl
  exact dropInv_step hs hp hop hskip hkeep hd

/-- Leaving the dead code out keeps every run. -/
lemma markDead_refines (hwf : WF fn) (hc : CodeWF fn code) (hs : s.taken = []) :
    Refines Event.Wild (step (codeProg fn code) E) (some (0, s)) (step (codeProg fn (markDead fn code)) E) (some (0, s)) := by
  refine refines_of_match (R := DropRel fn code) ?_ (dropRel_of ⟨.inl rfl, by simp [hs]⟩)
  rintro (_ | ⟨pc, t⟩) _ ⟨rfl, hinv⟩
  · exact .halt .refl .refl rfl rfl
  have hinv := hinv pc t rfl
  cases hp : code[pc]? with
  | none =>
    have hp' : (markDead fn code)[pc]? = none := by
      rw [List.getElem?_eq_none_iff, length_markDead]
      exact List.getElem?_eq_none_iff.1 hp
    refine .visible (o := .lost) (d := none) .refl .refl ?_ ?_ ⟨rfl, by simp⟩
    · simp [step, codeProg, marked, hp]
    · simp [step, codeProg, marked, hp']
  | some p =>
    obtain ⟨i, d⟩ := p
    by_cases hop : i.op = .label
    · obtain ⟨rfl, -⟩ := hc.label pc i d hp hop
      exact drop_label hinv hp hop
    · have hskip : skipAt fn code pc = false := by
        rcases hinv.place with h | ⟨j, e, hj, hjl⟩
        · exact h
        · rw [hp, Option.some.injEq, mk.injEq] at hj
          exact absurd (hj.1 ▸ hjl) hop
      cases d with
      | true => exact drop_dead hc hinv hp hskip
      | false =>
        cases hf : (i.op == .jmp && fallsInto (code.map (·.1)) pc i.label) with
        | true =>
          rw [and_eq_true, beq_iff_eq] at hf
          exact drop_jump hwf hc hinv hp hf.1 hf.2 hskip
        | false => exact drop_keep hc hinv hp hop hskip hf

end
end EmbCC.Opt.CfgClean
