import EmbCC.Ir.Machine

/-!
# Removing dead instructions

Every pass that deletes code marks instructions first and closes the gaps at
the end. `compact_refines` says that closing the gaps is invisible: code with
holes and the code without them emit the same traces.
-/

namespace EmbCC.Ir

open Option List Trace
open Relation (ReflTransGen TransGen)
variable {W : Type} {E : Env W}

/-- A point of a run with its program counter renumbered. -/
def Cfg.renumber (f : ℕ → ℕ) (c : Cfg W) : Cfg W := c.map (Prod.map f id)

/-- The result of a step with its program counter renumbered. -/
def renumberStep (f : ℕ → ℕ) (r : Option (Option Event × Cfg W)) : Option (Option Event × Cfg W) :=
  r.map (Prod.map id (Cfg.renumber f))

section
variable {P Q : Prog} {f : ℕ → ℕ} (hl : ∀ l, Q.labelAt l = (P.labelAt l).map f) {pc pc' : ℕ}
include hl

lemma goto_renumber (l : ℤ) (s : St W) : Q.goto l s = renumberStep f (P.goto l s) := by
  unfold Prog.goto
  rw [hl]
  cases P.labelAt l <;> rfl

lemma branch_renumber (hpc : f (pc + 1) = pc' + 1) (i : Ins) (s : St W) (v : Option Val) : (match v with
      | some v => if brTaken i v then Q.goto i.label s else some (none, some (pc' + 1, s))
      | none => some (some .unset, none)) = renumberStep f (match v with
      | some v => if brTaken i v then P.goto i.label s else some (none, some (pc + 1, s))
      | none => some (some .unset, none)) := by
  cases v with
  | none => rfl
  | some v =>
    simp only
    split
    · exact goto_renumber hl _ s
    · rw [← hpc]
      rfl

/-- A control instruction goes to the renumbered place. -/
lemma ctlStep_renumber (hjt : Q.jt = P.jt) (hpc : f (pc + 1) = pc' + 1) (i : Ins)
    (s : St W) : ctlStep Q E i pc' s = renumberStep f (ctlStep P E i pc s) := by
  have hsw : switchTarget Q i = switchTarget P i := by
    unfold switchTarget
    rw [hjt]
  unfold ctlStep
  split
  · rw [← hpc]
    rfl
  · exact goto_renumber hl _ s
  · split
    · rfl
    · split <;> rfl
  · rfl
  · exact branch_renumber hl hpc i s _
  · exact branch_renumber hl hpc i s _
  · rw [hsw]
    split
    · exact goto_renumber hl _ s
    · rfl
  · split
    · exact goto_renumber hl _ s
    · rfl

/-- Any other instruction goes on at the renumbered place. -/
lemma seqStep_renumber (heh : Q.eh = P.eh) (hpc : f (pc + 1) = pc' + 1) (i : Ins)
    (s : St W) : seqStep Q E i pc' s = renumberStep f (seqStep P E i pc s) := by
  unfold seqStep
  split
  · rfl
  · split
    · rw [← hpc]
      rfl
    · rfl
    · rw [heh]
      split
      · rfl
      · cases P.eh[i.ehRegion - 1]? with
        | none => rfl
        | some l =>
          simp only [bind_some, hl]
          cases P.labelAt l <;> rfl

lemma step_renumber (hjt : Q.jt = P.jt) (heh : Q.eh = P.eh) (hpc : f (pc + 1) = pc' + 1) {i : Ins}
    (hp : P.code[pc]? = some (some i)) (hq : Q.code[pc']? = some (some i)) (s : St W) : step Q E
    (some (pc', s)) = renumberStep f (step P E (some (pc, s))) := by
  simp only [step, hp, hq]
  split
  · exact ctlStep_renumber hl hjt hpc i s
  · exact seqStep_renumber hl heh hpc i s

end

/-- The code without its holes. -/
def Prog.compact (P : Prog) : Prog := { P with code := P.code.reduceOption.map some }

/-- Where an instruction lands: the number of instructions kept before it. -/
def newpos (code : List (Option Ins)) (n : ℕ) : ℕ := (code.take n).reduceOption.length

variable {code : List (Option Ins)} {n : ℕ} {i : Ins}

lemma newpos_hole (h : code[n]? = some none) : newpos code (n + 1) = newpos code n := by
  rw [newpos, newpos, take_add_one, h]
  simp [reduceOption_append]

lemma newpos_ins (h : code[n]? = some (some i)) : newpos code (n + 1) = newpos code n + 1 := by
  rw [newpos, newpos, take_add_one, h]
  simp [reduceOption_append]

lemma compact_getElem (h : code[n]? = some (some i)) : (code.reduceOption.map some)[newpos code n]? = some (some i) := by
  obtain ⟨hn, hi⟩ := List.getElem?_eq_some_iff.1 h
  have hsplit : code.reduceOption = (code.take n).reduceOption ++ i :: (code.drop (n + 1)).reduceOption := by
    conv_lhs => rw [← take_append_drop n code, drop_eq_getElem_cons hn, hi]
    simp [reduceOption_append]
  rw [hsplit, map_append, newpos, getElem?_append_right (by simp)]
  simp

lemma compact_end (h : code[n]? = none) : (code.reduceOption.map some)[newpos code n]? = none := by
  rw [List.getElem?_eq_none_iff] at h
  rw [newpos, take_of_length_le h]
  simp

lemma compact_labelAt (P : Prog) (l : ℤ) : P.compact.labelAt l = (P.labelAt l).map (newpos P.code) := by
  obtain ⟨code, -, -⟩ := P
  simp only [Prog.labelAt, Prog.compact]
  induction code with
  | nil => rfl
  | cons o code ih =>
    rw [findIdx?_cons]
    cases o with
    | none =>
      simp only [isLabel, Bool.false_eq_true, if_false, Option.map_map]
      congr 1
    | some i =>
      rw [reduceOption_cons_of_some, map_cons, findIdx?_cons, ih]
      split
      · rfl
      · rw [Option.map_map, Option.map_map]
        congr 1

lemma skip_holes (P : Prog) (pc : ℕ) (s : St W) : ∃ t, ReflTransGen (Silent (step P E)) (some (pc, s)) (some (t, s)) ∧
      newpos P.code t = newpos P.code pc ∧
      (P.code[t]? = none ∨ ∃ i, P.code[t]? = some (some i)) := by
  -- on the number of instructions left
  induction hk : P.code.length - pc using Nat.strong_induction_on generalizing pc with
  | _ k ih =>
    match hp : P.code[pc]? with
    | none => exact ⟨pc, .refl, rfl, .inl hp⟩
    | some (some i) => exact ⟨pc, .refl, rfl, .inr ⟨i, hp⟩⟩
    | some none =>
      have hlt := getElem?_lt hp
      obtain ⟨t, hrun, hpos, hend⟩ := ih (P.code.length - (pc + 1)) (by omega) (pc + 1) rfl
      refine ⟨t, .head ?_ hrun, hpos.trans (newpos_hole hp), hend⟩
      simp only [Silent, step, hp]

/-- A run of the code with gaps is one of the code without. -/
lemma compact_reaches (P : Prog) {c d : Cfg W} (h : Reaches (step P E) c d) :
    Reaches (step P.compact E) (c.renumber (newpos P.code)) (d.renumber (newpos P.code)) := by
  induction h with
  | refl => exact .refl
  | @tail c d _ hstep ih =>
    obtain ⟨o, ho⟩ := hstep
    obtain _ | ⟨pc, s⟩ := c
    · cases ho
    match hp : P.code[pc]? with
    | none =>
      refine ih.tail ⟨some .lost, ?_⟩
      obtain ⟨-, rfl⟩ : _ ∧ none = d := by simpa [step, hp] using ho
      have hq := compact_end hp
      simp only [Cfg.renumber, map_some, Prod.map_apply, step, Prog.compact, hq]
      rfl
    | some none =>
      obtain ⟨-, rfl⟩ : _ ∧ some (pc + 1, s) = d := by simpa [step_hole hp] using ho
      have hpos : Cfg.renumber (newpos P.code) (some (pc + 1, s)) = Cfg.renumber (newpos P.code) (some (pc, s)) := by
        simp only [Cfg.renumber, map_some, Prod.map_apply, newpos_hole hp]
      rw [hpos]
      exact ih
    | some (some i) =>
      have hq := step_renumber (E := E) (compact_labelAt P) rfl rfl (newpos_ins hp) hp (compact_getElem hp) s
      rw [ho] at hq
      exact ih.tail ⟨o, hq⟩

/-- Leaving the gaps out keeps every run. -/
lemma compact_refines (P : Prog) (pc : ℕ) (s : St W) : Refines Event.Wild (step P E) (some (pc, s))
      (step P.compact E) (some (newpos P.code pc, s)) := by
  refine refines_of_match (R := fun c d => d = c.renumber (newpos P.code)) ?_ rfl
  rintro (_ | ⟨pc, s⟩) _ rfl
  · exact .halt .refl .refl rfl rfl
  obtain ⟨t, hrun, hpos, hend | ⟨i, hi⟩⟩ := skip_holes P pc s
  · refine .visible (o := .lost) (c := none) (d := none) hrun .refl ?_ ?_ rfl
    · simp only [step, hend]
    · have hq := compact_end hend
      rw [hpos] at hq
      simp only [Cfg.renumber, map_some, Prod.map_apply, step, Prog.compact, hq]
  · have hstep := step_renumber (E := E) (compact_labelAt P) rfl rfl (newpos_ins hi) hi (compact_getElem hi) s
    rw [hpos] at hstep
    rcases hr : step P E (some (t, s)) with _ | ⟨_ | o, c⟩
    · rw [hr] at hstep
      exact .halt hrun .refl hr hstep
    · rw [hr] at hstep
      exact .silent (.tail' hrun hr) (.single hstep) rfl
    · rw [hr] at hstep
      exact .visible hrun .refl hr hstep rfl

end EmbCC.Ir
