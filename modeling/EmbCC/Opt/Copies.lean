import EmbCC.Ir.Memory

/-!
# Computations that became copies

A pass that finds the result of a computation in a register turns the computation into a copy of that
register (`Copying`). If along every run the register holds what the computation gives, the function goes
through the same states as before (`Copying.after_eq`).
-/

namespace EmbCC.Opt

open Ir Trace Prod

/-- `fn'` is `fn` with some of its computations and reads turned into copies. -/
structure Copying (fn fn' : Func) : Prop where
  jt : fn'.jt = fn.jt
  eh : fn'.eh = fn.eh
  length : fn'.ins.length = fn.ins.length
  ins : ∀ (n : ℕ) (i : Ins), fn.ins[n]? = some i → fn'.ins[n]? = some i ∨
    ∃ i', fn'.ins[n]? = some i' ∧ i'.op = .mov ∧ i'.dst = i.dst ∧ (isValue i.op ∨ isRead i.op)

/-- The register that `i'` copies holds what `i` gives. -/
def CopyHolds {W : Type} (E : Env W) (s : St W) (i i' : Ins) : Prop :=
  ∃ vs r, (valueOpnds i).mapM s.temps = some vs ∧ effect E i vs s.world = .ok [r] s.world ∧
    s.temps i'.a = some r

section
variable {W : Type} {E : Env W} {fn fn' : Func} {pc : ℕ} {s : St W} {i i' : Ins}

lemma tempDefs_of_value (h : isValue i.op ∨ isRead i.op) : tempDefs i = [i.dst] := by
  revert h
  cases hop : i.op <;> simp [isValue, isRead, tempDefs, hop, writesTemp]

lemma Copying.labelAt (h : Copying fn fn') (l : ℤ) : fn'.prog.labelAt l = fn.prog.labelAt l := by
  refine labelAt_congr (List.ext_getElem? fun n => ?_)
  simp only [Func.prog, List.getElem?_map]
  cases hi : fn.ins[n]? with
  | none =>
    have hi' : fn'.ins[n]? = none := by
      rw [List.getElem?_eq_none_iff, h.length]
      exact List.getElem?_eq_none_iff.1 hi
    rw [hi']
  | some i =>
    rcases h.ins n i hi with hi' | ⟨i', hi', hmov, -, hv⟩
    · rw [hi']
    · have hop : i.op ≠ .label := by
        intro hop
        simp [hop, isValue, isRead] at hv
      rw [hi']
      simp only [Option.map_some, isLabel, hmov, beq_eq_false_iff_ne.2 hop]
      rfl

/-- A copy of the register that holds the result does what the instruction does. -/
lemma step_copy (hi : fn.ins[pc]? = some i) (hi' : fn'.ins[pc]? = some i') (hmov : i'.op = .mov)
    (hdst : i'.dst = i.dst) (hv : isValue i.op ∨ isRead i.op) (h : CopyHolds E s i i') :
    (step fn'.prog E (some (pc, s))).map snd = (step fn.prog E (some (pc, s))).map snd := by
  obtain ⟨vs, r, hvs, he, hr⟩ := h
  have hctl : i.op.isControl = false := by
    revert hv
    cases i.op <;> simp [isValue, isRead, Op.isControl]
  have hctl' : i'.op.isControl = false := by rw [hmov]; rfl
  have htd : tempDefs i' = tempDefs i := by
    rw [tempDefs_of_value hv]
    simp [tempDefs, hmov, writesTemp, hdst]
  have hafter : s.after i' [r] s.world = s.after i [r] s.world := by
    simp only [St.after, htd, isValue_not_labeladdr hv, hmov, reduceCtorEq, if_false]
  have hvs' : (valueOpnds i').mapM s.temps = some [r] := by simp [valueOpnds, eachRead, hmov, hr]
  have he' : effect E i' [r] s.world = .ok [r] s.world := by simp [effect, isCore, evalCore, hmov]
  rw [step_exec (prog_code hi) hctl hvs he, step_exec (prog_code hi') hctl' hvs' he', hafter]
  rfl

/-- Wherever a run comes to an instruction that `mov` made a copy, the copied register holds what it gives. -/
def CopiesHold (mov : Ins → ℤ → Ins) (E : Env W) (fn fn' : Func) (s₀ : St W) : Prop :=
  ∀ pc s i i', Reaches (step fn.prog E) (some (0, s₀)) (some (pc, s)) → fn.ins[pc]? = some i →
    fn'.ins[pc]? = some i' → i' = i ∨ ∃ src vs r, i' = mov i src ∧ (valueOpnds i).mapM s.temps = some vs ∧
      effect E i vs s.world = .ok [r] s.world ∧ s.temps src = some r

lemma Copying.after_eq {s0 : St W} {mov : Ins → ℤ → Ins} (h : Copying fn fn') (hmov : ∀ i src, (mov i src).a = src)
    (hright : CopiesHold mov E fn fn' s0) : (∀ n, after (step fn'.prog E) n (some (0, s0)) = after (step fn.prog E) n
    (some (0, s0))) ∧ CopiesHold mov E fn fn' s0 := by
  refine ⟨after_congr fun c hc => ?_, hright⟩
  obtain _ | ⟨pc, s⟩ := c
  · rfl
  · cases hi : fn.ins[pc]? with
    | none =>
      have hi' : fn'.ins[pc]? = none := by
        rw [List.getElem?_eq_none_iff, h.length]
        exact List.getElem?_eq_none_iff.1 hi
      simp [step, Func.prog, hi, hi']
    | some i =>
      have hsame (hi' : fn'.ins[pc]? = some i) : step fn'.prog E (some (pc, s)) = step fn.prog E (some (pc, s)) :=
        step_congr (prog_code hi) (prog_code hi') (fun _ => h.jt) h.eh (fun l _ => h.labelAt l) fun l _ => h.labelAt l
      rcases h.ins pc i hi with hi' | ⟨i', hi', hop, hdst, hv⟩
      · rw [hsame hi']
      · rcases hright pc s i i' hc hi hi' with rfl | ⟨src, vs, r, rfl, hvs, heff, hr⟩
        · rw [hsame hi']
        · exact step_copy hi hi' hop hdst hv ⟨vs, r, hvs, heff, by rwa [hmov]⟩

end
end EmbCC.Opt
