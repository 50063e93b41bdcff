import EmbCC.Ir.Machine

/-!
# Straight-line code

Integer instructions run one after another on the registers alone, for code a pass
emits in place of one instruction. `step_execIns` says that this is what the machine
does with each of them.
-/

namespace EmbCC.Ir

/-- An integer instruction on the registers; `none` where it is not one, reads a register that was
never written, or traps. -/
def execIns (temps : ℤ → Option Val) (i : Ins) : Option (ℤ → Option Val) :=
  if isCore i then
    ((valueOpnds i).mapM temps).bind fun vs => (evalCore i vs).map (setTemp temps i.dst)
  else none

/-- The instructions in order. -/
def execSeq (temps : ℤ → Option Val) (code : List Ins) : Option (ℤ → Option Val) :=
  code.foldlM execIns temps

lemma execSeq_append (temps : ℤ → Option Val) (c1 c2 : List Ins) :
    execSeq temps (c1 ++ c2) = (execSeq temps c1).bind (execSeq · c2) := by simp [execSeq]

lemma execSeq_singleton (temps : ℤ → Option Val) (i : Ins) : execSeq temps [i] = execIns temps i := by
  simp [execSeq]

lemma tempDefs_core {i : Ins} (hi : isCore i) : tempDefs i = [i.dst] := by
  simp only [isCore] at hi
  split at hi <;> simp_all [tempDefs, writesTemp]

lemma isControl_core {i : Ins} (hi : isCore i) : i.op.isControl = false ∧ i.op ≠ .labeladdr := by
  simp only [isCore] at hi
  split at hi <;> simp_all [Op.isControl]

lemma step_execIns {W : Type} {P : Prog} {E : Env W} {pc : ℕ} {i : Ins} {s : St W}
    {temps : ℤ → Option Val} (hi : P.code[pc]? = some (some i)) (h : execIns s.temps i = some temps) :
    ∃ vs, step P E (some (pc, s)) = some (some (.exec i vs), some (pc + 1, { s with temps })) := by
  simp only [execIns] at h
  split_ifs at h with hcore
  obtain ⟨vs, hvs, h⟩ := Option.bind_eq_some_iff.1 h
  obtain ⟨v, hv, rfl⟩ := Option.map_eq_some_iff.1 h
  obtain ⟨hctl, hlab⟩ := isControl_core hcore
  refine ⟨vs, ?_⟩
  simp [step, hi, hctl, seqStep, hvs, effect, hlab, hcore, hv, St.after, tempDefs_core hcore, setTemps]

end EmbCC.Ir
