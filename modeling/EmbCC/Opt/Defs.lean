import EmbCC.Ir.Machine

/-!
# Definitions of a register

`compute_defs` counts the definitions of each register and remembers the
instruction of a register that has only one. A register whose one definition
is a constant holds that constant whenever it holds anything
(`constInv_step`).
-/

namespace EmbCC.Opt

open List Ir Function Prod

/-- `struct defs`. -/
structure Defs where
  cnt : ℤ → ℕ
  ins : ℤ → ℤ

/-- One more definition of `v`, at instruction `n`. -/
def Defs.note (d : Defs) (p : ℤ × ℕ) : Defs where
  cnt := update d.cnt p.1 (d.cnt p.1 + 1)
  ins := update d.ins p.1 (if d.cnt p.1 = 0 then p.2 else -1)

/-- The definitions that `compute_defs` counts at an instruction: both of a landing pad's
registers, else its target. -/
def countedDefs (fn : Func) (i : Ins) : List ℤ :=
  if i.op = .landing then [i.dst, i.b].filter fun v => ¬ (v < 0 ∨ v ≥ fn.nvregs)
  else if defTarget i < 0 then [] else [defTarget i]

/-- Every definition with its place, in order. -/
def defSites (fn : Func) : List (ℤ × ℕ) :=
  fn.ins.zipIdx.flatMap fun p => (countedDefs fn p.1).map (·, p.2)

/-- `compute_defs`; a parameter is bound once at entry. -/
def computeDefs (fn : Func) : Defs :=
  (defSites fn).foldl Defs.note
    { cnt := fun v => if 0 ≤ v ∧ v < fn.nparams ∧ v < fn.nvregs then 1 else 0, ins := fun _ => -1 }

/-- The instruction that defines `v`, if it is the only one. -/
def soleDef (fn : Func) (v : ℤ) : Option Ins :=
  let d := computeDefs fn
  if v < 0 ∨ d.cnt v ≠ 1 ∨ d.ins v < 0 then none else fn.ins[(d.ins v).toNat]?

def getConst (fn : Func) (v : ℤ) : Option (BitVec 64) :=
  (soleDef fn v).bind fun i => if i.op = .const ∧ i.flt = false then some i.imm else none

/-- `ir_result_w`: the width of a result. -/
def irResultW (i : Ins) : ℕ := if i.op = .cmp then 4 else i.w

def irResultFlt (i : Ins) : Bool := if i.op = .cmp then false else i.flt

/-- `to_mov`: the instruction becomes a copy of `src`. -/
def toMov (i : Ins) (src : ℤ) : Ins :=
  { i with w := irResultW i, flt := irResultFlt i, op := .mov, a := src, b := -1 }

lemma foldl_note_cnt (sites : List (ℤ × ℕ)) (d : Defs) (v : ℤ) :
    (sites.foldl Defs.note d).cnt v = d.cnt v + (sites.filter (·.1 = v)).length := by
  induction sites generalizing d with
  | nil => rfl
  | cons p sites ih =>
    rw [foldl_cons, ih, Defs.note, filter_cons]
    by_cases hp : p.1 = v
    · simp only [hp, update_self, decide_true, if_true, length_cons]
      omega
    · simp only [update_of_ne (Ne.symm hp), hp, decide_false, Bool.false_eq_true, if_false]

lemma foldl_note_ins (sites : List (ℤ × ℕ)) (d : Defs) (v : ℤ) : (sites.foldl Defs.note d).ins v = d.ins v
    ∨ (sites.foldl Defs.note d).ins v = -1 ∨ ∃ n : ℕ, (sites.foldl Defs.note d).ins v = n ∧ (v, n) ∈ sites := by
  induction sites generalizing d with
  | nil => exact .inl rfl
  | cons p sites ih =>
    rw [foldl_cons]
    rcases ih (d.note p) with h | h | ⟨n, hn, hmem⟩
    · rw [h, Defs.note]
      by_cases hp : v = p.1
      · subst hp
        simp only [update_self]
        split
        · exact .inr (.inr ⟨p.2, rfl, .head _⟩)
        · exact .inr (.inl rfl)
      · exact .inl (by simp only [update_of_ne hp])
    · exact .inr (.inl h)
    · exact .inr (.inr ⟨n, hn, .tail _ hmem⟩)

variable {fn : Func} {v : ℤ} {n : ℕ} {i : Ins}

lemma mem_defSites : (v, n) ∈ defSites fn ↔ ∃ i, fn.ins[n]? = some i ∧ v ∈ countedDefs fn i := by
  simp only [defSites, mem_flatMap, mem_map, mk.injEq, Prod.exists]
  constructor
  · rintro ⟨i, k, hik, w, hw, rfl, rfl⟩
    exact ⟨i, List.mem_zipIdx_iff_getElem?.1 hik, hw⟩
  · rintro ⟨i, hi, hv⟩
    exact ⟨i, n, List.mem_zipIdx_iff_getElem?.2 hi, v, hv, rfl, rfl⟩

lemma only_of_cnt (hcnt : (computeDefs fn).cnt v = 1) (hi : fn.ins[n]? = some i) (hv : v ∈ countedDefs fn i) :
    (0 ≤ v → v < fn.nvregs → ¬ v < fn.nparams) ∧ ∀ (m : ℕ) (j : Ins), fn.ins[m]? = some j → v ∈ countedDefs fn j → m = n := by
  rw [computeDefs, foldl_note_cnt] at hcnt
  have hfil : (v, n) ∈ (defSites fn).filter (·.1 = v) := by simpa using mem_defSites.2 ⟨i, hi, hv⟩
  have hlen := length_pos_of_mem hfil
  refine ⟨fun h0 hlt hp => ?_, fun m j hj hdj => ?_⟩
  · simp only [h0, hlt, hp, and_self, if_true] at hcnt
    omega
  · have hone : ((defSites fn).filter (·.1 = v)).length = 1 := by omega
    obtain ⟨p, hp⟩ := List.length_eq_one_iff.1 hone
    have hm : (v, m) ∈ (defSites fn).filter (·.1 = v) := by simpa using mem_defSites.2 ⟨j, hj, hdj⟩
    rw [hp, mem_singleton] at hfil hm
    exact congrArg snd (hm.trans hfil.symm)

/-- The only definition of a register, and that it is the only one. -/
lemma soleDef_spec (h : soleDef fn v = some i) : ∃ n : ℕ, fn.ins[n]? = some i ∧ v ∈ countedDefs fn i ∧ 0 ≤ v
    ∧ (v < fn.nvregs → fn.nparams ≤ v) ∧ ∀ (m : ℕ) (j : Ins), fn.ins[m]? = some j → v ∈ countedDefs fn j → m = n := by
  simp only [soleDef] at h
  split at h
  · cases h
  · rename_i hc
    push Not at hc
    obtain ⟨hv, hcnt, hins⟩ := hc
    rcases foldl_note_ins (defSites fn) _ v with hn | hn | ⟨n, hn, hmem⟩
    · rw [computeDefs, hn] at hins
      cases hins
    · rw [computeDefs, hn] at hins
      cases hins
    · rw [computeDefs, hn, Int.toNat_natCast] at h
      obtain ⟨j, hj, hd⟩ := mem_defSites.1 hmem
      obtain rfl : j = i := by rw [h] at hj; exact (Option.some.inj hj).symm
      obtain ⟨hp, huniq⟩ := only_of_cnt hcnt hj hd
      exact ⟨n, hj, hd, hv, fun hlt => not_lt.1 (hp hv hlt), huniq⟩

section
variable {W : Type}
variable {i : Ins} {s : St W} {world : W} {fn : Func} {E : Env W} {t : ℤ} {pc : ℕ}

lemma tempDefs_eq_defTarget (hl : i.op ≠ .landing) (h : t ∈ tempDefs i) : t = defTarget i := by
  unfold tempDefs at h
  rw [if_neg hl] at h
  split at h
  · rename_i hw
    rw [List.mem_singleton.1 h, defTarget, if_pos (.inr hw)]
  · cases h

lemma after_temps_dst {v : Val} (h0 : 0 ≤ i.dst)
    (ht : tempDefs i = [i.dst]) : (s.after i [v] world).temps i.dst = some v := by
  simp only [St.after, ht, setTemps, setTemp]
  rw [if_neg (by omega), update_self]

lemma after_temps_target {v : Val} (h0 : 0 ≤ i.dst)
    (hw : writesTemp i.op) (hl : i.op ≠ .landing) : (s.after i [v] world).temps i.dst = some v :=
  after_temps_dst h0 (by rw [tempDefs, if_neg hl, if_pos (.inl hw)])

lemma mem_countedDefs (h0 : 0 ≤ t) (hn : t < fn.nvregs) (h : t ∈ tempDefs i) : t ∈ countedDefs fn i := by
  unfold tempDefs at h
  unfold countedDefs
  split at h
  · rename_i hl
    rw [if_pos hl]
    simp only [mem_filter, h, true_and, decide_eq_true_eq]
    omega
  · rename_i hl
    rw [if_neg hl]
    split at h
    · rename_i hw
      have ht : defTarget i = t := by rw [List.mem_singleton.1 h, defTarget, if_pos (.inr hw)]
      rw [ht, if_neg (by omega)]
      exact .head _
    · cases h

/-- A register whose only definition is a constant holds that constant or nothing. -/
def ConstInv (fn : Func) (s : St W) : Prop :=
  ∀ t i, soleDef fn t = some i → i.op = .const →
    s.temps t = none ∨ s.temps t = some (ofLong (norm i.imm i.w))

lemma effect_const (E : Env W) (hi : i.op = .const) (vs : List Val) (world : W) :
    effect E i vs world = .ok [ofLong (norm i.imm i.w)] world := by
  simp [effect, isCore, evalCore, hi]

lemma tempDefs_const (hi : i.op = .const) : tempDefs i = [i.dst] := by
  simp [tempDefs, hi, writesTemp]

/-- An instruction keeps that registers with a constant as definition hold it. -/
lemma constInv_after {vs rs : List Val} (hregs : ∀ i ∈ fn.ins, ∀ t ∈ tempDefs i, t < fn.nvregs) (hs : ConstInv fn s)
    (hi : fn.ins[pc]? = some i) (he : effect E i vs s.world = .ok rs world) : ConstInv fn (s.after i rs world) := by
  intro t j hj hjc
  by_cases ht : t ∈ tempDefs i
  · obtain ⟨n, hn, -, h0, -, huniq⟩ := soleDef_spec hj
    have hmem : i ∈ fn.ins := mem_of_getElem? hi
    have hpc := huniq pc i hi (mem_countedDefs h0 (hregs i hmem t ht) ht)
    subst hpc
    obtain rfl : j = i := by rw [hi] at hn; exact (Option.some.inj hn).symm
    rw [effect_const E hjc] at he
    obtain ⟨rfl, rfl⟩ : [ofLong (norm j.imm j.w)] = rs ∧ s.world = world := by simpa using he
    rw [tempDefs_const hjc, mem_singleton] at ht
    refine .inr ?_
    simp only [St.after, tempDefs_const hjc, setTemps, setTemp, ← ht]
    rw [if_neg (by omega), update_self]
  · rw [after_temps_of_not_mem ht]
    exact hs t j hj hjc

lemma constInv_step {s' : St W} {pc' : ℕ} {o : Option Event} (hregs : ∀ i ∈ fn.ins, ∀ t ∈ tempDefs i, t < fn.nvregs)
    (hs : ConstInv fn s) (hi : fn.ins[pc]? = some i)
    (h : step fn.prog E (some (pc, s)) = some (o, some (pc', s'))) : ConstInv fn s' := by
  have hcode : fn.prog.code[pc]? = some (some i) := by simp [Func.prog, hi]
  rcases step_cases hcode h with ⟨-, rfl, -⟩ | ⟨-, ⟨vs, rs, world, -, he, -, -, rfl⟩ | ⟨world, rfl, -⟩⟩
  · exact hs
  · exact constInv_after hregs hs hi he
  · exact hs

/-- The state at the entry of a function: only the parameters hold a value. -/
structure Entry (fn : Func) (s : St W) : Prop where
  temps : ∀ t : ℤ, fn.nparams ≤ t → s.temps t = none
  taken : s.taken = []

lemma Entry.constInv (hp : fn.nparams ≤ fn.nvregs) (h : Entry fn s) : ConstInv fn s := by
  intro t i hi _
  obtain ⟨n, -, -, -, hlt, -⟩ := soleDef_spec hi
  refine .inl (h.temps t ?_)
  by_cases ht : t < fn.nvregs
  · exact hlt ht
  · omega

lemma blank_entry (fn : Func) : Entry fn St.blank := ⟨fun _ _ => rfl, rfl⟩

end
end EmbCC.Opt
