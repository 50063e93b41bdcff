import EmbCC.Opt.Cfg

/-!
# Paths of a function

Control flow from instruction to instruction, whatever the values are, and
the paths that reach an instruction without writing a register
(`Unwritten`). A function in which no instruction reads a register that some
path leaves unwritten is `WrittenFirst`.
-/

namespace EmbCC.Opt

open Ir Trace

/-- The labels an instruction may pass control to. -/
def flowLabels (fn : Func) (i : Ins) : List ℤ :=
  match i.op with
  | .jmp | .brz | .brnz => [i.label]
  | .switch => i.label :: fn.table i
  | .igoto => (fn.ins.filter (·.op == .labeladdr)).map (·.label)
  | .label | .ret | .ud2 => []
  | _ => fn.eh

/-- May control go on to the next instruction? -/
def fallsThrough : Op → Bool
  | .jmp | .switch | .igoto | .ret | .ud2 => false
  | _ => true

/-- Control may go from one instruction to the other. -/
def Flow (fn : Func) (pc pc' : ℕ) : Prop :=
  ∃ i, fn.ins[pc]? = some i ∧ ((fallsThrough i.op ∧ pc' = pc + 1) ∨
    ∃ l ∈ flowLabels fn i, fn.prog.labelAt l = some pc')

/-- Some path from the entry comes to `pc` without a write to `t`. An instruction that throws
writes nothing. -/
inductive Unwritten (fn : Func) (t : ℤ) : ℕ → Prop
  | entry : ¬ t < fn.nparams → Unwritten fn t 0
  | pass {pc pc' : ℕ} {i : Ins} : Unwritten fn t pc → fn.ins[pc]? = some i → t ∉ tempDefs i →
      Flow fn pc pc' → Unwritten fn t pc'
  | throw {pc pc' : ℕ} {i : Ins} {l : ℤ} : Unwritten fn t pc → fn.ins[pc]? = some i →
      i.op.isControl = false → l ∈ fn.eh → fn.prog.labelAt l = some pc' → Unwritten fn t pc'

/-- Every register is written before it is read, on every path. -/
def WrittenFirst (fn : Func) : Prop :=
  ∀ (pc : ℕ) (i : Ins), fn.ins[pc]? = some i → ∀ t ∈ valueOpnds i, ¬ Unwritten fn t pc

section
variable {W : Type} {E : Env W} {fn : Func} {pc pc' : ℕ} {s s' : St W} {i : Ins}
  {o : Option Event}

lemma jumpLabels_flow (hs : TakenInv fn s) {l : ℤ} (hl : l ∈ jumpLabels fn.prog i s) : l ∈ flowLabels fn i := by
  unfold jumpLabels at hl
  split at hl
  case h_1 hop => simpa [flowLabels, hop] using hl
  case h_2 hop => simpa [flowLabels, hop] using hl
  case h_3 hop => simpa [flowLabels, hop] using hl
  case h_4 hop => simpa [flowLabels, hop, Func.table, Func.prog] using hl
  case h_5 hop =>
    obtain ⟨j, hj, hop'⟩ := List.any_eq_true.1 (hs l hl)
    simp only [Bool.and_eq_true, beq_iff_eq] at hop'
    simp only [flowLabels, hop]
    exact List.mem_map.2 ⟨j, List.mem_filter.2 ⟨hj, by simp [hop'.1]⟩, hop'.2⟩
  case h_6 => cases hl

lemma flowLabels_seq (h : i.op.isControl = false) : flowLabels fn i = fn.eh := by
  unfold flowLabels
  revert h
  cases i.op <;> simp [Op.isControl]

section
variable (hs : TakenInv fn s) (hi : fn.ins[pc]? = some i)
  (h : step fn.prog E (some (pc, s)) = some (o, some (pc', s')))
include hs hi h

lemma flow_of_step : Flow fn pc pc' := by
  refine ⟨i, hi, ?_⟩
  rcases step_cases (prog_code hi) h with ⟨-, -, ⟨hpc, hop⟩ | ⟨l, hl, hat⟩⟩ |
    ⟨hctl, ⟨vs, rs, world, -, -, -, hpc, -⟩ | ⟨world, -, l, hl, hat⟩⟩
  · exact .inl ⟨by rcases hop with h | h | h <;> simp [fallsThrough, h], hpc⟩
  · exact .inr ⟨l, jumpLabels_flow hs hl, hat⟩
  · refine .inl ⟨?_, hpc⟩
    revert hctl
    cases i.op <;> simp [Op.isControl, fallsThrough]
  · exact .inr ⟨l, by rwa [flowLabels_seq hctl], hat⟩

/-- What a step writes, and what stays unwritten. -/
lemma step_writes : (s'.temps = s.temps ∧ ∀ t, Unwritten fn t pc → Unwritten fn t pc') ∨ ∃ vs rs world,
    (valueOpnds i).mapM s.temps = some vs ∧ effect E i vs s.world = .ok rs world ∧ pc' = pc + 1 ∧ s' = s.after i rs world
    ∧ i.op.isControl = false ∧ ∀ t, t ∉ tempDefs i → Unwritten fn t pc → Unwritten fn t pc' := by
  have hflow := flow_of_step hs hi h
  rcases step_cases (prog_code hi) h with ⟨-, rfl, hto⟩ |
    ⟨hctl, ⟨vs, rs, world, hvs, he, -, rfl, rfl⟩ | ⟨world, rfl, l, hl, hat⟩⟩
  · have hc : i.op.isControl := by
      rcases hto with ⟨-, hop | hop | hop⟩ | ⟨l, hl, -⟩
      · simp [hop, Op.isControl]
      · simp [hop, Op.isControl]
      · simp [hop, Op.isControl]
      · exact isControl_of_jump hl
    exact .inl ⟨rfl, fun t ht => .pass ht hi (by simp [tempDefs_control hc]) hflow⟩
  · exact .inr ⟨vs, rs, world, hvs, he, rfl, rfl, hctl, fun t ht hu => .pass hu hi ht hflow⟩
  · exact .inl ⟨rfl, fun t ht => .throw ht hi hctl hl hat⟩

lemma takenInv_step : TakenInv fn s' := by
  rcases step_cases (prog_code hi) h with ⟨-, rfl, -⟩ | ⟨-, ⟨vs, rs, world, -, -, -, -, rfl⟩ | ⟨world, rfl, -⟩⟩
  · exact hs
  · exact takenInv_after hs hi rs world
  · exact hs

end
end

variable {fn : Func} {t : ℤ}

lemma Unwritten.pred {n : ℕ} {i : Ins} (hi : fn.ins[n + 1]? = some i) (hop : i.op ≠ .label) (h : Unwritten fn t (n + 1)) :
    Unwritten fn t n ∧ ∀ j, fn.ins[n]? = some j → t ∉ tempDefs j := by
  have hlab := labelAt_ne hi hop
  generalize hm : n + 1 = m at h
  cases h with
  | entry => omega
  | @pass pc _ j hpc hj ht hflow =>
    obtain ⟨k, -, ⟨-, hnext⟩ | ⟨l, -, hat⟩⟩ := hflow
    · obtain rfl : n = pc := by omega
      refine ⟨hpc, fun j' hj' => ?_⟩
      rw [hj] at hj'
      exact Option.some.inj hj' ▸ ht
    · exact absurd (hm ▸ hat) (hlab l)
  | throw _ _ _ _ hat => exact absurd (hm ▸ hat) (hlab _)

lemma Unwritten.not_mem_tempDefs {m n : ℕ} {j : Ins} (hmn : m < n) (hline : ∀ k, m < k → k ≤ n → ∃ i, fn.ins[k]? = some i
    ∧ i.op ≠ .label) (h : Unwritten fn t n) (hj : fn.ins[m]? = some j) : t ∉ tempDefs j := by
  induction n, Nat.succ_le_of_lt hmn using Nat.le_induction with
  | base =>
    obtain ⟨i, hi, hop⟩ := hline (m + 1) (by omega) le_rfl
    exact (h.pred hi hop).2 j hj
  | succ n hn ih =>
    obtain ⟨i, hi, hop⟩ := hline (n + 1) (by omega) le_rfl
    exact ih (by omega) (fun k hk hkn => hline k hk (by omega)) (h.pred hi hop).1

lemma Unwritten.not_param {pc : ℕ} (h : Unwritten fn t pc) : ¬ t < fn.nparams := by
  induction h with
  | entry h => exact h
  | pass _ _ _ _ ih | throw _ _ _ _ _ ih => exact ih

lemma writtenFirst_of_straight (hop : ∀ i ∈ fn.ins, i.op ≠ .label) (h : ∀ n < fn.ins.length, ∀ i ∈ fn.ins[n]?,
    ∀ t ∈ valueOpnds i, t < fn.nparams ∨ t ∈ (fn.ins.take n).flatMap tempDefs) : WrittenFirst fn := by
  intro n i hi t ht hu
  have hlen := getElem?_lt hi
  obtain ⟨j, hj, htj⟩ := List.mem_flatMap.1 ((h n hlen i hi t ht).resolve_left hu.not_param)
  obtain ⟨m, hm⟩ := List.getElem?_of_mem hj
  have hmn : m < n := by
    have := getElem?_lt hm
    rw [List.length_take] at this
    omega
  rw [List.getElem?_take_of_lt hmn] at hm
  refine hu.not_mem_tempDefs hmn (fun k _ hk => ?_) hm htj
  have hk' : fn.ins[k]? = some (fn.ins.get ⟨k, hk.trans_lt hlen⟩) :=
    List.getElem?_eq_getElem (hk.trans_lt hlen)
  exact ⟨_, hk', hop _ (List.mem_of_getElem? hk')⟩

lemma writtenFirst_of_table (heh : fn.eh = []) (written : List (List ℤ))
    (hentry : ∀ t ∈ written.getD 0 [], t < fn.nparams) (hpass : ∀ pc < fn.ins.length, ∀ i ∈ fn.ins[pc]?,
      (fallsThrough i.op → ∀ t ∈ written.getD (pc + 1) [], t ∈ written.getD pc [] ∨ t ∈ tempDefs i) ∧
      ∀ l ∈ flowLabels fn i, ∀ pc' ∈ fn.prog.labelAt l, ∀ t ∈ written.getD pc' [], t ∈ written.getD pc [] ∨ t ∈ tempDefs i)
    (hread : ∀ pc < fn.ins.length, ∀ i ∈ fn.ins[pc]?, ∀ t ∈ valueOpnds i, t ∈ written.getD pc []) : WrittenFirst fn := by
  have hnot {t : ℤ} {pc : ℕ} (h : Unwritten fn t pc) : t ∉ written.getD pc [] := by
    induction h with
    | entry hp => exact fun ht => hp (hentry t ht)
    | @pass pc pc' i _ hi htd hflow ih =>
      intro ht
      have hp := hpass pc (getElem?_lt hi) i hi
      obtain ⟨j, hj, ⟨hfall, rfl⟩ | ⟨l, hl, hat⟩⟩ := hflow
      · obtain rfl := Option.some.inj (hi.symm.trans hj)
        exact (hp.1 hfall t ht).elim ih htd
      · obtain rfl := Option.some.inj (hi.symm.trans hj)
        exact (hp.2 l hl pc' hat t ht).elim ih htd
    | throw _ _ _ hl =>
      rw [heh] at hl
      cases hl
  intro pc i hi t ht hu
  exact hnot hu (hread pc (getElem?_lt hi) i hi t ht)

section
variable {fn : Func} {t x : ℤ} {nt nx : ℕ}

/-- `t` is written at `n` and nowhere else, and is no parameter. -/
structure SoleAt (fn : Func) (t : ℤ) (n : ℕ) : Prop where
  param : ¬ t < fn.nparams
  only : ∀ (m : ℕ) (j : Ins), fn.ins[m]? = some j → t ∈ tempDefs j → m = n

lemma Unwritten.of_source (ht : SoleAt fn t nt) (hx : ¬ Unwritten fn x nt) {pc : ℕ}
    (h : Unwritten fn x pc) : Unwritten fn t pc := by
  induction h with
  | entry _ => exact .entry ht.param
  | @pass pc _ i hpc hi _ hflow ih =>
    refine .pass ih hi (fun htd => hx ?_) hflow
    exact ht.only pc i hi htd ▸ hpc
  | throw _ hi hctl hl hat ih => exact .throw ih hi hctl hl hat

lemma SoleAt.unwritten (hx : SoleAt fn x nx) (hreach : Relation.ReflTransGen (Flow fn) 0 nx) : Unwritten fn x nx := by
  have key : ∀ pc, Relation.ReflTransGen (Flow fn) 0 pc → Unwritten fn x pc ∨ Unwritten fn x nx := by
    intro pc h
    induction h with
    | refl => exact .inl (.entry hx.param)
    | @tail pc pc' _ hflow ih =>
      rcases ih with ih | ih
      · obtain ⟨i, hi, hto⟩ := hflow
        by_cases hd : x ∈ tempDefs i
        · exact .inr (hx.only pc i hi hd ▸ ih)
        · exact .inl (.pass ih hi hd ⟨i, hi, hto⟩)
      · exact .inr ih
  exact (key nx hreach).elim id id

lemma unwritten_at_source (ht : SoleAt fn t nt) (hxt : ¬ Unwritten fn x nt)
    (hx : SoleAt fn x nx) (hreach : Relation.ReflTransGen (Flow fn) 0 nx) : Unwritten fn t nx :=
  (hx.unwritten hreach).of_source ht hxt

end
end EmbCC.Opt
