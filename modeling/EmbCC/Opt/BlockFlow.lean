import EmbCC.Opt.Flow
import EmbCC.Opt.Idom.Pass

/-!
# Paths of instructions and paths of blocks

Control moves down a block and from its end to the start of a successor (`flow_moves`), and along every
edge of the graph of blocks it may go (`flow_of_succ`). So the paths that leave a register with
one definition unwritten are those whose blocks avoid the block of the definition, up to the
definition itself (`Unwritten.avoids`, `unwritten_of_avoids`).
-/

namespace EmbCC.Opt

open Ir Dominators List
variable {fn : Func} {b c pc pc' n : ℕ} {i : Ins} {t : ℤ}

/-- Control goes to the next instruction of the block, or from its end to the start of a successor or
past the code. -/
inductive Moves (fn : Func) (b pc : ℕ) : ℕ → Prop
  | inside : pc + 1 < bbEnd fn b → Moves fn b pc (pc + 1)
  | edge {c : ℕ} : pc + 1 = bbEnd fn b → c ∈ succ fn b → Moves fn b pc (bbStart fn c)
  | off : pc + 1 = bbEnd fn b → Moves fn b pc fn.ins.length

lemma moves_next (h : InBlock fn b pc) (hi : fn.ins[pc]? = some i)
    (hop : endsBlock i.op = false ∨ i.op = .brz ∨ i.op = .brnz) : Moves fn b pc (pc + 1) := by
  rcases Nat.lt_or_ge (pc + 1) (bbEnd fn b) with hlt | hge
  · exact .inside hlt
  · have hend : pc + 1 = bbEnd fn b := le_antisymm h.2 hge
    have hN : 0 < fn.ins.length := (Nat.zero_le pc).trans_lt h.lt
    rcases Nat.lt_or_ge (b + 1) (nbb fn) with hb | hb
    · have hstart : pc + 1 = bbStart fn (b + 1) := hend
      rw [hstart]
      exact .edge hend (bbNext_succ h hi hend hop _ (by simp [bbNext, hb]))
    · have hlen : pc + 1 = fn.ins.length := by rw [hend, bbEnd, bbStart_of_ge (nbb_eq hN ▸ hb)]
      rw [hlen]
      exact .off hend

section
variable (hwf : WF fn)
include hwf

lemma flowLabels_succ (heh : fn.eh = []) (hb : InBlock fn b pc) (hi : fn.ins[pc]? = some i) {l : ℤ}
    (hl : l ∈ flowLabels fn i) : l ∈ fn.ins.filterMap placedLabel ∧ pc + 1 = bbEnd fn b ∧
      ∀ c, l2b fn l = some c → c ∈ succ fn b := by
  let s : St Unit := { St.blank with taken := (fn.ins.filter (·.op == .labeladdr)).map (·.label) }
  have hs : TakenInv fn s := by
    intro l hl
    obtain ⟨j, hj, rfl⟩ := mem_map.1 hl
    obtain ⟨hj, hop⟩ := mem_filter.1 hj
    exact any_eq_true.2 ⟨j, hj, by simpa using hop⟩
  refine jumpLabels_succ hwf hb hi hs ?_
  cases hop : i.op
  case jmp | brz | brnz | igoto => simpa [flowLabels, jumpLabels, hop, s] using hl
  case switch => simpa [flowLabels, jumpLabels, hop, Func.prog, Func.table] using hl
  all_goals simp [flowLabels, hop, heh] at hl

lemma flow_moves (heh : fn.eh = []) (hb : InBlock fn b pc) (h : Flow fn pc pc') : Moves fn b pc pc' := by
  obtain ⟨i, hi, ⟨hfall, rfl⟩ | ⟨l, hl, hat⟩⟩ := h
  · refine moves_next hb hi ?_
    cases hop : i.op <;> simp [fallsThrough, endsBlock, hop] at hfall ⊢
  · obtain ⟨hplaced, hend, hsucc⟩ := flowLabels_succ hwf heh hb hi hl
    obtain ⟨m, j, hj, hjl⟩ := exists_placed hplaced
    rw [labelAt_of_placed hwf hj hjl] at hat
    cases hat
    obtain ⟨c, hc, -, rfl⟩ := l2b_of_placed hwf hj hjl
    exact .edge hend (hsucc c hc)

/-- An edge between blocks is a step from the end of one to the start of the other. -/
lemma flow_of_succ (h : c ∈ succ fn b) : ∃ pc, InBlock fn b pc ∧ pc + 1 = bbEnd fn b ∧ Flow fn pc (bbStart fn c) := by
  have h := mem_succ.1 h
  rw [succCands] at h
  split at h
  · cases h
  · rename_i i hlast
    obtain ⟨hlt, hi⟩ : bbEnd fn b > bbStart fn b ∧ fn.ins[bbEnd fn b - 1]? = some i := by
      rw [bbLast] at hlast
      split_ifs at hlast with hlt
      exact ⟨hlt, hlast⟩
    refine ⟨bbEnd fn b - 1, ⟨by omega, by omega⟩, by omega, i, hi, ?_⟩
    have hlabel {l : ℤ} (hl : l ∈ flowLabels fn i) (hc : c ∈ (l2b fn l).toList) :
        ∃ l ∈ flowLabels fn i, fn.prog.labelAt l = some (bbStart fn c) := by
      obtain ⟨-, j, hj, hjl⟩ := bbLabel_eq_some.1 (l2b_spec (Option.mem_toList.1 hc)).2
      exact ⟨l, hl, labelAt_of_placed hwf hj hjl⟩
    have hlabelIn {l : ℤ} (hl : l ∈ flowLabels fn i) (hc : c ∈ (l2bIn fn l).toList) :
        ∃ l ∈ flowLabels fn i, fn.prog.labelAt l = some (bbStart fn c) := by
      rw [l2bIn] at hc
      split_ifs at hc
      · exact hlabel hl hc
      · cases hc
    have hnext (hc : c ∈ bbNext fn b) : bbStart fn c = bbEnd fn b - 1 + 1 := by
      rw [bbNext] at hc
      split_ifs at hc
      · rw [mem_singleton.1 hc]
        show bbEnd fn b = _
        omega
      · cases hc
    cases hop : i.op <;> simp only [hop] at h
    case ret | ud2 => cases h
    case jmp => exact .inr (hlabel (by simp [flowLabels, hop]) h)
    case brz | brnz =>
      rcases mem_append.1 h with h | h
      · exact .inr (hlabel (by simp [flowLabels, hop]) h)
      · exact .inl ⟨rfl, hnext h⟩
    case switch =>
      refine .inr ?_
      rcases mem_append.1 h with h | h
      · exact hlabelIn (by simp [flowLabels, hop]) h
      · obtain ⟨l, hl, h⟩ := mem_flatMap.1 h
        exact hlabelIn (by simp [flowLabels, hop, hl]) h
    case igoto =>
      obtain ⟨k, -, h⟩ := mem_flatMap.1 h
      split_ifs at h with htaken
      · refine .inr (hlabel ?_ h)
        obtain ⟨j, hj, hjop⟩ := any_eq_true.1 htaken
        simp only [Bool.and_eq_true, beq_iff_eq] at hjop
        simp only [flowLabels, hop]
        exact mem_map.2 ⟨j, mem_filter.2 ⟨hj, by simp [hjop.1]⟩, hjop.2⟩
      · cases h
    all_goals exact .inl ⟨rfl, hnext h⟩

/-- A register that may not be written yet is reached by a path around its definition. -/
lemma Unwritten.avoids (heh : fn.eh = []) {d : ℕ} (hd : InBlock fn d n) (hdef : ∀ j, fn.ins[n]? = some j → t ∈ tempDefs j)
    (h : Unwritten fn t pc) : ∀ b, InBlock fn b pc → Avoids (buildCfg fn).Edge 0 d b ∨ b = d ∧ pc ≤ n := by
  induction h with
  | entry _ =>
    intro b hb
    obtain rfl : b = 0 := by
      have h0 : InBlock fn 0 0 := ⟨(bbStart_zero fn).le, by
        have := @bbStart_lt_succ fn 0 (length_pos_of_mem (leaders_zero hb.lt))
        rwa [bbStart_zero] at this⟩
      exact hb.unique h0
    by_cases h0 : 0 = d
    · exact .inr ⟨h0, Nat.zero_le _⟩
    · exact .inl (.root h0)
  | @pass pc pc' i hpc hi hnot hflow ih =>
    intro b hb
    obtain ⟨a, ha⟩ := exists_inBlock (getElem?_lt hi)
    have hne : pc ≠ n := by
      rintro rfl
      exact hnot (hdef i hi)
    cases flow_moves hwf heh ha hflow with
    | inside hlt =>
      obtain rfl : b = a := hb.unique ⟨ha.1.trans (Nat.le_succ pc), hlt⟩
      exact (ih b ha).imp_right fun ⟨hbd, hle⟩ => ⟨hbd, by omega⟩
    | @edge c hend hc =>
      have hN : 0 < fn.ins.length := (Nat.zero_le pc).trans_lt ha.lt
      have hcb := bbStart_inBlock hN (mem_succCands_lt (mem_succ.1 hc))
      obtain rfl : b = c := hb.unique hcb
      by_cases hbd : b = d
      · exact .inr ⟨hbd, by rw [hbd]; exact hd.1⟩
      · rcases ih a ha with hav | ⟨rfl, hle⟩
        · exact .inl (.step hav hc hbd)
        · have := hd.2
          omega
    | off => exact absurd hb.lt (lt_irrefl _)
  | throw _ _ _ hl =>
    rw [heh] at hl
    cases hl

omit hwf in
lemma unwritten_in_block (hN : InBlock fn b pc)
    (hnot : ∀ m j, InBlock fn b m → fn.ins[m]? = some j → t ∉ tempDefs j) (h : Unwritten fn t (bbStart fn b)) : Unwritten fn t pc := by
  obtain ⟨hle, hlt⟩ := hN
  induction pc, hle using Nat.le_induction with
  | base => exact h
  | succ pc hpc ih =>
    have hb : InBlock fn b pc := ⟨hpc, by omega⟩
    have hi : fn.ins[pc]? = some (fn.ins.get ⟨pc, hb.lt⟩) := List.getElem?_eq_getElem hb.lt
    refine .pass (ih (by omega)) hi (hnot pc _ hb hi) ⟨_, hi, .inl ⟨?_, rfl⟩⟩
    have hends := not_endsBlock hb hlt hi
    revert hends
    cases (fn.ins.get ⟨pc, hb.lt⟩).op <;> simp [endsBlock, fallsThrough]

lemma unwritten_of_avoids {a : ℕ} (hparam : ¬ t < fn.nparams)
    (hnot : ∀ b, Avoids (buildCfg fn).Edge 0 a b → ∀ m j, InBlock fn b m → fn.ins[m]? = some j →
      t ∉ tempDefs j) (h : Avoids (buildCfg fn).Edge 0 a b) : ∀ pc, InBlock fn b pc → Unwritten fn t pc := by
  induction h with
  | root h0 =>
    intro pc hpc
    refine unwritten_in_block hpc (hnot 0 (.root h0)) ?_
    rw [bbStart_zero]
    exact .entry hparam
  | @step b c hb he hne ih =>
    intro pc hpc
    obtain ⟨m, hm, -, hflow⟩ := flow_of_succ hwf he
    have hi : fn.ins[m]? = some (fn.ins.get ⟨m, hm.lt⟩) := List.getElem?_eq_getElem hm.lt
    refine unwritten_in_block hpc (hnot c (.step hb he hne)) ?_
    exact .pass (ih m hm) hi (hnot b hb m _ hm hi) hflow

end
end EmbCC.Opt
