import EmbCC.Ir.Memory
import EmbCC.Ir.Rename

/-!
# A memory of bytes

A small memory that has the properties of `Memory`: sixteen globals of one byte each, at the
addresses from zero on, and one-byte accesses.
-/

namespace EmbCC.Ir

open Function

/-- A memory of one-byte globals at the addresses below sixteen. -/
def byteSem (i : Ins) (vs : List Val) (m : ℕ → BitVec 8) : Effect (ℕ → BitVec 8) :=
  if i.op = .gaddr then .ok [BitVec.ofNat 128 (i.sym % 16)] m
  else if i.op = .load ∧ i.size = 1 ∧ i.memoff = 0 then
    match vs with
    | [a] => .ok [(m (a.toNat % 2 ^ 64)).setWidth 128] m
    | _ => .fault
  else if i.op = .store ∧ i.size = 1 ∧ i.memoff = 0 then
    match vs with
    | [a, v] => .ok [] (update m (a.toNat % 2 ^ 64) (v.setWidth 8))
    | _ => .fault
  else .fault

lemma byteSem_cases {i : Ins} {vs rs : List Val} {m m' : ℕ → BitVec 8} (h : byteSem i vs m = .ok rs m') :
    (i.op = .gaddr ∧ rs = [BitVec.ofNat 128 (i.sym % 16)] ∧ m' = m) ∨ (∃ a, i.op = .load ∧ i.size = 1 ∧ i.memoff = 0
    ∧ vs = [a] ∧ rs = [(m (a.toNat % 2 ^ 64)).setWidth 128] ∧ m' = m) ∨ ∃ a v, i.op = .store ∧ i.size = 1 ∧ i.memoff = 0
    ∧ vs = [a, v] ∧ rs = [] ∧ m' = update m (a.toNat % 2 ^ 64) (v.setWidth 8) := by
  unfold byteSem at h
  split at h
  · rename_i hop
    injection h with hr hm
    exact .inl ⟨hop, hr.symm, hm.symm⟩
  · split at h
    · rename_i hop
      split at h
      · injection h with hr hm
        exact .inr (.inl ⟨_, hop.1, hop.2.1, hop.2.2, rfl, hr.symm, hm.symm⟩)
      · cases h
    · split at h
      · rename_i hop
        split at h
        · injection h with hr hm
          exact .inr (.inr ⟨_, _, hop.1, hop.2.1, hop.2.2, rfl, hr.symm, hm.symm⟩)
        · cases h
      · cases h

lemma bytesAt_one (u : Val) : bytesAt 8 u 1 = {u.toNat % 2 ^ 64} := by simp [bytesAt]

lemma byteSem_meaning {i : Ins} (h : isValue i.op ∨ isRead i.op) : byteSem i = byteSem (meaning i) := by
  funext vs m
  unfold byteSem
  rw [meaning_op]
  by_cases hg : i.op = .gaddr
  · rw [if_pos hg, if_pos hg]
    simp only [meaning, hg]
  · by_cases hl : i.op = .load
    · rw [if_neg hg, if_neg hg]
      simp only [meaning, hl]
    · have hs : i.op ≠ .store := fun hs => by simp [hs, isValue, isRead] at h
      simp only [hg, hl, hs, false_and, if_false]

/-- What the passes assume of a memory is true of this one. -/
def byteMemory : Memory 8 ⟨byteSem, fun _ => 0⟩ where
  get m := m
  bytes r := match r with
    | .global g => if g < 16 then {g} else ∅
    | .slot _ => ∅
  addr r := match r with
    | .global g => BitVec.ofNat 128 (g % 16)
    | .slot _ => 0
  apart := by
    rintro (g | v) (h | u) hne
    · simp only [ne_eq, Obj.global.injEq] at hne
      by_cases hg : g < 16 <;> by_cases hh : h < 16 <;> simp [hg, hh, hne]
    · simp
    · simp
    · simp
  sem_meaning := byteSem_meaning
  value := by
    intro i vs rs m m' hv he
    rcases byteSem_cases he with ⟨hop, rfl, rfl⟩ | ⟨a, hop, -⟩ | ⟨a, v, hop, -⟩
    · exact ⟨_, rfl, fun m'' => by simp [byteSem, hop]⟩
    · simp [hop, isValue] at hv
    · simp [hop, isValue] at hv
  gaddr := by
    intro i vs r m m' hop he
    rcases byteSem_cases he with ⟨-, hr, -⟩ | ⟨a, hop', -⟩ | ⟨a, v, hop', -⟩
    · exact List.singleton_inj.1 hr
    · simp [hop] at hop'
    · simp [hop] at hop'
  slotAddr := by
    intro i vs r m m' hop he
    rcases byteSem_cases he with ⟨hop', -⟩ | ⟨a, hop', -⟩ | ⟨a, v, hop', -⟩ <;> simp [hop] at hop'
  read := by
    intro i vs rs m m' hr _ he
    rcases byteSem_cases he with ⟨hop, -⟩ | ⟨a, hop, hsz, hoff, rfl, rfl, rfl⟩ | ⟨a, v, hop, -⟩
    · simp [hop, isRead] at hr
    · refine ⟨_, rfl, fun m'' hb => ?_⟩
      have hbyte := hb (a.toNat % 2 ^ 64) (by simp [footprint, hop, hsz, hoff, bytesAt_one])
      simp only [byteSem, hop, hsz, hoff, reduceCtorEq, if_false, and_self, if_true, hbyte]
    · simp [hop, isRead] at hr
  write := by
    intro i vs rs m m' hop he x hx
    rcases byteSem_cases he with ⟨hop', -⟩ | ⟨a, hop', -⟩ | ⟨a, v, hop', hsz, hoff, rfl, -, rfl⟩
    · simp [hop'] at hop
    · simp [hop'] at hop
    · refine update_of_ne (fun hxa => hx ?_) _ _
      simp [footprint, hop', hsz, hoff, bytesAt_one, hxa]
  keep := by
    intro i vs rs m m' hw he
    rcases byteSem_cases he with ⟨-, -, rfl⟩ | ⟨a, -, -, -, -, -, rfl⟩ | ⟨a, v, hop, -⟩
    · rfl
    · rfl
    · simp [hop, writesMemory] at hw

lemma byteSem_nameless : Env.Nameless ⟨byteSem, fun _ => 0⟩ := by
  refine ⟨fun i => rfl, fun {i vs rs m m'} he => ?_⟩
  rcases byteSem_cases he with ⟨hop, rfl, -⟩ | ⟨a, hop, -, -, -, rfl, -⟩ | ⟨a, v, hop, -, -, -, rfl, -⟩ <;>
    simp [tempDefs, hop, writesTemp]

end EmbCC.Ir
