import EmbCC.Ir.Memory
import EmbCC.Opt.Flow

/-!
# What a register with one definition holds

In a function whose registers are written before they are read, a register whose one
definition computes it from registers with one definition each holds, wherever it is
written, what that computation gives of the registers as they are now (`held_reaches`): none of
them was written since. This is why a pass may compute with the operands of a definition instead of
its result, or take the result for a repetition of the computation.
-/

namespace EmbCC.Opt

open Ir Trace List

/-- The register is written at one place, or never. -/
def Once (fn : Func) (x : ℤ) : Prop :=
  ∀ (n : ℕ) (j : Ins), fn.ins[n]? = some j → x ∈ tempDefs j → SoleAt fn x n

/-- The instruction has one result, which depends on its operands alone. -/
def Steady {W : Type} (E : Env W) (j : Ins) : Prop :=
  ∀ {vs rs : List Val} {world world' : W}, effect E j vs world = .ok rs world' →
    ∃ r, rs = [r] ∧ world' = world ∧ ∀ world'', effect E j vs world'' = .ok [r] world''

section
variable {W : Type} {E : Env W} {fn : Func} {pc pc' n : ℕ} {s s' : St W} {i j : Ins} {t x : ℤ}

lemma once_of_cnt (h0 : 0 ≤ x) (hlt : x < fn.nvregs) (hcnt : (computeDefs fn).cnt x = 1) : Once fn x := by
  intro n j hj hd
  obtain ⟨hp, honly⟩ := only_of_cnt hcnt hj (mem_countedDefs h0 hlt hd)
  exact ⟨hp h0 hlt, fun m k hk hkd => honly m k hk (mem_countedDefs h0 hlt hkd)⟩

lemma soleAt_of_soleDef_at (hlt : t < fn.nvregs) (h : soleDef fn t = some j) :
    ∃ n, fn.ins[n]? = some j ∧ t ∈ countedDefs fn j ∧ SoleAt fn t n := by
  obtain ⟨n, hn, hmem, h0, hp, huniq⟩ := soleDef_spec h
  exact ⟨n, hn, hmem, not_lt.2 (hp hlt), fun m k hk hkd => huniq m k hk (mem_countedDefs h0 hlt hkd)⟩

lemma SoleAt.once (h : SoleAt fn x n) : Once fn x := by
  intro m j hj hd
  rwa [h.only m j hj hd]

lemma eq_dst_of_core (hc : isCore j) (h : t ∈ countedDefs fn j) : t = j.dst := by
  have htarget : defTarget j = j.dst := by
    simp only [isCore] at hc
    split at hc <;> simp_all [defTarget, writesTemp]
  have hop : j.op ≠ .landing := by
    intro hop
    simp [isCore, hop] at hc
  rw [countedDefs, if_neg hop, htarget] at h
  split_ifs at h
  · cases h
  · exact mem_singleton.1 h

lemma steady_core (h : isCore j) : Steady E j := by
  intro vs rs world world' he
  have hop : j.op ≠ .labeladdr := by
    intro hop
    simp [isCore, hop] at h
  simp only [effect, if_neg hop, if_pos h] at he ⊢
  split at he
  · rename_i v hv
    obtain ⟨rfl, rfl⟩ : [v] = rs ∧ world = world' := by simpa using he
    exact ⟨v, rfl, rfl, fun _ => rfl⟩
  · cases he

lemma steady_value {ptrw : ℕ} (M : Memory ptrw E) (h : isValue j.op) : Steady E j := by
  intro vs rs world world' he
  obtain ⟨r, rfl, hr⟩ := effect_value M h he
  rw [hr world] at he
  obtain rfl : world = world' := by simpa using he
  exact ⟨r, rfl, rfl, hr⟩

/-- The register holds what the instruction gives of the registers now. -/
def Gives (E : Env W) (s : St W) (j : Ins) (t : ℤ) : Prop :=
  ∃ vs r, (valueOpnds j).mapM s.temps = some vs ∧ effect E j vs s.world = .ok [r] s.world ∧
    s.temps t = some r

/-- Whatever has one definition, of registers with one definition, holds what it gives where it is
written. -/
def HeldAt (E : Env W) (fn : Func) (pc : ℕ) (s : St W) : Prop :=
  ∀ n j, fn.ins[n]? = some j → Steady E j → tempDefs j = [j.dst] → 0 ≤ j.dst →
    SoleAt fn j.dst n → (∀ x ∈ valueOpnds j, Once fn x) → ¬ Unwritten fn j.dst pc →
    Gives E s j j.dst

lemma HeldAt.const (h : HeldAt E fn pc s) (hlt : x < fn.nvregs) (hd : soleDef fn x = some j)
    (hop : j.op = .const) (hw : ¬ Unwritten fn x pc) : s.temps x = some (ofLong (Ir.norm j.imm j.w)) := by
  obtain ⟨m, hm, hmem, hsole⟩ := soleAt_of_soleDef_at hlt hd
  have hcore : isCore j := by simp [isCore, hop]
  obtain rfl := eq_dst_of_core hcore hmem
  have h0 : 0 ≤ j.dst := (soleDef_spec hd).choose_spec.2.2.1
  obtain ⟨vs, r, -, he, hr⟩ := h m j hm (steady_core hcore) (tempDefs_const hop) h0 hsole
    (by simp [valueOpnds, eachRead, hop]) hw
  rw [effect_const E hop] at he
  obtain rfl : ofLong (Ir.norm j.imm j.w) = r := by simpa using he
  exact hr

lemma Gives.keep (hj : Steady E j) (h : Gives E s j t) (ht : s'.temps t = s.temps t)
    (hops : ∀ x ∈ valueOpnds j, s'.temps x = s.temps x) : Gives E s' j t := by
  obtain ⟨vs, r, hvs, he, hr⟩ := h
  obtain ⟨r', hr', -, hsteady⟩ := hj he
  obtain rfl : r = r' := by simpa using hr'
  exact ⟨vs, r, (mapM_temps_congr hops).trans hvs, hsteady _, ht.trans hr⟩

variable (hwf : WrittenFirst fn)
include hwf

/-- A step keeps that registers hold what their only definition gave. -/
lemma heldAt_step (hreach : Relation.ReflTransGen (Flow fn) 0 pc) (hs : TakenInv fn s)
    (hheld : HeldAt E fn pc s) (hi : fn.ins[pc]? = some i) {o : Option Event}
    (h : step fn.prog E (some (pc, s)) = some (o, some (pc', s'))) : HeldAt E fn pc' s' := by
  intro n j hj hsteady htd h0 hsole honce hnew
  rcases step_writes hs hi h with ⟨htemps, hback⟩ | ⟨vs, rs, world, hvs, he, rfl, rfl, -, hback⟩
  · have hold := hheld n j hj hsteady htd h0 hsole honce fun hu => hnew (hback _ hu)
    exact hold.keep hsteady (congrFun htemps _) fun x _ => congrFun htemps x
  · by_cases hd : j.dst ∈ tempDefs i
    · obtain rfl := hsole.only pc i hi hd
      obtain rfl := Option.some.inj (hj.symm.trans hi)
      obtain ⟨r, rfl, rfl, hr⟩ := hsteady he
      have hself : j.dst ∉ valueOpnds j := fun hx => hwf pc j hj _ hx (hsole.unwritten hreach)
      refine ⟨vs, r, ?_, hr _, after_temps_dst h0 htd⟩
      refine (mapM_temps_congr fun x hx => after_temps_of_not_mem ?_ _ _).trans hvs
      rw [htd, mem_singleton]
      exact fun hxd => hself (hxd ▸ hx)
    · have hold : ¬ Unwritten fn j.dst pc := fun hu => hnew (hback _ hd hu)
      refine (hheld n j hj hsteady htd h0 hsole honce hold).keep hsteady
        (after_temps_of_not_mem hd _ _) fun x hx => after_temps_of_not_mem ?_ _ _
      exact fun hxi => hold (unwritten_at_source hsole (hwf n j hj x hx) (honce x hx pc i hi hxi) hreach)

lemma held_reaches {s0 : St W} (hs0 : Entry fn s0) : ∀ c, Reaches (step fn.prog E) (some (0, s0)) c → ∀ pc s,
    c = some (pc, s) → Relation.ReflTransGen (Flow fn) 0 pc ∧ TakenInv fn s ∧ HeldAt E fn pc s := by
  refine reaches_invariant (I := fun pc s => Relation.ReflTransGen (Flow fn) 0 pc ∧
    TakenInv fn s ∧ HeldAt E fn pc s) ⟨.refl, fun l hl => ?_, ?_⟩ ?_
  · rw [hs0.taken] at hl
    cases hl
  · intro n j _ _ _ _ hsole _ hw
    exact absurd (.entry hsole.param) hw
  · rintro pc pc' s s' i o - ⟨hreach, hs, hheld⟩ hi h
    exact ⟨hreach.tail (flow_of_step hs hi h), takenInv_step hs hi h, heldAt_step hwf hreach hs hheld hi h⟩

end
end EmbCC.Opt
