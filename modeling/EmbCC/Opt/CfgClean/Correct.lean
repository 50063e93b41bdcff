import EmbCC.Opt.CfgClean.Drop

/-!
# CFG cleanup: the whole pass

The rewrites one after the other. The pass is right on every run in which the
rule for repeated conditions meets branches that agree on their temp
(`PairOk`), and wrong on some in which it does not.
-/

namespace EmbCC.Opt.CfgClean

open Ir Trace

section
variable {fn : Func} {n : ℕ} {j : Ins}

lemma threadJumps_old {i' : Ins} (h : (threadJumps fn).ins[n]? = some i') : ∃ i, fn.ins[n]? = some i ∧ i'.op = i.op
    ∧ i'.a = i.a ∧ i'.w = i.w ∧ tempDefs i' = tempDefs i ∧ defTarget i' = defTarget i := by
  cases hi : fn.ins[n]? with
  | none => simp [threadJumps, hi] at h
  | some i =>
    rw [threadJumps_getElem hi, Option.some.injEq] at h
    subst h
    refine ⟨i, rfl, ?_⟩
    split <;> exact ⟨rfl, rfl, rfl, rfl, rfl⟩

lemma condSite_threadJumps (h : CondSite (threadJumps fn) n j) : ∃ k, CondSite fn n k ∧ k.a = j.a ∧ k.w = j.w := by
  obtain ⟨m, hm, hj, hb, hbetween⟩ := h
  obtain ⟨k, hk, hop, ha, hw, -⟩ := threadJumps_old hj
  refine ⟨k, ⟨m, hm, hk, ?_, fun x y hx hxn hy => ?_⟩, ha.symm, hw.symm⟩
  · rw [isBranch, ← hop]
    exact hb
  · have hy' := threadJumps_getElem hy
    obtain ⟨hl, hd⟩ := hbetween x _ hx hxn hy'
    obtain ⟨y', hy'', hop', -, -, -, hdef⟩ := threadJumps_old hy'
    rw [hy, Option.some.injEq] at hy''
    subst hy''
    rw [hop'] at hl
    rw [hdef, ha] at hd
    exact ⟨hl, hd⟩

lemma pairOk_threadJumps {W : Type} {s : St W} (h : PairOk fn n s) : PairOk (threadJumps fn) n s where
  width j' i' v hsite hi' hb ha hv := by
    obtain ⟨j, hj, hja, hjw⟩ := condSite_threadJumps hsite
    obtain ⟨i, hi, hop, hia, hiw, -⟩ := threadJumps_old hi'
    rw [← hjw, hiw]
    refine h.width j i v hj hi ?_ (by rw [hja, ha, hia]) (hia ▸ hv)
    rw [isBranch, ← hop]
    exact hb
  landing j' i' hsite hi' hop' := by
    obtain ⟨j, hj, hja, -⟩ := condSite_threadJumps hsite
    obtain ⟨i, hi, hop, -, -, htd, -⟩ := threadJumps_old hi'
    rw [htd, ← hja]
    exact h.landing j i hj hi (hop ▸ hop')

end

lemma compact_codeProg (fn : Func) (code : List (Ins × Bool)) : (codeProg fn code).compact =
      Func.prog { fn with ins := (code.filter (!·.2)).map (·.1) } := by
  have hred : (marked code).reduceOption = (code.filter (!·.2)).map (·.1) := by
    induction code with
    | nil => rfl
    | cons p code ih =>
      obtain ⟨i, d⟩ := p
      cases d
      · simpa [marked] using ih
      · simpa [marked] using ih
  simp only [Prog.compact, codeProg, Func.prog, hred]

/-- Below a branch that has fallen through, one on the same temp is decided rightly exactly when the
two widths agree on it. -/
lemma brTaken_eq_iff {i j : Ins} (hi : isBranch i) (hj : isBranch j) {v : Val} (hfell : brTaken j v = false) :
    brTaken i v = decide (i.op ≠ j.op) ↔ isZero j.w v = isZero i.w v := by
  simp only [brTaken] at hfell ⊢
  rcases isBranch_iff.1 hi with hi | hi <;> rcases isBranch_iff.1 hj with hj | hj <;>
    cases hz : isZero i.w v <;> cases hz' : isZero j.w v <;> simp_all

/-- A branch of a function below another on the same temp that has fallen through is decided
rightly exactly when the two widths agree on the temp. On a run all of whose branches agree,
`pass_cfgclean` keeps the instructions executed and the value returned. -/
theorem passCfgclean_preserves {W : Type} (E : Env W) (fn : Func) (s : St W) (hwf : WF fn)
    (hs : s.taken = []) : (∀ i ∈ fn.ins, ∀ j ∈ fn.ins, isBranch i → isBranch j → ∀ v, brTaken j v = false →
      (brTaken i v = decide (i.op ≠ j.op) ↔ isZero j.w v = isZero i.w v)) ∧
    ((∀ pc s', Reaches (step fn.prog E) (some (0, s)) (some (pc, s')) → PairOk fn pc s') →
      Refines Event.Wild (step fn.prog E) (some (0, s)) (step (passCfgclean fn).prog E) (some (0, s))) := by
  refine ⟨fun i _ j _ hi hj v hfell => brTaken_eq_iff hi hj hfell, fun hok => ?_⟩
  unfold passCfgclean
  split
  · exact .refl _ _
  · have hwf' := threadJumps_wf hwf
    have hc := invertBranches_wf (decideBranches_wf (threadJumps fn))
    have hdec := decideBranches_refines (fun pc s' h => pairOk_threadJumps (hok pc s' (threadJumps_reaches hwf h))) hwf'
    rw [← compact_codeProg]
    exact (threadJumps_refines hwf _).trans <| hdec.trans <| (invertBranches_refines hwf' (decideBranches_wf _) s).trans <|
      (markDead_refines hwf' hc hs).trans (compact_refines _ 0 s)

/-- Two tests of one constant, the second at width `w`. -/
def testTwice (x : BitVec 64) (w : ℕ) : Func where
  ins := [{ op := .const, dst := 0, w := 8, imm := x }, { op := .brz, a := 0, w := 8, label := 0 },
    { op := .brz, a := 0, w := w, label := 1 },
    { op := .const, dst := 1, w := 4, imm := 1 }, { op := .ret, a := 1, w := 4 },
    { op := .label, label := 0 },
    { op := .const, dst := 2, w := 4, imm := 2 }, { op := .ret, a := 2, w := 4 },
    { op := .label, label := 1 },
    { op := .const, dst := 3, w := 4, imm := 3 }, { op := .ret, a := 3, w := 4 }]
  nvregs := 4
  nlabels := 2

lemma testTwice_wf (x : BitVec 64) (w : ℕ) : WF (testTwice x w) := by
  refine ⟨Nat.zero_le _, ?_, ?_, ?_, ?_⟩ <;> simp [testTwice, tempDefs, placedLabel, eachLabel]

/-- Both at the full width. -/
theorem passCfgclean_preserves_same_width :
    Refines Event.Wild (step (testTwice 7 8).prog Env.bare) (some (0, St.blank))
      (step (passCfgclean (testTwice 7 8)).prog Env.bare) (some (0, St.blank)) := by
  refine (passCfgclean_preserves Env.bare (testTwice 7 8) St.blank (testTwice_wf 7 8) rfl).2 ?_
  have hw : ∀ i ∈ (testTwice 7 8).ins, (isBranch i → i.w = 8) ∧ i.op ≠ .landing := by decide
  intro pc s _
  refine ⟨fun j i v hsite hi hb _ _ => ?_, fun j i _ hi hop => ?_⟩
  · obtain ⟨m, -, hj, hbj, -⟩ := hsite
    rw [(hw j (List.mem_of_getElem? hj)).1 hbj, (hw i (List.mem_of_getElem? hi)).1 hb]
  · exact absurd hop (hw i (List.mem_of_getElem? hi)).2

/-- The first at width 8, the second at width 4, on a value that is zero only at width 4: the
second branch jumps, and the pass takes it for one that cannot. -/
theorem passCfgclean_narrow_branch : let fn := testTwice 0x100000000 4
    WF fn ∧ ¬ Refines Event.Wild (step fn.prog Env.bare) (some (0, St.blank))
      (step (passCfgclean fn).prog Env.bare) (some (0, St.blank)) := by
  refine ⟨testTwice_wf _ _, fun h => ?_⟩
  have hold : run (step (testTwice 0x100000000 4).prog Env.bare) 5 (some (0, St.blank)) =
    [.exec { op := .const, dst := 0, w := 8, imm := 0x100000000 } [],
      .exec { op := .const, dst := 3, w := 4, imm := 3 } []] := by decide
  have hnew : run (step (passCfgclean (testTwice 0x100000000 4)).prog Env.bare) 3 (some (0, St.blank)) =
    [.exec { op := .const, dst := 0, w := 8, imm := 0x100000000 } [],
      .exec { op := .const, dst := 1, w := 4, imm := 1 } []] := by decide
  have hemit := h.complete _ (by simp [Event.Wild]) ⟨5, hold⟩
  have := hemit.eq_of_length ⟨3, hnew⟩ rfl
  simp at this

end EmbCC.Opt.CfgClean
