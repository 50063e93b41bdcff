import EmbCC.Ir.Bytes
import EmbCC.Opt.BlockFlow
import EmbCC.Opt.Copies
import EmbCC.Opt.Gcse.Pass
import EmbCC.Opt.Held

/-!
# A repeated computation is in the register of the first

The register that an instruction becomes a copy of is written in a block that dominates it, and its operands have
one definition each, so it still holds what its computation gives (`Held`). An instruction with the same key
gives the same: its operands are the same registers, or constants with the same number (`passGcse_preserves`).

The key takes the number of a constant as it is written, whatever its width, and the symbol of an address by a
pointer that code read from text does not have; the statement is about functions in which these say
the same.
-/

namespace EmbCC.Opt.Gcse

open List Ir Trace Dominators Idom

section
variable {addrs : Bool} {fn : Func} {i j : Ins} {k : Key}

/-- The operands are the same register, or registers that are the same constant. -/
def SameOpnd (fn : Func) (x y : ℤ) : Prop :=
  x = y ∨ ∃ c, constIn fn (computeDefs fn) x = some c ∧ constIn fn (computeDefs fn) y = some c

lemma gcseKeyConsts_eq {u v : Vn} (h : gcseKeyConsts fn (computeDefs fn) u = gcseKeyConsts fn (computeDefs fn) v) :
    { u with a := v.a, b := v.b } = v ∧ SameOpnd fn u.a v.a ∧ SameOpnd fn u.b v.b := by
  have hopnd (x y : ℤ) (hc : (if 0 ≤ x then constIn fn (computeDefs fn) x else none) =
        if 0 ≤ y then constIn fn (computeDefs fn) y else none)
      (hr : (if (if 0 ≤ x then constIn fn (computeDefs fn) x else none).isSome then -1 else x) =
        if (if 0 ≤ y then constIn fn (computeDefs fn) y else none).isSome then -1 else y) :
      SameOpnd fn x y := by
    rw [← hc] at hr
    cases hx : (if 0 ≤ x then constIn fn (computeDefs fn) x else none) with
    | none =>
      rw [hx] at hr
      exact .inl hr
    | some c =>
      rw [hx] at hc
      have hin {z : ℤ} (hz : (if 0 ≤ z then constIn fn (computeDefs fn) z else none) = some c) :
          constIn fn (computeDefs fn) z = some c := by
        split_ifs at hz
        exact hz
      exact .inr ⟨c, hin hx, hin hc.symm⟩
  obtain ⟨hk, ha, hb⟩ := Key.mk.inj h
  have hfields := congrArg (fun w => { w with a := v.a, b := v.b }) hk
  refine ⟨hfields, hopnd _ _ ha (congrArg Vn.a hk), hopnd _ _ hb (congrArg Vn.b hk)⟩

/-- Instructions of one key compute the same of operands that are the same. -/
lemma shape_of_key (hi : gcseKey addrs fn (computeDefs fn) i = some k) (hj : gcseKey addrs fn (computeDefs fn) j = some k)
    (himm : i.immB = false) (himm' : j.immB = false) (hsym : i.op = .gaddr → j.op = .gaddr → i.ptr = j.ptr → i.sym = j.sym) :
    shape (meaning i) = shape (meaning j) ∧ List.Forall₂ (SameOpnd fn) (valueOpnds i) (valueOpnds j) := by
  obtain ⟨-, -, -, u, hu, rfl⟩ := gcseKey_eq_some.1 hi
  obtain ⟨-, hnum', -, v, hv, hk⟩ := gcseKey_eq_some.1 hj
  obtain ⟨hfields, ha, hb⟩ := gcseKeyConsts_eq hk.symm
  have hop : i.op = j.op := by rw [← vnKey_op hu, ← vnKey_op hv, ← hfields]
  have hw : i.w ≠ 16 := vnKey_width hu
  have hw' : j.w ≠ 16 := vnKey_width hv
  rw [vnKey, if_neg hw] at hu
  rw [vnKey, if_neg hw'] at hv
  cases h : j.op <;> rw [h] at hop hv hnum' <;> rw [hop] at hu <;> try cases hnum'
  all_goals
    simp only [himm, himm', Bool.false_eq_true, if_false, Option.some.injEq] at hu hv
    subst hu hv
    simp only [Vn.mk.injEq] at hfields
    obtain ⟨-, -, -, hws, hsign, -, hflt, hpred, -, hptr, hlabel, -⟩ := hfields
  case gaddr =>
    refine ⟨?_, ?_⟩
    · simp [shape, meaning, hop, h, hsym hop h hptr, Op.reads]
    · simp [valueOpnds, eachRead, hop, h]
  case straddr =>
    refine ⟨?_, ?_⟩
    · simp [meaning, hop, h, hlabel]
    · simp [valueOpnds, eachRead, hop, h]
  case neg | bnot =>
    refine ⟨?_, ?_⟩
    · simp [shape, meaning, hop, h, hws, hflt]
    · simpa [valueOpnds, eachRead, hop, h] using ha
  all_goals
    refine ⟨?_, ?_⟩
    · simp [shape, meaning, hop, h, himm, himm', hws, hsign, hflt, hpred, Op.reads]
    · simpa [valueOpnds, eachRead, hop, h, himm, himm'] using ⟨ha, hb⟩

end

/-- What the keys rely on: an integer constant is written as it is at its width, and addresses of the same pointer
are of the same symbol. -/
structure KeysSay (fn : Func) : Prop where
  const : ∀ i ∈ fn.ins, i.op = .const → i.flt = false → Ir.norm i.imm i.w = i.imm
  sym : ∀ i ∈ fn.ins, ∀ j ∈ fn.ins, i.op = .gaddr → j.op = .gaddr → i.ptr = j.ptr → i.sym = j.sym

section
variable {W : Type} {E : Env W} {addrs : Bool} {fn : Func} {bb : Blocks} {pc n : ℕ} {s : St W} {i j : Ins} {k : Key}
  {x y h : ℤ}

lemma stable_opnd (hi : gcseKey addrs fn (computeDefs fn) i = some k) (hx : x ∈ valueOpnds i) :
    0 ≤ x ∧ x < fn.nvregs ∧ (computeDefs fn).cnt x = 1 := by
  obtain ⟨-, -, hst, -⟩ := gcseKey_eq_some.1 hi
  simp only [vnStable, Bool.and_eq_true, all_eq_true, decide_eq_true_eq] at hst
  exact hst.2 x hx

lemma stable_dst (hi : gcseKey addrs fn (computeDefs fn) i = some k) :
    0 ≤ i.dst ∧ i.dst < fn.nvregs ∧ (computeDefs fn).cnt i.dst = 1 := by
  obtain ⟨-, -, hst, -⟩ := gcseKey_eq_some.1 hi
  simp only [vnStable, Bool.and_eq_true, decide_eq_true_eq] at hst
  exact ⟨hst.1.1, hst.1.2.1, hst.1.2.2.1⟩

lemma sole_of_key (hi : fn.ins[n]? = some i) (hk : gcseKey addrs fn (computeDefs fn) i = some k) : SoleAt fn i.dst n := by
  obtain ⟨h0, hlt, hcnt⟩ := stable_dst hk
  have hv := gcseNumberable_value (gcseKey_eq_some.1 hk).2.1
  exact once_of_cnt h0 hlt hcnt n i hi (by rw [tempDefs_of_value (.inl hv)]; exact .head _)

lemma const_held (hsay : KeysSay fn) (hheld : HeldAt E fn pc s) (hlt : x < fn.nvregs) {c : BitVec 64}
    (hc : constIn fn (computeDefs fn) x = some c) (hw : ¬ Unwritten fn x pc) : s.temps x = some (ofLong c) := by
  unfold constIn at hc
  split_ifs at hc with hx
  push Not at hx
  obtain ⟨j, hj, hlit⟩ := Option.bind_eq_some_iff.1 hc
  rw [insOf_eq_soleDef hx.1 hx.2] at hj
  obtain ⟨m, hm, -⟩ := soleDef_spec hj
  unfold literal at hlit
  split_ifs at hlit with hop
  cases hlit
  rw [hheld.const hlt hj hop.1 hw, hsay.const j (mem_of_getElem? hm) hop.1 hop.2]

lemma mapM_forall₂ {R : ℤ → ℤ → Prop} {temps : ℤ → Option Val} {l l' : List ℤ} (h : List.Forall₂ R l l')
    (hR : ∀ x ∈ l, ∀ y ∈ l', R x y → temps x = temps y) : l.mapM temps = l'.mapM temps := by
  induction h with
  | nil => rfl
  | @cons x y l l' hxy _ ih =>
    rw [mapM_cons, mapM_cons, hR x (.head _) y (.head _) hxy, ih fun x hx y hy => hR x (.tail _ hx) y (.tail _ hy)]

lemma dom_of_above (hidom : ∀ b < nbb fn, b ≠ 0 → ∃ d < nbb fn, bb.idom b = (d : ℕ) ∧ IsIdom (buildCfg fn).Edge 0 d b)
      (hord : ∀ b < nbb fn, b ∈ order (buildCfg fn)) {a b : ℕ} (h : ScopedWalk.Above (domKids fn bb) a b) : a < nbb fn
      ∧ b < nbb fn ∧ a ≠ b ∧ Dom (buildCfg fn).Edge 0 a b := by
  have hone {a b : ℕ} (hb : b ∈ domKids fn bb a) : a < nbb fn ∧ b < nbb fn ∧ a ≠ b ∧ Dom (buildCfg fn).Edge 0 a b := by
    obtain ⟨hb, hb0, hval, ha⟩ := mem_kids.1 hb
    have hb := List.mem_range.1 hb
    obtain ⟨d, -, hval', hd⟩ := hidom b hb hb0
    obtain rfl : a = d := Int.ofNat.inj (hval.symm.trans hval')
    exact ⟨ha, hb, hd.ne, hd.dom⟩
  induction h with
  | single hb => exact hone hb
  | @tail c b _ hb ih =>
    obtain ⟨ha, hc, hne, hdom⟩ := ih
    obtain ⟨-, hb, -, hdom'⟩ := hone hb
    refine ⟨ha, hb, ?_, hdom.trans hdom'⟩
    rintro rfl
    exact hne (dom_antisymm (hord a ha) (hord c hc) hdom hdom')

lemma hit_written (hwf : WF fn) (heh : fn.eh = []) (hidom : ∀ b < nbb fn, b ≠ 0 → ∃ d < nbb fn, bb.idom b = (d : ℕ) ∧ IsIdom
    (buildCfg fn).Edge 0 d b) (hord : ∀ b < nbb fn, b ∈ order (buildCfg fn)) (hhit : Hit addrs fn bb n i h) : ∃ (m : ℕ)
    (j : Ins) (k : Key), fn.ins[m]? = some j ∧ gcseKey addrs fn (computeDefs fn) j = some k ∧ gcseKey addrs fn
    (computeDefs fn) i = some k ∧ j.dst = h ∧ ¬ Unwritten fn h n := by
  obtain ⟨e, b, hk, rfl, hb, hsrc⟩ := hhit
  have hnot {a m : ℕ} {j : Ins} (ha : InBlock fn a m) (hj : fn.ins[m]? = some j)
      (hkj : gcseKey addrs fn (computeDefs fn) j = some e.k) (hav : ¬ Avoids (buildCfg fn).Edge 0 a b)
      (hlt : b = a → m < n) : ¬ Unwritten fn j.dst n := by
    intro hu
    have hv := gcseNumberable_value (gcseKey_eq_some.1 hkj).2.1
    have hdef : ∀ j', fn.ins[m]? = some j' → j.dst ∈ tempDefs j' := by
      intro j' hj'
      obtain rfl := Option.mem_unique hj hj'
      rw [tempDefs_of_value (.inl hv)]
      exact .head _
    rcases hu.avoids hwf heh ha hdef b hb with h | ⟨hba, hle⟩
    · exact hav h
    · exact absurd (hlt hba) (by omega)
  rcases hsrc with ⟨m, j, hm, hlt, hj, hkj, hres⟩ | ⟨a, habove, m, j, hm, -, hj, hkj, hres⟩
  · refine ⟨m, j, e.k, hj, hkj, hk, hres.symm, hres ▸ hnot hm hj hkj ?_ fun _ => hlt⟩
    exact fun hav => dom_iff.1 (Dom.refl _ _ _) hav
  · obtain ⟨-, -, hne, hdom⟩ := dom_of_above hidom hord habove
    exact ⟨m, j, e.k, hj, hkj, hk, hres.symm, hres ▸ hnot hm hj hkj (fun hav => dom_iff.1 hdom hav) fun h => absurd h.symm hne⟩

lemma hit_value {ptrw : ℕ} (M : Memory ptrw E) (hE : E.Nameless) (hwf : WF fn) (heh : fn.eh = [])
    (himm : ∀ i ∈ fn.ins, i.immB = false) (hwritten : WrittenFirst fn) (hsay : KeysSay fn)
    (hidom : ∀ b < nbb fn, b ≠ 0 → ∃ d < nbb fn, bb.idom b = (d : ℕ) ∧ IsIdom (buildCfg fn).Edge 0 d b)
    (hord : ∀ b < nbb fn, b ∈ order (buildCfg fn)) (hheld : HeldAt E fn pc s) (hi : fn.ins[pc]? = some i)
    (hhit : Hit addrs fn bb pc i h) :
    ∃ vs r, (valueOpnds i).mapM s.temps = some vs ∧ effect E i vs s.world = .ok [r] s.world ∧ s.temps h = some r := by
  obtain ⟨m, j, k, hj, hkj, hki, rfl, hw⟩ := hit_written hwf heh hidom hord hhit
  have hmi := mem_of_getElem? hi
  have hmj := mem_of_getElem? hj
  have hvi : isValue i.op := gcseNumberable_value (gcseKey_eq_some.1 hki).2.1
  have hvj : isValue j.op := gcseNumberable_value (gcseKey_eq_some.1 hkj).2.1
  have hsole := sole_of_key hj hkj
  obtain ⟨vs, r, hvs, he, hr⟩ := hheld m j hj (steady_value M hvj) (tempDefs_of_value (.inl hvj))
    (stable_dst hkj).1 hsole (fun x hx => (stable_opnd hkj hx).elim fun h0 h => once_of_cnt h0 h.1 h.2) hw
  obtain ⟨hshape, hopnds⟩ := shape_of_key hki hkj (himm i hmi) (himm j hmj) (hsay.sym i hmi j hmj)
  have hvals : (valueOpnds i).mapM s.temps = some vs := by
    rw [← hvs]
    refine mapM_forall₂ hopnds fun x hx y hy hxy => ?_
    rcases hxy with rfl | ⟨c, hcx, hcy⟩
    · rfl
    · have hyw : ¬ Unwritten fn y pc := fun hu => hw (hu.of_source hsole (hwritten m j hj y hy))
      rw [const_held hsay hheld (stable_opnd hki hx).2.1 hcx (hwritten pc i hi x hx),
        const_held hsay hheld (stable_opnd hkj hy).2.1 hcy hyw]
  refine ⟨vs, r, hvals, ?_, hr⟩
  rw [← he, ← effect_meaning M (.inl hvi) (length_mapM_temps hvals), ← effect_shape hE, hshape, effect_shape hE,
    effect_meaning M (.inl hvj) (length_mapM_temps hvs)]

end

lemma passGcse_copying (addrs : Bool) (fn : Func) (old : Blocks) : Copying fn (passGcse addrs fn old) := by
  unfold passGcse
  split_ifs
  · exact ⟨rfl, rfl, rfl, fun _ _ hi => .inl hi⟩
  · have hmade := @made_gcseWalk addrs fn (dominators (buildCfg fn) old)
    refine ⟨rfl, rfl, hmade.length, fun n i hi => (hmade.hit n i hi).imp_right ?_⟩
    rintro ⟨h, hh, e, b, hk, -⟩
    exact ⟨_, hh, rfl, vnToMov_dst _, .inl (gcseNumberable_value (gcseKey_eq_some.1 hk).2.1)⟩

/-- In a function without immediate operands, in which registers are written before they are read and the keys
say what they are taken for: the pass leaves the states that every run goes through, and where it made an instruction
a copy, the copied register holds what the instruction gives. -/
theorem passGcse_preserves {W : Type} {E : Env W} {ptrw : ℕ} (M : Memory ptrw E) (hE : E.Nameless) (addrs : Bool)
    (fn : Func) (old : Blocks) (s₀ : St W) (hwf : WF fn) (heh : fn.eh = [])
    (himm : ∀ i ∈ fn.ins, i.immB = false) (hwritten : WrittenFirst fn) (hsay : KeysSay fn) (hs₀ : Entry fn s₀) :
    (∀ n, after (step (passGcse addrs fn old).prog E) n (some (0, s₀)) =
      after (step fn.prog E) n (some (0, s₀))) ∧
    ∀ pc s i i', Reaches (step fn.prog E) (some (0, s₀)) (some (pc, s)) → fn.ins[pc]? = some i →
      (passGcse addrs fn old).ins[pc]? = some i' → i' = i ∨
        ∃ h vs r, i' = vnToMov i h ∧ (valueOpnds i).mapM s.temps = some vs ∧
          effect E i vs s.world = .ok [r] s.world ∧ s.temps h = some r := by
  refine (passGcse_copying addrs fn old).after_eq (fun _ _ => rfl) fun pc s i i' hreach hi hi' => ?_
  unfold passGcse at hi'
  split_ifs at hi' with hskip
  · exact .inl (Option.mem_unique hi' hi)
  · push Not at hskip
    have hord : ∀ b < nbb fn, b ∈ order (buildCfg fn) := mem_order_of_length hskip.2
    have hidom : ∀ b < nbb fn, b ≠ 0 → ∃ d < nbb fn,
        (dominators (buildCfg fn) old).idom b = d ∧ IsIdom (buildCfg fn).Edge 0 d b := by
      intro b hb hb0
      obtain ⟨d, hd, hval, hdom⟩ := dominators_isIdom (hord b hb) hb0
      exact ⟨d, lt_of_mem_order hd, hval, hdom⟩
    rcases (@made_gcseWalk addrs fn (dominators (buildCfg fn) old)).hit pc i hi with hsame | ⟨h, hh, hhit⟩
    · exact .inl (Option.mem_unique hi' hsame)
    · obtain ⟨-, -, hheld⟩ := held_reaches hwritten hs₀ _ hreach pc s rfl
      obtain ⟨vs, r, hvs, he, hr⟩ := hit_value M hE hwf heh himm hwritten hsay hidom hord hheld hi hhit
      exact .inr ⟨h, vs, r, Option.mem_unique hi' hh, hvs, he, hr⟩

/-- A sum that one side of a branch computes again, with the constant in another register. -/
def again : Func where
  ins := [{ op := .const, dst := 0, w := 4, imm := 7 }, { op := .const, dst := 1, w := 4, imm := 1 },
    { op := .add, dst := 2, a := 0, b := 1, w := 4 }, { op := .brz, a := 2, w := 4, label := 0 },
    { op := .const, dst := 3, w := 4, imm := 1 }, { op := .add, dst := 4, a := 0, b := 3, w := 4 },
    { op := .ret, a := 4, w := 4 }, { op := .label, label := 0 }, { op := .ret, a := 2, w := 4 }]
  nvregs := 5
  nlabels := 1

/-- The second sum becomes a copy of the first, which holds it. -/
theorem passGcse_preserves_again :
    (passGcse true again unset).ins[5]? = some (vnToMov { op := .add, dst := 4, a := 0, b := 3, w := 4 } 2) ∧
    ∃ s vs r, Reaches (step again.prog ⟨byteSem, fun _ => 0⟩) (some (0, ⟨fun _ => none, [], fun _ => 0⟩)) (some (5, s)) ∧
      effect ⟨byteSem, fun _ => 0⟩ { op := .add, dst := 4, a := 0, b := 3, w := 4 } vs s.world =
        .ok [r] s.world ∧ s.temps 2 = some r := by
  have hmov : (passGcse true again unset).ins[5]? =
      some (vnToMov { op := .add, dst := 4, a := 0, b := 3, w := 4 } 2) := by decide +kernel
  have hreach : Reaches (step again.prog ⟨byteSem, fun _ => 0⟩) (some (0, ⟨fun _ => none, [], fun _ => 0⟩)) _ :=
    .of_after 5 rfl
  obtain h | ⟨h, vs, r, hh, -, he, hr⟩ := (passGcse_preserves byteMemory byteSem_nameless true again unset
    ⟨fun _ => none, [], fun _ => 0⟩ ⟨by decide, by decide, by decide, by decide, by decide⟩ rfl (by decide)
    (writtenFirst_of_table rfl [[], [0], [0, 1], [0, 1, 2], [0, 1, 2], [0, 1, 2, 3], [4], [2], [2]]
      (by decide) (by decide) (by decide)) ⟨by decide, by decide⟩ ⟨fun _ _ => rfl, rfl⟩).2 5 _ _ _ hreach rfl hmov
  · exact absurd (congrArg Ins.op h) (by decide)
  · obtain rfl : 2 = h := congrArg Ins.a hh
    exact ⟨hmov, _, vs, r, hreach, he, hr⟩

/-- One number at two widths. -/
def twoWidths : Func where
  ins := [{ op := .const, dst := 0, w := 8, imm := 5 }, { op := .const, dst := 1, w := 4, imm := 0xffffffff },
    { op := .const, dst := 2, w := 8, imm := 0xffffffff }, { op := .add, dst := 3, a := 0, b := 1, w := 8 },
    { op := .add, dst := 4, a := 0, b := 2, w := 8 }, { op := .ret, a := 4, w := 8 }]
  nvregs := 5

/-- Two globals, as they are read from text. -/
def twoGlobals : Func where
  ins := [{ op := .gaddr, dst := 0, w := 8, sym := 0 }, { op := .gaddr, dst := 1, w := 8, sym := 1 },
    { op := .ret, a := 1, w := 8 }]
  nvregs := 2

/-- The second sum becomes a copy of the first, which is another; and the address of one global a copy of
that of the other. -/
theorem passGcse_wrong_copy :
    ((WF twoWidths ∧ (order (buildCfg twoWidths)).length = nbb twoWidths ∧ WrittenFirst twoWidths ∧
        ∀ i ∈ twoWidths.ins, i.immB = false) ∧
      (passGcse true twoWidths unset).ins[4]? =
        some (vnToMov { op := .add, dst := 4, a := 0, b := 2, w := 8 } 3) ∧
      ∃ s vs, Reaches (step twoWidths.prog Env.bare) (some (0, St.blank)) (some (4, s)) ∧
        ([0, 2] : List ℤ).mapM s.temps = some vs ∧ s.temps 3 = some 4 ∧
        effect Env.bare { op := .add, dst := 4, a := 0, b := 2, w := 8 } vs s.world =
          .ok [0x100000004] s.world) ∧
    (WF twoGlobals ∧ (order (buildCfg twoGlobals)).length = nbb twoGlobals ∧ WrittenFirst twoGlobals ∧
        ∀ i ∈ twoGlobals.ins, i.immB = false) ∧
      (passGcse true twoGlobals unset).ins[1]? =
        some (vnToMov { op := .gaddr, dst := 1, w := 8, sym := 1 } 0) ∧
      ∃ s, Reaches (step twoGlobals.prog ⟨byteSem, fun _ => 0⟩) (some (0, ⟨fun _ => none, [], fun _ => 0⟩))
          (some (1, s)) ∧ s.temps 0 = some 0 ∧
        effect ⟨byteSem, fun _ => 0⟩ { op := .gaddr, dst := 1, w := 8, sym := 1 } [] s.world =
          .ok [1] s.world := by
  refine ⟨⟨⟨⟨by decide, by decide, by decide, by decide, by decide⟩, by decide +kernel,
    writtenFirst_of_straight (by decide) (by decide), by decide⟩, by decide +kernel, _, _,
    .of_after 4 rfl, rfl, rfl, rfl⟩,
    ⟨⟨by decide, by decide, by decide, by decide, by decide⟩, by decide +kernel,
    writtenFirst_of_straight (by decide) (by decide), by decide⟩, by decide +kernel, _,
    .tail .refl ⟨_, rfl⟩, rfl, rfl⟩

end EmbCC.Opt.Gcse
