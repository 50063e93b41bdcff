import EmbCC.Ir.Ints
import EmbCC.Ir.Splice
import EmbCC.Opt.DivMagic.Pair

/-!
# Sharing a division keeps every value

A run of the function after `pass_divmod` follows a run of the function before it: at the start of
each piece every register there was holds what it held (`Same`), and for each entry of the
table the quotient is where the plan will look for it (`Held`). `rel_step` is one instruction
against its piece, `passDivmod_preserves` the whole run.
-/

namespace EmbCC.Opt.DivMod

open Option List Ir Trace Relation Function Prod
open Event (exec outer)
variable {W : Type} {E : Env W}

/-! ## Divisions and remainders of one pair -/

section
variable {i : Ins} {va vb : Val} {temps : ℤ → Option Val}

/-- An integer operation on two registers, of those the pass has to do with. -/
structure TwoOpnd (i : Ins) : Prop where
  op : i.op = .mod ∨ i.op = .div ∨ i.op = .mul ∨ i.op = .sub
  flt : i.flt = false
  immB : i.immB = false
  w : i.w = 4 ∨ i.w = 8

lemma TwoOpnd.spec (h : TwoOpnd i) : isCore i ∧ valueOpnds i = [i.a, i.b] ∧ i.op.isControl = false ∧
    i.op ≠ .labeladdr ∧ tempDefs i = [i.dst] ∧ ∀ va vb, evalCore i [va, vb] =
      (foldBin i.op (toLong va) (toLong vb) i.w i.sign i.pred).map ofLong := by
  rcases h.op with hop | hop | hop | hop <;> rcases h.w with hw | hw <;>
    simp [isCore, valueOpnds, eachRead, Op.isControl, tempDefs, writesTemp, evalCore, hop, hw, h.flt, h.immB]

lemma Pairable.twoOpnd (h : Pairable i) : TwoOpnd i := ⟨h.op.imp_right .inl, h.flt, h.immB, h.w⟩

lemma TwoOpnd.execIns (h : TwoOpnd i) (ha : temps i.a = some va) (hb : temps i.b = some vb)
    {R : BitVec 64} (hR : foldBin i.op (toLong va) (toLong vb) i.w i.sign i.pred = some R) :
    Ir.execIns temps i = some (setTemp temps i.dst (ofLong R)) := by
  obtain ⟨hcore, hops, -, -, -, heval⟩ := h.spec
  simp [Ir.execIns, hcore, hops, ha, hb, heval, hR]

section
variable (h : TwoOpnd i) {P : Prog} {pc : ℕ} {s : St W} (hi : P.code[pc]? = some (some i))
include h hi

lemma TwoOpnd.step_unset (hun : s.temps i.a = none ∨ s.temps i.b = none) :
    step P E (some (pc, s)) = some (some .unset, none) := by
  obtain ⟨-, hops, hctl, -, -⟩ := h.spec
  have hnone : (valueOpnds i).mapM s.temps = none := by
    rw [hops]
    rcases hun with hun | hun
    · simp [hun]
    · cases ha : s.temps i.a <;> simp [hun]
  simp [step, hi, hctl, seqStep, hnone]

variable (ha : s.temps i.a = some va) (hb : s.temps i.b = some vb)
include ha hb

lemma TwoOpnd.step_fault (hR : foldBin i.op (toLong va) (toLong vb) i.w i.sign i.pred = none) :
    step P E (some (pc, s)) = some (some (.fault i [va, vb]), none) := by
  obtain ⟨hcore, hops, hctl, hlab, -, heval⟩ := h.spec
  simp [step, hi, hctl, seqStep, hops, ha, hb, effect, hlab, hcore, heval, hR]

lemma TwoOpnd.step_ok {R : BitVec 64} (hR : foldBin i.op (toLong va) (toLong vb) i.w i.sign i.pred = some R) :
    step P E (some (pc, s)) = some (some (.exec i [va, vb]),
      some (pc + 1, { s with temps := setTemp s.temps i.dst (ofLong R) })) := by
  obtain ⟨hcore, hops, hctl, hlab, hdefs, heval⟩ := h.spec
  simp [step, hi, hctl, seqStep, hops, ha, hb, effect, hlab, hcore, heval, hR, St.after, hdefs, setTemps]

end

lemma opnds_cases (i : Ins) (temps : ℤ → Option Val) : (temps i.a = none ∨ temps i.b = none) ∨
    ∃ va vb, temps i.a = some va ∧ temps i.b = some vb := by
  cases temps i.a <;> cases temps i.b <;> simp

end

/-! ## The pieces -/

/-- The product of a quotient `q` and the divisor, in `nv`. -/
def mulIns (nv : ℕ) (q : ℤ) (o : Ins) : Ins :=
  { op := .mul, dst := nv, a := q, b := o.b, w := o.w, label := -1 }

/-- The dividend less the product in `nv`. -/
def subIns (nv : ℕ) (o : Ins) : Ins :=
  { op := .sub, dst := o.dst, a := o.a, b := nv, w := o.w, label := -1 }

section
variable {thumbK : Bool} {fn : Func} {n : ℕ} {i : Ins}

lemma length_pieces (thumbK : Bool) (fn : Func) : (pieces thumbK fn).length = fn.ins.length := by
  simp [pieces]

lemma le_piece (p : Pairs) (nv : ℕ) (x : Ins × ℕ) : nv ≤ (piece p nv x).2 := by
  simp only [piece]
  split_ifs <;> simp

lemma le_stateAt (p : Pairs) (nv : ℕ) (xs : List (Ins × ℕ)) (n : ℕ) : nv ≤ Scan.stateAt (piece p) nv xs n := by
  unfold Scan.stateAt
  generalize xs.take n = ys
  induction ys generalizing nv with
  | nil => exact le_rfl
  | cons y ys ih => exact (le_piece p nv y).trans (ih _)

lemma pieces_getElem (thumbK : Bool) (hi : fn.ins[n]? = some i) : ∃ nv, (plan thumbK fn).nv ≤ nv ∧
    (pieces thumbK fn)[n]? = some (piece (plan thumbK fn) nv (i, n)).1 := by
  refine ⟨_, le_stateAt (plan thumbK fn) _ fn.ins.zipIdx n, ?_⟩
  rw [pieces, Scan.scan_getElem]
  simp [hi]

/-- The pieces that stand for an instruction. -/
lemma piece_cases (thumbK : Bool) (hi : fn.ins[n]? = some i) : ∃ nv, (plan thumbK fn).nv ≤ nv ∧
    (((pieces thumbK fn)[n]? = some [i] ∧ (plan thumbK fn).preq n < 0) ∨
    ((pieces thumbK fn)[n]? = some [{ i with op := .div, dst := (plan thumbK fn).preq n },
        mulIns nv ((plan thumbK fn).preq n) i, subIns nv i] ∧
      0 ≤ (plan thumbK fn).preq n ∧ Pairable i ∧ i.op = .mod) ∨
    (∃ e ∈ (pairsAt thumbK fn n).tab, e.pairs (pairsAt thumbK fn n) i ∧ Pairable i ∧ e.isDiv = true ∧
      0 ≤ (plan thumbK fn).mulq n ∧ (pieces thumbK fn)[n]? = some [mulIns nv e.res i, subIns nv i]) ∨
    ∃ e ∈ (pairsAt thumbK fn n).tab, e.pairs (pairsAt thumbK fn n) i ∧ Pairable i ∧ e.isDiv = false ∧
      0 ≤ (plan thumbK fn).preq e.pos ∧ 0 ≤ (plan thumbK fn).movq n ∧
      (pieces thumbK fn)[n]? = some [{ i with op := .mov, a := (plan thumbK fn).preq e.pos, b := -1 }]) := by
  have hlen := getElem?_lt hi
  have hplan := planned_plan thumbK fn
  obtain ⟨nv, hnv, hget⟩ := pieces_getElem thumbK hi
  refine ⟨nv, hnv, ?_⟩
  rcases plan_cases hi thumbK with ⟨hmul, hmov⟩ | ⟨e, he, hpairs, hpair, hkind⟩
  · rw [piece, if_neg (by omega)] at hget
    simp only [if_neg (not_le.2 hmul)] at hget
    by_cases hpre : (plan thumbK fn).preq n < 0
    · rw [if_pos hpre] at hget
      exact .inl ⟨hget, hpre⟩
    · rw [if_neg hpre, if_pos (not_lt.1 hpre)] at hget
      obtain ⟨-, -, -, -, j, hj, hjp, hjop⟩ := hplan.preq n (not_lt.1 hpre)
      obtain rfl : j = i := mem_unique hj hi
      exact .inr (.inl ⟨hget, not_lt.1 hpre, pairable_spec hjp, hjop⟩)
  · obtain ⟨-, j, -, hjp, hej, -⟩ := (planned_pairsAt thumbK hlen.le).tab e he
    rcases hkind with ⟨hd, hmul, hmov⟩ | ⟨hd, hmov, hpos, hmul⟩
    · have hres : 0 ≤ e.res := by
        rw [hej]
        exact (pairable_spec hjp).dst
      have hpre : ¬ 0 ≤ (plan thumbK fn).preq n := fun h => by
        have := (hplan.preq n h).2.1
        omega
      rw [piece, if_neg (by omega)] at hget
      simp only [hmul, if_pos hres, if_neg (not_lt.2 hres), if_neg hpre, nil_append] at hget
      exact .inr (.inr (.inl ⟨e, he, hpairs, pairable_spec hpair, hd, by omega, hget⟩))
    · rw [piece, if_pos (by omega), hmov] at hget
      exact .inr (.inr (.inr ⟨e, he, hpairs, pairable_spec hpair, hd, hpos, by omega, hget⟩))

/-- The code of the pieces. -/
def newProg (thumbK : Bool) (fn : Func) : Prog := ⟨(pieces thumbK fn).flatten.map some, fn.jt, fn.eh⟩

/-- Where the piece of an instruction begins: `newpos`. -/
def newPos (thumbK : Bool) (fn : Func) : ℕ → ℕ := Chunks.offset (pieces thumbK fn)

lemma isLabel_pair (hp : Pairable i) (l : ℤ) : isLabel l (some i) = false := by
  rcases hp.op with hop | hop <;> simp [isLabel, hop]

lemma labelAt_newProg (thumbK : Bool) (fn : Func) (l : ℤ) :
    (newProg thumbK fn).labelAt l = (fn.prog.labelAt l).map (newPos thumbK fn) := by
  refine labelAt_pieces ?_ (fun is his j hj => ?_) _ _
  · refine ext_getElem? fun n => ?_
    rw [getElem?_map, getElem?_map]
    cases hi : fn.ins[n]? with
    | none =>
      have hlen := List.getElem?_eq_none_iff.1 hi
      rw [getElem?_eq_none (by rw [length_pieces]; exact hlen)]
      rfl
    | some i =>
      obtain ⟨nv, -, ⟨hget, -⟩ | ⟨hget, -, hp, -⟩ | ⟨e, -, -, hp, -, -, hget⟩ | ⟨e, -, -, hp, -, -, -, hget⟩⟩ :=
        piece_cases thumbK hi
      · rw [hget]
        rfl
      all_goals
        rw [hget, map_some, map_some, isLabel_pair hp]
        rfl
  · obtain ⟨n, hn⟩ := getElem?_of_mem his
    have hlt : n < fn.ins.length := by
      have := getElem?_lt hn
      rwa [length_pieces] at this
    obtain ⟨nv, -, ⟨hget, -⟩ | ⟨hget, -⟩ | ⟨e, -, -, -, -, -, hget⟩ | ⟨e, -, -, -, -, -, -, hget⟩⟩ :=
      piece_cases thumbK (getElem?_eq_getElem hlt)
    all_goals
      obtain rfl := mem_unique hn hget
      simp only [tail_cons, mem_cons, not_mem_nil, or_false] at hj
    · rcases hj with rfl | rfl <;> simp [mulIns, subIns]
    · rw [hj]
      simp [subIns]

/-! ## The two runs -/

/-- The registers there were hold the same, and the rest is the same. -/
structure Same (fn : Func) (s s' : St W) : Prop where
  temps : ∀ t < (fn.nvregs : ℤ), s'.temps t = s.temps t
  taken : s'.taken = s.taken
  world : s'.world = s.world

/-- The quotient of an entry exists, and is where it will be looked for: the register of the division,
or the new one that is planned. -/
structure Held (p : Pairs) (e : Ent) (s s' : St W) (va vb : Val) (Q : BitVec 64) : Prop where
  a : s.temps e.a = some va
  b : s.temps e.b = some vb
  div : foldBin .div (toLong va) (toLong vb) e.w e.sign .eq = some Q
  res : e.isDiv = true → s.temps e.res = some (ofLong Q)
  preq : e.isDiv = false → 0 ≤ p.preq e.pos → s'.temps (p.preq e.pos) = some (ofLong Q)

/-- The entries of the table before `pc`; at a label it is about to be emptied. -/
def TableHeld (thumbK : Bool) (fn : Func) (pc : ℕ) (s s' : St W) : Prop :=
  ∀ i, fn.ins[pc]? = some i → i.op ≠ .label → ∀ e ∈ (pairsAt thumbK fn pc).tab,
    ∃ va vb Q, Held (plan thumbK fn) e s s' va vb Q

/-- A point of the run before the pass and one of the run after it. -/
inductive Rel (thumbK : Bool) (fn : Func) : Cfg W → Cfg W → Prop
  | ended : Rel thumbK fn none none
  | here {pc : ℕ} {s s' : St W} : Same fn s s' → TableHeld thumbK fn pc s s' →
      Rel thumbK fn (some (pc, s)) (some (newPos thumbK fn pc, s'))

/-- The new run shows `o` and comes to a configuration related to `c`. -/
abbrev Catches (thumbK : Bool) (fn : Func) (E : Env W) (d : Cfg W) (o : Option Event) (c : Cfg W) : Prop :=
  ∃ d', Follows (viewed outer (step (newProg thumbK fn) E)) d o d' ∧ Rel thumbK fn c d'

variable {pc : ℕ} {s s' t t' : St W}

lemma tableHeld_succ (hi : fn.ins[pc]? = some i) (h : TableHeld thumbK fn pc s s')
    (hkeep : ∀ x ∉ tempDefs i, t.temps x = s.temps x) (hkeep' : ∀ m ≠ pc, 0 ≤ (plan thumbK fn).preq m → t'.temps
    ((plan thumbK fn).preq m) = s'.temps ((plan thumbK fn).preq m)) (hnew : Pairable i → (plan thumbK fn).mulq pc < 0 →
    (plan thumbK fn).movq pc < 0 → ∃ va vb Q, Held (plan thumbK fn) (entry pc i) t t' va vb Q) : TableHeld thumbK fn
    (pc + 1) t t' := by
  intro j _ _ e he
  rcases table_succ hi he with hk | ⟨rfl, hp, hmul, hmov⟩
  · have hop := hk.op
    simp only [resets, decide_eq_false_iff_not, not_or] at hop
    have hlen := getElem?_lt hi
    obtain ⟨hpos, k, -, hkp, hek, -⟩ := (planned_pairsAt thumbK hlen.le).tab e hk.mem
    have hpair := pairable_spec hkp
    obtain ⟨va, vb, Q, hh⟩ := h i hi hop.1 e hk.mem
    have hstay x (hx : 0 ≤ x) (hne : 0 ≤ defTarget i → x ≠ defTarget i) : t.temps x = s.temps x := by
      refine hkeep x fun hm => ?_
      have heq := tempDefs_eq_defTarget hop.2.2 hm
      exact hne (heq ▸ hx) heq
    have ha : 0 ≤ e.a := by rw [hek]; exact hpair.a
    have hb : 0 ≤ e.b := by rw [hek]; exact hpair.b
    have hr : 0 ≤ e.res := by rw [hek]; exact hpair.dst
    exact ⟨va, vb, Q, (hstay _ ha hk.a).trans hh.a, (hstay _ hb hk.b).trans hh.b, hh.div, fun hd => (hstay _ hr hk.res).trans
      (hh.res hd), fun hd hq => (hkeep' _ (by omega) hq).trans (hh.preq hd hq)⟩
  · exact hnew (pairable_spec hp) hmul hmov

lemma tableHeld_label {l : ℤ} (h : fn.prog.labelAt l = some pc) : TableHeld thumbK fn pc s s' := by
  intro i hi hop
  exact absurd h (labelAt_ne hi hop l)

/-- The registers that are read and written have numbers below `nvregs`. -/
def InRange (fn : Func) : Prop :=
  ∀ i ∈ fn.ins, (∀ x ∈ valueOpnds i, x < fn.nvregs) ∧ ∀ x ∈ tempDefs i, x < fn.nvregs

instance (fn : Func) : Decidable (InRange fn) := inferInstanceAs (Decidable (∀ _ ∈ _, _))

section
variable (hr : InRange fn) (hi : fn.ins[pc]? = some i) (hs : Same fn s s')
  (htab : TableHeld thumbK fn pc s s') {o : Option Event} {c : Cfg W} {R : BitVec 64} {nv : ℕ} {temps : ℤ → Option Val} {e : Ent}
include hr hi hs htab

omit htab in
lemma opnds_same : ∀ x ∈ valueOpnds i, s'.temps x = s.temps x := fun x hx =>
  hs.temps x ((hr i (mem_of_getElem? hi)).1 x hx)

omit hs htab in
lemma dst_lt (hp : Pairable i) : i.a < fn.nvregs ∧ i.b < fn.nvregs ∧ i.dst < fn.nvregs := by
  obtain ⟨-, hops, -, -, hdefs, -⟩ := hp.twoOpnd.spec
  obtain ⟨h1, h2⟩ := hr i (mem_of_getElem? hi)
  rw [hops] at h1
  rw [hdefs] at h2
  exact ⟨h1 _ (.head _), h1 _ (.tail _ (.head _)), h2 _ (.head _)⟩

/-- An instruction that is left as it is. -/
lemma rel_plain (hget : (pieces thumbK fn)[pc]? = some [i]) (hpre : (plan thumbK fn).preq pc < 0)
    (h : step fn.prog E (some (pc, s)) = some (o, c)) :
    ∃ d, step (newProg thumbK fn) E (some (newPos thumbK fn pc, s')) = some (o, d) ∧ Rel thumbK fn c d := by
  have hcode : (newProg thumbK fn).code[newPos thumbK fn pc]? = some (some i) :=
    codeAt_flatten hget _ _ 0 i rfl
  have hnext : newPos thumbK fn (pc + 1) = newPos thumbK fn pc + 1 := Chunks.offset_succ hget
  obtain ⟨d, hd, hmoved⟩ := step_moved (labelAt_newProg thumbK fn) hs.taken (opnds_same hr hi hs) hs.world
    hnext rfl rfl (prog_code hi) hcode h
  refine ⟨d, hd, ?_⟩
  cases hmoved with
  | ended => exact .ended
  | @goes pc1 t t' hagree hkeep htaken hworld =>
    refine .here ⟨fun x hx => hagree x (hs.temps x hx), htaken, hworld⟩ ?_
    have hkeep' : ∀ m ≠ pc, 0 ≤ (plan thumbK fn).preq m →
        t'.temps ((plan thumbK fn).preq m) = s'.temps ((plan thumbK fn).preq m) := by
      intro m _ hm
      refine hkeep _ fun hmem => ?_
      have h1 := (hr i (mem_of_getElem? hi)).2 _ hmem
      have h2 := ((planned_plan thumbK fn).preq m hm).2.2.1
      omega
    rcases step_cases (prog_code hi) h with ⟨-, rfl, ⟨rfl, hop⟩ | ⟨l, -, hat⟩⟩ |
      ⟨hctl, ⟨vs, rs, world, hvs, he, -, rfl, rfl⟩ | ⟨world, -, l, -, hat⟩⟩
    · refine tableHeld_succ hi htab (fun _ _ => rfl) hkeep' fun hp => ?_
      rcases hop with hop | hop | hop <;> rcases hp.op with hop' | hop' <;> simp [hop] at hop'
    · exact tableHeld_label hat
    · refine tableHeld_succ hi htab (fun x hx => after_temps_of_not_mem hx _ _) hkeep' fun hp _ _ => ?_
      rcases opnds_cases i s.temps with hun | ⟨va, vb, ha, hb⟩
      · rw [hp.twoOpnd.step_unset (prog_code hi) hun] at h
        cases h
      cases hR : foldBin i.op (toLong va) (toLong vb) i.w i.sign i.pred with
      | none =>
        rw [hp.twoOpnd.step_fault (prog_code hi) ha hb hR] at h
        cases h
      | some R =>
        rw [hp.twoOpnd.step_ok (prog_code hi) ha hb hR] at h
        have hafter : s.after i rs world = { s with temps := setTemp s.temps i.dst (ofLong R) } := by
          have := (mk.inj (some.inj h)).2
          exact ((mk.inj (some.inj this)).2).symm
        have hset : (s.after i rs world).temps = update s.temps i.dst (some (ofLong R)) := by
          rw [hafter]
          exact if_neg (by have := hp.dst; omega)
        have ha' : (s.after i rs world).temps i.a = some va := by
          rw [hset, update_of_ne hp.dst_a.symm, ha]
        have hb' : (s.after i rs world).temps i.b = some vb := by
          rw [hset, update_of_ne hp.dst_b.symm, hb]
        rcases hp.op with hop | hop
        · rw [hop] at hR
          cases hQ : foldBin .div (toLong va) (toLong vb) i.w i.sign .eq with
          | none =>
            rw [foldBin_mod_eq_none.2 hQ] at hR
            cases hR
          | some Q =>
            exact ⟨va, vb, Q, ha', hb', hQ, fun hd => by simp [entry, hop] at hd, fun _ hq => absurd hq (not_le.2 hpre)⟩
        · rw [hop] at hR
          exact ⟨va, vb, R, ha', hb', hR, fun _ => by rw [hset]; exact update_self .., fun hd => by simp [entry, hop] at hd⟩
    · exact tableHeld_label hat

/-! ## Steps -/

omit hr in
lemma rel_exec (hp : Pairable i) {is : List Ins} (hget : (pieces thumbK fn)[pc]? = some is)
    (hne : is ≠ []) {temps' : ℤ → Option Val} (hx : execSeq s'.temps is = some temps')
    (htemps : ∀ x < (fn.nvregs : ℤ), x ≠ i.dst → temps' x = s'.temps x)
    (hdst : temps' i.dst = some (ofLong R)) (hpreq : ∀ m ≠ pc, 0 ≤ (plan thumbK fn).preq m →
      temps' ((plan thumbK fn).preq m) = s'.temps ((plan thumbK fn).preq m))
    (hnew : (plan thumbK fn).mulq pc < 0 → (plan thumbK fn).movq pc < 0 → ∃ va vb Q,
      Held (plan thumbK fn) (entry pc i) { s with temps := setTemp s.temps i.dst (ofLong R) }
        { s' with temps := temps' } va vb Q) :
    Catches thumbK fn E (some (newPos thumbK fn pc, s')) none
      (some (pc + 1, { s with temps := setTemp s.temps i.dst (ofLong R) })) := by
  obtain ⟨-, -, -, -, hdefs, -⟩ := hp.twoOpnd.spec
  have hset : setTemp s.temps i.dst (ofLong R) = update s.temps i.dst (some (ofLong R)) :=
    if_neg (by have := hp.dst; omega)
  refine ⟨_, follows_execSeq (codeAt_flatten hget _ _) hne hx, ?_⟩
  have hnext : newPos thumbK fn (pc + 1) = newPos thumbK fn pc + is.length := Chunks.offset_succ hget
  have hrel : Rel thumbK fn (some (pc + 1, { s with temps := setTemp s.temps i.dst (ofLong R) }))
      (some (newPos thumbK fn (pc + 1), { s' with temps := temps' })) := by
    refine .here ⟨fun x hx => ?_, hs.taken, hs.world⟩ ?_
    · by_cases hxd : x = i.dst
      · simp only [hset, hxd, update_self, hdst]
      · simp only [hset, update_of_ne hxd, htemps x hx hxd, hs.temps x hx]
    · refine tableHeld_succ hi htab (fun x hxd => ?_) hpreq fun _ => hnew
      rw [hdefs, mem_singleton] at hxd
      simp only [hset, update_of_ne hxd]
  rwa [hnext] at hrel

omit hr hi hs htab in
lemma outer_exec (hp : Pairable i) (vs : List Val) : (some (exec i vs)).bind outer = none := by
  simp [outer, hp.twoOpnd.spec.1]

omit hs htab in
lemma execSeq_mulSub (hp : Pairable i) (hnv : fn.nvregs ≤ nv) {q : ℤ} {va vb : Val} {Q M : BitVec 64}
    (hq : temps q = some (ofLong Q)) (ha : temps i.a = some va) (hb : temps i.b = some vb)
    (hM : foldBin .mul Q (toLong vb) i.w false .eq = some M) (hR : foldBin .sub (toLong va) M i.w false .eq = some R) :
    execSeq temps [mulIns nv q i, subIns nv i] = some (setTemp (setTemp temps nv (ofLong M)) i.dst (ofLong R)) := by
  obtain ⟨hlta, -, -⟩ := dst_lt hr hi hp
  have hmul : TwoOpnd (mulIns nv q i) := ⟨.inr (.inr (.inl rfl)), rfl, rfl, hp.w⟩
  have hsub : TwoOpnd (subIns nv i) := ⟨.inr (.inr (.inr rfl)), rfl, rfl, hp.w⟩
  have h1 : Ir.execIns temps (mulIns nv q i) = some (setTemp temps nv (ofLong M)) :=
    hmul.execIns hq hb (by rw [toLong_ofLong]; exact hM)
  have hset : setTemp temps nv (ofLong M) = update temps nv (some (ofLong M)) := if_neg (by omega)
  have ha' : setTemp temps nv (ofLong M) i.a = some va := by rw [hset, update_of_ne (by omega), ha]
  have hm' : setTemp temps nv (ofLong M) nv = some (ofLong M) := by rw [hset, update_self]
  have h2 : Ir.execIns (setTemp temps nv (ofLong M)) (subIns nv i) =
      some (setTemp (setTemp temps nv (ofLong M)) i.dst (ofLong R)) :=
    hsub.execIns ha' hm' (by rw [toLong_ofLong]; exact hR)
  rw [execSeq, foldlM_cons, h1, bind_eq_bind, bind_some, foldlM_cons, h2]
  rfl

omit hr hi htab hs in
lemma setTemp_of_nonneg {x : ℤ} (hx : 0 ≤ x) (v : Val) :
    setTemp temps x v = update temps x (some v) := if_neg (by omega)

variable (hp : Pairable i) (h : step fn.prog E (some (pc, s)) = some (o, c))
include hp h

/-- A remainder computed from the quotient of its pair. -/
lemma rel_mul (he : e ∈ (pairsAt thumbK fn pc).tab) (hpairs : e.pairs (pairsAt thumbK fn pc) i) (hd : e.isDiv = true)
    (hmulq : 0 ≤ (plan thumbK fn).mulq pc) (hnv : (plan thumbK fn).nv ≤ nv)
    (hget : (pieces thumbK fn)[pc]? = some [mulIns nv e.res i, subIns nv i]) : Catches thumbK fn E
    (some (newPos thumbK fn pc, s')) (o.bind outer) c := by
  obtain ⟨hea, heb, hew, hes, hkind, -⟩ := Ent.pairs_spec hpairs
  have hop : i.op = .mod := hp.op.resolve_right fun hdiv => by simp [hd, hdiv] at hkind
  have hnl : i.op ≠ .label := by simp [hop]
  obtain ⟨va, vb, Q, hh⟩ := htab i hi hnl e he
  have hdiv := hh.div
  rw [hew, hes] at hdiv
  obtain ⟨M, R, hM, hR, hmod⟩ := foldBin_mod_of_div hp.w hdiv i.pred
  have ha : s.temps i.a = some va := hea ▸ hh.a
  have hb : s.temps i.b = some vb := heb ▸ hh.b
  obtain ⟨hlta, hltb, hltd⟩ := dst_lt hr hi hp
  have hlen := getElem?_lt hi
  obtain ⟨-, j, hj, hjp, hej, -⟩ := (planned_pairsAt thumbK hlen.le).tab e he
  have hltq : e.res < fn.nvregs := by
    rw [hej]
    exact (dst_lt hr hj (pairable_spec hjp)).2.2
  have hle := (planned_plan thumbK fn).le
  have hstep := hp.twoOpnd.step_ok (E := E) (prog_code hi) ha hb (hop ▸ hmod)
  obtain ⟨rfl, rfl⟩ := mk.inj (mem_unique hstep h)
  rw [outer_exec hp]
  have hx := execSeq_mulSub hr hi hp (hle.trans hnv) ((hs.temps _ hltq).trans (hh.res hd))
    ((hs.temps _ hlta).trans ha) ((hs.temps _ hltb).trans hb) hM hR
  rw [setTemp_of_nonneg (by omega : (0 : ℤ) ≤ nv), setTemp_of_nonneg hp.dst] at hx
  refine rel_exec hi hs htab hp hget (by simp) hx (fun x hx hxd => ?_) (update_self ..)
    (fun m _ hm => ?_) fun hneg => absurd hmulq (not_le.2 hneg)
  · rw [update_of_ne hxd, update_of_ne (by omega)]
  · obtain ⟨-, -, hge, hlt, -⟩ := (planned_plan thumbK fn).preq m hm
    rw [update_of_ne (by omega), update_of_ne (by omega)]

lemma rel_mov (he : e ∈ (pairsAt thumbK fn pc).tab) (hpairs : e.pairs (pairsAt thumbK fn pc) i)
    (hd : e.isDiv = false) (hpos : 0 ≤ (plan thumbK fn).preq e.pos)
    (hmovq : 0 ≤ (plan thumbK fn).movq pc) (hget : (pieces thumbK fn)[pc]? = some [{ i with op := .mov, a := (plan thumbK fn).preq e.pos, b := -1 }]) :
    Catches thumbK fn E (some (newPos thumbK fn pc, s')) (o.bind outer) c := by
  obtain ⟨hea, heb, hew, hes, hkind, -⟩ := Ent.pairs_spec hpairs
  have hop : i.op = .div := by simpa [hd] using hkind
  have hnl : i.op ≠ .label := by simp [hop]
  obtain ⟨va, vb, Q, hh⟩ := htab i hi hnl e he
  have hdiv := hh.div
  rw [hew, hes] at hdiv
  obtain ⟨-, -, hltd⟩ := dst_lt hr hi hp
  have hdiv' : foldBin i.op (toLong va) (toLong vb) i.w i.sign i.pred = some Q := by
    rw [hop]
    exact hdiv
  have hstep := hp.twoOpnd.step_ok (E := E) (prog_code hi) (hea ▸ hh.a) (heb ▸ hh.b) hdiv'
  obtain ⟨rfl, rfl⟩ := mk.inj (mem_unique hstep h)
  rw [outer_exec hp]
  have hx : execSeq s'.temps [{ i with op := .mov, a := (plan thumbK fn).preq e.pos, b := -1 }] =
      some (update s'.temps i.dst (some (ofLong Q))) := by
    rw [execSeq_singleton, ← setTemp_of_nonneg hp.dst]
    simp [Ir.execIns, isCore, valueOpnds, eachRead, evalCore, hh.preq hd hpos]
  refine rel_exec hi hs htab hp hget (by simp) hx (fun x _ hxd => update_of_ne hxd _ _)
    (update_self ..) (fun m _ hm => ?_) fun _ hneg => absurd hmovq (not_le.2 hneg)
  obtain ⟨-, -, hge, -⟩ := (planned_plan thumbK fn).preq m hm
  exact update_of_ne (by omega) _ _

/-- A remainder before its division: the division is done first. -/
lemma rel_pre (hop : i.op = .mod) (hq : 0 ≤ (plan thumbK fn).preq pc)
    (hnv : (plan thumbK fn).nv ≤ nv) (hget : (pieces thumbK fn)[pc]? = some [{ i with op := .div, dst := (plan thumbK fn).preq pc },
      mulIns nv ((plan thumbK fn).preq pc) i, subIns nv i]) :
    Catches thumbK fn E (some (newPos thumbK fn pc, s')) (o.bind outer) c := by
  obtain ⟨-, -, hge, hlt, -⟩ := (planned_plan thumbK fn).preq pc hq
  obtain ⟨hlta, hltb, hltd⟩ := dst_lt hr hi hp
  have hle := (planned_plan thumbK fn).le
  have hdiv : TwoOpnd { i with op := .div, dst := (plan thumbK fn).preq pc } :=
    ⟨.inr (.inl rfl), hp.flt, hp.immB, hp.w⟩
  have hcode : (newProg thumbK fn).code[newPos thumbK fn pc]? =
      some (some { i with op := .div, dst := (plan thumbK fn).preq pc }) :=
    codeAt_flatten hget fn.jt fn.eh 0 _ rfl
  rcases opnds_cases i s.temps with hun | ⟨va, vb, ha, hb⟩
  · have hun' : s'.temps i.a = none ∨ s'.temps i.b = none := by rwa [hs.temps _ hlta, hs.temps _ hltb]
    obtain ⟨rfl, rfl⟩ := mk.inj (some.inj ((hp.twoOpnd.step_unset (prog_code hi) hun).symm.trans h))
    exact ⟨none, .of_step (viewed_of_step _ (hdiv.step_unset hcode hun')), .ended⟩
  · have ha' : s'.temps i.a = some va := (hs.temps _ hlta).trans ha
    have hb' : s'.temps i.b = some vb := (hs.temps _ hltb).trans hb
    cases hQ : foldBin .div (toLong va) (toLong vb) i.w i.sign i.pred with
    | none =>
      have hmod : foldBin i.op (toLong va) (toLong vb) i.w i.sign i.pred = none := by
        rw [hop]
        exact foldBin_mod_eq_none.2 hQ
      obtain ⟨rfl, rfl⟩ := mk.inj (some.inj ((hp.twoOpnd.step_fault (E := E) (prog_code hi) ha hb hmod).symm.trans h))
      refine ⟨none, .of_step ?_, .ended⟩
      rw [viewed_of_step _ (hdiv.step_fault hcode ha' hb' hQ)]
      simp [outer, hp.twoOpnd.spec.1, hdiv.spec.1]
    | some Q =>
      obtain ⟨M, R, hM, hR, hmod⟩ := foldBin_mod_of_div hp.w hQ i.pred
      obtain ⟨rfl, rfl⟩ := mk.inj (some.inj ((hp.twoOpnd.step_ok (prog_code hi) ha hb (hop ▸ hmod)).symm.trans h))
      rw [outer_exec hp]
      have h1 : Ir.execIns s'.temps { i with op := .div, dst := (plan thumbK fn).preq pc } =
          some (update s'.temps ((plan thumbK fn).preq pc) (some (ofLong Q))) := by
        rw [← setTemp_of_nonneg hq]
        exact hdiv.execIns ha' hb' hQ
      have ha1 : update s'.temps ((plan thumbK fn).preq pc) (some (ofLong Q)) i.a = some va := by
        rw [update_of_ne (by omega), ha']
      have hb1 : update s'.temps ((plan thumbK fn).preq pc) (some (ofLong Q)) i.b = some vb := by
        rw [update_of_ne (by omega), hb']
      have h2 := execSeq_mulSub hr hi hp (hle.trans hnv) (update_self ..) ha1 hb1 hM hR
      rw [setTemp_of_nonneg (by omega : (0 : ℤ) ≤ nv), setTemp_of_nonneg hp.dst] at h2
      have hx := (execSeq_append s'.temps [{ i with op := .div, dst := (plan thumbK fn).preq pc }]
        [mulIns nv ((plan thumbK fn).preq pc) i, subIns nv i]).trans
        (by rw [execSeq_singleton, h1, bind_some, h2])
      refine rel_exec hi hs htab hp hget (by simp) hx (fun x hx hxd => ?_) (update_self ..)
        (fun m hne hm => ?_) fun _ _ => ⟨va, vb, Q, ?_, ?_, hQ, fun hd => ?_, fun _ _ => ?_⟩
      · rw [update_of_ne hxd, update_of_ne (by omega), update_of_ne (by omega)]
      · obtain ⟨-, -, hge', hlt', -⟩ := (planned_plan thumbK fn).preq m hm
        have hinj : (plan thumbK fn).preq m ≠ (plan thumbK fn).preq pc := fun heq =>
          hne ((planned_plan thumbK fn).inj m pc hm heq)
        rw [update_of_ne (by omega), update_of_ne (by omega), update_of_ne hinj]
      · simp only [setTemp_of_nonneg hp.dst]
        exact (update_of_ne hp.dst_a.symm _ _).trans ha
      · simp only [setTemp_of_nonneg hp.dst]
        exact (update_of_ne hp.dst_b.symm _ _).trans hb
      · simp [entry, hop] at hd
      · simp only [entry]
        rw [update_of_ne (by omega), update_of_ne (by omega), update_self]

end

/-- One step of the old code is caught up with by the new. -/
lemma rel_step (hr : InRange fn) {c c' d : Cfg W} {o : Option Event} (h : Rel thumbK fn c d)
    (hstep : step fn.prog E c = some (o, c')) : Catches thumbK fn E d (o.bind outer) c' := by
  cases h with
  | ended => cases hstep
  | @here pc s s' hs htab =>
    cases hi : fn.ins[pc]? with
    | none =>
      have hlen := List.getElem?_eq_none_iff.1 hi
      have hpos : newPos thumbK fn pc = (pieces thumbK fn).flatten.length :=
        Chunks.offset_of_length_le (by rw [length_pieces]; exact hlen)
      have hend : (newProg thumbK fn).code[newPos thumbK fn pc]? = none :=
        getElem?_eq_none (by rw [newProg, length_map, hpos])
      have hlost : step fn.prog E (some (pc, s)) = some (some .lost, none) := by
        simp [step, Func.prog, hi]
      have hlost' : step (newProg thumbK fn) E (some (newPos thumbK fn pc, s')) = some (some .lost, none) := by
        simp [step, hend]
      obtain ⟨rfl, rfl⟩ := mk.inj (mem_unique hlost hstep)
      exact ⟨none, .of_step (viewed_of_step _ hlost'), .ended⟩
    | some i =>
      obtain ⟨nv, hnv, ⟨hget, hpre⟩ | ⟨hget, hq, hp, hop⟩ | ⟨e, he, hpairs, hp, hd, hmulq, hget⟩ |
        ⟨e, he, hpairs, hp, hd, hpos, hmovq, hget⟩⟩ := piece_cases thumbK hi
      · obtain ⟨d, hd, hrel⟩ := rel_plain hr hi hs htab hget hpre hstep
        exact ⟨d, .of_step (viewed_of_step _ hd), hrel⟩
      · exact rel_pre hr hi hs htab hp hstep hop hq hnv hget
      · exact rel_mul hr hi hs htab hp hstep he hpairs hd hmulq hnv hget
      · exact rel_mov hr hi hs htab hp hstep he hpairs hd hpos hmovq hget

/-- Where an instruction is after the pass. -/
def placeOf (thumbK : Bool) (fn : Func) (pc : ℕ) : ℕ :=
  if (plan thumbK fn).nrw = 0 then pc else newPos thumbK fn pc

/-- The pass changes no value that is read: every point of a run of the function is a point of the run
of the new one where every register of the function, the memory and the rest are the same.
The two runs show the same, but for their integer operations. -/
theorem passDivmod_preserves (hr : InRange fn) (thumbK : Bool) (E : Env W) (s₀ : St W) :
    (∀ pc s, Reaches (step fn.prog E) (some (0, s₀)) (some (pc, s)) →
      ∃ s', Reaches (step (passDivmod thumbK fn).prog E) (some (0, s₀)) (some (placeOf thumbK fn pc, s')) ∧
        Same fn s s') ∧
    Refines (fun _ => False) (viewed outer (step fn.prog E)) (some (0, s₀))
      (viewed outer (step (passDivmod thumbK fn).prog E)) (some (0, s₀)) := by
  unfold placeOf
  by_cases hn : (plan thumbK fn).nrw = 0
  · rw [passDivmod, if_pos hn]
    exact ⟨fun pc s h => ⟨s, by rwa [if_pos hn], fun _ _ => rfl, rfl, rfl⟩, .refl _ _⟩
  · have hprog : (passDivmod thumbK fn).prog = newProg thumbK fn := by
      rw [passDivmod, if_neg hn]
      rfl
    have hstart : Rel thumbK fn (some (0, s₀)) (some (0, s₀)) :=
      show Rel thumbK fn (some (0, s₀)) (some (newPos thumbK fn 0, s₀)) from
        .here ⟨fun _ _ => rfl, rfl, rfl⟩ fun _ _ _ e he => absurd he not_mem_nil
    have hfollow (c d : Cfg W) o c' (hcd : Rel thumbK fn c d)
        (h : viewed outer (step fn.prog E) c = some (o, c')) : Catches thumbK fn E d o c' := by
      obtain ⟨⟨o', c''⟩, hstep, heq⟩ := Option.map_eq_some_iff.1 h
      obtain ⟨rfl, rfl⟩ := mk.inj heq
      exact rel_step hr hcd hstep
    rw [hprog]
    constructor
    · intro pc s hreach
      have hview : Reaches (viewed outer (step fn.prog E)) (some (0, s₀)) (some (pc, s)) :=
        ReflTransGen.mono (fun a b ⟨o, ho⟩ => ⟨_, viewed_of_step outer ho⟩) _ _ hreach
      obtain ⟨d, hd, hrel⟩ := reaches_of_follows hfollow hstart hview
      cases hrel with
      | here hs _ => exact ⟨_, by rw [if_neg hn]; exact hd.of_viewed, hs⟩
    · refine refines_of_match (fun c d hcd => ?_) hstart
      cases hc : viewed outer (step fn.prog E) c with
      | none =>
        cases hcd with
        | ended => exact .halt .refl .refl rfl rfl
        | here =>
          obtain ⟨p, hp⟩ := Option.isSome_iff_exists.1 (step_isSome fn.prog E _ _)
          rw [viewed, hp] at hc
          cases hc
      | some p =>
        obtain ⟨d', hf, hrel⟩ := hfollow c d p.1 p.2 hcd hc
        exact .of_follows hc hf hrel

/-- A remainder before the quotient, and one after it. -/
def digits : Func where
  ins := [{ op := .const, dst := 0, w := 4, imm := 1234 }, { op := .const, dst := 1, w := 4, imm := 10 },
    { op := .mod, dst := 2, a := 0, b := 1, w := 4 }, { op := .div, dst := 3, a := 0, b := 1, w := 4 },
    { op := .div, dst := 4, a := 3, b := 1, w := 4 }, { op := .mod, dst := 5, a := 3, b := 1, w := 4 },
    { op := .ret, a := 5 }]
  nvregs := 6

/-- On Thumb both are paired. -/
theorem passDivmod_preserves_digits :
    ((passDivmod true digits).ins.map (·.op) =
      [.const, .const, .div, .mul, .sub, .mov, .div, .mul, .sub, .ret]) ∧
    (∀ pc s, Reaches (step digits.prog Env.bare) (some (0, St.blank)) (some (pc, s)) →
      ∃ s', Reaches (step (passDivmod true digits).prog Env.bare) (some (0, St.blank))
          (some (placeOf true digits pc, s')) ∧ Same digits s s') ∧
    Refines (fun _ => False) (viewed outer (step digits.prog Env.bare)) (some (0, St.blank))
      (viewed outer (step (passDivmod true digits).prog Env.bare)) (some (0, St.blank)) :=
  ⟨by decide +kernel, passDivmod_preserves (by decide +kernel) true Env.bare St.blank⟩

end
end EmbCC.Opt.DivMod
