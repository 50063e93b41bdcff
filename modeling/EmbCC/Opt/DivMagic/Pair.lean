import EmbCC.Lib.Scan
import EmbCC.Opt.Defs

/-!
# A quotient and a remainder from one division

`pass_divmod`: of a division and a remainder of the same operands in one block, the remainder is
made `a - q * b`. The first loop walks the code with a table of the divisions seen, and
plans what becomes of each instruction (`pairStep`); the second writes the new code (`piece`).
`pairStep_cases` is all that a turn of the first loop can do.
-/

namespace EmbCC.Opt.DivMod

open Nat Ir Function List

/-- `struct dm_ent`; `pos` is its `at`. -/
structure Ent where
  a : ℤ
  b : ℤ
  w : ℕ
  sign : Bool
  res : ℤ
  pos : ℕ
  isDiv : Bool
deriving DecidableEq, Repr

/-- The table, the plan and the number of registers. At each instruction, -1 for no: `mulq`, a quotient
that this remainder is made from; `preq`, a new register for a quotient to be computed before
it; `movq`, the register this quotient is copied from. -/
structure Pairs where
  tab : List Ent := []
  mulq : ℕ → ℤ := fun _ => -1
  preq : ℕ → ℤ := fun _ => -1
  movq : ℕ → ℤ := fun _ => -1
  nv : ℕ
  nrw : ℕ := 0

/-- Where the table is emptied. -/
def resets (op : Op) : Bool := op = .label ∨ op = .asm ∨ op = .landing

section
variable (thumbK : Bool) (fn : Func)

/-- Can the instruction be one of a pair? A constant divisor only on Thumb, at width 4. -/
def pairable (i : Ins) : Bool :=
  (i.op = .mod ∨ i.op = .div) ∧ !i.flt ∧ !i.immB ∧ (i.w = 4 ∨ i.w = 8) ∧ i.a ≥ 0 ∧ i.b ≥ 0 ∧ i.dst ≥ 0 ∧
    i.dst ≠ i.a ∧ i.dst ≠ i.b ∧ ((thumbK ∧ i.w = 4) ∨ getConst fn i.b = none)

/-- The entry of an instruction. -/
def entry (n : ℕ) (i : Ins) : Ent := ⟨i.a, i.b, i.w, i.sign, i.dst, n, i.op = .div⟩

/-- Can the entry be paired with the instruction? -/
def Ent.pairs (p : Pairs) (i : Ins) (e : Ent) : Bool :=
  e.a = i.a ∧ e.b = i.b ∧ e.w = i.w ∧ e.sign = i.sign ∧ e.isDiv ≠ decide (i.op = .div) ∧
    (e.isDiv ∨ (p.preq e.pos < 0 ∧ p.mulq e.pos < 0))

/-- Pairing the instruction `n` with the entry `e`. -/
def Pairs.take (p : Pairs) (n : ℕ) (e : Ent) : Pairs :=
  if e.isDiv then { p with mulq := update p.mulq n e.res }
  else { p with
    preq := update p.preq e.pos p.nv
    movq := update p.movq n p.nv
    nv := p.nv + 1 }

/-- The loop over the table: the first entry that can be paired, which is then marked as used. -/
def Pairs.pair (p : Pairs) (n : ℕ) (i : Ins) : Pairs × Bool :=
  match p.tab.findIdx? (Ent.pairs p i) with
  | none => (p, false)
  | some k =>
    match p.tab[k]? with
    | none => (p, false)
    | some e => ({ p.take n e with tab := p.tab.set k { e with a := -2 }, nrw := p.nrw + 1 }, true)

/-- The table after a write to `t`. -/
def forget (t : ℤ) (tab : List Ent) : List Ent :=
  if t ≥ 0 then tab.filter fun e => e.a ≠ t ∧ e.b ≠ t ∧ e.res ≠ t ∧ e.a ≠ -2 else tab

/-- One turn of the first loop. -/
def pairStep (p : Pairs) (n : ℕ) (i : Ins) : Pairs :=
  if resets i.op then { p with tab := [] }
  else
    let (p, matched) := if pairable thumbK fn i then p.pair n i else (p, false)
    let p := { p with tab := forget (defTarget i) p.tab }
    if pairable thumbK fn i ∧ !matched ∧ p.tab.length < 16 then { p with tab := p.tab ++ [entry n i] }
    else p

/-- The table and the plan before the instruction `n`. -/
def pairsAt (n : ℕ) : Pairs :=
  (fn.ins.zipIdx.take n).foldl (fun p x => pairStep thumbK fn p x.2 x.1) { nv := fn.nvregs }

/-- The whole plan. -/
def plan : Pairs := pairsAt thumbK fn fn.ins.length

/-- What the second loop writes for an instruction, when there are `nv` registers, and how many there
are then. -/
def piece (p : Pairs) (nv : ℕ) (x : Ins × ℕ) : List Ins × ℕ :=
  let (o, n) := x
  if p.movq n ≥ 0 then ([{ o with op := .mov, a := p.movq n, b := -1 }], nv)
  else
    let q := if p.mulq n ≥ 0 then p.mulq n else p.preq n
    if q < 0 then ([o], nv)
    else
      ((if p.preq n ≥ 0 then [{ o with op := .div, dst := q }] else []) ++
        [{ op := .mul, dst := nv, a := q, b := o.b, w := o.w, label := -1 },
          { op := .sub, dst := o.dst, a := o.a, b := nv, w := o.w, label := -1 }], nv + 1)

/-- The new code, a piece for each instruction. -/
def pieces : List (List Ins) := Scan.scan (piece (plan thumbK fn)) (plan thumbK fn).nv fn.ins.zipIdx

/-- `pass_divmod`; `thumbK` is whether the target is Thumb and `EMBCC_NO_DIVMOD_CONST` is not set. -/
def passDivmod : Func :=
  if (plan thumbK fn).nrw = 0 then fn
  else
    { fn with
      ins := (pieces thumbK fn).flatten
      nvregs := Scan.stateAt (piece (plan thumbK fn)) (plan thumbK fn).nv fn.ins.zipIdx fn.ins.length }

end

section
variable {thumbK : Bool} {fn : Func} {p : Pairs} {n : ℕ} {i : Ins} {e : Ent}

lemma pairsAt_succ (hi : fn.ins[n]? = some i) :
    pairsAt thumbK fn (n + 1) = pairStep thumbK fn (pairsAt thumbK fn n) n i := by
  have hz : fn.ins.zipIdx[n]? = some (i, n) := by simp [hi]
  rw [pairsAt, take_add_one, hz, foldl_append]
  rfl

structure Pairable (i : Ins) : Prop where
  op : i.op = .mod ∨ i.op = .div
  flt : i.flt = false
  immB : i.immB = false
  w : i.w = 4 ∨ i.w = 8
  a : 0 ≤ i.a
  b : 0 ≤ i.b
  dst : 0 ≤ i.dst
  dst_a : i.dst ≠ i.a
  dst_b : i.dst ≠ i.b

lemma pairable_spec (h : pairable thumbK fn i) : Pairable i := by
  simp only [pairable, decide_eq_true_eq] at h
  obtain ⟨op, flt, immB, w, a, b, dst, dst_a, dst_b, -⟩ := h
  exact ⟨op, by simpa using flt, by simpa using immB, w, a, b, dst, dst_a, dst_b⟩

lemma Pairable.target (h : Pairable i) : defTarget i = i.dst ∧ resets i.op = false ∧ i.op ≠ .landing := by
  rcases h.op with hop | hop <;> simp [defTarget, writesTemp, resets, hop]

/-- The entry is one of the table that the instruction does not write over. -/
structure Kept (p : Pairs) (i : Ins) (e : Ent) : Prop where
  mem : e ∈ p.tab
  op : resets i.op = false
  a : 0 ≤ defTarget i → e.a ≠ defTarget i
  b : 0 ≤ defTarget i → e.b ≠ defTarget i
  res : 0 ≤ defTarget i → e.res ≠ defTarget i

lemma kept_of_mem_forget (hop : resets i.op = false) (h : e ∈ forget (defTarget i) p.tab) : Kept p i e := by
  unfold forget at h
  split_ifs at h with ht
  · simp only [mem_filter, decide_eq_true_eq] at h
    exact ⟨h.1, hop, fun _ => h.2.1, fun _ => h.2.2.1, fun _ => h.2.2.2.1⟩
  · exact ⟨h, hop, fun h => absurd h ht, fun h => absurd h ht, fun h => absurd h ht⟩

lemma kept_of_mem_forget_set (hop : resets i.op = false) (ht : 0 ≤ defTarget i) {k : ℕ} {e' : Ent}
    (h : e ∈ forget (defTarget i) (p.tab.set k { e' with a := -2 })) : Kept p i e := by
  simp only [forget, if_pos ht, mem_filter, decide_eq_true_eq] at h
  obtain ⟨hmem, ha, hb, hres, hused⟩ := h
  rcases mem_or_eq_of_mem_set hmem with hmem | rfl
  · exact ⟨hmem, hop, fun _ => ha, fun _ => hb, fun _ => hres⟩
  · exact absurd rfl hused

lemma pair_cases (p : Pairs) (n : ℕ) (i : Ins) : p.pair n i = (p, false) ∨ ∃ k, ∃ e ∈ p.tab, e.pairs p i ∧ p.pair n i =
      ({ p.take n e with tab := p.tab.set k { e with a := -2 }, nrw := p.nrw + 1 }, true) := by
  unfold Pairs.pair
  split
  · exact .inl rfl
  · rename_i k hk
    obtain ⟨hlt, hp, -⟩ := List.findIdx?_eq_some_iff_getElem.1 hk
    rw [List.getElem?_eq_getElem hlt]
    exact .inr ⟨k, _, getElem_mem hlt, hp, rfl⟩

/-- The three things a turn of the scan can do: keep the plan, pair with a division, or with a
remainder. -/
lemma pairStep_cases (thumbK : Bool) (fn : Func) (p : Pairs) (n : ℕ) (i : Ins) : ∃ tab nrw,
      (pairStep thumbK fn p n i = { p with tab, nrw } ∧ ∀ e ∈ tab, Kept p i e ∨ (e = entry n i ∧ pairable thumbK fn i)) ∨
      (∃ e ∈ p.tab, e.pairs p i ∧ pairable thumbK fn i ∧
        pairStep thumbK fn p n i = { p.take n e with tab, nrw } ∧ ∀ e ∈ tab, Kept p i e) := by
  unfold pairStep
  by_cases hop : resets i.op
  · rw [if_pos hop]
    exact ⟨[], p.nrw, .inl ⟨rfl, fun e he => absurd he (not_mem_nil)⟩⟩
  · have hop' : resets i.op = false := by simpa using hop
    rw [if_neg hop]
    by_cases hpair : pairable thumbK fn i
    · rcases pair_cases p n i with heq | ⟨k, e, he, hp, heq⟩
      · simp only [hpair, if_true, heq]
        split_ifs
        · refine ⟨_, p.nrw, .inl ⟨rfl, fun e he => ?_⟩⟩
          rcases mem_append.1 he with he | he
          · exact .inl (kept_of_mem_forget hop' he)
          · exact .inr ⟨mem_singleton.1 he, trivial⟩
        · exact ⟨_, p.nrw, .inl ⟨rfl, fun e he => .inl (kept_of_mem_forget hop' he)⟩⟩
      · simp only [hpair, heq, true_and]
        obtain ⟨htar, -⟩ := (pairable_spec hpair).target
        refine ⟨_, p.nrw + 1, .inr ⟨e, he, hp, rfl, fun e' he' => ?_⟩⟩
        exact kept_of_mem_forget_set hop' (htar ▸ (pairable_spec hpair).dst) he'
    · simp only [hpair]
      exact ⟨_, p.nrw, .inl ⟨rfl, fun e he => .inl (kept_of_mem_forget hop' he)⟩⟩

lemma Ent.pairs_spec (h : e.pairs p i) : e.a = i.a ∧ e.b = i.b ∧ e.w = i.w ∧ e.sign = i.sign ∧
    e.isDiv ≠ decide (i.op = .div) ∧ (e.isDiv ∨ (p.preq e.pos < 0 ∧ p.mulq e.pos < 0)) := by
  simpa only [Ent.pairs, decide_eq_true_eq] using h

/-- What holds of the plan before the instruction `n`. -/
structure Planned (thumbK : Bool) (fn : Func) (n : ℕ) (p : Pairs) : Prop where
  tab : ∀ e ∈ p.tab, e.pos < n ∧ ∃ i, fn.ins[e.pos]? = some i ∧ pairable thumbK fn i ∧
    e = entry e.pos i ∧ (e.isDiv → p.movq e.pos < 0)
  mulq : ∀ m, 0 ≤ p.mulq m → m < n
  movq : ∀ m, 0 ≤ p.movq m → m < n
  preq : ∀ m, 0 ≤ p.preq m → m < n ∧ p.mulq m < 0 ∧ fn.nvregs ≤ p.preq m ∧ p.preq m < p.nv ∧
    ∃ i, fn.ins[m]? = some i ∧ pairable thumbK fn i ∧ i.op = .mod
  inj : ∀ m m', 0 ≤ p.preq m → p.preq m = p.preq m' → m = m'
  le : fn.nvregs ≤ p.nv

/-- A turn does not change what was planned for the instructions before. -/
structure Later (n : ℕ) (p p' : Pairs) : Prop where
  mulq : ∀ m < n, p'.mulq m = p.mulq m
  movq : ∀ m < n, p'.movq m = p.movq m
  preq : ∀ m, 0 ≤ p.preq m → p'.preq m = p.preq m

lemma Later.trans {p' p'' : Pairs} {m : ℕ} (h : Later m p p') (h' : Later n p' p'') (hmn : m ≤ n) : Later m p p'' where
  mulq k hk := (h'.mulq k (by omega)).trans (h.mulq k hk)
  movq k hk := (h'.movq k (by omega)).trans (h.movq k hk)
  preq k hk := by rw [h'.preq k (by rw [h.preq k hk]; exact hk), h.preq k hk]

/-- One turn keeps what the plan says of the code before it. -/
lemma planned_step (h : Planned thumbK fn n p) (hi : fn.ins[n]? = some i) :
    Planned thumbK fn (n + 1) (pairStep thumbK fn p n i) ∧ Later n p (pairStep thumbK fn p n i) := by
  have hkept e (he : Kept p i e) : e.pos < n + 1 ∧ ∃ i, fn.ins[e.pos]? = some i ∧
      pairable thumbK fn i ∧ e = entry e.pos i ∧ (e.isDiv → p.movq e.pos < 0) :=
    ⟨lt_succ_of_lt (h.tab e he.mem).1, (h.tab e he.mem).2⟩
  have hnone {g : ℕ → ℤ} (hg : ∀ m, 0 ≤ g m → m < n) : g n < 0 := by
    by_contra hge
    exact absurd (hg n (by omega)) (lt_irrefl n)
  obtain ⟨tab, nrw, ⟨heq, htab⟩ | ⟨e, he, hpairs, hpair, heq, htab⟩⟩ := pairStep_cases thumbK fn p n i
  · rw [heq]
    refine ⟨⟨fun e he => ?_, fun m hm => lt_succ_of_lt (h.mulq m hm), fun m hm => lt_succ_of_lt (h.movq m hm),
      fun m hm => ⟨lt_succ_of_lt (h.preq m hm).1, (h.preq m hm).2⟩, h.inj, h.le⟩,
      ⟨fun _ _ => rfl, fun _ _ => rfl, fun _ _ => rfl⟩⟩
    rcases htab e he with he | ⟨rfl, hpair⟩
    · exact hkept e he
    · exact ⟨lt_succ_self n, i, hi, hpair, rfl, fun _ => hnone h.movq⟩
  · obtain ⟨-, -, -, -, -, hfree⟩ := Ent.pairs_spec hpairs
    obtain ⟨hpos, j, hj, hjpair, hej, -⟩ := h.tab e he
    rw [heq]
    cases hd : e.isDiv with
    | true =>
      rw [Pairs.take, if_pos hd]
      refine ⟨⟨fun e' he' => hkept e' (htab e' he'), fun m hm => ?_,
        fun m hm => lt_succ_of_lt (h.movq m hm), fun m hm => ?_, h.inj, h.le⟩,
        ⟨fun m hm => update_of_ne (by omega) _ _, fun _ _ => rfl, fun _ _ => rfl⟩⟩
      · by_cases hmn : m = n
        · omega
        · exact lt_succ_of_lt (h.mulq m (by simpa [update_of_ne hmn] using hm))
      · obtain ⟨h1, h2, h3⟩ := h.preq m hm
        exact ⟨lt_succ_of_lt h1, by simpa [update_of_ne (Nat.ne_of_lt h1)] using h2, h3⟩
    | false =>
      obtain ⟨hpre, hmul⟩ : p.preq e.pos < 0 ∧ p.mulq e.pos < 0 := by simpa [hd] using hfree
      have hmod : j.op = .mod := by
        refine (pairable_spec hjpair).op.resolve_right fun hdiv => ?_
        rw [hej] at hd
        simp [entry, hdiv] at hd
      have hle := h.le
      rw [Pairs.take, if_neg (by simp [hd])]
      refine ⟨⟨fun e' he' => ?_, fun m hm => lt_succ_of_lt (h.mulq m hm), fun m hm => ?_,
        fun m hm => ?_, fun m m' hm hmm => ?_, by simp; omega⟩,
        ⟨fun _ _ => rfl, fun m hm => update_of_ne (by omega) _ _,
          fun m hm => update_of_ne (fun he => by rw [he] at hm; omega) _ _⟩⟩
      · obtain ⟨h1, k, hk, hkp, hek, hmov⟩ := h.tab e' (htab e' he').mem
        refine ⟨lt_succ_of_lt h1, k, hk, hkp, hek, fun hd' => ?_⟩
        simpa [update_of_ne (Nat.ne_of_lt h1)] using hmov hd'
      · by_cases hmn : m = n
        · omega
        · exact lt_succ_of_lt (h.movq m (by simpa [update_of_ne hmn] using hm))
      · by_cases hme : m = e.pos
        · subst hme
          simp only [update_self]
          exact ⟨by omega, hmul, by omega, by omega, j, hj, hjpair, hmod⟩
        · simp only [update_of_ne hme] at hm ⊢
          obtain ⟨h1, h2, h3, h4, h5⟩ := h.preq m hm
          exact ⟨by omega, h2, h3, by omega, h5⟩
      · have hlt (k : ℕ) (hk : k ≠ e.pos) (hk0 : 0 ≤ p.preq k) : p.preq k ≠ p.nv := by
          have := (h.preq k hk0).2.2.2.1
          omega
        by_cases hme : m = e.pos <;> by_cases hme' : m' = e.pos
        · rw [hme, hme']
        · simp only [hme, update_self, update_of_ne hme'] at hmm
          exact absurd hmm.symm (hlt m' hme' (by omega))
        · simp only [hme', update_self, update_of_ne hme] at hmm
          exact absurd hmm (hlt m hme (by omega))
        · simp only [update_of_ne hme, update_of_ne hme'] at hm hmm
          exact h.inj m m' hm hmm

lemma planned_pairsAt (thumbK : Bool) (hn : n ≤ fn.ins.length) : Planned thumbK fn n (pairsAt thumbK fn n) := by
  induction n with
  | zero =>
    refine ⟨fun e he => absurd he not_mem_nil, fun m hm => ?_, fun m hm => ?_, fun m hm => ?_,
      fun m m' hm => ?_, le_rfl⟩ <;> exact absurd hm (show ¬ 0 ≤ -1 by decide)
  | succ n ih =>
    have hi := List.getElem?_eq_getElem hn
    rw [pairsAt_succ hi]
    exact (planned_step (ih (by omega)) hi).1

lemma later_pairsAt (thumbK : Bool) {m : ℕ} (hmn : m ≤ n) (hn : n ≤ fn.ins.length) :
    Later m (pairsAt thumbK fn m) (pairsAt thumbK fn n) := by
  induction n, hmn using le_induction with
  | base => exact ⟨fun _ _ => rfl, fun _ _ => rfl, fun _ _ => rfl⟩
  | succ n hmn ih =>
    have hi := List.getElem?_eq_getElem hn
    rw [pairsAt_succ hi]
    exact (ih (by omega)).trans (planned_step (planned_pairsAt thumbK (by omega)) hi).2 hmn

lemma planned_plan (thumbK : Bool) (fn : Func) : Planned thumbK fn fn.ins.length (plan thumbK fn) :=
  planned_pairsAt thumbK le_rfl

variable (hi : fn.ins[n]? = some i)
include hi

lemma plan_eq (thumbK : Bool) : (plan thumbK fn).mulq n = (pairStep thumbK fn (pairsAt thumbK fn n) n i).mulq n ∧
    (plan thumbK fn).movq n = (pairStep thumbK fn (pairsAt thumbK fn n) n i).movq n ∧
    ∀ m, 0 ≤ (pairStep thumbK fn (pairsAt thumbK fn n) n i).preq m →
      (plan thumbK fn).preq m = (pairStep thumbK fn (pairsAt thumbK fn n) n i).preq m := by
  have hlen := getElem?_lt hi
  have hlater := later_pairsAt thumbK (succ_le_of_lt hlen) le_rfl
  rw [pairsAt_succ hi] at hlater
  exact ⟨hlater.mulq n (by omega), hlater.movq n (by omega), hlater.preq⟩

/-- What the plan has for an instruction. -/
lemma plan_cases (thumbK : Bool) : ((plan thumbK fn).mulq n < 0 ∧ (plan thumbK fn).movq n < 0) ∨
    (∃ e ∈ (pairsAt thumbK fn n).tab, e.pairs (pairsAt thumbK fn n) i ∧ pairable thumbK fn i ∧
      ((e.isDiv = true ∧ (plan thumbK fn).mulq n = e.res ∧ (plan thumbK fn).movq n < 0) ∨
       (e.isDiv = false ∧ (plan thumbK fn).movq n = (plan thumbK fn).preq e.pos ∧
          0 ≤ (plan thumbK fn).preq e.pos ∧ (plan thumbK fn).mulq n < 0))) := by
  have hlen := getElem?_lt hi
  obtain ⟨hmul, hmov, hpre⟩ := plan_eq hi thumbK
  have hp := planned_pairsAt thumbK hlen.le
  have hmuln : (pairsAt thumbK fn n).mulq n < 0 := by
    by_contra hge
    exact absurd (hp.mulq n (by omega)) (lt_irrefl n)
  have hmovn : (pairsAt thumbK fn n).movq n < 0 := by
    by_contra hge
    exact absurd (hp.movq n (by omega)) (lt_irrefl n)
  obtain ⟨tab, nrw, ⟨heq, -⟩ | ⟨e, he, hpairs, hpair, heq, -⟩⟩ :=
    pairStep_cases thumbK fn (pairsAt thumbK fn n) n i
  · rw [heq] at hmul hmov
    exact .inl ⟨hmul ▸ hmuln, hmov ▸ hmovn⟩
  · refine .inr ⟨e, he, hpairs, hpair, ?_⟩
    rw [heq] at hmul hmov hpre
    cases hd : e.isDiv with
    | true =>
      simp only [Pairs.take, hd, if_true] at hmul hmov
      rw [update_self] at hmul
      exact .inl ⟨rfl, hmul, hmov ▸ hmovn⟩
    | false =>
      simp only [Pairs.take, hd, Bool.false_eq_true, if_false] at hmul hmov hpre
      have hpos := hpre e.pos (by rw [update_self]; omega)
      rw [update_self] at hmov hpos
      exact .inr ⟨rfl, by rw [hmov, hpos], by rw [hpos]; omega, hmul ▸ hmuln⟩

lemma table_succ (he : e ∈ (pairsAt thumbK fn (n + 1)).tab) : Kept (pairsAt thumbK fn n) i e ∨
    (e = entry n i ∧ pairable thumbK fn i ∧ (plan thumbK fn).mulq n < 0 ∧ (plan thumbK fn).movq n < 0) := by
  have hlen := getElem?_lt hi
  obtain ⟨hmul, hmov, -⟩ := plan_eq hi thumbK
  have hp := planned_pairsAt thumbK hlen.le
  rw [pairsAt_succ hi] at he
  obtain ⟨tab, nrw, ⟨heq, htab⟩ | ⟨e', -, -, hpair, heq, htab⟩⟩ :=
    pairStep_cases thumbK fn (pairsAt thumbK fn n) n i
  · rw [heq] at he hmul hmov
    refine (htab e he).imp_right fun ⟨heq, hpair⟩ => ⟨heq, hpair, hmul ▸ ?_, hmov ▸ ?_⟩
    · by_contra hge
      exact absurd (hp.mulq n (by simpa using hge)) (lt_irrefl n)
    · by_contra hge
      exact absurd (hp.movq n (by simpa using hge)) (lt_irrefl n)
  · rw [heq] at he
    exact .inl (htab e he)

end
end EmbCC.Opt.DivMod
