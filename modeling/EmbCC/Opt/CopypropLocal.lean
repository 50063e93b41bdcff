import EmbCC.Ir.Rename
import EmbCC.Opt.Cfg

/-!
# Copy propagation within a block (`pass_copyprop_local`)

The pass walks each block with a table of the copies that hold. An entry is made for a move, and cleared when
its register or the register it is a copy of is written. To find the entries of a source, each is also filed
under it; a filing is not removed when its entry goes, so a filing says nothing until it is compared with the
entry. What is needed is the other direction, that every entry is filed (`LcTab.Ok`). Then along every run
the entries hold (`holds_reaches`).
-/

namespace EmbCC.Opt

open List Ir Trace Scan Function Prod

/-! ## The pass -/

/-- `struct lctab`: the source of a copy or `-1`, the registers filed under a source, and the filings. -/
structure LcTab where
  cp : ℤ → ℤ := fun _ => -1
  filed : ℤ → List ℤ := fun _ => []
  f : List (ℤ × ℤ) := []

def lctabReset (t : LcTab) : LcTab where
  cp := t.f.foldl (fun cp k => update cp k.1 (-1)) t.cp
  filed := t.f.foldl (fun filed k => update filed k.2 []) t.filed
  f := []

def lctabSet (t : LcTab) (v src : ℤ) : LcTab where
  cp := update t.cp v src
  filed := update t.filed src (v :: t.filed src)
  f := t.f ++ [(v, src)]

/-- A definition of `d`: it is a new value, and so is what was copied from it. -/
def lctabKill (t : LcTab) (d : ℤ) : LcTab where
  cp := (t.filed d).foldl (fun cp v => if cp v = d then update cp v (-1) else cp)
    (update t.cp d (-1))
  filed := update t.filed d []
  f := t.f

/-- Does `lcopy_cb` rename the register? -/
def renamed (nv : ℕ) (cp : ℤ → ℤ) (p : ℤ) : Bool := decide (0 ≤ p ∧ p < nv ∧ 0 ≤ cp p)

def lcopyCb (nv : ℕ) (cp : ℤ → ℤ) (p : ℤ) : ℤ := if renamed nv cp p then cp p else p

/-- The instruction with its reads renamed. -/
def lcopyIns (fn : Func) (t : LcTab) (i : Ins) : Ins := mapReads (lcopyCb fn.nvregs t.cp) i

/-- The move of which an entry is made. -/
def lcopyMov (fn : Func) (i : Ins) : Bool :=
  decide (i.op = .mov ∧ i.vol = false ∧ 0 ≤ i.dst ∧ 0 ≤ i.a ∧ i.dst ≠ i.a ∧ i.dst < fn.nvregs ∧
    i.a < fn.nvregs ∧ (computeDefs fn).cnt i.dst = 1)

/-- The table when an instruction is reached: a block starts without entries. -/
def lcopyEnter (fn : Func) (n : ℕ) (t : LcTab) : LcTab := if lead fn n then lctabReset t else t

/-- The table after the definition of an instruction. -/
def lcopyDef (fn : Func) (i : Ins) (t : LcTab) : LcTab :=
  if 0 ≤ defTarget i ∧ defTarget i < fn.nvregs then lctabKill t (defTarget i) else t

/-- A turn of the loop over the instructions of a block: the instruction, whether a read was renamed, and the
table. -/
def lcopyTurn (fn : Func) (t : LcTab) (p : Ins × ℕ) : (Ins × Bool) × LcTab :=
  let t := lcopyEnter fn p.2 t
  if p.1.op = .asm ∨ p.1.op = .landing then ((p.1, false), lctabReset t)
  else
    let i := lcopyIns fn t p.1
    let did := (eachRead p.1).any (renamed fn.nvregs t.cp)
    let t := lcopyDef fn i t
    ((i, did), if lcopyMov fn i then lctabSet t i.dst (if 0 ≤ t.cp i.a then t.cp i.a else i.a) else t)

/-- `pass_copyprop_local`: the function, and whether it changed. The blocks of `build_cfg` follow each other. -/
def passCopypropLocal (fn : Func) : Func × Bool :=
  if fn.ins.length = 0 ∨ fn.nvregs = 0 then (fn, false)
  else
    let out := scan (lcopyTurn fn) {} fn.ins.zipIdx
    ({ fn with ins := out.map fst }, out.any snd)

/-! ## The table -/

/-- Every entry is filed, is for numbered registers, and has a source without an entry. -/
structure LcTab.Ok (fn : Func) (t : LcTab) : Prop where
  filed : ∀ v, 0 ≤ t.cp v → v ∈ t.filed (t.cp v)
  listed : ∀ v, 0 ≤ t.cp v → v ∈ t.f.map fst
  flat : ∀ v, 0 ≤ t.cp v → t.cp (t.cp v) < 0
  range : ∀ v, 0 ≤ t.cp v → (0 ≤ v ∧ v < fn.nvregs) ∧ t.cp v < fn.nvregs

section
variable {fn : Func} {t : LcTab} {v d : ℤ} {i : Ins} {n : ℕ}

lemma LcTab.Ok.of_empty (h : ∀ v, t.cp v < 0) : t.Ok fn := by
  have hno v (hv : 0 ≤ t.cp v) : False := by
    have := h v
    omega
  exact ⟨fun v hv => (hno v hv).elim, fun v hv => (hno v hv).elim, fun v hv => (hno v hv).elim, fun v hv => (hno v hv).elim⟩

lemma foldl_clear (l : List (ℤ × ℤ)) (cp : ℤ → ℤ) : l.foldl (fun cp k => update cp k.1 (-1)) cp v =
      if v ∈ l.map fst then -1 else cp v := by
  induction l generalizing cp with
  | nil => rfl
  | cons k l ih =>
    rw [foldl_cons, ih]
    by_cases hv : v = k.1
    · simp [hv]
    · have hmem : v ∈ (k :: l).map fst ↔ v ∈ l.map fst := by simp [hv]
      simp only [hmem, update_of_ne hv]

lemma LcTab.Ok.lctabReset_cp (h : t.Ok fn) (v : ℤ) : (lctabReset t).cp v < 0 := by
  unfold lctabReset
  dsimp only
  rw [foldl_clear]
  split
  · decide
  · rename_i hv
    exact not_le.1 (mt (h.listed v) hv)

lemma LcTab.Ok.reset (h : t.Ok fn) : (lctabReset t).Ok fn := .of_empty h.lctabReset_cp

lemma foldl_kill (_ : 0 ≤ d) (l : List ℤ) (cp : ℤ → ℤ) :
    l.foldl (fun cp v => if cp v = d then update cp v (-1) else cp) cp v = if v ∈ l ∧ cp v = d then -1 else cp v := by
  induction l generalizing cp with
  | nil => simp
  | cons u l ih =>
    rw [foldl_cons, ih]
    by_cases hu : cp u = d
    · by_cases hv : v = u
      · simp [hv, hu]
      · simp [hv, hu]
    · by_cases hv : v = u
      · simp [hv, hu]
      · simp [hv, hu]

section
variable (h : t.Ok fn)
include h

lemma LcTab.Ok.lctabKill_cp (hd : 0 ≤ d) (v : ℤ) : (lctabKill t d).cp v = if v = d ∨ t.cp v = d then -1 else t.cp v := by
  unfold lctabKill
  dsimp only
  rw [foldl_kill hd]
  by_cases hv : v = d
  · subst hv
    simp
  · rw [update_of_ne hv]
    by_cases hs : t.cp v = d
    · have hmem := h.filed v (hs ▸ hd)
      rw [hs] at hmem
      simp [hmem, hs]
    · simp [hv, hs]

/-- Killing a register keeps the table's form. -/
lemma LcTab.Ok.kill (hd : 0 ≤ d) : (lctabKill t d).Ok fn := by
  have hold {v : ℤ} (hv : 0 ≤ (lctabKill t d).cp v) : 0 ≤ t.cp v ∧ (lctabKill t d).cp v = t.cp v ∧ t.cp v ≠ d := by
    rw [h.lctabKill_cp hd] at hv ⊢
    split at hv
    · cases hv
    · rename_i hne
      exact ⟨hv, if_neg hne, fun he => hne (.inr he)⟩
  refine ⟨fun v hv => ?_, fun v hv => ?_, fun v hv => ?_, fun v hv => ?_⟩ <;> obtain ⟨hcp, heq, hne⟩ := hold hv
  · rw [heq]
    unfold lctabKill
    dsimp only
    rw [update_of_ne hne]
    exact h.filed v hcp
  · exact h.listed v hcp
  · rw [heq, h.lctabKill_cp hd]
    split
    · decide
    · exact h.flat v hcp
  · rw [heq]
    exact h.range v hcp

/-- So does noting a copy. -/
lemma LcTab.Ok.set {src : ℤ} (hsrc : t.cp src < 0) (hne : src ≠ v) (hnone : ∀ u, t.cp u ≠ v) (hv : 0 ≤ v ∧ v < fn.nvregs)
    (hsn : src < fn.nvregs) : (lctabSet t v src).Ok fn := by
  refine ⟨fun u hu => ?_, fun u hu => ?_, fun u hu => ?_, fun u hu => ?_⟩ <;>
    simp only [lctabSet] at hu ⊢ <;> by_cases huv : u = v
  · subst huv
    simp
  · rw [update_of_ne huv] at hu ⊢
    have hmem := h.filed u hu
    by_cases hs : t.cp u = src
    · rw [hs] at hmem ⊢
      simp [hmem]
    · rwa [update_of_ne hs]
  · simp [huv]
  · rw [update_of_ne huv] at hu
    rw [map_append]
    exact mem_append_left _ (h.listed u hu)
  · subst huv
    rwa [update_self, update_of_ne hne]
  · rw [update_of_ne huv] at hu ⊢
    rw [update_of_ne (hnone u)]
    exact h.flat u hu
  · subst huv
    rw [update_self]
    exact ⟨hv, hsn⟩
  · rw [update_of_ne huv] at hu ⊢
    exact h.range u hu

lemma LcTab.Ok.enter (n : ℕ) : (lcopyEnter fn n t).Ok fn := by
  unfold lcopyEnter
  split
  · exact h.reset
  · exact h

lemma LcTab.Ok.def (i : Ins) : (lcopyDef fn i t).Ok fn := by
  unfold lcopyDef
  split_ifs with hd
  · exact h.kill hd.1
  · exact h

lemma LcTab.Ok.lcopyDef_cp {i : Ins} (hv : 0 ≤ (lcopyDef fn i t).cp v) :
    0 ≤ t.cp v ∧ (lcopyDef fn i t).cp v = t.cp v ∧ v ≠ defTarget i ∧ t.cp v ≠ defTarget i := by
  unfold lcopyDef at hv ⊢
  split at hv
  · rename_i hd
    rw [if_pos hd]
    rw [h.lctabKill_cp hd.1] at hv ⊢
    split at hv
    · cases hv
    · rename_i hne
      push Not at hne
      exact ⟨hv, if_neg (by simp [hne]), hne⟩
  · rename_i hd
    rw [if_neg hd]
    obtain ⟨hr, hs⟩ := h.range v hv
    refine ⟨hv, rfl, ?_, ?_⟩ <;> rintro he <;> exact hd (by omega)

end

/-! ## One turn -/

/-- An entry of a move: it is written then, and its source is a numbered register without an entry. -/
structure Makes (fn : Func) (t : LcTab) (i : Ins) (src : ℤ) : Prop where
  mov : i.op = .mov
  target : defTarget i = i.dst
  dst : 0 ≤ i.dst ∧ i.dst < fn.nvregs
  range : 0 ≤ src ∧ src < fn.nvregs
  ne : src ≠ i.dst
  read : lcopyCb fn.nvregs t.cp i.a = src
  flat : (lcopyDef fn i t).cp src < 0

lemma LcTab.Ok.makes (h : t.Ok fn) (hm : lcopyMov fn (lcopyIns fn t i)) : Makes fn t i (lcopyIns fn t i).a := by
  simp only [lcopyMov, lcopyIns, mapReads_op, mapReads_dst, decide_eq_true_eq] at hm
  obtain ⟨hop, -, hd0, ha0, hne, hd, ha, -⟩ := hm
  have hread : (lcopyIns fn t i).a = lcopyCb fn.nvregs t.cp i.a := by
    unfold lcopyIns mapReads
    rw [hop]
    rfl
  have htarget : defTarget i = i.dst := by rw [defTarget, if_pos (by simp [hop, writesTemp])]
  refine ⟨hop, htarget, ⟨hd0, hd⟩, ⟨ha0, ha⟩, Ne.symm hne, hread.symm, ?_⟩
  rw [lcopyIns] at hread
  rw [hread] at ha0 ha
  rw [lcopyIns, hread]
  by_contra hn
  have hold := (h.lcopyDef_cp (not_lt.1 hn)).1
  unfold lcopyCb at hold ha0 ha
  by_cases hr : renamed fn.nvregs t.cp i.a = true
  · rw [if_pos hr] at hold
    have hflat := h.flat i.a (of_decide_eq_true hr).2.2
    omega
  · rw [if_neg hr] at hold ha0 ha
    exact hr (decide_eq_true ⟨ha0, ha, hold⟩)

/-- What a turn does to the table. -/
lemma LcTab.Ok.lcopyTurn_eq (h : t.Ok fn) :
    ((i.op = .asm ∨ i.op = .landing) ∧ (lcopyTurn fn t (i, n)).2 = lctabReset (lcopyEnter fn n t)) ∨
    (¬ (i.op = .asm ∨ i.op = .landing) ∧ ((lcopyTurn fn t (i, n)).2 = lcopyDef fn i (lcopyEnter fn n t) ∨
        ∃ src, Makes fn (lcopyEnter fn n t) i src ∧
          (lcopyTurn fn t (i, n)).2 = lctabSet (lcopyDef fn i (lcopyEnter fn n t)) i.dst src)) := by
  by_cases hop : i.op = .asm ∨ i.op = .landing
  · exact .inl ⟨hop, by simp only [lcopyTurn, if_pos hop]⟩
  refine .inr ⟨hop, ?_⟩
  have hT := h.enter n
  unfold lcopyTurn
  rw [if_neg hop]
  generalize lcopyEnter fn n t = T at *
  have hdef : lcopyDef fn (lcopyIns fn T i) T = lcopyDef fn i T := by
    simp only [lcopyDef, lcopyIns, defTarget, mapReads_op, mapReads_dst]
    rfl
  dsimp only
  rw [hdef]
  split
  · rename_i hm
    have hmakes := hT.makes hm
    refine .inr ⟨_, hmakes, ?_⟩
    rw [if_neg (not_le.2 hmakes.flat), lcopyIns, mapReads_dst]
  · exact .inl rfl

lemma LcTab.Ok.turn (h : t.Ok fn) (i : Ins) (n : ℕ) : (lcopyTurn fn t (i, n)).2.Ok fn := by
  have hT := h.enter n
  rcases h.lcopyTurn_eq with ⟨-, heq⟩ | ⟨-, heq | ⟨src, hm, heq⟩⟩ <;> rw [heq]
  · exact hT.reset
  · exact hT.def i
  · refine (hT.def i).set hm.flat hm.ne (fun u hu => ?_) hm.dst hm.range.2
    obtain ⟨-, hcp, -, hsrc⟩ := hT.lcopyDef_cp (by rw [hu]; exact hm.dst.1)
    exact hsrc (by rw [hm.target, ← hcp, hu])

/-- Where a copy in the table after a turn comes from. -/
lemma LcTab.Ok.lcopyTurn_cp (h : t.Ok fn) (hv : 0 ≤ (lcopyTurn fn t (i, n)).2.cp v) : ¬ (i.op = .asm ∨ i.op = .landing) ∧
    ((0 ≤ (lcopyEnter fn n t).cp v ∧ (lcopyTurn fn t (i, n)).2.cp v = (lcopyEnter fn n t).cp v ∧
      v ≠ defTarget i ∧ (lcopyEnter fn n t).cp v ≠ defTarget i) ∨
    (v = i.dst ∧ Makes fn (lcopyEnter fn n t) i ((lcopyTurn fn t (i, n)).2.cp v))) := by
  have hT := h.enter n
  rcases h.lcopyTurn_eq with ⟨-, heq⟩ | ⟨hop, heq | ⟨src, hm, heq⟩⟩ <;> rw [heq] at hv ⊢
  · exact absurd (hT.lctabReset_cp v) (not_lt.2 hv)
  · exact ⟨hop, .inl (hT.lcopyDef_cp hv)⟩
  · refine ⟨hop, ?_⟩
    simp only [lctabSet] at hv ⊢
    by_cases hvd : v = i.dst
    · rw [hvd, update_self]
      exact .inr ⟨rfl, hm⟩
    · rw [update_of_ne hvd] at hv ⊢
      exact .inl (hT.lcopyDef_cp hv)

end

/-! ## Copies hold in a run -/

/-- The entries hold: a copy has the value of its source. -/
def LcTab.Holds (t : LcTab) (temps : ℤ → Option Val) : Prop := ∀ v, 0 ≤ t.cp v → temps v = temps (t.cp v)

/-- The table before instruction `n`. -/
def lcopyAt (fn : Func) (n : ℕ) : LcTab := lcopyEnter fn n (stateAt (lcopyTurn fn) {} fn.ins.zipIdx n)

section
variable {W : Type} {E : Env W} {fn : Func} {t : LcTab} {s s' : St W} {i : Ins} {n pc : ℕ} {temps : ℤ → Option Val} {v : ℤ}

lemma LcTab.Holds.of_empty (h : ∀ v, t.cp v < 0) : t.Holds temps :=
  fun v hv => absurd (h v) (not_lt.2 hv)

lemma LcTab.Holds.read (h : t.Holds temps) (nv : ℕ) (x : ℤ) : temps (lcopyCb nv t.cp x) = temps x := by
  unfold lcopyCb
  split_ifs with hr
  · exact (h x (of_decide_eq_true hr).2.2).symm
  · rfl

lemma LcTab.Holds.turn (h : t.Ok fn) (hT : (lcopyEnter fn n t).Holds s.temps)
    (hkeep : i.op ≠ .landing → ∀ u, 0 ≤ u → u ≠ defTarget i → s'.temps u = s.temps u)
    (hmov : i.op = .mov → 0 ≤ i.dst → s'.temps i.dst = s.temps i.a) : (lcopyTurn fn t (i, n)).2.Holds s'.temps := by
  intro v hv
  obtain ⟨hop, ⟨hcp, heq, hne, hsrc⟩ | ⟨rfl, hm⟩⟩ := h.lcopyTurn_cp hv <;> have hkeep := hkeep fun hl => hop (.inr hl)
  · rw [heq, hkeep v ((h.enter n).range v hcp).1.1 hne, hkeep _ hcp hsrc]
    exact hT v hcp
  · rw [hmov hm.mov hm.dst.1, hkeep _ hm.range.1 (hm.target ▸ hm.ne), ← hm.read, hT.read]

lemma zipIdx_getElem (hi : fn.ins[n]? = some i) : fn.ins.zipIdx[n]? = some (i, n) := by simp [hi]

lemma ok_stateAt (fn : Func) (n : ℕ) : (stateAt (lcopyTurn fn) {} fn.ins.zipIdx n).Ok fn := by
  have hfold (l : List (Ins × ℕ)) t (h : t.Ok fn) : (l.foldl (fun t p => (lcopyTurn fn t p).2) t).Ok fn := by
    induction l generalizing t with
    | nil => exact h
    | cons p l ih => exact ih _ (h.turn p.1 p.2)
  exact hfold _ _ (.of_empty fun _ => (by decide : (-1 : ℤ) < 0))

lemma lcopyAt_lead (h : lead fn n) (v : ℤ) : (lcopyAt fn n).cp v < 0 := by
  rw [lcopyAt, lcopyEnter, if_pos h]
  exact (ok_stateAt fn n).lctabReset_cp v

lemma lead_of_label {l : ℤ} (h : fn.prog.labelAt l = some n) : lead fn n := by
  obtain ⟨j, hj, hop, -⟩ := labelAt_spec h
  have hj : fn.ins[n]? = some j := by simpa [Func.prog] using hj
  simp [lead, hj, hop]

/-- Every copy in the table holds wherever a run comes. -/
lemma holds_reaches {s0 : St W} : ∀ c, Reaches (step fn.prog E) (some (0, s0)) c →
    ∀ pc s, c = some (pc, s) → (lcopyAt fn pc).Holds s.temps := by
  refine reaches_invariant (.of_empty (lcopyAt_lead rfl)) fun {pc pc' s s' i o} _ hI hi h => ?_
  have hnext (hkeep : i.op ≠ .landing → ∀ u, 0 ≤ u → u ≠ defTarget i → s'.temps u = s.temps u)
      (hmov : i.op = .mov → 0 ≤ i.dst → s'.temps i.dst = s.temps i.a) : (lcopyAt fn (pc + 1)).Holds s'.temps := by
    by_cases hl : lead fn (pc + 1)
    · exact .of_empty (lcopyAt_lead hl)
    · rw [lcopyAt, lcopyEnter, if_neg hl, stateAt_succ _ _ (zipIdx_getElem hi)]
      exact .turn (ok_stateAt fn pc) hI hkeep hmov
  rcases step_cases (prog_code hi) h with ⟨-, rfl, ⟨rfl, hop⟩ | ⟨l, -, hl⟩⟩ | ⟨-, hseq⟩
  · refine hnext (fun _ _ _ _ => rfl) fun hmov => ?_
    simp [hmov] at hop
  · exact .of_empty (lcopyAt_lead (lead_of_label hl))
  · rcases hseq with ⟨vs, rs, world, hvs, he, -, rfl, rfl⟩ | ⟨world, rfl, l, -, hl⟩
    · refine hnext (fun hl u _ hu => after_temps_of_not_mem (fun hm => hu (tempDefs_eq_defTarget hl hm)) _ _) fun hmov h0 => ?_
      have hread : valueOpnds i = [i.a] := by simp [valueOpnds, eachRead, hmov]
      rw [hread] at hvs
      obtain ⟨v, hv, rfl⟩ := mapM_temps_one hvs
      simp only [effect, hmov, isCore, evalCore, reduceCtorEq, if_false, if_true, Effect.ok.injEq] at he
      rw [← he.1, hv]
      exact after_temps_target h0 (by rw [hmov]; rfl) (by simp [hmov])
    · exact .of_empty (lcopyAt_lead (lead_of_label hl))

lemma passCopypropLocal_turn (hnv : fn.nvregs ≠ 0) (hi : fn.ins[n]? = some i) : (passCopypropLocal fn).1.ins[n]? =
      some (lcopyTurn fn (stateAt (lcopyTurn fn) {} fn.ins.zipIdx n) (i, n)).1.1 := by
  have hlen : fn.ins.length ≠ 0 := by
    have := getElem?_lt hi
    omega
  rw [passCopypropLocal, if_neg (by simp [hnv, hlen])]
  simp [scan_getElem, hi]

lemma passCopypropLocal_ins (hi : fn.ins[n]? = some i) : ∃ f, (passCopypropLocal fn).1.ins[n]? = some (mapReads f i) ∧
      (f = (fun v => v) ∨ f = lcopyCb fn.nvregs (lcopyAt fn n).cp) := by
  by_cases hnv : fn.nvregs = 0
  · exact ⟨_, by rw [mapReads_id, passCopypropLocal, if_pos (.inr hnv)]; exact hi, .inl rfl⟩
  · rw [passCopypropLocal_turn hnv hi]
    by_cases hop : i.op = .asm ∨ i.op = .landing
    · exact ⟨_, by rw [mapReads_id, lcopyTurn, if_pos hop], .inl rfl⟩
    · exact ⟨_, by rw [lcopyTurn, if_neg hop]; rfl, .inr rfl⟩

/-! ## The result -/

/-- Before instruction `n` of its block, `src` was moved to `v`, and neither was written since. -/
def CopiedSince (fn : Func) (n : ℕ) (v src : ℤ) : Prop :=
  ∃ m < n, ∃ j, (passCopypropLocal fn).1.ins[m]? = some j ∧ j.op = .mov ∧ j.dst = v ∧ j.a = src ∧
    (∀ k, m < k → k ≤ n → lead fn k = false) ∧
    ∀ k i, m < k → k < n → fn.ins[k]? = some i → v ∉ tempDefs i ∧ src ∉ tempDefs i

lemma CopiedSince.succ {src : ℤ} (h : CopiedSince fn n v src) (hi : fn.ins[n]? = some i) (hl : lead fn (n + 1) = false)
    (hv : v ∉ tempDefs i) (hs : src ∉ tempDefs i) : CopiedSince fn (n + 1) v src := by
  obtain ⟨m, hm, j, hj, hop, hdst, ha, hlead, hkeep⟩ := h
  refine ⟨m, by omega, j, hj, hop, hdst, ha, fun k hmk hk => ?_, fun k i' hmk hk hi' => ?_⟩
  · rcases Nat.lt_or_eq_of_le hk with hk | rfl
    · exact hlead k hmk (by omega)
    · exact hl
  · rcases Nat.lt_or_eq_of_le (Nat.le_of_lt_succ hk) with hk | rfl
    · exact hkeep k i' hmk hk hi'
    · obtain rfl := Option.mem_unique hi hi'
      exact ⟨hv, hs⟩

lemma lcopyAt_since (hn : n < fn.ins.length) (hv : 0 ≤ (lcopyAt fn n).cp v) : CopiedSince fn n v ((lcopyAt fn n).cp v) := by
  induction n generalizing v with
  | zero => exact absurd (lcopyAt_lead rfl v) (not_lt.2 hv)
  | succ n ih =>
    by_cases hl : lead fn (n + 1)
    · exact absurd (lcopyAt_lead hl v) (not_lt.2 hv)
    rw [Bool.not_eq_true] at hl
    have hi : fn.ins[n]? = some fn.ins[n] := getElem?_eq_getElem (by omega)
    generalize fn.ins[n] = i at hi
    rw [lcopyAt, lcopyEnter, hl, if_neg (by decide), stateAt_succ _ _ (zipIdx_getElem hi)] at hv ⊢
    obtain ⟨hop, ⟨hcp, heq, hne, hsrc⟩ | ⟨rfl, hm⟩⟩ := (ok_stateAt fn n).lcopyTurn_cp hv
    · have hdefs {u : ℤ} (hu : u ≠ defTarget i) : u ∉ tempDefs i :=
        fun hm => hu (tempDefs_eq_defTarget (fun hl => hop (.inr hl)) hm)
      rw [heq]
      exact (ih (by omega) hcp).succ hi hl (hdefs hne) (hdefs hsrc)
    · have hturn : (passCopypropLocal fn).1.ins[n]? = some (lcopyIns fn (lcopyAt fn n) i) := by
        have := hm.dst
        rw [passCopypropLocal_turn (by omega) hi, lcopyTurn, if_neg hop]
        rfl
      have hread : (lcopyIns fn (lcopyAt fn n) i).a = lcopyCb fn.nvregs (lcopyAt fn n).cp i.a := by
        unfold lcopyIns mapReads
        rw [hm.mov]
        rfl
      refine ⟨n, by omega, _, hturn, by rw [lcopyIns, mapReads_op, hm.mov], mapReads_dst _ _,
        hread.trans hm.read, fun k hk hk' => ?_, fun k _ hk hk' => by omega⟩
      obtain rfl : k = n + 1 := by omega
      exact hl

/-- A move writes a temp: no frame slot that is read or whose address is taken has the number of its
destination. -/
def MovesToTemps (fn : Func) : Prop :=
  ∀ i ∈ fn.ins, ∀ j ∈ fn.ins, i.op = .mov → j.op = .ldvar ∨ j.op = .addr → j.a ≠ i.dst

/-- The pass renames a register to one it was copied from, with neither written since. -/
lemma renaming_spec {f : ℤ → ℤ} (hi : fn.ins[n]? = some i) (hf : f = (fun v => v) ∨ f = lcopyCb fn.nvregs
    (lcopyAt fn n).cp) : (∀ x, 0 ≤ x → 0 ≤ f x) ∧ ∀ x, f x ≠ x → CopiedSince fn n x (f x) := by
  rcases hf with rfl | rfl
  · exact ⟨fun _ hx => hx, fun x hx => absurd rfl hx⟩
  · have hn := getElem?_lt hi
    unfold lcopyCb
    refine ⟨fun x hx => ?_, fun x hx => ?_⟩ <;> by_cases hr : renamed fn.nvregs (lcopyAt fn n).cp x = true
    · rw [if_pos hr]
      exact (of_decide_eq_true hr).2.2
    · rw [if_neg hr]
      exact hx
    · rw [if_pos hr]
      exact lcopyAt_since hn (of_decide_eq_true hr).2.2
    · exact absurd (if_neg hr) hx

lemma passCopypropLocal_length (fn : Func) : (passCopypropLocal fn).1.ins.length = fn.ins.length := by
  unfold passCopypropLocal
  split <;> simp

lemma passCopypropLocal_none (hi : fn.ins[n]? = none) : (passCopypropLocal fn).1.ins[n]? = none := by
  rw [List.getElem?_eq_none_iff, passCopypropLocal_length]
  exact List.getElem?_eq_none_iff.1 hi

lemma passCopypropLocal_tables (fn : Func) :
    (passCopypropLocal fn).1.prog.jt = fn.prog.jt ∧ (passCopypropLocal fn).1.prog.eh = fn.prog.eh := by
  unfold passCopypropLocal
  split <;> exact ⟨rfl, rfl⟩

lemma mov_of_pass {j : Ins} (hj : (passCopypropLocal fn).1.ins[n]? = some j) (hop : j.op = .mov) :
    ∃ i ∈ fn.ins, i.op = .mov ∧ i.dst = j.dst := by
  cases hi : fn.ins[n]? with
  | none =>
    rw [passCopypropLocal_none hi] at hj
    cases hj
  | some i =>
    obtain ⟨f, hf, -⟩ := passCopypropLocal_ins hi
    obtain rfl := Option.mem_unique hf hj
    exact ⟨i, mem_of_getElem? hi, by rwa [mapReads_op] at hop, (mapReads_dst f i).symm⟩

lemma passCopypropLocal_labelAt (fn : Func) (l : ℤ) : (passCopypropLocal fn).1.prog.labelAt l = fn.prog.labelAt l := by
  refine labelAt_congr (ext_getElem? fun n => ?_)
  simp only [Func.prog, List.getElem?_map]
  cases hi : fn.ins[n]? with
  | none => rw [passCopypropLocal_none hi]
  | some i =>
    obtain ⟨f, hf, -⟩ := passCopypropLocal_ins hi
    rw [hf]
    simp [isLabel, (mapReads_control f i).1]

end

/-- In a function whose moves write temps, the pass leaves the states that every run goes through and the
values that every instruction reads in them; and it renames a register only to one it is a copy of, in its
block, while neither was written. -/
theorem passCopypropLocal_preserves {W : Type} {E : Env W} (hE : E.Nameless) (fn : Func) (s₀ : St W)
    (hmoves : MovesToTemps fn) : (∀ n, after (step (passCopypropLocal fn).1.prog E) n (some (0, s₀)) =
      after (step fn.prog E) n (some (0, s₀))) ∧
    (∀ pc s i i', Reaches (step fn.prog E) (some (0, s₀)) (some (pc, s)) → fn.ins[pc]? = some i →
      (passCopypropLocal fn).1.ins[pc]? = some i' →
      (valueOpnds i').map s.temps = (valueOpnds i).map s.temps) ∧
    ∀ n i, fn.ins[n]? = some i → ∃ f, (passCopypropLocal fn).1.ins[n]? = some (mapReads f i) ∧
      ∀ x, f x ≠ x → CopiedSince fn n x (f x) := by
  have hvalues {pc : ℕ} {s : St W} {i : Ins} (hreach : Reaches (step fn.prog E) (some (0, s₀)) (some (pc, s)))
      (hi : fn.ins[pc]? = some i) : ∃ f, (passCopypropLocal fn).1.ins[pc]? = some (mapReads f i) ∧ (∀ x, 0 ≤ x → 0 ≤ f x)
      ∧ (∀ x, s.temps (f x) = s.temps x) ∧ (i.op = .ldvar ∨ i.op = .addr → f i.a = i.a) := by
    obtain ⟨f, hf, hcases⟩ := passCopypropLocal_ins hi
    obtain ⟨hnonneg, hcopied⟩ := renaming_spec hi hcases
    refine ⟨f, hf, hnonneg, fun x => ?_, fun hslot => ?_⟩
    · rcases hcases with rfl | rfl
      · rfl
      · exact (holds_reaches _ hreach pc s rfl).read _ x
    · by_contra hne
      obtain ⟨m, -, j, hj, hop, hdst, -⟩ := hcopied i.a hne
      obtain ⟨i', hi', hmov, hdst'⟩ := mov_of_pass hj hop
      exact hmoves i' hi' i (mem_of_getElem? hi) hmov hslot (hdst'.trans hdst).symm
  refine ⟨after_congr fun c hc => ?_, fun pc s i i' hreach hi hi' => ?_, fun n i hi => ?_⟩
  · obtain _ | ⟨pc, s⟩ := c
    · rfl
    · cases hi : fn.ins[pc]? with
      | none => simp [step, Func.prog, hi, passCopypropLocal_none hi]
      | some i =>
        obtain ⟨f, hf, hnonneg, hread, hslot⟩ := hvalues hc hi
        exact step_mapReads hE (prog_code hi) (prog_code hf) (passCopypropLocal_tables fn).1
          (passCopypropLocal_tables fn).2 (passCopypropLocal_labelAt fn) hnonneg hread hslot
  · obtain ⟨f, hf, hnonneg, hread, -⟩ := hvalues hreach hi
    obtain rfl := Option.mem_unique hf hi'
    unfold valueOpnds
    rw [mapReads_op]
    split
    · rfl
    · rw [eachRead_mapReads hnonneg, List.map_map]
      exact map_congr_left fun x _ => hread x
  · obtain ⟨f, hf, hcases⟩ := passCopypropLocal_ins hi
    exact ⟨f, hf, (renaming_spec hi hcases).2⟩

/-- A loop counter: register 2 is a copy of register 1 until the counter is written again. -/
def lcopySample : Func where
  ins := [{ op := .const, dst := 1, imm := 5, w := 4 }, { op := .mov, dst := 2, a := 1, w := 4 },
    { op := .add, dst := 3, a := 2, b := 2, w := 4 }, { op := .mov, dst := 1, a := 3, w := 4 },
    { op := .add, dst := 4, a := 2, b := 1, w := 4 }, { op := .ret, a := 4 }]
  nvregs := 5

lemma bare_nameless : Env.bare.Nameless := ⟨fun _ => rfl, fun h => by cases h⟩

/-- The reads of the copy are renamed before the write of its source, and not after it; the function runs as
before. -/
theorem passCopypropLocal_preserves_sample : ((passCopypropLocal lcopySample).1.ins.map eachRead =
      [[], [1], [1, 1], [3], [2, 1], [4]]) ∧ (passCopypropLocal lcopySample).2 = true ∧
    ∀ n, after (step (passCopypropLocal lcopySample).1.prog Env.bare) n (some (0, St.blank)) =
      after (step lcopySample.prog Env.bare) n (some (0, St.blank)) :=
  ⟨by decide +kernel, by decide +kernel, (passCopypropLocal_preserves bare_nameless lcopySample St.blank (by
      unfold MovesToTemps
      decide +kernel)).1⟩

end EmbCC.Opt
