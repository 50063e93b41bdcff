import EmbCC.Opt.Defs

/-!
# Block-local constants

`lk_note` and `lk_get`: the constants that the registers hold at a point of a
block, whatever else defines them elsewhere. Nothing is believed across a
label or a transfer of control, so what the table says at a point holds in
every run that gets there (`lkInv_step`).
-/

namespace EmbCC.Opt

open Ir Function List Prod

/-- `struct lkconst`: what each register is known to hold, and at which width. A new generation
is the empty table. -/
abbrev LkConst := ℤ → Option (BitVec 64 × ℕ)

/-- The table at the start of a block. -/
def lkEmpty : LkConst := fun _ => none

/-- `lk_note`: the table after an instruction. -/
def lkNote (nv : ℕ) (k : LkConst) (i : Ins) : LkConst :=
  match i.op with
  | .label | .jmp | .brz | .brnz | .switch | .ret | .igoto | .ud2 | .asm | .landing => lkEmpty
  | _ =>
    let t := defTarget i
    if t < 0 ∨ t ≥ nv then k
    else if i.op = .const ∧ i.flt = false ∧ (i.w = 4 ∨ i.w = 8) then
      update k t (some (i.imm, i.w))
    else if i.op = .mov ∧ i.vol = false ∧ i.flt = false ∧ i.a ≥ 0 ∧ i.a < nv ∧ i.a ≠ t ∧
        (k i.a).any (·.2 == i.w) then
      update k t (k i.a)
    else update k t none

/-- `lk_get`: is `v` known here, at width `w`? -/
def lkGet (nv : ℕ) (k : LkConst) (v : ℤ) (w : ℕ) : Option (BitVec 64) :=
  if v < 0 ∨ v ≥ nv then none
  else (k v).bind fun p => if p.2 = w then some p.1 else none

/-- The table before instruction `n`. -/
def lkAt (nv : ℕ) (ins : List Ins) (n : ℕ) : LkConst := (ins.take n).foldl (lkNote nv) lkEmpty

variable {W : Type} {nv : ℕ} {k : LkConst} {i : Ins}

lemma lkAt_succ {ins : List Ins} {n : ℕ} (h : ins[n]? = some i) : lkAt nv ins (n + 1) = lkNote nv (lkAt nv ins n) i := by
  rw [lkAt, take_add_one, h, foldl_append]
  rfl

/-- The table tells the truth about a state. -/
structure LkTrue {W : Type} (nv : ℕ) (k : LkConst) (s : St W) : Prop where
  bound : ∀ v p, k v = some p → 0 ≤ v ∧ v < nv
  width : ∀ v x w, k v = some (x, w) → w = 4 ∨ w = 8
  holds : ∀ v x w, k v = some (x, w) → s.temps v = some (ofLong (Ir.norm x w))

lemma lkTrue_empty (nv : ℕ) (s : St W) : LkTrue nv lkEmpty s := by
  constructor <;> intros <;> contradiction

lemma lkGet_true {s : St W} {v : ℤ} {w : ℕ} {x : BitVec 64} (hk : LkTrue nv k s) (h : lkGet nv k v w = some x) :
    s.temps v = some (ofLong (Ir.norm x w)) ∧ (w = 4 ∨ w = 8) := by
  unfold lkGet at h
  split at h
  · cases h
  · obtain ⟨⟨x', w'⟩, hp, hw⟩ := Option.bind_eq_some_iff.1 h
    obtain ⟨rfl, hx⟩ := Option.ite_none_right_eq_some.1 hw
    cases hx
    exact ⟨hk.holds v x' w' hp, hk.width v x' w' hp⟩

lemma lkNote_control (h : i.op.isControl) : lkNote nv k i = lkEmpty := by
  unfold lkNote
  cases hop : i.op <;> simp_all [Op.isControl]

section
variable {W : Type} {E : Env W} {nv : ℕ} {k : LkConst} {s : St W} {i : Ins} {vs rs : List Val}
  {world : W}

lemma lkTrue_frame (hk : LkTrue nv k s) (hl : i.op ≠ .landing)
    (ht : k (defTarget i) = none) : LkTrue nv k (s.after i rs world) where
  bound := hk.bound
  width := hk.width
  holds v x w hv := by
    rw [after_temps_of_not_mem]
    · exact hk.holds v x w hv
    · intro hm
      rw [tempDefs_eq_defTarget hl hm, ht] at hv
      cases hv

lemma lkTrue_forget (hk : LkTrue nv k s) (t : ℤ) : LkTrue nv (update k t none) s where
  bound v p hv := by
    by_cases ht : v = t
    · simp [ht] at hv
    · exact hk.bound v p (by rwa [update_of_ne ht] at hv)
  width v x w hv := by
    by_cases ht : v = t
    · simp [ht] at hv
    · exact hk.width v x w (by rwa [update_of_ne ht] at hv)
  holds v x w hv := by
    by_cases ht : v = t
    · simp [ht] at hv
    · exact hk.holds v x w (by rwa [update_of_ne ht] at hv)

lemma lkTrue_learn (hk : LkTrue nv k s) {t : ℤ} {x : BitVec 64} {w : ℕ} (h0 : 0 ≤ t) (hn : t < nv) (hw : w = 4 ∨ w = 8)
    (hv : s.temps t = some (ofLong (Ir.norm x w))) : LkTrue nv (update k t (some (x, w))) s where
  bound v p hp := by
    by_cases ht : v = t
    · exact ht ▸ ⟨h0, hn⟩
    · exact hk.bound v p (by rwa [update_of_ne ht] at hp)
  width v x' w' hp := by
    by_cases ht : v = t
    · rw [ht, update_self, Option.some.injEq, mk.injEq] at hp
      exact hp.2 ▸ hw
    · exact hk.width v x' w' (by rwa [update_of_ne ht] at hp)
  holds v x' w' hp := by
    by_cases ht : v = t
    · rw [ht, update_self, Option.some.injEq, mk.injEq] at hp
      rw [ht, ← hp.1, ← hp.2, hv]
    · exact hk.holds v x' w' (by rwa [update_of_ne ht] at hp)

/-- The block's constants hold after an instruction. -/
lemma lkTrue_after (hk : LkTrue nv k s) (hvs : (valueOpnds i).mapM s.temps = some vs)
    (he : effect E i vs s.world = .ok rs world) : LkTrue nv (lkNote nv k i) (s.after i rs world) := by
  by_cases hl : i.op = .landing
  · simp only [lkNote, hl]
    exact lkTrue_empty nv _
  have hforget : LkTrue nv (update k (defTarget i) none) (s.after i rs world) :=
    lkTrue_frame (lkTrue_forget hk _) hl (update_self ..)
  have hset : ∀ p, update k (defTarget i) p = update (update k (defTarget i) none) (defTarget i) p := by simp
  unfold lkNote
  split
  case h_11 =>
    dsimp only
    split
    · rename_i hrange
      refine lkTrue_frame hk hl ?_
      cases hp : k (defTarget i) with
      | none => rfl
      | some p =>
        have := hk.bound _ p hp
        omega
    · rename_i hrange
      push Not at hrange
      split
      · rename_i hc
        have hdst : defTarget i = i.dst := by simp [defTarget, hc.1, writesTemp]
        rw [effect_const E hc.1] at he
        obtain ⟨rfl, rfl⟩ : [ofLong (Ir.norm i.imm i.w)] = rs ∧ s.world = world := by simpa using he
        rw [hset]
        refine lkTrue_learn hforget hrange.1 hrange.2 hc.2.2 ?_
        rw [hdst]
        exact after_temps_target (hdst ▸ hrange.1) (by simp [hc.1, writesTemp]) hl
      · split_ifs with hm
        · obtain ⟨hop, -, -, -, -, -, hany⟩ := hm
          cases hp : k i.a with
          | none => simp [hp] at hany
          | some p =>
            obtain ⟨x, w⟩ := p
            have hdst : defTarget i = i.dst := by simp [defTarget, hop, writesTemp]
            have hval := hk.holds i.a x w hp
            obtain rfl : vs = [ofLong (Ir.norm x w)] := by
              simpa [valueOpnds, eachRead, hop, hval] using hvs.symm
            obtain ⟨rfl, rfl⟩ : [ofLong (Ir.norm x w)] = rs ∧ s.world = world := by
              simpa [effect, isCore, evalCore, hop] using he
            rw [hset]
            refine lkTrue_learn hforget hrange.1 hrange.2 (hk.width i.a x w hp) ?_
            rw [hdst]
            exact after_temps_target (hdst ▸ hrange.1) (by simp [hop, writesTemp]) hl
        · exact hforget
  all_goals exact lkTrue_empty nv _

end

/-- At a point of a run that is not a label the table is true. -/
def LkInv {W : Type} (fn : Func) (pc : ℕ) (s : St W) : Prop :=
  ∀ i, fn.ins[pc]? = some i → i.op ≠ .label → LkTrue fn.nvregs (lkAt fn.nvregs fn.ins pc) s

/-- A step keeps the block's constants. -/
lemma lkInv_step {E : Env W} {fn : Func} {pc pc' : ℕ} {s s' : St W} {o : Option Event} (hs : LkInv fn pc s)
    (hi : fn.ins[pc]? = some i) (h : step fn.prog E (some (pc, s)) = some (o, some (pc', s'))) : LkInv fn pc' s' := by
  intro j hj hjl
  have hlabel := labelAt_ne hj hjl
  have hcode : fn.prog.code[pc]? = some (some i) := by simp [Func.prog, hi]
  rcases step_cases hcode h with ⟨-, rfl, ⟨rfl, hop⟩ | ⟨l, -, hat⟩⟩ |
    ⟨hctl, ⟨vs, rs, world, hvs, he, -, rfl, rfl⟩ | ⟨world, -, l, -, hat⟩⟩
  · rw [lkAt_succ hi, lkNote_control (by rcases hop with hop | hop | hop <;> simp [hop, Op.isControl])]
    exact lkTrue_empty _ _
  · exact absurd hat (hlabel l)
  · rw [lkAt_succ hi]
    refine lkTrue_after (hs i hi ?_) hvs he
    rintro hop
    simp [hop, Op.isControl] at hctl
  · exact absurd hat (hlabel l)

lemma lkInv_entry (fn : Func) (s : St W) : LkInv fn 0 s := by
  intro i _ _
  exact lkTrue_empty _ _

end EmbCC.Opt
