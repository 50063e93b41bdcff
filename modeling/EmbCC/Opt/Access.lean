import EmbCC.Ir.Bytes
import EmbCC.Opt.Alias
import EmbCC.Opt.Held

/-!
# Where an access really is

In a function whose registers are written before they are read, an address that `mem_access` has
walked back to its base is, along every run, what the walk says: the base's value at that time and
the offset more (`memAccess_at`). So what `acc_overlap` and `acc_covers` answer about two accesses
described from one value is true of their bytes (`memAccess_sound`); what `acc_overlap` answers by
object alone is true of accesses that stay in their objects.
-/

namespace EmbCC.Opt

open Option Ir Trace Function Prod
open BitVec (toNat_setWidth)

section
variable {w : ℕ}

section
variable (hw : w = 4 ∨ w = 8)
include hw

lemma norm_modEq (r : BitVec 64) : ((Ir.norm r w).toNat : ℤ) ≡ r.toNat [ZMOD 2 ^ (8 * w)] := by
  rcases hw with rfl | rfl
  · have h := congrArg BitVec.toNat (setWidth_signExtend (r.setWidth 32))
    exact_mod_cast (show _ ≡ _ [MOD 2 ^ (8 * 4)] from h)
  · rw [Ir.norm, if_pos rfl]

lemma uOpnd_modEq (r : BitVec 64) : ((uOpnd w r).toNat : ℤ) ≡ r.toNat [ZMOD 2 ^ (8 * w)] := by
  rcases hw with rfl | rfl
  · rw [uOpnd, if_neg (by decide), toNat_setWidth, toNat_setWidth,
      Nat.mod_eq_of_lt ((Nat.mod_lt _ (by decide)).trans (by decide))]
    push_cast
    exact Int.mod_modEq _ _
  · rw [uOpnd, if_pos rfl]

lemma modEq_of_long {x y : ℤ} (h : x ≡ y [ZMOD 2 ^ 64]) : x ≡ y [ZMOD 2 ^ (8 * w)] := by
  rcases hw with rfl | rfl
  · exact h.of_dvd (by decide)
  · exact h

lemma toLong_modEq (v : Val) : ((toLong v).toNat : ℤ) ≡ v.toNat [ZMOD 2 ^ (8 * w)] := by
  refine modEq_of_long hw ?_
  rw [toLong, toNat_setWidth]
  push_cast
  exact Int.mod_modEq _ _

end

lemma toNat_ofLong (r : BitVec 64) : (ofLong r).toNat = r.toNat := by
  rw [ofLong, toNat_setWidth, Nat.mod_eq_of_lt (r.isLt.trans (by decide))]

lemma neg_modEq (hw : w = 4 ∨ w = 8) (y : BitVec 64) : ((-y).toNat : ℤ) ≡ -y.toNat [ZMOD 2 ^ (8 * w)] := by
  refine modEq_of_long hw ?_
  rw [BitVec.toNat_neg]
  push_cast [Nat.cast_sub y.isLt.le]
  exact (Int.mod_modEq _ _).trans (Int.modEq_iff_dvd.2 ⟨-1, by ring⟩)

lemma foldBin_sum {op : Op} {A B r : BitVec 64} {sign : Bool} {pred : Pred} (hw : w = 4 ∨ w = 8)
    (hop : op = .add ∨ op = .sub) (h : foldBin op A B w sign pred = some r) :
    (r.toNat : ℤ) ≡ A.toNat + (if op = .sub then -B else B).toNat [ZMOD 2 ^ (8 * w)] := by
  have hadd : ∀ x y : BitVec 64, ((x + y).toNat : ℤ) ≡ x.toNat + y.toNat [ZMOD 2 ^ 64] := by
    intro x y
    rw [BitVec.toNat_add]
    push_cast
    exact Int.mod_modEq _ _
  rcases hop with rfl | rfl
  · obtain rfl : Ir.norm (uOpnd w A + uOpnd w B) w = r := by simpa [foldBin] using h
    exact (norm_modEq hw _).trans ((modEq_of_long hw (hadd _ _)).trans ((uOpnd_modEq hw A).add (uOpnd_modEq hw B)))
  · obtain rfl : Ir.norm (uOpnd w A - uOpnd w B) w = r := by simpa [foldBin] using h
    rw [if_pos rfl, BitVec.sub_eq_add_neg]
    refine (norm_modEq hw _).trans ((modEq_of_long hw (hadd _ _)).trans ((uOpnd_modEq hw A).add ?_))
    exact (neg_modEq hw _).trans ((uOpnd_modEq hw B).neg.trans (neg_modEq hw B).symm)

end

/-! ## Additions to an address -/

/-- The instruction computes the register `x` and `c` more: a step of `mem_access`'s walk. -/
inductive Adds (ptrw : ℕ) (fn : Func) (d : Defs) (i : Ins) : ℤ → BitVec 64 → Prop
  | mov : i.op = .mov → Adds ptrw fn d i i.a 0
  | imm : i.op = .add ∨ i.op = .sub → i.flt = false → i.w = ptrw → i.immB = true →
      Adds ptrw fn d i i.a (if i.op = .sub then -i.imm else i.imm)
  | right {c : BitVec 64} : i.op = .add ∨ i.op = .sub → i.flt = false → i.w = ptrw →
      i.immB = false → addrConst fn d i.b i.w = some c →
      Adds ptrw fn d i i.a (if i.op = .sub then -c else c)
  | left {c : BitVec 64} : i.op = .add → i.flt = false → i.w = ptrw → i.immB = false →
      addrConst fn d i.a i.w = some c → Adds ptrw fn d i i.b c

section
variable {W : Type} {E : Env W} {ptrw : ℕ} {fn : Func} {d : Defs} {i : Ins} {x : ℤ}
  {c : BitVec 64} {s : St W} {vs rs : List Val} {world world' : W}

/-- What the walk over the address passes is an addition of a constant. -/
lemma adds_of_baseStep (hs : baseStep fn d ptrw i = some (x, c)) : Adds ptrw fn d i x c := by
  unfold baseStep at hs
  split at hs
  · rename_i hop
    obtain ⟨rfl, rfl⟩ : i.a = x ∧ 0 = c := by simpa using hs
    exact .mov hop
  · split at hs
    · rename_i hop
      obtain ⟨hop, hflt, hw⟩ := hop
      have hflt : i.flt = false := by simpa using hflt
      obtain ⟨⟨y, k⟩, hk, hp⟩ := Option.map_eq_some_iff.1 hs
      obtain ⟨rfl, rfl⟩ := mk.inj hp
      split at hk
      · rename_i himm
        obtain ⟨rfl, rfl⟩ : i.a = y ∧ i.imm = k := by simpa using hk
        exact .imm hop hflt hw himm
      · rename_i himm
        have himm : i.immB = false := by simpa using himm
        split at hk
        · rename_i c hc
          obtain ⟨rfl, rfl⟩ : i.a = y ∧ c = k := by simpa using hk
          exact .right hop hflt hw himm hc
        · split at hk
          · rename_i hadd
            obtain ⟨c, hc, hp⟩ := Option.map_eq_some_iff.1 hk
            obtain ⟨rfl, rfl⟩ := mk.inj hp
            rw [if_neg (by simp [hadd])]
            exact .left hadd hflt hw himm hc
          · cases hk
    · cases hs

lemma Adds.tempDefs (h : Adds ptrw fn d i x c) : tempDefs i = [i.dst] := by
  cases h with
  | mov hop => simp [Ir.tempDefs, hop, writesTemp]
  | imm hop | right hop => rcases hop with hop | hop <;> simp [Ir.tempDefs, hop, writesTemp]
  | left hop => simp [Ir.tempDefs, hop, writesTemp]

lemma Adds.opnds (h : Adds ptrw fn d i x c) :
    x ∈ valueOpnds i ∧ ∀ y ∈ valueOpnds i, y = x ∨ ∃ k, addrConst fn d y ptrw = some k := by
  cases h with
  | mov hop => simp [valueOpnds, eachRead, hop]
  | imm hop _ _ himm => rcases hop with hop | hop <;> simp [valueOpnds, eachRead, hop, himm]
  | right hop _ hw himm hc =>
    rw [hw] at hc
    rcases hop with hop | hop <;> simp [valueOpnds, eachRead, hop, himm, hc]
  | left hop _ hw himm hc =>
    rw [hw] at hc
    simp [valueOpnds, eachRead, hop, himm, hc]

lemma Adds.core (hw : i.op = .add ∨ i.op = .sub → i.w = ptrw → ptrw = 4 ∨ ptrw = 8)
    (h : Adds ptrw fn d i x c) : isCore i := by
  have hsum : i.op = .add ∨ i.op = .sub → i.flt = false → i.w = ptrw → isCore i := by
    intro hop hflt hiw
    rcases hw hop hiw with h | h <;> rcases hop with hop | hop <;> simp [isCore, hop, hflt, hiw, h]
  cases h with
  | mov hop => simp [isCore, hop]
  | imm hop hflt hiw | right hop hflt hiw => exact hsum hop hflt hiw
  | left hop hflt hiw => exact hsum (.inl hop) hflt hiw

lemma effect_core (hc : isCore i) (he : effect E i vs world = .ok rs world') :
    ∃ v, evalCore i vs = some v ∧ rs = [v] ∧ world' = world := by
  have hop : i.op ≠ .labeladdr := by
    intro hop
    simp [isCore, hop] at hc
  rw [effect, if_neg hop, if_pos hc] at he
  split at he
  · rename_i v hv
    obtain ⟨rfl, rfl⟩ : [v] = rs ∧ world = world' := by simpa using he
    exact ⟨v, hv, rfl, rfl⟩
  · cases he

lemma foldBin_add_comm (A B : BitVec 64) (w : ℕ) (sign : Bool) (pred : Pred) :
    foldBin .add A B w sign pred = foldBin .add B A w sign pred := by
  simp only [foldBin, BitVec.add_comm]

lemma shifted_sum (hw : ptrw = 4 ∨ ptrw = 8) (hop : i.op = .add ∨ i.op = .sub) (hiw : i.w = ptrw) {B r : BitVec 64} {u : Val}
    (hr : foldBin i.op (toLong u) B i.w i.sign i.pred = some r) (hc : ((if i.op = .sub then -B else B).toNat : ℤ) ≡ c.toNat
    [ZMOD 2 ^ (8 * ptrw)]) : ((ofLong r).toNat : ℤ) ≡ u.toNat + c.toNat [ZMOD addrMod ptrw] := by
  have hmod : (addrMod ptrw : ℤ) = 2 ^ (8 * ptrw) := by rcases hw with rfl | rfl <;> rfl
  have hsum := foldBin_sum (hiw ▸ hw) hop hr
  rw [hiw] at hsum
  rw [hmod, toNat_ofLong]
  exact hsum.trans ((toLong_modEq hw u).add hc)

/-- Executing such an instruction shifts the value by the constant. -/
lemma Adds.shifted (hw : i.op = .add ∨ i.op = .sub → i.w = ptrw → ptrw = 4 ∨ ptrw = 8)
    (hconst : ∀ y k u, y ∈ valueOpnds i → addrConst fn d y ptrw = some k → s.temps y = some u → u = ofLong (Ir.norm k ptrw))
    (h : Adds ptrw fn d i x c) (hvs : (valueOpnds i).mapM s.temps = some vs) (he : effect E i vs world = .ok rs world') :
    ∃ u v, rs = [u] ∧ s.temps x = some v ∧ (u.toNat : ℤ) ≡ v.toNat + c.toNat [ZMOD addrMod ptrw] := by
  obtain ⟨r, hr, rfl, -⟩ := effect_core (h.core hw) he
  have hbin : (i.op = .add ∨ i.op = .sub) → isBin i.op := by
    rintro (hop | hop) <;> simp [hop, isBin]
  have hheld : ∀ y k u, y ∈ valueOpnds i → ptrw = 4 ∨ ptrw = 8 → addrConst fn d y ptrw = some k → s.temps y = some u →
      ((toLong u).toNat : ℤ) ≡ k.toNat [ZMOD 2 ^ (8 * ptrw)] := by
    intro y k u hy hp hk hu
    rw [hconst y k u hy hk hu, toLong_ofLong]
    exact norm_modEq hp k
  cases h with
  | mov hop =>
    have hops : valueOpnds i = [i.a] := by simp [valueOpnds, eachRead, hop]
    obtain ⟨u, hu, rfl⟩ := mapM_temps_one (hops ▸ hvs)
    obtain rfl : u = r := by simpa [evalCore, hop] using hr
    exact ⟨u, u, rfl, hu, by simp⟩
  | imm hop hflt hiw himm =>
    have hops : valueOpnds i = [i.a] := by
      rcases hop with hop | hop <;> simp [valueOpnds, eachRead, hop, himm]
    obtain ⟨u, hu, rfl⟩ := mapM_temps_one (hops ▸ hvs)
    rw [evalCore_imm (hbin hop)] at hr
    obtain ⟨r, hfold, rfl⟩ := Option.map_eq_some_iff.1 hr
    exact ⟨_, u, rfl, hu, shifted_sum (hw hop hiw) hop hiw hfold rfl⟩
  | @right k hop hflt hiw himm hk =>
    have hops : valueOpnds i = [i.a, i.b] := by
      rcases hop with hop | hop <;> simp [valueOpnds, eachRead, hop, himm]
    obtain ⟨u, y, hu, hy, rfl⟩ := mapM_temps_two (hops ▸ hvs)
    rw [evalCore_bin (hbin hop)] at hr
    obtain ⟨r, hfold, rfl⟩ := Option.map_eq_some_iff.1 hr
    have hp := hw hop hiw
    have hky := hheld i.b k y (by simp [hops]) hp (hiw ▸ hk) hy
    refine ⟨_, u, rfl, hu, shifted_sum hp hop hiw hfold ?_⟩
    split
    · exact (neg_modEq hp _).trans (hky.neg.trans (neg_modEq hp k).symm)
    · exact hky
  | left hadd hflt hiw himm hk =>
    have hop : i.op = .add ∨ i.op = .sub := .inl hadd
    have hops : valueOpnds i = [i.a, i.b] := by simp [valueOpnds, eachRead, hadd, himm]
    obtain ⟨y, u, hy, hu, rfl⟩ := mapM_temps_two (hops ▸ hvs)
    rw [evalCore_bin (hbin hop), hadd, foldBin_add_comm] at hr
    obtain ⟨r, hfold, rfl⟩ := Option.map_eq_some_iff.1 hr
    refine ⟨_, u, rfl, hu, shifted_sum (hw hop hiw) hop hiw (hadd ▸ hfold) ?_⟩
    rw [if_neg (by simp [hadd])]
    exact hheld i.a c y (by simp [hops]) (hw hop hiw) (hiw ▸ hk) hy

lemma addrConst_holds (hs : ConstInv fn s) {v : ℤ} {u : Val} {w : ℕ} (h : addrConst fn (computeDefs fn) v w = some c)
    (hu : s.temps v = some u) : u = ofLong (Ir.norm c w) := by
  obtain ⟨hone, k, hk, hop, -, hkw, rfl⟩ := addrConst_eq_some.1 h
  obtain ⟨h0, -, hcnt, -⟩ := oneValue_iff.1 hone
  rw [insOf_eq_soleDef h0 hcnt] at hk
  rcases hs v k hk hop with hn | hc
  · rw [hu] at hn
    cases hn
  · rw [← hkw]
    exact mem_unique hu hc

end

/-! ## The objects of an address -/

/-- The objects that the value of a base is based on. -/
def Base.BasedOn (fn : Func) (b : Base) (r : Obj) : Prop :=
  match b with
  | .vreg v => Based fn v r
  | .obj o => r = o

section
variable {ptrw : ℕ} {fn : Func} {t x : ℤ} {i : Ins} {c : BitVec 64} {r : Obj}

lemma not_based_const {y : ℤ} {w : ℕ} {k : BitVec 64} (h : addrConst fn (computeDefs fn) y w = some k) : ¬ Based fn y r := by
  obtain ⟨hone, j, hj, hop, -⟩ := addrConst_eq_some.1 h
  obtain ⟨h0, -, hcnt, -⟩ := oneValue_iff.1 hone
  rw [insOf_eq_soleDef h0 hcnt] at hj
  intro hb
  cases hb with
  | gaddr hk hg | addr hk hg | mov hk hg _ | right hk hg _ _ =>
    obtain rfl := mem_unique hj hk
    simp [hop] at hg
  | left hk hg _ =>
    obtain rfl := mem_unique hj hk
    simp [hop] at hg

/-- An address and the one it is computed from are based on the same objects. -/
lemma based_step (hi : soleDef fn t = some i) (h : Adds ptrw fn (computeDefs fn) i x c) : Based fn t r ↔ Based fn x r := by
  constructor
  · intro hb
    cases hb with
    | gaddr hk hg | addr hk hg =>
      obtain rfl := mem_unique hi hk
      cases h with
      | mov hop | left hop => simp [hop] at hg
      | imm hop | right hop => simp [hg] at hop
    | mov hk hg hb =>
      obtain rfl := mem_unique hi hk
      cases h with
      | mov => exact hb
      | left hop => simp [hop] at hg
      | imm hop | right hop => simp [hg] at hop
    | left hk hg hb =>
      obtain rfl := mem_unique hi hk
      cases h with
      | mov | imm | right => exact hb
      | left _ _ _ _ hc => exact absurd hb (not_based_const hc)
    | right hk hg hib hb =>
      obtain rfl := mem_unique hi hk
      cases h with
      | mov hop => simp [hop] at hg
      | imm _ _ _ himm => simp [himm] at hib
      | right _ _ _ _ hc => exact absurd hb (not_based_const hc)
      | left => exact hb
  · intro hb
    cases h with
    | mov hop => exact .mov hi hop hb
    | imm hop | right hop => exact .left hi hop hb
    | left hop _ _ himm => exact .right hi hop himm hb

lemma based_obj (hi : soleDef fn t = some i) (hop : i.op = .gaddr ∨ i.op = .addr) :
    Based fn t r ↔ r = if i.op = .gaddr then .global i.sym else .slot i.a := by
  constructor
  · intro hb
    cases hb with
    | gaddr hk hg =>
      obtain rfl := mem_unique hi hk
      rw [if_pos hg]
    | addr hk hg =>
      obtain rfl := mem_unique hi hk
      rw [if_neg (by simp [hg])]
    | mov hk hg _ | right hk hg _ _ | left hk hg _ =>
      obtain rfl := mem_unique hi hk
      rcases hop with hop | hop <;> simp [hop] at hg
  · rintro rfl
    split_ifs with hg
    · exact .gaddr hi hg
    · exact .addr hi (hop.resolve_left hg)

/-- The base that the walk ends at is based on the same objects. -/
lemma based_baseWalk {hop : ℕ} {off : BitVec 64} (ht : oneValue fn (computeDefs fn) t) :
    Based fn t r ↔ (baseWalk fn (computeDefs fn) ptrw hop t off).1.BasedOn fn r := by
  induction hop generalizing t off with
  | zero => exact Iff.rfl
  | succ hop ih =>
    obtain ⟨h0, -, hcnt, -⟩ := oneValue_iff.1 ht
    rw [baseWalk]
    split
    · exact Iff.rfl
    · rename_i i hi
      rw [insOf_eq_soleDef h0 hcnt] at hi
      split
      · rename_i hg
        rw [based_obj hi (.inl hg), if_pos hg]
        exact Iff.rfl
      · rename_i hng
        split_ifs with hg
        · rw [based_obj hi (.inr hg), if_neg hng]
          exact Iff.rfl
        · split
          · exact Iff.rfl
          · rename_i next c hstep
            split_ifs with hone
            · exact (based_step hi (adds_of_baseStep hstep)).trans (ih hone)
            · exact Iff.rfl

lemma based_memAccess {size : ℕ} {b : Base}
    (h : (memAccess fn (computeDefs fn) ptrw t size).base = some b) : Based fn t r ↔ b.BasedOn fn r := by
  unfold memAccess at h
  split at h
  · rename_i hone
    cases h
    exact based_baseWalk hone
  · cases h

end

/-! ## Accesses in a run -/

section
variable {W : Type} {E : Env W} {ptrw : ℕ} (M : Memory ptrw E) (fn : Func)

/-- The bytes are in the objects that the address in the register is based on, and in no frame slot
whose address the code does not take. -/
def InObjects (a : ℤ) (B : Set ℕ) : Prop :=
  (∀ r, Based fn a r → B ⊆ M.bytes r) ∧
    ∀ v : ℤ, 0 ≤ v → v < fn.nvars → ¬ slotsTaken fn v → Disjoint B (M.bytes (.slot v))

variable {M fn} {pc pc' n n' : ℕ} {s s' : St W} {i : Ins} {a a' t x : ℤ} {c : BitVec 64}
  {u u' : Val}

lemma once_of_oneValue (h : oneValue fn (computeDefs fn) x) : Once fn x := by
  obtain ⟨h0, hlt, hcnt, -⟩ := oneValue_iff.1 h
  exact once_of_cnt h0 hlt hcnt

lemma oneValue_def (ht : oneValue fn (computeDefs fn) t) (hi : (computeDefs fn).insOf fn t = some i) :
    0 ≤ t ∧ ∃ n, fn.ins[n]? = some i ∧ t ∈ countedDefs fn i ∧ SoleAt fn t n := by
  obtain ⟨h0, hlt, hcnt, -⟩ := oneValue_iff.1 ht
  rw [insOf_eq_soleDef h0 hcnt] at hi
  exact ⟨h0, soleAt_of_soleDef_at hlt hi⟩

lemma addrConst_held (hheld : HeldAt E fn pc s) {k : BitVec 64} {w : ℕ} (h : addrConst fn (computeDefs fn) x w = some k)
    (hx : ¬ Unwritten fn x pc) (hu : s.temps x = some u) : u = ofLong (Ir.norm k w) := by
  obtain ⟨hone, j, hj, hop, -, rfl, rfl⟩ := addrConst_eq_some.1 h
  obtain ⟨h0, hlt, hcnt, -⟩ := oneValue_iff.1 hone
  rw [insOf_eq_soleDef h0 hcnt] at hj
  exact some.inj (hu.symm.trans (hheld.const hlt hj hop hx))

variable (hw : ∀ i ∈ fn.ins, i.op = .add ∨ i.op = .sub → i.w = ptrw → ptrw = 4 ∨ ptrw = 8)
  (hwf : WrittenFirst fn)
include hwf

lemma opnd_written (hn : fn.ins[n]? = some i) (hsole : SoleAt fn t n) (hx : x ∈ valueOpnds i)
    (ht : ¬ Unwritten fn t pc) : ¬ Unwritten fn x pc :=
  fun hu => ht (hu.of_source hsole (hwf n i hn x hx))

include hw

lemma shifted_at (hheld : HeldAt E fn pc s) (ht : oneValue fn (computeDefs fn) t) (htw : ¬ Unwritten fn t pc)
    (hi : (computeDefs fn).insOf fn t = some i) (hs : baseStep fn (computeDefs fn) ptrw i = some (x, c))
    (hx : oneValue fn (computeDefs fn) x) : ¬ Unwritten fn x pc ∧ Shifted ptrw s t x c := by
  obtain ⟨h0, n, hn, hmem, hsole⟩ := oneValue_def ht hi
  have hadds := adds_of_baseStep hs
  have hiw := hw i (List.mem_of_getElem? hn)
  obtain rfl := eq_dst_of_core (hadds.core hiw) hmem
  obtain ⟨hxo, hothers⟩ := hadds.opnds
  have honce : ∀ y ∈ valueOpnds i, Once fn y := by
    intro y hy
    rcases hothers y hy with rfl | ⟨k, hk⟩
    · exact once_of_oneValue hx
    · exact once_of_oneValue (addrConst_eq_some.1 hk).1
  obtain ⟨vs, r, hvs, he, hr⟩ :=
    hheld n i hn (steady_core (hadds.core hiw)) hadds.tempDefs h0 hsole honce htw
  obtain ⟨u, v, hru, hv, hmod⟩ := hadds.shifted hiw
    (fun y k w hy hk => addrConst_held hheld hk (opnd_written hwf hn hsole hy htw)) hvs he
  obtain rfl : r = u := by simpa using hru
  exact ⟨opnd_written hwf hn hsole hxo htw, r, v, hr, hv, hmod⟩

omit hw hwf in
lemma objAddr_at (hheld : HeldAt E fn pc s) (ht : oneValue fn (computeDefs fn) t)
    (htw : ¬ Unwritten fn t pc) (hi : (computeDefs fn).insOf fn t = some i) (hu : s.temps t = some u) :
    (i.op = .gaddr → u = M.addr (.global i.sym)) ∧ (i.op = .addr → u = M.addr (.slot i.a)) := by
  obtain ⟨h0, n, hn, hmem, hsole⟩ := oneValue_def ht hi
  have hval : i.op = .gaddr ∨ i.op = .addr → ∃ vs, E.sem i vs s.world = .ok [u] s.world := by
    intro hop
    have hv : isValue i.op := by rcases hop with hop | hop <;> simp [hop, isValue]
    have htd : tempDefs i = [i.dst] := by
      rcases hop with hop | hop <;> simp [Ir.tempDefs, hop, writesTemp]
    obtain ⟨-, rfl⟩ : 0 ≤ i.dst ∧ t = i.dst := by
      rcases hop with hop | hop <;> simpa [countedDefs, hop, defTarget, writesTemp] using hmem
    obtain ⟨vs, r, -, he, hr⟩ := hheld n i hn (steady_value M hv) htd h0 hsole
      (by rcases hop with hop | hop <;> simp [valueOpnds, eachRead, hop]) htw
    obtain rfl := mem_unique hu hr
    refine ⟨vs, ?_⟩
    rw [← he, effect_sem (by rcases hop with hop | hop <;> simp [isCore, hop]) (by rcases hop with hop | hop <;> simp [hop])]
  constructor
  · intro hop
    obtain ⟨vs, hsem⟩ := hval (.inl hop)
    exact M.gaddr hop hsem
  · intro hop
    obtain ⟨vs, hsem⟩ := hval (.inr hop)
    exact M.slotAddr hop hsem

section
variable (hp : 0 < ptrw) (hheld : HeldAt E fn pc s) (ha : ¬ Unwritten fn a pc) (hu : s.temps a = some u)
include hp hheld ha hu

lemma memAccess_at : ∀ b, (memAccess fn (computeDefs fn) ptrw a n).base = some b → ∃ v, b.val M s = some v ∧
      (u.toNat : ℤ) ≡ v.toNat + (memAccess fn (computeDefs fn) ptrw a n).off.toNat [ZMOD addrMod ptrw] := by
  refine memAccess_base (D := fun t => oneValue fn (computeDefs fn) t ∧ ¬ Unwritten fn t pc) hp ?_ ?_ (fun h => ⟨h, ha⟩) hu
  · rintro t i x c ⟨ht, htw⟩ hi hs hx
    obtain ⟨hxw, hshift⟩ := shifted_at hw hwf hheld ht htw hi hs hx
    exact ⟨⟨hx, hxw⟩, hshift⟩
  · rintro t i u ⟨ht, htw⟩ hi hu
    exact objAddr_at hheld ht htw hi hu

lemma ranged_at : Ranged M s (memAccess fn (computeDefs fn) ptrw a n) (bytesAt ptrw u n) := by
  intro b hb _
  obtain ⟨v, hv, hmod⟩ := memAccess_at hw hwf hp hheld ha hu b hb
  exact ⟨u, v, hv, by rw [memAccess_size], hmod⟩

lemma describes_at_held (hin : InObjects M fn a (bytesAt ptrw u n)) :
    Describes M s (slotsTaken fn) fn.nvars (memAccess fn (computeDefs fn) ptrw a n) (bytesAt ptrw u n) := by
  refine ⟨fun r hr => ?_, fun _ => hin.2, ranged_at hw hwf hp hheld ha hu⟩
  rw [memAccess_obj] at hr
  exact hin.1 r (memBaseGo_based (fun m i hi => ⟨i, hi, .inl rfl⟩) hr)

end

omit hw hwf

/-- In a run from `s₀`, the instruction at the point `(pc, s)` reads its address in the register
`a`, which holds `u`. -/
structure AccessAt (E : Env W) (fn : Func) (s₀ : St W) (pc : ℕ) (s : St W) (a : ℤ) (u : Val) :
    Prop where
  reach : Reaches (step fn.prog E) (some (0, s₀)) (some (pc, s))
  reads : ∃ i, fn.ins[pc]? = some i ∧ a ∈ valueOpnds i
  addr : s.temps a = some u

lemma AccessAt.held {s0 : St W} (hwf : WrittenFirst fn) (hs0 : Entry fn s0)
    (h : AccessAt E fn s0 pc s a u) : HeldAt E fn pc s ∧ ¬ Unwritten fn a pc := by
  obtain ⟨i, hi, ha⟩ := h.reads
  exact ⟨(held_reaches hwf hs0 _ h.reach pc s rfl).2.2, hwf pc i hi a ha⟩

end

/-- What the descriptions of two accesses in one run are worth, when a base they share has the same
value at both: the addresses are as far apart as the offsets, at the pointer's width; accesses that
`acc_overlap` keeps apart share no byte, if those it keeps apart by object stay in their objects;
and an access that `acc_covers` finds in another has no byte outside it. -/
theorem memAccess_sound {W : Type} {E : Env W} {ptrw : ℕ} (M : Memory ptrw E) (fn : Func)
    (s₀ : St W) (hp : 0 < ptrw) (hp8 : ptrw ≤ 8)
    (hw : ∀ i ∈ fn.ins, i.op = .add ∨ i.op = .sub → i.w = ptrw → ptrw = 4 ∨ ptrw = 8)
    (hwf : WrittenFirst fn) (hs₀ : Entry fn s₀) (pc pc' : ℕ) (s s' : St W) (a a' : ℤ) (u u' : Val)
    (n n' : ℕ) (h : AccessAt E fn s₀ pc s a u) (h' : AccessAt E fn s₀ pc' s' a' u')
    (m m' : MAccess) (hm : m = memAccess fn (computeDefs fn) ptrw a n)
    (hm' : m' = memAccess fn (computeDefs fn) ptrw a' n') (hv : SameValue M s s' m m') :
    (m.base ≠ none → m.base = m'.base →
      (u'.toNat : ℤ) - u.toNat ≡ m'.off.toNat - m.off.toNat [ZMOD 2 ^ (8 * ptrw)]) ∧
    ((¬ sameBase m m' → InObjects M fn a (bytesAt ptrw u n) ∧
        InObjects M fn a' (bytesAt ptrw u' n')) → accOverlap ptrw m m' (slotsTaken fn) fn.nvars = false →
        Disjoint (bytesAt ptrw u n) (bytesAt ptrw u' n')) ∧
    (accCovers ptrw m m' → bytesAt ptrw u' n' ⊆ bytesAt ptrw u n) := by
  obtain ⟨hheld, ha⟩ := h.held hwf hs₀
  obtain ⟨hheld', ha'⟩ := h'.held hwf hs₀
  have hr : Ranged M s m (bytesAt ptrw u n) := hm ▸ ranged_at hw hwf hp hheld ha h.addr
  have hr' : Ranged M s' m' (bytesAt ptrw u' n') := hm' ▸ ranged_at hw hwf hp hheld' ha' h'.addr
  refine ⟨fun hb hbb => ?_, fun hin hover => ?_, accCovers_sound hr hr' hv⟩
  · obtain ⟨b, hb⟩ := Option.ne_none_iff_exists'.1 hb
    have hb' : m'.base = some b := hbb ▸ hb
    have hsame := hv b hb hb'
    subst hm hm'
    obtain ⟨v, hbv, hu⟩ := memAccess_at hw hwf hp hheld ha h.addr b hb
    obtain ⟨v', hbv', hu'⟩ := memAccess_at hw hwf hp hheld' ha' h'.addr b hb'
    obtain rfl : v = v' := some.inj (hbv.symm.trans (hsame.trans hbv'))
    have hmod : (addrMod ptrw : ℤ) = 2 ^ (8 * ptrw) := by
      rw [addrMod, min_eq_left (by omega)]
      rfl
    have hdiff := hu'.sub hu
    rwa [add_sub_add_left_eq_sub, hmod] at hdiff
  · by_cases hsame : sameBase m m'
    · exact accOverlap_sameBase hp hr hr' hv hsame hover
    · obtain ⟨hobj, hobj'⟩ := hin hsame
      subst hm hm'
      exact accOverlap_sound hp (describes_at_held hw hwf hp hheld ha h.addr hobj)
        (describes_at_held hw hwf hp hheld' ha' h'.addr hobj') hv hover

/-- Two bytes of what a parameter points to. -/
def fields : Func where
  ins := [{ op := .add, dst := 1, a := 0, w := 8, immB := true, imm := 1 },
    { op := .load, dst := 2, a := 1, size := 1, w := 4 },
    { op := .load, dst := 3, a := 0, size := 1, w := 4 },
    { op := .ret, a := 3, w := 4 }]
  nparams := 1
  nvregs := 4

def fieldsEntry : St (ℕ → BitVec 8) :=
  ⟨update (fun _ => none) 0 (some 5), [], fun _ => 0⟩

/-- The byte at the parameter and one more is the second of the two at the parameter. -/
theorem memAccess_sound_fields : (∃ s, AccessAt ⟨byteSem, fun _ => 0⟩ fields fieldsEntry 1 s 1 6) ∧
    (∃ s, AccessAt ⟨byteSem, fun _ => 0⟩ fields fieldsEntry 2 s 0 5) ∧
    bytesAt 8 6 1 ⊆ bytesAt 8 5 2 := by
  have hwf : WrittenFirst fields := writtenFirst_of_straight (by decide) (by decide)
  have hentry : Entry fields fieldsEntry := by
    refine ⟨fun t ht => ?_, rfl⟩
    have ht0 : t ≠ 0 := by
      rintro rfl
      exact absurd ht (by decide)
    show update (fun _ => none) 0 _ t = none
    rw [update_of_ne ht0]
  have h₁ : AccessAt ⟨byteSem, fun _ => 0⟩ fields fieldsEntry 1 _ 1 6 :=
    ⟨.tail .refl ⟨_, rfl⟩, ⟨_, rfl, by decide⟩, rfl⟩
  have h₂ : AccessAt ⟨byteSem, fun _ => 0⟩ fields fieldsEntry 2 _ 0 5 :=
    ⟨.of_after 2 rfl, ⟨_, rfl, by decide⟩, rfl⟩
  refine ⟨⟨_, h₁⟩, ⟨_, h₂⟩, ?_⟩
  refine (memAccess_sound byteMemory fields fieldsEntry (by decide) (by decide) (by decide) hwf
    hentry 2 1 _ _ 0 1 5 6 2 1 h₂ h₁ _ _ rfl rfl ?_).2.2 (by decide)
  intro b hb _
  obtain rfl : Base.vreg 0 = b := some.inj hb
  rfl

/-- The byte behind one global, and the next global. -/
def nextDoor : Func where
  ins := [{ op := .gaddr, dst := 0, w := 8, sym := 0, ptr := some 0 },
    { op := .add, dst := 1, a := 0, w := 8, immB := true, imm := 1 },
    { op := .gaddr, dst := 2, w := 8, sym := 1, ptr := some 1 },
    { op := .load, dst := 3, a := 1, size := 1, w := 4 },
    { op := .load, dst := 4, a := 2, size := 1, w := 4 },
    { op := .ret, a := 4, w := 4 }]
  nvregs := 5

/-- A byte is copied to the next one, on and on. -/
def copyUp : Func where
  ins := [{ op := .const, dst := 0, w := 8, imm := 0 },
    { op := .label, label := 0 },
    { op := .mov, dst := 1, a := 0, w := 8 },
    { op := .load, dst := 2, a := 1, size := 1, w := 4 },
    { op := .add, dst := 3, a := 1, w := 8, immB := true, imm := 1 },
    { op := .store, a := 3, b := 2, size := 1 },
    { op := .mov, dst := 0, a := 3, w := 8 },
    { op := .jmp, label := 0 }]
  nvregs := 4
  nlabels := 1

/-- `acc_overlap` keeps the byte behind one global apart from the next global by their objects, and
they are one byte. The same is true of what is stored in one turn of a loop and loaded in the next,
where the base has another value. -/
theorem accOverlap_nextDoor : (WrittenFirst nextDoor ∧
      (∃ s, AccessAt ⟨byteSem, fun _ => 0⟩ nextDoor ⟨fun _ => none, [], fun _ => 0⟩ 3 s 1 1) ∧
      (∃ s, AccessAt ⟨byteSem, fun _ => 0⟩ nextDoor ⟨fun _ => none, [], fun _ => 0⟩ 4 s 2 1) ∧
      accOverlap 8 (memAccess nextDoor (computeDefs nextDoor) 8 1 1)
        (memAccess nextDoor (computeDefs nextDoor) 8 2 1) (slotsTaken nextDoor) nextDoor.nvars = false) ∧
    (WrittenFirst copyUp ∧
      (∃ s, AccessAt ⟨byteSem, fun _ => 0⟩ copyUp ⟨fun _ => none, [], fun _ => 0⟩ 5 s 3 1) ∧
      (∃ s, AccessAt ⟨byteSem, fun _ => 0⟩ copyUp ⟨fun _ => none, [], fun _ => 0⟩ 3 s 1 1) ∧
      accOverlap 8 (memAccess copyUp (computeDefs copyUp) 8 3 1)
        (memAccess copyUp (computeDefs copyUp) 8 1 1) (slotsTaken copyUp) copyUp.nvars = false) ∧
    ¬ Disjoint (bytesAt 8 1 1) (bytesAt 8 1 1) := by
  refine ⟨⟨writtenFirst_of_straight (by decide) (by decide), ⟨_, .of_after 3 rfl, ⟨_, rfl, by decide⟩, rfl⟩,
    ⟨_, .of_after 4 rfl, ⟨_, rfl, by decide⟩, rfl⟩, by decide⟩, ⟨?_, ?_, ?_, by decide⟩, ?_⟩
  · exact writtenFirst_of_table rfl [[], [0], [0], [0, 1], [0, 1, 2], [0, 1, 2, 3], [0, 1, 2, 3], [0, 1, 2, 3]]
      (by decide) (by decide) (by decide)
  · exact ⟨_, .of_after 5 rfl, ⟨_, rfl, by decide⟩, rfl⟩
  · exact ⟨_, .of_after 10 rfl, ⟨_, rfl, by decide⟩, rfl⟩
  · simp [bytesAt_one]

end EmbCC.Opt
