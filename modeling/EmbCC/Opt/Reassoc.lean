import EmbCC.Ir.Ints
import EmbCC.Ir.Pieces
import EmbCC.Opt.Held

/-!
# Reassociation

`pass_reassoc`: an operation with a constant whose other operand is the same kind of operation with a
constant becomes one operation with one constant, put in a new register before it.

The arithmetic is right (`reassocFold_sound`). The pass computes with the register `x` that the
inner operation read, which is the value it read only while `x` was not written since; the pass
asks this of the result of the inner operation, not of `x`. Where the result of the inner operation
is what it gives of the registers at the time, every register keeps its value
(`passReassoc_preserves`), and it is so in a function whose registers are written before they are
read if `x` has one definition (`fresh_of_writtenFirst`).
-/

namespace EmbCC.Opt.Reassoc

open Option List Ir Trace Function Int Prod
open BitVec (ofNat ofNat_add toNat_ofNat toNat_setWidth)

/-! ## The pass -/

/-- `reassoc_fold`: `(x inner c1) outer c2` as `x op c`. The sum of two shift counts is one of
`long`s, which wraps around. -/
def reassocFold (outer inner : Op) (c1 c2 : BitVec 64) (w : ℕ) : Option (Op × BitVec 64) :=
  match outer, inner with
  | .add, .add => some (.add, norm (c1 + c2) w)
  | .add, .sub => some (.add, norm (c2 - c1) w)
  | .sub, .add => some (.add, norm (c1 - c2) w)
  | .sub, .sub => some (.sub, norm (c1 + c2) w)
  | .mul, .mul => some (.mul, norm (c1 * c2) w)
  | .and, .and => some (.and, norm (c1 &&& c2) w)
  | .or, .or => some (.or, norm (c1 ||| c2) w)
  | .xor, .xor => some (.xor, norm (c1 ^^^ c2) w)
  | .shl, .shl =>
    if 0 ≤ c1.toInt ∧ 0 ≤ c2.toInt ∧ (c1 + c2).toInt < w * 8 then some (.shl, c1 + c2) else none
  | .shr, .shr =>
    if 0 ≤ c1.toInt ∧ 0 ≤ c2.toInt ∧ (c1 + c2).toInt < w * 8 then some (.shr, c1 + c2) else none
  | _, _ => none

/-- `as_op_const`: the instruction as `x op c`. -/
def asOpConst (fn : Func) (i : Ins) : Option (ℤ × BitVec 64) :=
  if i.flt ∨ i.w = 16 ∨ i.immB then none
  else
    match i.op with
    | .add | .mul | .and | .or | .xor =>
      match getConst fn i.a, getConst fn i.b with
      | none, some B => some (i.a, B)
      | some A, none => some (i.b, A)
      | _, _ => none
    | .sub | .shl | .shr =>
      match getConst fn i.a, getConst fn i.b with
      | none, some B => some (i.a, B)
      | _, _ => none
    | _ => none

/-- What is decided of an instruction `t outer c2` where `t` is `x inner c1`: it becomes `x op c`. -/
structure Plan where
  t : ℤ
  c2 : BitVec 64
  inner : Ins
  x : ℤ
  c1 : BitVec 64
  op : Op
  c : BitVec 64
deriving DecidableEq

/-- The first loop of `pass_reassoc`. -/
def plan (fn : Func) (i : Ins) : Option Plan := do
  let (t, c2) ← asOpConst fn i
  guard (0 ≤ t ∧ t < fn.nvregs)
  let inner ← soleDef fn t
  guard (inner.w = i.w)
  guard (i.op = .shr ∨ i.op = .shl → inner.sign = i.sign)
  let (x, c1) ← asOpConst fn inner
  let (op, c) ← reassocFold i.op inner.op c1 c2 i.w
  return { t, c2, inner, x, c1, op, c }

/-- The constant of a rewritten instruction, in the new register `nv`. -/
def constIns (nv : ℕ) (p : Plan) (i : Ins) : Ins :=
  { op := .const, dst := nv, imm := p.c, w := i.w, label := -1 }

/-- The operation of a rewritten instruction. -/
def opIns (nv : ℕ) (p : Plan) (i : Ins) : Ins :=
  { i with op := p.op, a := p.x, b := nv, immB := false, imm := 0 }

/-- What the second loop emits for an instruction, with the number of the next new register. -/
def piece (fn : Func) (nv : ℕ) (i : Ins) : List Ins × ℕ :=
  match plan fn i with
  | some p => ([constIns nv p i, opIns nv p i], nv + 1)
  | none => ([i], nv)

def pieces (fn : Func) : List (List Ins) := Scan.scan (piece fn) fn.nvregs fn.ins

def passReassoc (fn : Func) : Func :=
  { fn with
    ins := (pieces fn).flatten
    nvregs := Scan.stateAt (piece fn) fn.nvregs fn.ins fn.ins.length }

section
variable {w n : ℕ}

lemma sOpnd_norm (x : BitVec 64) : sOpnd w (norm x w) = sOpnd w x := norm_norm x

lemma uOpnd_shiftRight (x : BitVec 64) : uOpnd w (uOpnd w x >>> n) = uOpnd w x >>> n := by
  by_cases hw : w = 8
  · rw [uOpnd, uOpnd, if_pos hw, if_pos hw]
  · rw [uOpnd, uOpnd, if_neg hw, if_neg hw]
    apply BitVec.eq_of_toNat_eq
    have hle := Nat.shiftRight_le (x.setWidth 32).toNat n
    have hval : ((x.setWidth 32).setWidth 64 >>> n).toNat = (x.setWidth 32).toNat >>> n := by
      rw [BitVec.toNat_ushiftRight, toNat_setWidth, Nat.mod_eq_of_lt (by omega)]
    rw [toNat_setWidth, toNat_setWidth, hval]
    omega

lemma sOpnd_of_lt {y : BitVec 64} (h1 : -2 ^ 31 ≤ y.toInt) (h2 : y.toInt < 2 ^ 31) : sOpnd 4 y = y := by
  refine (norm_toInt y).trans ?_
  rw [word_eq_ofInt h1 h2, BitVec.ofInt_toInt]

lemma sOpnd_sshiftRight (hw : w = 4 ∨ w = 8) (x : BitVec 64) :
    sOpnd w ((sOpnd w x).sshiftRight n) = (sOpnd w x).sshiftRight n := by
  rcases hw with rfl | rfl
  · have hpos : (0 : ℤ) < 2 ^ n := by positivity
    have hlow := le_s32 x
    have hhigh := s32_lt x
    have hval : ((sOpnd 4 x).sshiftRight n).toInt = s32 x / 2 ^ n := by
      rw [BitVec.toInt_sshiftRight, toInt_sOpnd, shiftRight_eq_div_pow]
      norm_num
    refine sOpnd_of_lt ?_ ?_
    · rw [hval, Int.le_ediv_iff_mul_le hpos]
      nlinarith
    · rw [hval]
      exact Int.ediv_lt_of_lt_mul hpos (by nlinarith)
  · rfl

lemma count_eq (hw : w = 4 ∨ w = 8) (hn : n < w * 8) : (uOpnd w (ofNat 64 n)).toNat % (if w = 8 then 64 else 32) = n := by
  rcases hw with rfl | rfl
  · simp only [uOpnd, Nat.reduceEqDiff, if_false, toNat_setWidth, toNat_ofNat]
    omega
  · simp only [uOpnd, if_true, toNat_ofNat]
    omega

lemma uOpnd_shiftLeft (x : BitVec 64) : norm (uOpnd w x <<< n) w = norm (x <<< n) w := by
  refine norm_eq_of_cut (fun hw => by rw [uOpnd, if_pos hw]) fun hw => ?_
  have hcut (y : BitVec 64) : (y <<< n).setWidth 32 = y.setWidth 32 <<< n := by
    ext k hk
    by_cases hkn : k < n <;> simp
  rw [hcut, hcut, setWidth_uOpnd x hw]

end

lemma counts_of_fold {w : ℕ} {c1 c2 : BitVec 64} (h1 : 0 ≤ c1.toInt) (h2 : 0 ≤ c2.toInt) (hsum : (c1 + c2).toInt < w * 8)
    (hover : c1.toInt + c2.toInt < 2 ^ 63) : ∃ n1 n2 : ℕ, c1 = ofNat 64 n1 ∧ c2 = ofNat 64 n2 ∧ n1 + n2 < w * 8 := by
  have hadd : (c1 + c2).toInt = c1.toInt + c2.toInt := by
    rw [BitVec.toInt_add, bmod_eq_of_le] <;> omega
  have hnat (c : BitVec 64) (h : 0 ≤ c.toInt) : c.toNat = c.toInt := by
    rw [BitVec.toInt_eq_toNat_cond] at h ⊢
    split_ifs at ⊢ <;> omega
  refine ⟨c1.toNat, c2.toNat, by simp, by simp, ?_⟩
  have := hnat c1 h1
  have := hnat c2 h2
  omega

section
variable {outer inner op : Op} {c1 c2 c x : BitVec 64} {w : ℕ} {sg sg' : Bool} {pr pr' : Pred}

section
variable (hw : w = 4 ∨ w = 8) {n1 n2 : ℕ}
include hw

lemma shr_shr (hlt : n1 + n2 < w * 8) : ∃ y r, foldBin .shr x (ofNat 64 n1) w sg pr' = some y ∧ foldBin .shr y
      (ofNat 64 n2) w sg pr = some r ∧ foldBin .shr x (ofNat 64 (n1 + n2)) w sg pr = some r := by
  have h1 := count_eq hw (show n1 < w * 8 by omega)
  have h2 := count_eq hw (show n2 < w * 8 by omega)
  cases sg with
  | false =>
    refine ⟨_, _, foldBin_shru .., foldBin_shru .., ?_⟩
    rw [foldBin_shru, count_eq hw hlt, h1, h2, uOpnd_norm, uOpnd_shiftRight, BitVec.shiftRight_add]
  | true =>
    refine ⟨_, _, foldBin_shrs .., foldBin_shrs .., ?_⟩
    rw [foldBin_shrs, count_eq hw hlt, h1, h2, sOpnd_norm, sOpnd_sshiftRight hw, BitVec.sshiftRight_add]

lemma norm_count {n : ℕ} (hlt : n < w * 8) : norm (ofNat 64 n) w = ofNat 64 n := by
  rcases hw with rfl | rfl
  · refine (norm_ofInt n).trans (word_eq_ofInt (by omega) (by omega))
  · rfl

/-- The folded constant does what the two operations do one after the other. -/
lemma reassocFold_sound (hfold : reassocFold outer inner c1 c2 w = some (op, c))
    (hsign : outer = .shr ∨ outer = .shl → sg' = sg) (hover : outer = .shr ∨ outer = .shl → c1.toInt + c2.toInt < 2 ^ 63)
    (x : BitVec 64) : ∃ y r, foldBin inner x c1 w sg' pr' = some y ∧ foldBin outer y c2 w sg pr = some r ∧ foldBin op x
    (norm c w) w sg pr = some r := by
  have hshift (hc : 0 ≤ c1.toInt ∧ 0 ≤ c2.toInt ∧ (c1 + c2).toInt < w * 8)
      (ho : outer = .shr ∨ outer = .shl) := counts_of_fold hc.1 hc.2.1 hc.2.2 (hover ho)
  unfold reassocFold at hfold
  split at hfold
  case h_11 => cases hfold
  case h_9 =>
    split_ifs at hfold with hc
    cases hfold
    obtain ⟨n1, n2, rfl, rfl, hlt⟩ := hshift hc (.inr rfl)
    rw [← ofNat_add, norm_count hw hlt]
    refine ⟨_, _, foldBin_shl .., foldBin_shl .., ?_⟩
    rw [foldBin_shl, count_eq hw hlt, count_eq hw (by omega), count_eq hw (by omega), uOpnd_norm,
      uOpnd_shiftLeft (uOpnd w x <<< n1), BitVec.shiftLeft_add]
  case h_10 =>
    split_ifs at hfold with hc
    cases hfold
    obtain ⟨n1, n2, rfl, rfl, hlt⟩ := hshift hc (.inl rfl)
    obtain rfl := hsign (.inl rfl)
    rw [← ofNat_add, norm_count hw hlt]
    exact shr_shr hw hlt
  all_goals cases hfold
  case h_1 =>
    exact cuts_add.fold cuts_add cuts_add (fun _ _ => rfl) (fun _ _ => rfl) (fun _ _ => rfl) (BitVec.add_assoc ..)
  case h_2 =>
    refine cuts_sub.fold cuts_add cuts_add (fun _ _ => rfl) (fun _ _ => rfl) (fun _ _ => rfl) ?_
    ring
  case h_3 =>
    refine cuts_add.fold cuts_sub cuts_add (fun _ _ => rfl) (fun _ _ => rfl) (fun _ _ => rfl) ?_
    ring
  case h_4 =>
    refine cuts_sub.fold cuts_sub cuts_sub (fun _ _ => rfl) (fun _ _ => rfl) (fun _ _ => rfl) ?_
    ring
  case h_5 =>
    exact cuts_mul.fold cuts_mul cuts_mul (fun _ _ => rfl) (fun _ _ => rfl) (fun _ _ => rfl) (BitVec.mul_assoc ..)
  case h_6 =>
    exact cuts_and.fold cuts_and cuts_and (fun _ _ => rfl) (fun _ _ => rfl) (fun _ _ => rfl) (BitVec.and_assoc ..)
  case h_7 =>
    exact cuts_or.fold cuts_or cuts_or (fun _ _ => rfl) (fun _ _ => rfl) (fun _ _ => rfl) (BitVec.or_assoc ..)
  case h_8 =>
    exact cuts_xor.fold cuts_xor cuts_xor (fun _ _ => rfl) (fun _ _ => rfl) (fun _ _ => rfl) (BitVec.xor_assoc ..)

end
end

/-- The operations `as_op_const` reads. -/
def arith : Op → Bool
  | .add | .mul | .and | .or | .xor | .sub | .shl | .shr => true
  | _ => false

/-- Of those, the ones that take their constant from either side. -/
def commutes : Op → Bool
  | .add | .mul | .and | .or | .xor => true
  | _ => false

/-! ## Operations with a constant -/

/-- The register is one side, the constant the other. -/
structure OpConst (fn : Func) (i : Ins) (x : ℤ) (c : BitVec 64) : Prop where
  flt : i.flt = false
  w : i.w ≠ 16
  immB : i.immB = false
  op : arith i.op
  sides : i.a = x ∧ getConst fn i.b = some c ∨ commutes i.op ∧ i.b = x ∧ getConst fn i.a = some c

section
variable {fn : Func} {i : Ins} {x : ℤ} {c : BitVec 64} {op : Op}

lemma asOpConst_spec (h : asOpConst fn i = some (x, c)) : OpConst fn i x c := by
  unfold asOpConst at h
  split_ifs at h with hform
  simp only [not_or, Bool.not_eq_true] at hform
  obtain ⟨hflt, hw, himm⟩ := hform
  split at h
  case h_9 => cases h
  all_goals
    rename_i hop
    split at h
  all_goals cases h
  all_goals refine ⟨hflt, hw, himm, by rw [hop]; rfl, ?_⟩
  all_goals first | exact .inl ⟨rfl, ‹_›⟩ | exact .inr ⟨by rw [hop]; rfl, rfl, ‹_›⟩

lemma arith_spec (hop : arith i.op) (hflt : i.flt = false) (himm : i.immB = false)
    (hw : i.w = 4 ∨ i.w = 8) : isCore i ∧ isBin i.op ∧ valueOpnds i = [i.a, i.b] := by
  cases ho : i.op <;> simp only [ho, arith, Bool.false_eq_true] at hop <;>
    simp [isCore, isBin, valueOpnds, eachRead, ho, hflt, himm, hw]

lemma OpConst.spec (h : OpConst fn i x c) (hw : i.w = 4 ∨ i.w = 8) :
    isCore i ∧ isBin i.op ∧ valueOpnds i = [i.a, i.b] := arith_spec h.op h.flt h.immB hw

lemma foldBin_comm (h : commutes op) (A B : BitVec 64) (w : ℕ) (sg : Bool) (pr : Pred) :
    foldBin op A B w sg pr = foldBin op B A w sg pr := by
  cases op <;> simp only [commutes, Bool.false_eq_true] at h <;> simp only [foldBin]
  · rw [BitVec.add_comm]
  · rw [BitVec.mul_comm]
  · rw [BitVec.and_comm]
  · rw [BitVec.or_comm]
  · rw [BitVec.xor_comm]

/-- What a rewritten instruction is. -/
structure Planned (fn : Func) (i : Ins) (p : Plan) : Prop where
  outer : OpConst fn i p.t p.c2
  range : 0 ≤ p.t ∧ p.t < fn.nvregs
  sole : soleDef fn p.t = some p.inner
  w : p.inner.w = i.w
  sign : i.op = .shr ∨ i.op = .shl → p.inner.sign = i.sign
  inner : OpConst fn p.inner p.x p.c1
  fold : reassocFold i.op p.inner.op p.c1 p.c2 i.w = some (p.op, p.c)

lemma plan_spec {p : Plan} (h : plan fn i = some p) : Planned fn i p := by
  simp only [plan, Option.bind_eq_bind, Option.bind_eq_some_iff, Option.guard_eq_some', Prod.exists,
    exists_const, Option.pure_def, Option.some.injEq] at h
  obtain ⟨t, c2, houter, hrange, inner, hsole, hw, hsign, x, c1, hinner, op, c, hfold, rfl⟩ := h
  exact ⟨asOpConst_spec houter, hrange, hsole, hw, hsign, asOpConst_spec hinner, hfold⟩

lemma arith_of_fold {outer inner : Op} {c1 c2 : BitVec 64} {w : ℕ}
    (h : reassocFold outer inner c1 c2 w = some (op, c)) : arith op := by
  unfold reassocFold at h
  split at h
  case h_11 => cases h
  case h_9 | h_10 =>
    split_ifs at h
    obtain ⟨rfl, -⟩ := mk.inj (some.inj h)
    rfl
  all_goals
    obtain ⟨rfl, -⟩ := mk.inj (some.inj h)
    rfl

end

/-! ## The pieces -/

/-- What `verify.c` checks of the registers, and the widths of `ir.h`. -/
structure Form (fn : Func) : Prop where
  params : fn.nparams ≤ fn.nvregs
  reads : ∀ i ∈ fn.ins, ∀ t ∈ valueOpnds i, t < fn.nvregs
  writes : ∀ i ∈ fn.ins, ∀ t ∈ tempDefs i, t < fn.nvregs
  width : ∀ i ∈ fn.ins, arith i.op → i.w = 4 ∨ i.w = 8 ∨ i.w = 16

/-- The constants are those their registers hold, and two counts that are added do not wrap around. -/
structure Plain (fn : Func) : Prop where
  norm : ∀ i ∈ fn.ins, i.op = .const → i.flt = false → norm i.imm i.w = i.imm
  counts : ∀ i ∈ fn.ins, ∀ p, plan fn i = some p → i.op = .shr ∨ i.op = .shl →
    p.c1.toInt + p.c2.toInt < 2 ^ 63

section
variable {W : Type} {E : Env W} {fn : Func} {s : St W} {i : Ins} {x : ℤ} {c : BitVec 64} {p : Plan} {nv : ℕ}

lemma Form.width_of_outer (h : Form fn) (hi : i ∈ fn.ins) (hp : Planned fn i p) : i.w = 4 ∨ i.w = 8 := by
  have := h.width i hi hp.outer.op
  have := hp.outer.w
  omega

lemma getConst_holds (hp : Plain fn) (hc : ConstInv fn s) {v : ℤ} {val : Val}
    (h : getConst fn v = some c) (hv : s.temps v = some val) : val = ofLong c := by
  obtain ⟨j, hj, h⟩ := Option.bind_eq_some_iff.1 h
  split_ifs at h with hop
  cases h
  obtain ⟨n, hn, -⟩ := soleDef_spec hj
  have hnorm := hp.norm j (mem_of_getElem? hn) hop.1 hop.2
  rcases hc v j hj hop.1 with hnone | hsome
  · rw [hnone] at hv
    cases hv
  · rw [hsome, hnorm] at hv
    exact (some.inj hv).symm

lemma OpConst.eval (h : OpConst fn i x c) (hw : i.w = 4 ∨ i.w = 8) (hp : Plain fn)
    (hc : ConstInv fn s) {vs : List Val} (hvs : (valueOpnds i).mapM s.temps = some vs) :
    ∃ vx, s.temps x = some vx ∧ evalCore i vs = (foldBin i.op (toLong vx) c i.w i.sign i.pred).map ofLong := by
  obtain ⟨-, hbin, hops⟩ := h.spec hw
  rw [hops] at hvs
  cases ha : s.temps i.a with
  | none => simp [ha] at hvs
  | some va =>
    cases hb : s.temps i.b with
    | none => simp [hb] at hvs
    | some vb =>
      obtain rfl : [va, vb] = vs := by simpa [ha, hb] using hvs
      rw [evalCore_bin hbin]
      rcases h.sides with ⟨rfl, hcb⟩ | ⟨hcomm, rfl, hca⟩
      · obtain rfl := getConst_holds hp hc hcb hb
        exact ⟨va, ha, by rw [toLong_ofLong]⟩
      · obtain rfl := getConst_holds hp hc hca ha
        exact ⟨vb, hb, by rw [toLong_ofLong, foldBin_comm hcomm]⟩

lemma execSeq_piece {temps : ℤ → Option Val} {vx : Val} {R : BitVec 64} (hw : i.w = 4 ∨ i.w = 8) (hflt : i.flt = false)
    (hop : arith p.op) (hx : temps p.x = some vx) (hlt : p.x < nv) (hR : foldBin p.op (toLong vx)
    (norm p.c i.w) i.w i.sign i.pred = some R) : execSeq temps [constIns nv p i, opIns nv p i] = some (setTemp
    (setTemp temps nv (ofLong (norm p.c i.w))) i.dst (ofLong R)) := by
  have h1 : execIns temps (constIns nv p i) = some (setTemp temps nv (ofLong (norm p.c i.w))) := by
    simp [execIns, isCore, valueOpnds, eachRead, evalCore, constIns]
  have hset : setTemp temps nv (ofLong (norm p.c i.w)) = update temps nv (some (ofLong (norm p.c i.w))) := if_neg (by omega)
  have hx' : setTemp temps nv (ofLong (norm p.c i.w)) p.x = some vx := by
    rw [hset, update_of_ne hlt.ne, hx]
  have hc' : setTemp temps nv (ofLong (norm p.c i.w)) nv = some (ofLong (norm p.c i.w)) := by
    rw [hset, update_self]
  obtain ⟨hcore, hbin, hops⟩ := @arith_spec (opIns nv p i) hop hflt rfl hw
  have h2 : execIns (setTemp temps nv (ofLong (norm p.c i.w))) (opIns nv p i) =
      some (setTemp (setTemp temps nv (ofLong (norm p.c i.w))) i.dst (ofLong R)) := by
    have heval : evalCore (opIns nv p i) [vx, ofLong (norm p.c i.w)] = some (ofLong R) := by
      rw [evalCore_bin hbin, toLong_ofLong]
      exact congrArg (Option.map ofLong) hR
    have hvs : (valueOpnds (opIns nv p i)).mapM (setTemp temps nv (ofLong (norm p.c i.w))) =
        some [vx, ofLong (norm p.c i.w)] := by
      rw [hops]
      simp [opIns, hx', hc']
    simp only [execIns, hcore, hvs, bind_some, heval]
    rfl
  rw [execSeq, foldlM_cons, h1, bind_eq_bind, bind_some, foldlM_cons, h2]
  rfl

/-- The two new instructions leave what the outer operation did. -/
lemma restates_piece (hform : Form fn) (hplain : Plain fn) (hi : i ∈ fn.ins) (hplan : plan fn i = some p)
    (hconst : ConstInv fn s) (hgives : (s.temps p.t).isSome → Gives E s p.inner p.t) (hnv : fn.nvregs ≤ nv) :
    Restates fn.nvregs s.temps i [constIns nv p i, opIns nv p i] := by
  have hp := plan_spec hplan
  obtain ⟨n, hn, -⟩ := soleDef_spec hp.sole
  have hinner : p.inner ∈ fn.ins := mem_of_getElem? hn
  have hw := hform.width_of_outer hi hp
  have hw' : p.inner.w = 4 ∨ p.inner.w = 8 := by rwa [hp.w]
  obtain ⟨hcore, -, hops⟩ := hp.inner.spec hw'
  intro vs hvs
  obtain ⟨vt, ht, heval⟩ := hp.outer.eval hw hplain hconst hvs
  obtain ⟨vs', r, hvs', he, hr⟩ := hgives (by rw [ht]; rfl)
  obtain rfl : vt = r := mem_unique ht hr
  obtain ⟨vx, hx, heval'⟩ := hp.inner.eval hw' hplain hconst hvs'
  have hlab := (isControl_core hcore).2
  obtain ⟨y, R, hy, hR, hnew⟩ := @reassocFold_sound _ _ _ _ _ _ _ _ _ i.pred p.inner.pred hw hp.fold
    hp.sign (hplain.counts i hi p hplan) (toLong vx)
  have hvt : vt = ofLong y := by
    rw [hp.w, hy] at heval'
    simp only [effect, if_neg hlab, hcore, if_true, heval', map_some, Effect.ok.injEq, cons.injEq, and_true] at he
    exact he.symm
  refine ⟨ofLong R, by rw [heval, hvt, toLong_ofLong, hR]; rfl, fun temps' hsame => ?_⟩
  have hxlt : p.x < fn.nvregs := by
    refine hform.reads _ hinner _ ?_
    rw [hops]
    rcases hp.inner.sides with ⟨h, -⟩ | ⟨-, h, -⟩ <;> simp [h]
  refine ⟨_, execSeq_piece hw hp.outer.flt (arith_of_fold hp.fold) ((hsame _ hxlt).trans hx) (by omega) hnew, fun t ht => ?_⟩
  refine setTemps_agree ?_ [i.dst] [ofLong R]
  rw [setTemp, if_neg (by omega), update_of_ne (by omega), hsame t ht]

lemma le_piece (fn : Func) (nv : ℕ) (i : Ins) : nv ≤ (piece fn nv i).2 := by
  unfold piece
  split <;> simp

lemma le_stateAt (fn : Func) (nv : ℕ) (is : List Ins) (n : ℕ) : nv ≤ Scan.stateAt (piece fn) nv is n := by
  unfold Scan.stateAt
  generalize is.take n = js
  induction js generalizing nv with
  | nil => exact le_rfl
  | cons j js ih => exact (le_piece fn nv j).trans (ih _)

lemma piece_cases {n : ℕ} {is : List Ins} (hi : fn.ins[n]? = some i) (his : (pieces fn)[n]? = some is) :
    is = [i] ∨ ∃ p nv, plan fn i = some p ∧ fn.nvregs ≤ nv ∧ is = [constIns nv p i, opIns nv p i] := by
  rw [pieces, Scan.scan_getElem, hi, map_some] at his
  cases his
  unfold piece
  split
  · rename_i p hp
    exact .inr ⟨p, _, hp, le_stateAt fn _ _ n, rfl⟩
  · exact .inl rfl

lemma pieces_form (hform : Form fn) : Pieces fn (pieces fn) where
  length := Scan.length_scan ..
  range := hform.reads
  piece := by
    intro n i is hi his
    rcases piece_cases hi his with rfl | ⟨p, nv, hplan, -, rfl⟩
    · exact .inl rfl
    · have hp := plan_spec hplan
      have hw := hform.width_of_outer (mem_of_getElem? hi) hp
      refine .inr ⟨(hp.outer.spec hw).1, by simp, ?_⟩
      simp only [mem_cons, not_mem_nil, or_false, forall_eq_or_imp, forall_eq]
      exact ⟨rfl, (@arith_spec (opIns nv p i) (arith_of_fold hp.fold) hp.outer.flt rfl hw).1⟩

/-! ## Runs -/

/-- At every rewritten instruction a run comes to, the result of the inner operation, if there is one, is
what that gives of the registers as they are. -/
def Fresh (E : Env W) (fn : Func) (s₀ : St W) : Prop :=
  ∀ pc s i p, Reaches (step fn.prog E) (some (0, s₀)) (some (pc, s)) → fn.ins[pc]? = some i →
    plan fn i = some p → (s.temps p.t).isSome → Gives E s p.inner p.t

lemma fresh_of_writtenFirst (hform : Form fn) (hwf : WrittenFirst fn) {s0 : St W} (hs0 : Entry fn s0)
    (hx : ∀ i ∈ fn.ins, ∀ p, plan fn i = some p → 0 ≤ p.x ∧ (computeDefs fn).cnt p.x = 1) : Fresh E fn s0 := by
  intro pc s i p hreach hi hplan _
  have hp := plan_spec hplan
  obtain ⟨n, hn, hmem, hsole⟩ := soleAt_of_soleDef_at hp.range.2 hp.sole
  have hw := hform.width_of_outer (mem_of_getElem? hi) hp
  obtain ⟨hcore, -, hops⟩ := hp.inner.spec (hp.w ▸ hw)
  have hdefs := tempDefs_core hcore
  have hdst : p.inner.dst = p.t := (eq_dst_of_core hcore hmem).symm
  have hread : p.t ∈ valueOpnds i := by
    rw [(hp.outer.spec hw).2.2]
    rcases hp.outer.sides with ⟨h, -⟩ | ⟨-, h, -⟩ <;> simp [h]
  have hconst {v : ℤ} {c : BitVec 64} (hv : v < fn.nvregs) (h : getConst fn v = some c) : Once fn v := by
    obtain ⟨j, hj, -⟩ := Option.bind_eq_some_iff.1 h
    obtain ⟨m, -, -, hm⟩ := soleAt_of_soleDef_at hv hj
    exact hm.once
  have honce : ∀ x ∈ valueOpnds p.inner, Once fn x := by
    obtain ⟨h0, hcnt⟩ := hx i (mem_of_getElem? hi) p hplan
    have hlt := hform.reads _ (mem_of_getElem? hn)
    rw [hops] at hlt ⊢
    simp only [mem_cons, not_mem_nil, or_false, forall_eq_or_imp, forall_eq] at hlt ⊢
    rcases hp.inner.sides with ⟨ha, hb⟩ | ⟨-, hb, ha⟩
    · exact ⟨ha ▸ once_of_cnt h0 (ha ▸ hlt.1) hcnt, hconst hlt.2 hb⟩
    · exact ⟨hconst hlt.1 ha, hb ▸ once_of_cnt h0 (hb ▸ hlt.2) hcnt⟩
  obtain ⟨-, -, hheld⟩ := held_reaches hwf hs0 _ hreach pc s rfl
  have := hheld n p.inner hn (steady_core hcore) hdefs (hdst ▸ hp.range.1) (hdst ▸ hsole) honce (hdst ▸ hwf pc i hi _ hread)
  rwa [hdst] at this

/-- Where the inner operations are fresh the pass changes no value that is read: every point of a run
is a point of the run of the new function where every register of the function, the memory and the
rest are the same. The two runs show the same, but for their integer operations. -/
theorem passReassoc_preserves (hform : Form fn) (hplain : Plain fn) (E : Env W) {s₀ : St W}
    (hs₀ : Entry fn s₀) (hfresh : Fresh E fn s₀) :
    (∀ pc s, Reaches (step fn.prog E) (some (0, s₀)) (some (pc, s)) →
      ∃ s', Reaches (step (passReassoc fn).prog E) (some (0, s₀))
          (some (Chunks.offset (pieces fn) pc, s')) ∧ SameBelow fn.nvregs s s') ∧
    Refines Event.Wild (viewed Event.outer (step fn.prog E)) (some (0, s₀))
      (viewed Event.outer (step (passReassoc fn).prog E)) (some (0, s₀)) := by
  refine pieces_preserve (pieces_form hform) fun pc s i is hreach hi his => ?_
  have hconst : ConstInv fn s :=
    reaches_invariant (hs₀.constInv hform.params) (fun _ hs hi h => constInv_step hform.writes hs hi h) _ hreach pc s rfl
  refine (piece_cases hi his).imp_right ?_
  rintro ⟨p, nv, hplan, hnv, rfl⟩
  exact restates_piece hform hplain (mem_of_getElem? hi) hplan hconst (hfresh pc s i p hreach hi hplan) hnv

end

/-- `(x + 1) + 2` where `x` is written again before the second sum. -/
def stale : Func where
  ins := [{ op := .const, dst := 0, w := 4, imm := 5 }, { op := .const, dst := 1, w := 4, imm := 1 },
    { op := .add, dst := 2, a := 0, b := 1, w := 4 }, { op := .const, dst := 0, w := 4, imm := 10 },
    { op := .const, dst := 3, w := 4, imm := 2 }, { op := .add, dst := 4, a := 2, b := 3, w := 4 },
    { op := .ret, a := 4 }]
  nvregs := 5

/-- The sum is 8, after the pass 13. -/
theorem passReassoc_stale : Form stale ∧ WrittenFirst stale ∧ Entry stale St.blank ∧
      (run (step stale.prog Env.bare) 7 (some (0, St.blank))).getLast? = some (.ret (some 8)) ∧
      (run (step (passReassoc stale).prog Env.bare) 8 (some (0, St.blank))).getLast? =
        some (.ret (some 13)) :=
  ⟨⟨by decide, by decide, by decide, by decide⟩, writtenFirst_of_straight (by decide) (by decide),
    blank_entry _, by decide +kernel, by decide +kernel⟩

/-- `(x + 1) + 2` with `x` a copy of 5. -/
def twice : Func where
  ins := [{ op := .const, dst := 0, w := 4, imm := 5 }, { op := .mov, dst := 1, a := 0, w := 4 },
    { op := .const, dst := 2, w := 4, imm := 1 }, { op := .add, dst := 3, a := 1, b := 2, w := 4 },
    { op := .const, dst := 4, w := 4, imm := 2 }, { op := .add, dst := 5, a := 3, b := 4, w := 4 },
    { op := .ret, a := 5 }]
  nvregs := 6

lemma twice_form : Form twice := ⟨by decide, by decide, by decide, by decide⟩

lemma twice_plain : Plain twice := by
  refine ⟨by decide, fun i hi p _ hop => ?_⟩
  simp only [twice, mem_cons, not_mem_nil, or_false] at hi
  rcases hi with rfl | rfl | rfl | rfl | rfl | rfl | rfl <;> simp at hop

lemma twice_written : WrittenFirst twice := writtenFirst_of_straight (by decide) (by decide)

lemma twice_fresh : Fresh Env.bare twice St.blank := by
  refine fresh_of_writtenFirst twice_form twice_written (blank_entry _) ?_
  decide +kernel

/-- The sum becomes `x + 3`. -/
theorem passReassoc_preserves_twice : ((passReassoc twice).ins.map fun i => (i.op, i.a, i.imm)) =
      [(.const, -1, 5), (.mov, 0, 0), (.const, -1, 1), (.add, 1, 0), (.const, -1, 2), (.const, -1, 3),
        (.add, 1, 0), (.ret, 5, 0)] ∧
    (∀ pc s, Reaches (step twice.prog Env.bare) (some (0, St.blank)) (some (pc, s)) →
      ∃ s', Reaches (step (passReassoc twice).prog Env.bare) (some (0, St.blank))
          (some (Chunks.offset (pieces twice) pc, s')) ∧ SameBelow twice.nvregs s s') ∧
    Refines Event.Wild (viewed Event.outer (step twice.prog Env.bare)) (some (0, St.blank))
      (viewed Event.outer (step (passReassoc twice).prog Env.bare)) (some (0, St.blank)) :=
  ⟨by decide +kernel, passReassoc_preserves twice_form twice_plain Env.bare (blank_entry _) twice_fresh⟩

end EmbCC.Opt.Reassoc
