import EmbCC.Ir.Ints
import EmbCC.Ir.Memory
import EmbCC.Ir.Straight
import EmbCC.Opt.Defs

/-!
# Bits that are known to be zero

`known_zero` of `fold.c`: the bits of a register that are zero in every value it can take, found
by walking up its definitions a few levels. `knownZeroIns_sound` is one rule for each
operation. A register is not followed along a path: what is shown is that no instruction ever writes
a value with one of the bits set, so that loops and joins need no argument of their own
(`zeroInv_step`). Two kinds of instructions break it, a zero-extension to width 4 that keeps
four bytes or more and a constant that is not sign-extended from its width; without them
every bit that is reported is zero at every point of every run (`knownZero_sound`).
-/

namespace EmbCC.Opt.KnownZero

open Function List Nat BitVec Ir Trace

/-! ## The analysis -/

/-- The bits of a width. -/
def wideMask (w : ℕ) : BitVec 64 := if w = 8 then allOnes 64 else 0xffffffff

/-- The bits above a width. -/
def above (w : ℕ) : BitVec 64 := ~~~wideMask w

/-- The mask of the low `k` bits. -/
def lowMask (k : ℕ) : BitVec 64 := (1 : BitVec 64) <<< k - 1

/-- How many zeros a number ends in. -/
def trailingZeros (x : BitVec 64) : ℕ := ((List.range 64).find? fun k => x.getLsbD k).getD 0

/-- The second operand, where it is known: `kb` and `B`. -/
def constOpnd (fn : Func) (i : Ins) : Option (BitVec 64) := if i.immB then some i.imm else getConst fn i.b

/-- `known_zero_ins`; `kz` is `known_zero` of a register, one level up. -/
def knownZeroIns (fn : Func) (w : ℕ) (kz : ℤ → BitVec 64) (i : Ins) : BitVec 64 :=
  let wm := wideMask w
  let hi := above w
  if i.flt ∨ i.w = 16 ∨ (i.w ≠ w ∧ i.op ≠ .ext) then hi
  else
    match i.op, constOpnd fn i with
    | .const, _ => hi ||| (~~~i.imm &&& wm)
    | .mov, _ => hi ||| kz i.a
    | .shl, some B =>
      if B.toInt < 0 ∨ B.toInt ≥ 8 * w then hi
      else hi ||| (kz i.a <<< B.toNat &&& wm) ||| lowMask B.toNat
    | .shr, some B =>
      if B.toInt < 0 ∨ B.toInt ≥ 8 * w ∨ i.sign then hi
      else hi ||| ((kz i.a &&& wm) >>> B.toNat) ||| (~~~(wm >>> B.toNat) &&& wm)
    | .and, kb => hi ||| kz i.a ||| (match kb with | some B => ~~~(B &&& wm) &&& wm | none => kz i.b)
    | .or, kb | .xor, kb =>
      hi ||| (kz i.a &&& (match kb with | some B => ~~~(B &&& wm) &&& wm | none => kz i.b))
    | .mul, some B => if B &&& wm = 0 then hi else hi ||| lowMask (trailingZeros (B &&& wm))
    | .ext, _ | .load, _ =>
      if i.sign ∨ i.size = 0 ∨ i.size ≥ w then hi else hi ||| (~~~lowMask (8 * i.size) &&& wm)
    | _, _ => hi

/-- The definitions of a register that `defs_lists` has linked. -/
def defsList (fn : Func) (v : ℤ) : List Ins := fn.ins.filter fun i => defTarget i = v ∧ i.op ≠ .landing

section
variable (lists : Bool) (fn : Func) (w : ℕ)

/-- `known_zero`, with a bound on the calls that is never reached (`knownZeroFuel_succ`); `lists`
is whether `defs_lists` has been called. -/
def knownZeroFuel : ℕ → ℕ → ℤ → BitVec 64
  | 0, _, _ => above w
  | fuel + 1, depth, v =>
    if v < 0 ∨ v ≥ fn.nvregs ∨ depth > 4 then above w
    else if (computeDefs fn).cnt v > 1 then
      if !lists ∨ v < fn.nvars ∨ depth > 2 then above w
      else if (defsList fn v).length = (computeDefs fn).cnt v then
        (defsList fn v).foldl (fun kz i => kz &&& knownZeroIns fn w (knownZeroFuel fuel (depth + 2)) i)
          (allOnes 64) ||| above w
      else above w
    else
      match soleDef fn v with
      | some i => knownZeroIns fn w (knownZeroFuel fuel (depth + 1)) i
      | none => above w

def knownZero (depth : ℕ) (v : ℤ) : BitVec 64 := knownZeroFuel lists fn w 6 depth v

end

lemma knownZeroFuel_succ {lists : Bool} {fn : Func} {w fuel depth : ℕ} (h : 6 ≤ fuel + depth) :
    knownZeroFuel lists fn w (fuel + 1) depth = knownZeroFuel lists fn w fuel depth := by
  induction fuel generalizing depth with
  | zero =>
    funext v
    exact if_pos (.inr (.inr (by omega)))
  | succ fuel ih =>
    funext v
    rw [knownZeroFuel, knownZeroFuel, @ih (depth + 1) (by omega), @ih (depth + 2) (by omega)]

/-! ## Bits known to be zero -/

/-- The bits of `K` below the width are zero in `x`. -/
def Zeros (K : BitVec 64) (w : ℕ) (x : BitVec 64) : Prop :=
  ∀ j < 8 * w, K.getLsbD j = true → x.getLsbD j = false

section
variable {w j : ℕ} (hw : w = 4 ∨ w = 8) {K L x y : BitVec 64}
include hw

lemma getLsbD_wideMask (hj : j < 8 * w) : (wideMask w).getLsbD j = true := by
  rcases hw with rfl | rfl
  · revert j
    decide
  · revert j
    decide

lemma getLsbD_above (hj : j < 8 * w) : (above w).getLsbD j = false := by
  simp [above, getLsbD_wideMask hw hj]

lemma zeros_above : Zeros (above w) w x := by
  intro j hj h
  rw [getLsbD_above hw hj] at h
  cases h

lemma getLsbD_norm (hj : j < 8 * w) : (norm x w).getLsbD j = x.getLsbD j := by
  rcases hw with rfl | rfl
  · have : j < 32 := by omega
    rw [norm_four, getLsbD_signExtend, getLsbD_setWidth]
    simp [this]
    omega
  · rfl

lemma getLsbD_uOpnd (hj : j < 8 * w) : (uOpnd w x).getLsbD j = x.getLsbD j := by
  rcases hw with rfl | rfl
  · have : j < 32 := by omega
    simp [uOpnd, this]
    omega
  · rfl

omit hw in
lemma Zeros.or (h : Zeros K w x) (h' : Zeros L w x) : Zeros (K ||| L) w x := by
  intro j hj hb
  rw [getLsbD_or, Bool.or_eq_true] at hb
  exact hb.elim (h j hj) (h' j hj)

variable {A B R : BitVec 64} {sg : Bool} {pr : Pred}

lemma shift_count (h0 : 0 ≤ B.toInt) (h1 : B.toInt < 8 * w) :
    B.toNat < 8 * w ∧ (uOpnd w B).toNat % (if w = 8 then 64 else 32) = B.toNat := by
  have hB : B.toNat < 8 * w := by
    rw [toInt_eq_toNat_cond] at h0 h1
    split at h1 <;> omega
  refine ⟨hB, ?_⟩
  rcases hw with rfl | rfl
  · simp only [uOpnd, toNat_setWidth, if_neg (by decide : ¬ 4 = 8)]
    omega
  · simp only [uOpnd, if_true]
    omega

lemma zeros_shl (hA : Zeros K w A) (h0 : 0 ≤ B.toInt) (h1 : B.toInt < 8 * w) (hR : foldBin .shl A B w sg pr = some R) :
    Zeros (above w ||| (K <<< B.toNat &&& wideMask w) ||| lowMask B.toNat) w R := by
  obtain ⟨-, hsh⟩ := shift_count hw h0 h1
  rw [foldBin_shl, hsh] at hR
  cases hR
  intro j hj hK
  rw [getLsbD_norm hw hj, getLsbD_shiftLeft]
  by_cases hjB : j < B.toNat
  · simp [hjB]
  · have hj64 : j < 64 := by omega
    simp only [getLsbD_or, getLsbD_above hw hj, getLsbD_and, getLsbD_shiftLeft, getLsbD_wideMask hw hj, lowMask,
      getLsbD_lowMask (by omega : B.toNat < 64), hjB, hj64, decide_false, Bool.and_true, Bool.or_false] at hK ⊢
    rw [getLsbD_uOpnd hw (by omega)]
    exact hA _ (by omega) hK

lemma zeros_shr (hA : Zeros K w A) (h0 : 0 ≤ B.toInt) (h1 : B.toInt < 8 * w) (hR : foldBin .shr A B w false pr = some R) :
    Zeros (above w ||| ((K &&& wideMask w) >>> B.toNat) ||| (~~~(wideMask w >>> B.toNat) &&& wideMask w)) w R := by
  obtain ⟨-, hsh⟩ := shift_count hw h0 h1
  rw [foldBin_shru, hsh] at hR
  cases hR
  intro j hj hK
  rw [getLsbD_norm hw hj, getLsbD_ushiftRight]
  by_cases hjB : B.toNat + j < 8 * w
  · have hj64 : j < 64 := by omega
    simp only [getLsbD_or, getLsbD_above hw hj, getLsbD_and, getLsbD_not,
      getLsbD_ushiftRight, getLsbD_wideMask hw hj, getLsbD_wideMask hw hjB, Bool.not_true, Bool.and_true, Bool.and_false, Bool.or_false] at hK
    rw [getLsbD_uOpnd hw hjB]
    exact hA _ hjB hK
  · rcases hw with rfl | rfl
    · simp [uOpnd]
      omega
    · exact getLsbD_of_ge _ _ (by omega)

lemma zeros_and (hA : Zeros K w A) (hB : Zeros L w B) (hR : foldBin .and A B w sg pr = some R) :
    Zeros (above w ||| K ||| L) w R := by
  cases hR
  intro j hj hK
  simp only [getLsbD_or, getLsbD_above hw hj, Bool.false_or, Bool.or_eq_true] at hK
  rw [getLsbD_norm hw hj, getLsbD_and, getLsbD_uOpnd hw hj, getLsbD_uOpnd hw hj]
  rcases hK with hK | hK
  · rw [hA j hj hK, Bool.false_and]
  · rw [hB j hj hK, Bool.and_false]

lemma zeros_or (hA : Zeros K w A) (hB : Zeros L w B) (hR : foldBin .or A B w sg pr = some R
    ∨ foldBin .xor A B w sg pr = some R) : Zeros (above w ||| (K &&& L)) w R := by
  intro j hj hK
  simp only [getLsbD_or, getLsbD_above hw hj, Bool.false_or, getLsbD_and, Bool.and_eq_true] at hK
  have ha := hA j hj hK.1
  have hb := hB j hj hK.2
  rcases hR with hR | hR
  · cases hR
    rw [getLsbD_norm hw hj, getLsbD_or, getLsbD_uOpnd hw hj, getLsbD_uOpnd hw hj, ha, hb]
    rfl
  · cases hR
    rw [getLsbD_norm hw hj, getLsbD_xor, getLsbD_uOpnd hw hj, getLsbD_uOpnd hw hj, ha, hb]
    rfl

lemma zeros_not : Zeros (~~~(B &&& wideMask w) &&& wideMask w) w B := by
  intro j hj hK
  have hj64 : j < 64 := by omega
  rw [getLsbD_and, getLsbD_not, getLsbD_and, getLsbD_wideMask hw hj] at hK
  simpa [hj64] using hK

lemma uOpnd_eq : uOpnd w x = x &&& wideMask w := by
  rcases hw with rfl | rfl
  · apply eq_of_toNat_eq
    rw [toNat_and, show (wideMask 4).toNat = 2 ^ 32 - 1 from rfl, and_two_pow_sub_one_eq_mod, toNat_uOpnd, u32, toNat_setWidth]
  · exact and_allOnes.symm

omit hw in
lemma trailingZeros_spec (x : BitVec 64) : trailingZeros x < 64 ∧ ∀ k < trailingZeros x, x.getLsbD k = false := by
  unfold trailingZeros
  cases h : (range 64).find? fun k => x.getLsbD k with
  | none => exact ⟨by decide, fun k hk => absurd hk (not_lt_zero k)⟩
  | some m =>
    rw [find?_range_eq_some] at h
    exact ⟨mem_range.1 h.2.1, fun k hk => by simpa using h.2.2 k hk⟩

lemma zeros_mul (hR : foldBin .mul A B w sg pr = some R) :
    Zeros (above w ||| lowMask (trailingZeros (B &&& wideMask w))) w R := by
  rw [foldBin_mul, uOpnd_eq hw, uOpnd_eq hw] at hR
  cases hR
  obtain ⟨ht, hzero⟩ := trailingZeros_spec (B &&& wideMask w)
  generalize B &&& wideMask w = b at ht hzero
  generalize trailingZeros b = t at ht hzero
  have hdvd : 2 ^ t ∣ b.toNat := by
    refine dvd_of_mod_eq_zero (eq_of_testBit_eq fun k => ?_)
    rw [testBit_mod_two_pow, zero_testBit]
    by_cases hk : k < t
    · rw [show b.toNat.testBit k = false from hzero k hk, Bool.and_false]
    · simp [hk]
  have hprod : 2 ^ t ∣ ((A &&& wideMask w) * b).toNat := by
    rw [toNat_mul, dvd_mod_iff (pow_dvd_pow 2 ht.le)]
    exact Dvd.dvd.mul_left hdvd _
  intro j hj hK
  have hjt : j < t := by
    rw [getLsbD_or, getLsbD_above hw hj, Bool.false_or, lowMask, getLsbD_lowMask ht] at hK
    simpa using hK
  rw [getLsbD_norm hw hj, getLsbD]
  obtain ⟨c, hc⟩ := hprod
  rw [hc, testBit_two_pow_mul]
  simp [show ¬ t ≤ j by omega]

lemma zeros_ext {size : ℕ} (hsize : size < w) {v : ℕ} (hv : v = 8 ∨ (v = 4 ∧ size < 4)) :
    Zeros (above w ||| (~~~lowMask (8 * size) &&& wideMask w)) w (foldExt A size false v) := by
  have hbits : 8 * size < 64 := by omega
  have hform : foldExt A size false v = norm (A &&& lowMask (8 * size)) v := by
    simp only [foldExt, Bool.false_eq_true, false_and, if_false]
    rw [if_neg (by omega), Nat.mul_comm]
    rfl
  intro j hj hK
  have hjs : 8 * size ≤ j := by
    have hj64 : j < 64 := by omega
    simp only [getLsbD_or, getLsbD_above hw hj, getLsbD_and, getLsbD_not, lowMask, getLsbD_lowMask hbits, hj64] at hK
    simpa [getLsbD_wideMask hw hj] using hK
  have hlow k (hk : 8 * size ≤ k) : (A &&& lowMask (8 * size)).getLsbD k = false := by
    rw [getLsbD_and, lowMask, getLsbD_lowMask hbits]
    simp [show ¬ k < 8 * size by omega]
  rw [hform]
  rcases hv with rfl | ⟨rfl, hs4⟩
  · exact hlow j hjs
  · have hmsb : ((A &&& lowMask (8 * size)).setWidth 32).msb = false := by
      rw [msb_eq_getLsbD_last, getLsbD_setWidth, hlow _ (by omega), Bool.and_false]
    rw [norm_four, getLsbD_signExtend, hmsb, getLsbD_setWidth, hlow j hjs]
    simp

end

/-! ## One instruction -/

/-- What the walk relies on: a zero-extension to width 4 keeps less than four bytes, and a constant is
sign-extended from its width. -/
structure ZeroOk (fn : Func) : Prop where
  ext : ∀ i ∈ fn.ins, i.op = .ext → i.flt = false → i.sign = false →
    i.w = 8 ∨ i.w = 16 ∨ (i.w = 4 ∧ i.size < 4)
  const : ∀ i ∈ fn.ins, i.op = .const → i.flt = false → norm i.imm i.w = i.imm

/-- A load without a sign extends what it reads with zeros, to its width. -/
def LoadsExtend {W : Type} (E : Env W) : Prop :=
  ∀ {i : Ins} {vs rs : List Val} {world world' : W}, i.op = .load → i.flt = false → i.sign = false →
    E.sem i vs world = .ok rs world' → ∀ r ∈ rs, ∀ j, 8 * i.size ≤ j → j < 8 * i.w →
      (toLong r).getLsbD j = false

section
variable {W : Type} {E : Env W} {fn : Func} {s : St W} {i : Ins} {vs rs : List Val} {world : W}

/-- The second operand of an instruction is `Bv`. -/
def OpndIs (s : St W) (i : Ins) (Bv : BitVec 64) : Prop :=
  if i.immB then Bv = i.imm else ∃ xb, s.temps i.b = some xb ∧ Bv = toLong xb

lemma bin_effect (hcore : isCore i) (hbin : isBin i.op) (hops : valueOpnds i = if i.immB then [i.a] else [i.a, i.b])
    (hvs : (valueOpnds i).mapM s.temps = some vs) (he : effect E i vs s.world = .ok rs world) : ∃ xa Bv R,
    s.temps i.a = some xa ∧ OpndIs s i Bv ∧ foldBin i.op (toLong xa) Bv i.w i.sign i.pred = some R ∧ rs = [ofLong R] := by
  simp only [effect, (isControl_core hcore).2, hcore, if_true, if_false] at he
  have hres {r : Option (BitVec 64)} (hr : evalCore i vs = r.map ofLong) : ∃ R, r = some R ∧ rs = [ofLong R] := by
    rw [hr] at he
    cases r with
    | none => cases he
    | some R =>
      simp only [Option.map_some, Effect.ok.injEq] at he
      exact ⟨R, rfl, he.1.symm⟩
  rw [hops] at hvs
  cases hb : i.immB with
  | true =>
    rw [hb, if_pos rfl] at hvs
    obtain ⟨xa, ha, rfl⟩ := mapM_temps_one hvs
    obtain ⟨R, hR, hrs⟩ := hres (evalCore_imm hbin xa)
    exact ⟨xa, i.imm, R, ha, by simp [OpndIs, hb], hR, hrs⟩
  | false =>
    rw [hb, if_neg (by decide)] at hvs
    obtain ⟨xa, xb, ha, hxb, rfl⟩ := mapM_temps_two hvs
    obtain ⟨R, hR, hrs⟩ := hres (evalCore_bin hbin xa xb [])
    exact ⟨xa, toLong xb, R, ha, by simp [OpndIs, hb, hxb], hR, hrs⟩

lemma constOpnd_eq (hok : ZeroOk fn) (hc : ConstInv fn s) {B Bv : BitVec 64}
    (h : constOpnd fn i = some B) (hv : OpndIs s i Bv) : Bv = B := by
  unfold constOpnd at h
  unfold OpndIs at hv
  split_ifs at h with hb
  · rw [if_pos hb] at hv
    rw [hv, Option.some.inj h]
  · rw [if_neg hb] at hv
    obtain ⟨xb, hxb, rfl⟩ := hv
    obtain ⟨d, hd, hdc⟩ := Option.bind_eq_some_iff.1 h
    split at hdc
    · rename_i hop
      cases hdc
      obtain ⟨n, hn, -⟩ := soleDef_spec hd
      rcases hc i.b d hd hop.1 with hnone | hsome
      · rw [hnone] at hxb
        cases hxb
      · rw [hsome] at hxb
        cases hxb
        rw [toLong_ofLong, hok.const d (mem_of_getElem? hn) hop.1 hop.2]
    · cases hdc

section
variable {w : ℕ} (hw : w = 4 ∨ w = 8) {kz : ℤ → BitVec 64}

include hw in
/-- A second operand, through its constant if it has one. -/
lemma zeros_opnd {Bv : BitVec 64} (hB : ∀ B, constOpnd fn i = some B → Bv = B)
    (hB' : constOpnd fn i = none → Zeros (kz i.b) w Bv) : Zeros (match constOpnd fn i with
      | some B => ~~~(B &&& wideMask w) &&& wideMask w
      | none => kz i.b) w Bv := by
  cases hkb : constOpnd fn i with
  | none => exact hB' hkb
  | some B => exact hB B hkb ▸ zeros_not hw

variable {r : Val} (he : effect E i vs s.world = .ok rs world) (hr : r ∈ rs)
include hw he hr

lemma zeros_of_const (hop : i.op = .const) (hiw : i.w = w) :
    Zeros (above w ||| (~~~i.imm &&& wideMask w)) w (toLong r) := by
  rw [effect_const E hop] at he
  simp only [Effect.ok.injEq] at he
  rw [← he.1, mem_singleton] at hr
  refine (zeros_above hw).or ?_
  rw [hr, toLong_ofLong, hiw]
  intro j hj hK
  have hj64 : j < 64 := by omega
  rw [getLsbD_and, getLsbD_not, getLsbD_wideMask hw hj] at hK
  rw [getLsbD_norm hw hj]
  simpa [hj64] using hK

lemma zeros_of_load (hE : LoadsExtend E) (hop : i.op = .load) (hflt : i.flt = false) (hiw : i.w = w)
    (hsign : i.sign = false) (hsize : i.size < w) :
    Zeros (above w ||| (~~~lowMask (8 * i.size) &&& wideMask w)) w (toLong r) := by
  have hsem : E.sem i vs s.world = .ok rs world := by simpa [effect, isCore, hop] using he
  intro j hj hK
  refine hE hop hflt hsign hsem r hr j ?_ (hiw.symm ▸ hj)
  have hj64 : j < 64 := by omega
  have hbits : 8 * i.size < 64 := by omega
  simp only [getLsbD_or, getLsbD_above hw hj, Bool.false_or, getLsbD_and,
    getLsbD_not, lowMask, getLsbD_lowMask hbits, hj64] at hK
  simpa [getLsbD_wideMask hw hj] using hK

variable (hvs : (valueOpnds i).mapM s.temps = some vs)
include hvs

lemma zeros_of_ext (hok : ZeroOk fn) (hi : i ∈ fn.ins) (hop : i.op = .ext) (hflt : i.flt = false) (hw16 : i.w ≠ 16)
    (hsign : i.sign = false) (hsize : i.size < w) :
    Zeros (above w ||| (~~~lowMask (8 * i.size) &&& wideMask w)) w (toLong r) := by
  have hv : i.w = 8 ∨ (i.w = 4 ∧ i.size < 4) := by
    rcases hok.ext i hi hop hflt hsign with h | h | h
    · exact .inl h
    · exact absurd h hw16
    · exact .inr h
  have hops : valueOpnds i = [i.a] := by simp [valueOpnds, eachRead, hop]
  rw [hops] at hvs
  obtain ⟨xa, ha, rfl⟩ := mapM_temps_one hvs
  have hcore : isCore i = true := by rcases hv with h | ⟨h, -⟩ <;> simp [isCore, hop, hflt, h]
  simp only [effect, hcore, evalCore, hop, reduceCtorEq, if_false, if_true, Effect.ok.injEq] at he
  rw [← he.1, mem_singleton] at hr
  rw [hr, toLong_ofLong, hsign]
  exact zeros_ext hw hsize hv

variable (hkz : ∀ v x, s.temps v = some x → Zeros (kz v) w (toLong x))
include hkz

lemma zeros_of_mov (hop : i.op = .mov) : Zeros (above w ||| kz i.a) w (toLong r) := by
  have hops : valueOpnds i = [i.a] := by simp [valueOpnds, eachRead, hop]
  rw [hops] at hvs
  obtain ⟨xa, ha, rfl⟩ := mapM_temps_one hvs
  simp only [effect, isCore, evalCore, hop, reduceCtorEq, if_false, if_true, Effect.ok.injEq] at he
  rw [← he.1, mem_singleton] at hr
  exact hr ▸ (zeros_above hw).or (hkz _ _ ha)

/-- The operands of a binary operation, with what is known of each. -/
lemma opnds_of_bin (hok : ZeroOk fn) (hc : ConstInv fn s) (hflt : i.flt = false) (hiw : i.w = w)
    (hop : i.op = .shl ∨ i.op = .shr ∨ i.op = .and ∨ i.op = .or ∨ i.op = .xor ∨ i.op = .mul) :
    ∃ xa Bv R, Zeros (kz i.a) w (toLong xa) ∧ (∀ B, constOpnd fn i = some B → Bv = B) ∧
      (constOpnd fn i = none → Zeros (kz i.b) w Bv) ∧
      foldBin i.op (toLong xa) Bv w i.sign i.pred = some R ∧ toLong r = R := by
  obtain ⟨hcore, hbin, hops⟩ : isCore i = true ∧ isBin i.op = true ∧
      valueOpnds i = if i.immB then [i.a] else [i.a, i.b] := by
    rcases hop with hop | hop | hop | hop | hop | hop <;> rcases hw with hw | hw <;>
      simp [isCore, isBin, valueOpnds, eachRead, hop, hiw, hw, hflt]
  obtain ⟨xa, Bv, R, ha, hB, hR, rfl⟩ := bin_effect hcore hbin hops hvs he
  refine ⟨xa, Bv, R, hkz _ _ ha, fun B hb => constOpnd_eq hok hc hb hB, fun hb => ?_, hiw ▸ hR, ?_⟩
  · unfold constOpnd at hb
    unfold OpndIs at hB
    split at hb
    · cases hb
    · rename_i himm
      rw [if_neg himm] at hB
      obtain ⟨xb, hxb, rfl⟩ := hB
      exact hkz _ _ hxb
  · rw [mem_singleton.1 hr, toLong_ofLong]

end

/-- The bits known of an instruction are zero in its result. -/
lemma knownZeroIns_sound (hok : ZeroOk fn) (hE : LoadsExtend E) (hc : ConstInv fn s) {w : ℕ} (hw : w = 4 ∨ w = 8)
    {kz : ℤ → BitVec 64} (hkz : ∀ v x, s.temps v = some x → Zeros (kz v) w (toLong x)) (hi : i ∈ fn.ins)
    (hvs : (valueOpnds i).mapM s.temps = some vs) (he : effect E i vs s.world = .ok rs world) :
    ∀ r ∈ rs, Zeros (knownZeroIns fn w kz i) w (toLong r) := by
  intro r hr
  simp only [knownZeroIns]
  split
  · exact zeros_above hw
  · rename_i hguard
    push Not at hguard
    obtain ⟨hflt, hw16, hwidth⟩ := hguard
    have hflt : i.flt = false := by simpa using hflt
    have hiw (hne : i.op ≠ .ext) : i.w = w := by
      by_contra hn
      exact hne (hwidth hn)
    have hbin (hne : i.op ≠ .ext) := opnds_of_bin hw he hr hvs hkz hok hc hflt (hiw hne)
    split
    case h_1 hop => exact zeros_of_const hw he hr hop (hiw (by simp [hop]))
    case h_2 hop => exact zeros_of_mov hw he hr hvs hkz hop
    case h_3 B hop hkb =>
      obtain ⟨xa, Bv, R, hA, hB, -, hR, hr⟩ := hbin (by simp [hop]) (.inl hop)
      split
      · exact zeros_above hw
      · rename_i hrange
        rw [hr]
        rw [hop, hB B hkb] at hR
        exact zeros_shl hw hA (by omega) (by omega) hR
    case h_4 B hop hkb =>
      obtain ⟨xa, Bv, R, hA, hB, -, hR, hr⟩ := hbin (by simp [hop]) (.inr (.inl hop))
      split
      · exact zeros_above hw
      · rename_i hrange
        push Not at hrange
        rw [hr]
        rw [hop, hB B hkb, show i.sign = false by simpa using hrange.2.2] at hR
        exact zeros_shr hw hA (by omega) (by omega) hR
    case h_5 hop =>
      obtain ⟨xa, Bv, R, hA, hB, hB', hR, hr⟩ := hbin (by simp [hop]) (.inr (.inr (.inl hop)))
      rw [hr]
      exact zeros_and hw hA (zeros_opnd hw hB hB') (hop ▸ hR)
    case h_6 hop =>
      obtain ⟨xa, Bv, R, hA, hB, hB', hR, hr⟩ := hbin (by simp [hop]) (.inr (.inr (.inr (.inl hop))))
      rw [hr]
      exact zeros_or hw hA (zeros_opnd hw hB hB') (.inl (hop ▸ hR))
    case h_7 hop =>
      obtain ⟨xa, Bv, R, hA, hB, hB', hR, hr⟩ := hbin (by simp [hop]) (.inr (.inr (.inr (.inr (.inl hop)))))
      rw [hr]
      exact zeros_or hw hA (zeros_opnd hw hB hB') (.inr (hop ▸ hR))
    case h_8 B hop hkb =>
      obtain ⟨xa, Bv, R, hA, hB, -, hR, hr⟩ := hbin (by simp [hop]) (.inr (.inr (.inr (.inr (.inr hop)))))
      split
      · exact zeros_above hw
      · rw [hr]
        rw [hop, hB B hkb] at hR
        exact zeros_mul hw hR
    case h_9 hop =>
      split
      · exact zeros_above hw
      · rename_i hrange
        push Not at hrange
        exact zeros_of_ext hw he hr hvs hok hi hop hflt hw16 (by simpa using hrange.1) hrange.2.2
    case h_10 hop =>
      split
      · exact zeros_above hw
      · rename_i hrange
        push Not at hrange
        exact zeros_of_load hw he hr hE hop hflt (hiw (by simp [hop])) (by simpa using hrange.1) hrange.2.2
    case h_11 => exact zeros_above hw

end

lemma countP_eq_sum {α : Type} {p : α → Bool} {c : α → ℕ} (hpc : ∀ a, p a → 1 ≤ c a) (l : List α) :
    l.countP p ≤ (l.map c).sum ∧ ((l.map c).sum ≤ l.countP p → ∀ a ∈ l, 0 < c a → p a) := by
  induction l with
  | nil => exact ⟨le_rfl, fun _ a ha => by cases ha⟩
  | cons a l ih =>
    obtain ⟨hle, hall⟩ := ih
    rw [map_cons, sum_cons, countP_cons]
    have ha : (if p a then 1 else 0) ≤ c a := by
      split
      · exact hpc a ‹_›
      · exact zero_le _
    refine ⟨by omega, fun hsum b hb hc => ?_⟩
    rcases mem_cons.1 hb with rfl | hb
    · by_contra hp
      rw [if_neg hp] at hsum
      omega
    · exact hall (by omega) b hb hc

lemma cnt_eq (fn : Func) (v : ℤ) : (computeDefs fn).cnt v = (if 0 ≤ v ∧ v < fn.nparams ∧ v < fn.nvregs then 1 else 0) +
      (fn.ins.map fun i => (countedDefs fn i).count v).sum := by
  rw [computeDefs, foldl_note_cnt, ← countP_eq_length_filter, defSites, countP_flatMap]
  congr 2
  rw [← zipIdx_map_fst 0 fn.ins, map_map, zipIdx_map_fst]
  refine map_congr_left fun p _ => ?_
  rw [comp_apply, comp_apply, List.countP_map, List.count]
  rfl

section
variable {W : Type} {E : Env W} {fn : Func} {s : St W} {i : Ins} {rs : List Val} {world : W}
variable {lists : Bool} {vs : List Val} {w fuel depth : ℕ} {v : ℤ} {x : BitVec 64}

lemma mem_defsList (h0 : 0 ≤ v) (hv : v < fn.nvregs) (hlen : (defsList fn v).length = (computeDefs fn).cnt v) :
    ¬ v < fn.nparams ∧ ∀ i ∈ fn.ins, v ∈ tempDefs i → i ∈ defsList fn v := by
  rw [cnt_eq, defsList, ← countP_eq_length_filter] at hlen
  obtain ⟨hle, hall⟩ := countP_eq_sum (p := fun i => decide (defTarget i = v ∧ i.op ≠ .landing))
    (c := fun i => (countedDefs fn i).count v) (fun i hi => by
      obtain ⟨ht, hl⟩ := of_decide_eq_true hi
      simp [countedDefs, hl, ht, not_lt.2 h0]) fn.ins
  refine ⟨fun hp => ?_, fun i hi hdef => mem_filter.2 ⟨hi, hall (by omega) i hi ?_⟩⟩
  · rw [if_pos ⟨h0, hp, hv⟩] at hlen
    omega
  · exact count_pos_iff.2 (mem_countedDefs h0 hv hdef)

/-! ## Runs -/

/-- Every register has the zeros that are found for it. -/
def ZeroInv (lists : Bool) (fn : Func) (s : St W) : Prop :=
  ∀ w, (w = 4 ∨ w = 8) → ∀ fuel depth v x, s.temps v = some x →
    Zeros (knownZeroFuel lists fn w fuel depth v) w (toLong x)

lemma getLsbD_foldl_and {f : Ins → BitVec 64} {l : List Ins} {K : BitVec 64} {j : ℕ}
    (h : (l.foldl (fun kz i => kz &&& f i) K).getLsbD j = true) : K.getLsbD j = true ∧ ∀ i ∈ l, (f i).getLsbD j = true := by
  induction l generalizing K with
  | nil => exact ⟨h, fun i hi => by cases hi⟩
  | cons a l ih =>
    obtain ⟨hK, hl⟩ := ih h
    rw [getLsbD_and, Bool.and_eq_true] at hK
    exact ⟨hK.1, forall_mem_cons.2 ⟨hK.2, hl⟩⟩

lemma setTemps_mem {ds : List ℤ} {temps : ℤ → Option Val} {t : ℤ} {x : Val}
    (h : setTemps temps ds vs t = some x) : x ∈ vs ∨ temps t = some x := by
  induction ds generalizing temps vs with
  | nil => exact .inr (by simpa only [setTemps] using h)
  | cons d ds ih =>
    cases vs with
    | nil => exact .inr h
    | cons v vs =>
      rcases ih h with hx | hx
      · exact .inl (.tail _ hx)
      · rw [setTemp] at hx
        split at hx
        · exact .inr hx
        · by_cases ht : t = d
          · rw [ht, update_self] at hx
            exact .inl (Option.some.inj hx ▸ .head _)
          · rw [update_of_ne ht] at hx
            exact .inr hx

/-- The bits known of a register are those all its definitions have. -/
lemma knownZeroFuel_zeros (hw : w = 4 ∨ w = 8) (h : v < fn.nparams ∨ ∃ i ∈ fn.ins, v ∈ tempDefs i ∧
      ∀ depth, Zeros (knownZeroIns fn w (knownZeroFuel lists fn w (fuel - 1) depth) i) w x) :
    Zeros (knownZeroFuel lists fn w fuel depth v) w x := by
  cases fuel with
  | zero => exact zeros_above hw
  | succ fuel =>
    rw [knownZeroFuel]
    split
    · exact zeros_above hw
    rename_i hrange
    push Not at hrange
    split
    · split
      · exact zeros_above hw
      split_ifs with hlen
      · obtain ⟨hp, hall⟩ := mem_defsList hrange.1 hrange.2.1 hlen
        obtain ⟨i, hi, hv, h⟩ := h.resolve_left hp
        refine Zeros.or (fun j hj hK => ?_) (zeros_above hw)
        exact h _ j hj ((getLsbD_foldl_and hK).2 i (hall i hi hv))
      · exact zeros_above hw
    · split
      · rename_i d hd
        obtain ⟨n, hn, -, -, hp, huniq⟩ := soleDef_spec hd
        obtain ⟨i, hi, hv, h⟩ := h.resolve_left (not_lt.2 (hp hrange.2.1))
        obtain ⟨m, hm⟩ := getElem?_of_mem hi
        obtain rfl := huniq m i hm (mem_countedDefs hrange.1 hrange.2.1 hv)
        obtain rfl := Option.mem_unique hn hm
        exact h _
      · exact zeros_above hw

lemma zeroInv_entry (h : Entry fn s) : ZeroInv lists fn s := by
  intro w hw fuel depth v x hx
  refine knownZeroFuel_zeros hw (.inl (not_le.1 fun hv => ?_))
  rw [h.temps v hv] at hx
  cases hx

section
variable (hok : ZeroOk fn) (hE : LoadsExtend E) (hc : ConstInv fn s) (hs : ZeroInv lists fn s)
include hok hE hc hs

lemma zeroInv_after (hi : i ∈ fn.ins) (hvs : (valueOpnds i).mapM s.temps = some vs)
    (he : effect E i vs s.world = .ok rs world) : ZeroInv lists fn (s.after i rs world) := by
  intro w hw fuel depth v x hx
  by_cases hv : v ∈ tempDefs i
  · rcases setTemps_mem hx with hr | hold
    · exact knownZeroFuel_zeros hw (.inr ⟨i, hi, hv, fun depth =>
        knownZeroIns_sound hok hE hc hw (fun u y hy => hs w hw _ depth u y hy) hi hvs he x hr⟩)
    · exact hs w hw fuel depth v x hold
  · rw [after_temps_of_not_mem hv] at hx
    exact hs w hw fuel depth v x hx

lemma zeroInv_step {pc pc' : ℕ} {s' : St W} {o : Option Event} (hi : fn.ins[pc]? = some i)
    (h : step fn.prog E (some (pc, s)) = some (o, some (pc', s'))) : ZeroInv lists fn s' := by
  rcases step_cases (prog_code hi) h with ⟨-, rfl, -⟩ | ⟨-, ⟨vs, rs, world, hvs, he, -, -, rfl⟩ | ⟨world, rfl, -⟩⟩
  · exact hs
  · exact zeroInv_after hok hE hc hs (mem_of_getElem? hi) hvs he
  · exact hs

end

/-- Every bit that is reported is zero in every value the register has at any point of any run. -/
theorem knownZero_sound (E : Env W) (fn : Func) (s₀ : St W) (hok : ZeroOk fn) (hE : LoadsExtend E)
    (hparams : fn.nparams ≤ fn.nvregs) (hregs : ∀ i ∈ fn.ins, ∀ t ∈ tempDefs i, t < fn.nvregs)
    (hs : Entry fn s₀) {pc : ℕ} {s : St W}
    (hreach : Reaches (step fn.prog E) (some (0, s₀)) (some (pc, s))) (lists : Bool) {w : ℕ}
    (hw : w = 4 ∨ w = 8) (depth : ℕ) (v : ℤ) (x : Val) (hx : s.temps v = some x) :
    ∀ j < 8 * w, (knownZero lists fn w depth v).getLsbD j = true → (toLong x).getLsbD j = false := by
  have hinv : ∀ c, Reaches (step fn.prog E) (some (0, s₀)) c → ∀ pc s, c = some (pc, s) → ConstInv fn s ∧ ZeroInv lists fn s :=
    reaches_invariant ⟨hs.constInv hparams, zeroInv_entry hs⟩ fun _ hinv hi h =>
        ⟨constInv_step hregs hinv.1 hi h, zeroInv_step hok hE hinv.1 hinv.2 hi h⟩
  exact (hinv _ hreach pc s rfl).2 w hw 6 depth v x hx

end

/-- A register that a loop writes on one path and not on the other. -/
def joined : Func where
  ins := [{ op := .ext, dst := 1, a := 0, w := 4, size := 1 }, { op := .label, label := 0 },
    { op := .brz, a := 0, w := 4, label := 1 }, { op := .const, dst := 1, w := 4, imm := 0x7e },
    { op := .jmp, label := 0 }, { op := .label, label := 1 }, { op := .ret, a := 1 }]
  nvregs := 2
  nparams := 1
  nvars := 1

def joinedEntry : St Unit := { St.blank with temps := Function.update (fun _ => none) 0 (some 0x1ff) }

lemma bare_loadsExtend : LoadsExtend Env.bare := by
  intro i vs rs world world' _ _ _ h
  cases h

/-- Its value is a byte around the loop: after the constant, and so wherever the run goes on from there. -/
theorem knownZero_sound_joined :
    ∃ s x, Reaches (step joined.prog Env.bare) (some (0, joinedEntry)) (some (4, s)) ∧
      s.temps 1 = some x ∧ ∀ j < 32, 8 ≤ j → (toLong x).getLsbD j = false := by
  have hreach : Reaches (step joined.prog Env.bare) (some (0, joinedEntry)) _ :=
    .of_after 4 rfl
  have hentry : Entry joined joinedEntry := by
    refine ⟨fun t ht => ?_, rfl⟩
    have ht0 : t ≠ 0 := by
      rintro rfl
      exact absurd ht (by decide)
    show update (fun _ => none) 0 _ t = none
    rw [update_of_ne ht0]
  have hall : ∀ j < 32, 8 ≤ j → (knownZero true joined 4 0 1).getLsbD j = true := by decide +kernel
  exact ⟨_, 0x7e, hreach, rfl, fun j hj h8 =>
    knownZero_sound Env.bare joined joinedEntry ⟨by decide, by decide⟩ bare_loadsExtend (by decide)
      (by decide) hentry hreach true (.inl rfl) 0 1 _ rfl j hj (hall j hj h8)⟩

/-- A word that is extended to a word. -/
def wordOfWord : Func where
  ins := [{ op := .const, dst := 0, w := 4, imm := -1 },
    { op := .ext, dst := 1, a := 0, w := 4, size := 4 }, { op := .ret, a := 1 }]
  nvregs := 2
  nparams := 0
  nvars := 0

/-- A mask that is not sign-extended from its width. -/
def wideConst : Func where
  ins := [{ op := .const, dst := 0, w := 8, imm := -1 }, { op := .const, dst := 1, w := 4, imm := 0xffffffff },
    { op := .and, dst := 2, a := 0, b := 1, w := 8 }, { op := .ret, a := 2 }]
  nvregs := 3
  nparams := 0
  nvars := 0

/-- Bit 32 of both results is reported as zero at width 8 and is one: by the rule for the extension in the
one function, by the rule for the mask in the other. -/
theorem knownZero_reports_one :
    (∃ s x, Reaches (step wordOfWord.prog Env.bare) (some (0, St.blank)) (some (2, s)) ∧
      s.temps 1 = some x ∧ (knownZero false wordOfWord 8 0 1).getLsbD 32 = true ∧
      (toLong x).getLsbD 32 = true) ∧
    ∃ s x, Reaches (step wideConst.prog Env.bare) (some (0, St.blank)) (some (3, s)) ∧
      s.temps 2 = some x ∧ (knownZero false wideConst 8 0 2).getLsbD 32 = true ∧
      (toLong x).getLsbD 32 = true :=
  ⟨⟨_, _, .of_after 2 rfl, rfl, by decide +kernel, by decide +kernel⟩,
    _, _, .of_after 3 rfl, rfl, by decide +kernel, by decide +kernel⟩

end EmbCC.Opt.KnownZero
