import EmbCC.Ir.Memory
import EmbCC.Opt.Flow

/-!
# Alias analysis

`alias.c`: can two memory references be the same bytes? The object an address
is based on is found by walking back through its arithmetic (`memBase`), and
so is the base value it is a constant away from (`memAccess`).
`accOverlap_sound` says what the answer "no" is worth: the bytes are different
when each access touches the object its address is based on and each base is
the value its address was computed from.
-/

namespace EmbCC.Opt

open Int Ir

/-! ## The analysis -/

/-- The instruction that `d` remembers for a register. -/
def Defs.insOf (d : Defs) (fn : Func) (v : ℤ) : Option Ins :=
  if d.ins v < 0 then none else fn.ins[(d.ins v).toNat]?

/-- Is the left operand of an addition one that `mem_base` goes into? -/
def leadsOn (fn : Func) (d : Defs) (v : ℤ) : Bool :=
  decide (0 ≤ v ∧ v < fn.nvregs ∧ d.cnt v = 1) &&
    match d.insOf fn v with
    | some i => i.op == .gaddr || i.op == .addr || i.op == .mov || i.op == .add
    | none => false

/-- `mem_base`'s walk. The source calls itself on a left operand without a bound; `fuel` is one
that only a cycle of definitions exceeds. -/
def memBaseGo (fn : Func) (d : Defs) : ℕ → ℕ → ℤ → Option Obj
  | 0, _, _ => none
  | _ + 1, 0, _ => none
  | fuel + 1, hop + 1, addr =>
    if addr < 0 ∨ addr ≥ fn.nvregs ∨ d.cnt addr ≠ 1 then none
    else match d.insOf fn addr with
      | none => none
      | some i =>
        match i.op with
        | .gaddr => some (.global i.sym)
        | .addr => some (.slot i.a)
        | .mov => memBaseGo fn d fuel hop i.a
        | .add | .sub =>
          match if leadsOn fn d i.a then memBaseGo fn d fuel 8 i.a else none with
          | some r => some r
          | none =>
            -- offset - base is not a base
            if i.op = .sub ∨ i.immB then none else memBaseGo fn d fuel hop i.b
        | _ => none

/-- `mem_base`: `none` for `MEM_UNKNOWN`. -/
def memBase (fn : Func) (d : Defs) (addr : ℤ) : Option Obj := memBaseGo fn d (fn.nvregs + 1) 8 addr

def slotsTaken (fn : Func) (v : ℤ) : Bool :=
  fn.ins.any fun i => i.op == .addr && i.a == v && decide (0 ≤ i.a ∧ i.a < fn.nvars)

def mayAlias (a b : Option Obj) (taken : ℤ → Bool) (nvars : ℕ) : Bool :=
  match a, b with
  | some (.global g), some (.global h) => g == h
  | some (.slot v), some (.slot u) => v == u
  | some (.global _), some (.slot _) | some (.slot _), some (.global _) => false
  | none, some (.slot v) | some (.slot v), none => !decide (0 ≤ v ∧ v < nvars ∧ ¬ taken v)
  | _, _ => true

def addrMask (ptrw : ℕ) : BitVec 64 :=
  if 8 * ptrw = 0 ∨ 8 * ptrw ≥ 64 then BitVec.allOnes 64 else (1#64 <<< (8 * ptrw)) - 1#64

def oneValue (fn : Func) (d : Defs) (v : ℤ) : Bool :=
  decide (0 ≤ v ∧ v < fn.nvregs ∧ d.cnt v = 1 ∧ (v < fn.nparams ∨ v ≥ fn.nvars))

def addrConst (fn : Func) (d : Defs) (v : ℤ) (w : ℕ) : Option (BitVec 64) :=
  if oneValue fn d v then
    match d.insOf fn v with
    | some c => if c.op ≠ .const ∨ c.flt ∨ c.w ≠ w then none else some c.imm
    | none => none
  else none

/-- The base value of an access: a register, or the address of an object. -/
inductive Base
  | vreg (v : ℤ)
  | obj (r : Obj)
deriving DecidableEq, Repr

/-- `struct maccess`. -/
structure MAccess where
  obj : Option Obj
  base : Option Base
  off : BitVec 64
  size : ℕ

/-- One step of `mem_access`'s walk, from the definition of an address: what it adds to what. -/
def baseStep (fn : Func) (d : Defs) (ptrw : ℕ) (i : Ins) : Option (ℤ × BitVec 64) :=
  if i.op = .mov then some (i.a, 0)
  else if (i.op = .add ∨ i.op = .sub) ∧ ¬ i.flt ∧ i.w = ptrw then
    let other :=
      if i.immB then some (i.a, i.imm)
      else match addrConst fn d i.b i.w with
        | some c => some (i.a, c)
        | none =>
          if i.op = .add then (addrConst fn d i.a i.w).map (i.b, ·) else none
    other.map fun p => (p.1, if i.op = .sub then -p.2 else p.2)
  else none

/-- `mem_access`'s walk to the base. -/
def baseWalk (fn : Func) (d : Defs) (ptrw : ℕ) : ℕ → ℤ → BitVec 64 → Base × BitVec 64
  | 0, addr, off => (.vreg addr, off)
  | hop + 1, addr, off =>
    match d.insOf fn addr with
    | none => (.vreg addr, off)
    | some i =>
      if i.op = .gaddr then (.obj (.global i.sym), off)
      else if i.op = .addr then (.obj (.slot i.a), off)
      else match baseStep fn d ptrw i with
        | none => (.vreg addr, off)
        | some (next, c) =>
          if oneValue fn d next then baseWalk fn d ptrw hop next (off + c) else (.vreg addr, off)

def memAccess (fn : Func) (d : Defs) (ptrw : ℕ) (addr : ℤ) (size : ℕ) : MAccess :=
  if oneValue fn d addr then
    let b := baseWalk fn d ptrw 16 addr 0
    ⟨memBase fn d addr, some b.1, b.2 &&& addrMask ptrw, size⟩
  else ⟨memBase fn d addr, none, 0, size⟩

def slotAccess (v : ℤ) : MAccess := ⟨some (.slot v), none, 0, 0⟩

def objAccess (fn : Func) (d : Defs) (addr : ℤ) : MAccess := ⟨memBase fn d addr, none, 0, 0⟩

def sameBase (a b : MAccess) : Bool :=
  decide (a.base ≠ none ∧ a.base = b.base ∧ 0 < a.size ∧ 0 < b.size)

def accOverlap (ptrw : ℕ) (a b : MAccess) (taken : ℤ → Bool) (nvars : ℕ) : Bool :=
  if sameBase a b then
    decide (((b.off - a.off) &&& addrMask ptrw).toNat < a.size) ||
      decide (((a.off - b.off) &&& addrMask ptrw).toNat < b.size)
  else mayAlias a.obj b.obj taken nvars

/-- The flag `exact` of `addr_mask`. -/
def addrExact (ptrw : ℕ) : Bool :=
  if 8 * ptrw = 0 ∨ 8 * ptrw ≥ 64 then 8 * ptrw == 64 else true

def accCovers (ptrw : ℕ) (later early : MAccess) : Bool :=
  if ¬ sameBase later early then false
  else if ¬ addrExact ptrw then false
  else
    let d := ((early.off - later.off) &&& addrMask ptrw).toNat
    decide (d < later.size ∧ later.size - d ≥ early.size)

variable {fn : Func} {ptrw : ℕ} {d : Defs} {v : ℤ}

lemma oneValue_iff : oneValue fn d v ↔ 0 ≤ v ∧ v < fn.nvregs ∧ d.cnt v = 1 ∧ (v < fn.nparams ∨ v ≥ fn.nvars) := by
  simp [oneValue]

lemma addrConst_eq_some {w : ℕ} {c : BitVec 64} : addrConst fn d v w = some c ↔ oneValue fn d v ∧ ∃ k, d.insOf fn v = some k
    ∧ k.op = .const ∧ k.flt = false ∧ k.w = w ∧ k.imm = c := by
  unfold addrConst
  split
  · rename_i h
    cases hk : d.insOf fn v with
    | none => simp
    | some k =>
      dsimp only
      split
      · rename_i hc
        simp only [reduceCtorEq, h, true_and, false_iff]
        rintro ⟨k', hk', hop, hflt, hw, -⟩
        cases hk'
        simp [hop, hflt, hw] at hc
      · rename_i hc
        push Not at hc
        simp [h, hc]
  · rename_i h
    simp [h]

lemma insOf_eq_soleDef (h0 : 0 ≤ v) (hcnt : (computeDefs fn).cnt v = 1) : (computeDefs fn).insOf fn v = soleDef fn v := by
  simp only [Defs.insOf, soleDef]
  split
  · rename_i hneg
    rw [if_pos (.inr (.inr hneg))]
  · rw [if_neg (by omega)]

/-! ## Addresses modulo the width -/

/-- The modulus of `addr_mask`. -/
def addrMod (ptrw : ℕ) : ℕ := 2 ^ min (8 * ptrw) 64

lemma addrMod_of_exact (h : addrExact ptrw) : addrMod ptrw = 2 ^ (8 * ptrw) ∧ 0 < ptrw := by
  unfold addrExact at h
  unfold addrMod
  split at h
  · have h64 : 8 * ptrw = 64 := by simpa using h
    rw [h64]
    exact ⟨rfl, by omega⟩
  · rw [min_eq_left (by omega)]
    exact ⟨rfl, by omega⟩

lemma addrMod_dvd (ptrw : ℕ) : addrMod ptrw ∣ 2 ^ (8 * ptrw) := pow_dvd_pow 2 (min_le_left _ _)

lemma toNat_and_addrMask (h : 0 < ptrw) (x : BitVec 64) : (x &&& addrMask ptrw).toNat = x.toNat % addrMod ptrw := by
  unfold addrMask addrMod
  split
  · rw [BitVec.and_allOnes, min_eq_right (by omega), Nat.mod_eq_of_lt x.isLt]
  · rename_i hlt
    have hmask : ((1#64 <<< (8 * ptrw)) - 1#64).toNat = 2 ^ (8 * ptrw) - 1 := by
      rw [BitVec.toNat_sub, BitVec.toNat_shiftLeft, Nat.shiftLeft_eq]
      have hpow : 2 ^ (8 * ptrw) < 2 ^ 64 := Nat.pow_lt_pow_right (by omega) (by omega)
      have hpos : 0 < 2 ^ (8 * ptrw) := by positivity
      simp only [BitVec.toNat_ofNat]
      omega
    rw [BitVec.toNat_and, hmask, Nat.and_two_pow_sub_one_eq_mod, min_eq_left (by omega)]

lemma addrMod_dvd_long (ptrw : ℕ) : (addrMod ptrw : ℤ) ∣ 2 ^ 64 := by
  exact_mod_cast pow_dvd_pow 2 (min_le_right (8 * ptrw) 64)

lemma toNat_add_modEq (ptrw : ℕ) (a b : BitVec 64) : ((a + b).toNat : ℤ) ≡ a.toNat + b.toNat [ZMOD addrMod ptrw] := by
  rw [BitVec.toNat_add]
  push_cast
  exact (mod_modEq _ _).of_dvd (addrMod_dvd_long ptrw)

lemma toNat_sub_and_addrMask (h : 0 < ptrw) (a b : BitVec 64) :
    (((a - b) &&& addrMask ptrw).toNat : ℤ) = ((a.toNat : ℤ) - b.toNat) % addrMod ptrw := by
  have hdvd := addrMod_dvd_long ptrw
  rw [toNat_and_addrMask h, natCast_mod, BitVec.toNat_sub, natCast_mod, emod_emod_of_dvd _ (by exact_mod_cast hdvd)]
  refine Int.ModEq.symm ((modEq_iff_dvd).2 ?_)
  have : ((2 ^ 64 - b.toNat + a.toNat : ℕ) : ℤ) - ((a.toNat : ℤ) - b.toNat) = 2 ^ 64 := by omega
  rw [this]
  exact hdvd

/-! ## Accesses as sets of bytes -/

section
variable {W : Type} {E : Env W} {ptrw : ℕ}

/-- The value of a base. -/
def Base.val (M : Memory ptrw E) (s : St W) : Base → Option Val
  | .vreg v => s.temps v
  | .obj r => some (M.addr r)

/-- The bytes `B` are those at the access's offset from its base. -/
def Ranged (M : Memory ptrw E) (s : St W) (m : MAccess) (B : Set ℕ) : Prop :=
  ∀ b, m.base = some b → 0 < m.size → ∃ u v : Val, b.val M s = some v ∧
    B = bytesAt ptrw u m.size ∧ (u.toNat : ℤ) ≡ v.toNat + m.off.toNat [ZMOD addrMod ptrw]

/-- The access touches the bytes `B`: they are in its object, or in none that no pointer reaches,
and they are those from its base. -/
structure Describes (M : Memory ptrw E) (s : St W) (taken : ℤ → Bool) (nvars : ℕ) (m : MAccess)
    (B : Set ℕ) : Prop where
  known : ∀ r, m.obj = some r → B ⊆ M.bytes r
  unknown : m.obj = none → ∀ v : ℤ, 0 ≤ v → v < nvars → ¬ taken v →
    Disjoint B (M.bytes (.slot v))
  range : Ranged M s m B

variable {M : Memory ptrw E} {s : St W} {taken : ℤ → Bool} {nvars : ℕ} {m m' : MAccess}
  {B B' : Set ℕ}

lemma mayAlias_apart {o o' : Option Obj} (hk : ∀ r, o = some r → B ⊆ M.bytes r)
    (hu : o = none → ∀ v : ℤ, 0 ≤ v → v < nvars → ¬ taken v → Disjoint B (M.bytes (.slot v)))
    (hk' : ∀ r, o' = some r → B' ⊆ M.bytes r) (hu' : o' = none → ∀ v : ℤ, 0 ≤ v → v < nvars → ¬ taken v → Disjoint B'
    (M.bytes (.slot v))) (ha : mayAlias o o' taken nvars = false) : Disjoint B B' := by
  have hapart : ∀ r r', o = some r → o' = some r' → r ≠ r' → Disjoint B B' :=
    fun r r' hr hr' hne => (M.apart hne).mono (hk r hr) (hk' r' hr')
  unfold mayAlias at ha
  split at ha
  case h_1 g g' => exact hapart _ _ rfl rfl (by simpa using ha)
  case h_2 v v' => exact hapart _ _ rfl rfl (by simpa using ha)
  case h_3 => exact hapart _ _ rfl rfl (by simp)
  case h_4 => exact hapart _ _ rfl rfl (by simp)
  case h_5 v =>
    obtain ⟨h0, hv, ht⟩ : 0 ≤ v ∧ v < nvars ∧ taken v = false := by simpa using ha
    exact (hu rfl v h0 hv (by simp [ht])).mono_right (hk' _ rfl)
  case h_6 v =>
    obtain ⟨h0, hv, ht⟩ : 0 ≤ v ∧ v < nvars ∧ taken v = false := by simpa using ha
    exact ((hu' rfl v h0 hv (by simp [ht])).mono_right (hk _ rfl)).symm
  case h_7 => cases ha

variable {d : Defs} {D : ℤ → Prop} {t a : ℤ} {hop size : ℕ} {u : Val}

lemma bytesAt_disjoint {u' v : Val} {off off' : BitVec 64} {size' : ℕ} (hp : 0 < ptrw)
    (hu : (u.toNat : ℤ) ≡ v.toNat + off.toNat [ZMOD addrMod ptrw]) (hu' : (u'.toNat : ℤ) ≡ v.toNat + off'.toNat
    [ZMOD addrMod ptrw]) (hab : size ≤ ((off' - off) &&& addrMask ptrw).toNat)
    (hba : size' ≤ ((off - off') &&& addrMask ptrw).toNat) : Disjoint (bytesAt ptrw u size) (bytesAt ptrw u' size') := by
  rw [Set.disjoint_left]
  rintro x ⟨k, hk, rfl⟩ ⟨k', hk', heq⟩
  -- a common byte makes the offsets differ by less than a size
  have hmeet : off'.toNat - off.toNat ≡ k - k' [ZMOD addrMod ptrw] := by
    have hbyte : u.toNat + k ≡ u'.toNat + k' [ZMOD addrMod ptrw] := by
      have h2 : ((u.toNat + k : ℕ) : ℤ) ≡ ((u'.toNat + k' : ℕ) : ℤ) [ZMOD addrMod ptrw] :=
        (Int.natCast_modEq_iff.2 (show u.toNat + k ≡ u'.toNat + k' [MOD 2 ^ (8 * ptrw)] from heq)).of_dvd
          (by exact_mod_cast addrMod_dvd ptrw)
      exact_mod_cast h2
    have h3 := (hu.symm.add_right k).trans (hbyte.trans (hu'.add_right k'))
    have h4 := (h3.sub_right (v.toNat + off.toNat + k' : ℤ)).symm
    ring_nf at h4 ⊢
    convert h4 using 1
  rcases le_total k' k with hle | hle
  · have hd := toNat_sub_and_addrMask hp off' off
    rw [hmeet, ← Nat.cast_sub hle, ← natCast_mod] at hd
    have := Nat.mod_le (k - k') (addrMod ptrw)
    omega
  · have hd := toNat_sub_and_addrMask hp off off'
    have hneg : off.toNat - off'.toNat ≡ k' - k [ZMOD addrMod ptrw] := by simpa using hmeet.neg
    rw [hneg, ← Nat.cast_sub hle, ← natCast_mod] at hd
    have := Nat.mod_le (k' - k) (addrMod ptrw)
    omega

/-- What two accesses are described from has the same value. -/
def SameValue (M : Memory ptrw E) (s s' : St W) (m m' : MAccess) : Prop :=
  ∀ b, m.base = some b → m'.base = some b → b.val M s = b.val M s'

variable {s' : St W}

lemma sameBase_sound (h : Ranged M s m B) (h' : Ranged M s' m' B') (hv : SameValue M s s' m m') (hsame : sameBase m m') :
    ∃ u u' v : Val, B = bytesAt ptrw u m.size ∧ B' = bytesAt ptrw u' m'.size ∧ (u.toNat : ℤ) ≡ v.toNat + m.off.toNat
    [ZMOD addrMod ptrw] ∧ (u'.toNat : ℤ) ≡ v.toNat + m'.off.toNat [ZMOD addrMod ptrw] := by
  obtain ⟨hb, hbb, hsz, hsz'⟩ := of_decide_eq_true hsame
  obtain ⟨b, hb⟩ := Option.ne_none_iff_exists'.1 hb
  have hb' : m'.base = some b := hbb ▸ hb
  obtain ⟨u, v, hbv, rfl, hu⟩ := h b hb hsz
  obtain ⟨u', v', hbv', rfl, hu'⟩ := h' b hb' hsz'
  obtain rfl : v = v' := by
    rw [hv b hb hb', hbv'] at hbv
    exact (Option.some.inj hbv).symm
  exact ⟨u, u', v, rfl, rfl, hu, hu'⟩

lemma accOverlap_sameBase (hp : 0 < ptrw) (h : Ranged M s m B) (h' : Ranged M s' m' B') (hv : SameValue M s s' m m')
    (hsame : sameBase m m') (ha : accOverlap ptrw m m' taken nvars = false) : Disjoint B B' := by
  obtain ⟨u, u', v, rfl, rfl, hu, hu'⟩ := sameBase_sound h h' hv hsame
  rw [accOverlap, if_pos hsame] at ha
  simp only [Bool.or_eq_false_iff, decide_eq_false_iff_not, not_lt] at ha
  exact bytesAt_disjoint hp hu hu' ha.1 ha.2

lemma accOverlap_sound (hp : 0 < ptrw) (h : Describes M s taken nvars m B) (h' : Describes M s' taken nvars m' B')
    (hv : SameValue M s s' m m') (ha : accOverlap ptrw m m' taken nvars = false) : Disjoint B B' := by
  by_cases hsame : sameBase m m'
  · exact accOverlap_sameBase hp h.range h'.range hv hsame ha
  · rw [accOverlap, if_neg hsame] at ha
    exact mayAlias_apart h.known h.unknown h'.known h'.unknown ha

/-- An access that covers another contains its bytes. -/
lemma accCovers_sound (h : Ranged M s m B) (h' : Ranged M s' m' B')
    (hv : SameValue M s s' m m') (hc : accCovers ptrw m m') : B' ⊆ B := by
  unfold accCovers at hc
  split_ifs at hc with hsame hexact
  obtain ⟨u, u', v, rfl, rfl, hu, hu'⟩ := sameBase_sound h h' hv (by simpa using hsame)
  obtain ⟨hmod, hp⟩ := addrMod_of_exact (by simpa using hexact)
  obtain ⟨hlt, hle⟩ := of_decide_eq_true hc
  have hd := toNat_sub_and_addrMask hp m'.off m.off
  generalize ((m'.off - m.off) &&& addrMask ptrw).toNat = d at hd hle
  have hstart : u'.toNat ≡ u.toNat + d [ZMOD addrMod ptrw] := by
    have hdist : m'.off.toNat - m.off.toNat ≡ d [ZMOD addrMod ptrw] := by
      rw [hd]
      exact (mod_modEq _ _).symm
    have hsum := (hu.symm.add hdist).symm
    refine hu'.trans (Int.ModEq.trans ?_ hsum.symm)
    rw [show (v.toNat : ℤ) + m.off.toNat + (m'.off.toNat - m.off.toNat) = v.toNat + m'.off.toNat
      by ring]
  rintro x ⟨k, hk, rfl⟩
  refine ⟨d + k, by omega, ?_⟩
  have hbyte : u'.toNat + k ≡ u.toNat + (d + k) [MOD 2 ^ (8 * ptrw)] := by
    rw [← hmod]
    have := hstart.add_right k
    rw [add_assoc] at this
    exact_mod_cast this
  exact hbyte

/-! ## The object an address is based on -/

/-- Arithmetic derives the address in a register from that of an object. A difference of two
addresses counts as derived from the first. -/
inductive Based (fn : Func) : ℤ → Obj → Prop
  | gaddr {t : ℤ} {i : Ins} : soleDef fn t = some i → i.op = .gaddr → Based fn t (.global i.sym)
  | addr {t : ℤ} {i : Ins} : soleDef fn t = some i → i.op = .addr → Based fn t (.slot i.a)
  | mov {t : ℤ} {i : Ins} {r : Obj} : soleDef fn t = some i → i.op = .mov → Based fn i.a r →
      Based fn t r
  | left {t : ℤ} {i : Ins} {r : Obj} : soleDef fn t = some i → i.op = .add ∨ i.op = .sub →
      Based fn i.a r → Based fn t r
  | right {t : ℤ} {i : Ins} {r : Obj} : soleDef fn t = some i → i.op = .add → i.immB = false →
      Based fn i.b r → Based fn t r

/-- The code of `fn` with some of its computations turned into copies of the same computation. -/
def Copied (fn : Func) (ins : List Ins) : Prop :=
  ∀ (n : ℕ) (i' : Ins), ins[n]? = some i' → ∃ i, fn.ins[n]? = some i ∧ (i' = i ∨
    i'.op = .mov ∧ (isValue i.op ∨ isRead i.op) ∧
      ∀ j, soleDef fn i'.a = some j → meaning j = meaning i)

variable {fn : Func} {ins : List Ins}

lemma soleDef_of_insOf {i' : Ins} (hc : Copied fn ins) (h0 : 0 ≤ t) (hcnt : (computeDefs fn).cnt t = 1)
    (h : (computeDefs fn).insOf { fn with ins := ins } t = some i') :
    ∃ i, soleDef fn t = some i ∧ (i' = i ∨ i'.op = .mov ∧ (isValue i.op ∨ isRead i.op) ∧
      ∀ j, soleDef fn i'.a = some j → meaning j = meaning i) := by
  unfold Defs.insOf at h
  split at h
  · cases h
  · rename_i hneg
    obtain ⟨i, hi, hcase⟩ := hc _ _ h
    exact ⟨i, by simp only [soleDef]; rw [if_neg (by omega), hi], hcase⟩

lemma Based.of_meaning {x : ℤ} {i j : Ins} {r : Obj} (hi : soleDef fn t = some i) (hj : soleDef fn x = some j)
    (hm : meaning j = meaning i) (hv : isValue i.op ∨ isRead i.op) (h : Based fn x r) : Based fn t r := by
  have hop : j.op = i.op := by rw [← meaning_op j, hm, meaning_op]
  cases h with
  | gaddr hk hg =>
    obtain rfl := Option.mem_unique hj hk
    have hsym : j.sym = i.sym := by simpa [meaning, hg, ← hop] using congrArg Ins.sym hm
    exact hsym ▸ .gaddr hi (hop ▸ hg)
  | addr hk hg =>
    obtain rfl := Option.mem_unique hj hk
    have ha : j.a = i.a := by simpa [meaning, hg, ← hop] using congrArg Ins.a hm
    exact ha ▸ .addr hi (hop ▸ hg)
  | mov hk hg _ =>
    obtain rfl := Option.mem_unique hj hk
    simp [← hop, hg, isValue, isRead] at hv
  | left hk hg hb =>
    obtain rfl := Option.mem_unique hj hk
    have ha : j.a = i.a := by
      rcases hg with hg | hg <;> cases hjb : j.immB <;> cases hib : i.immB <;>
        simpa [meaning, hg, ← hop, hjb, hib] using congrArg Ins.a hm
    exact .left hi (hop ▸ hg) (ha ▸ hb)
  | right hk hg hjb hb =>
    obtain rfl := Option.mem_unique hj hk
    have hib : i.immB = false := by
      cases hib : i.immB
      · rfl
      · simpa [meaning, hg, ← hop, hjb, hib] using congrArg Ins.immB hm
    have hbb : j.b = i.b := by simpa [meaning, hg, ← hop, hjb, hib] using congrArg Ins.b hm
    exact .right hi (hop ▸ hg) hib (hbb ▸ hb)

/-- The object that `mem_base` finds is one the address is based on. -/
lemma memBaseGo_based (hc : Copied fn ins) {fuel : ℕ} {r : Obj}
    (h : memBaseGo { fn with ins := ins } (computeDefs fn) fuel hop t = some r) :
    Based fn t r := by
  induction fuel generalizing hop t with
  | zero => simp [memBaseGo] at h
  | succ fuel ih =>
    cases hop with
    | zero => simp [memBaseGo] at h
    | succ hop =>
      rw [memBaseGo] at h
      split at h
      · cases h
      · rename_i hr
        push Not at hr
        split at h
        · cases h
        · rename_i i' hi'
          obtain ⟨i, hi, hcase⟩ := soleDef_of_insOf hc hr.1 hr.2.2 hi'
          have horig : i'.op ≠ .mov → i' = i := fun hne => hcase.resolve_right fun h => hne h.1
          have hsum : i'.op = .add ∨ i'.op = .sub →
              (match if leadsOn { fn with ins := ins } (computeDefs fn) i'.a then
                  memBaseGo { fn with ins := ins } (computeDefs fn) fuel 8 i'.a else none with
                | some r => some r
                | none => if i'.op = .sub ∨ i'.immB then none else
                    memBaseGo { fn with ins := ins } (computeDefs fn) fuel hop i'.b) = some r →
              Based fn t r := by
            intro hg hs
            obtain rfl := horig (by rcases hg with hg | hg <;> simp [hg])
            split at hs
            · rename_i hleft
              split at hleft
              · cases hs
                exact .left hi hg (ih hleft)
              · cases hleft
            · split at hs
              · cases hs
              · rename_i hright
                push Not at hright
                exact .right hi (hg.resolve_right hright.1) (by simpa using hright.2) (ih hs)
          split at h
          case h_1 hg =>
            obtain rfl := horig (by simp [hg])
            exact Option.some.inj h ▸ .gaddr hi hg
          case h_2 hg =>
            obtain rfl := horig (by simp [hg])
            exact Option.some.inj h ▸ .addr hi hg
          case h_3 hg =>
            rcases hcase with rfl | ⟨-, hv, hm⟩
            · exact .mov hi hg (ih h)
            · have hx := ih h
              obtain ⟨j, hj⟩ : ∃ j, soleDef fn i'.a = some j := by cases hx <;> exact ⟨_, ‹_›⟩
              exact hx.of_meaning hi hj (hm j hj) hv
          case h_4 hg => exact hsum (.inl hg) h
          case h_5 hg => exact hsum (.inr hg) h
          case h_6 => cases h

/-! ## The walk to the base -/

/-- One register holds what the other does, and `c` more, at the address width. -/
def Shifted (ptrw : ℕ) (s : St W) (t x : ℤ) (c : BitVec 64) : Prop :=
  ∃ u v : Val, s.temps t = some u ∧ s.temps x = some v ∧
    (u.toNat : ℤ) ≡ v.toNat + c.toNat [ZMOD addrMod ptrw]

/-- A step of the walk keeps to the registers `D`, and goes `c` back. -/
abbrev Links (ptrw : ℕ) (s : St W) (fn : Func) (d : Defs) (D : ℤ → Prop) : Prop :=
  ∀ t i x c, D t → d.insOf fn t = some i → baseStep fn d ptrw i = some (x, c) → oneValue fn d x →
    D x ∧ Shifted ptrw s t x c

/-- A register of `D` set to an address holds it. -/
abbrev Objects (M : Memory ptrw E) (s : St W) (fn : Func) (d : Defs) (D : ℤ → Prop) : Prop :=
  ∀ t i u, D t → d.insOf fn t = some i → s.temps t = some u →
    (i.op = .gaddr → u = M.addr (.global i.sym)) ∧ (i.op = .addr → u = M.addr (.slot i.a))

/-- The base and the offset found are the address. -/
lemma baseWalk_sound {d : Defs} {D : ℤ → Prop} (hlink : Links ptrw s fn d D) (hobj : Objects M s fn d D) {hop : ℕ} {t : ℤ}
    {u : Val} {off : BitVec 64} (ht : D t) (hu : s.temps t = some u) : ∃ v, (baseWalk fn d ptrw hop t off).1.val M s = some v
    ∧ (u.toNat : ℤ) + off.toNat ≡ v.toNat + (baseWalk fn d ptrw hop t off).2.toNat [ZMOD addrMod ptrw] := by
  induction hop generalizing t u off with
  | zero => exact ⟨u, hu, rfl⟩
  | succ hop ih =>
    rw [baseWalk]
    split
    · exact ⟨u, hu, rfl⟩
    · rename_i i hi
      split
      · rename_i hg
        rw [(hobj t i u ht hi hu).1 hg]
        exact ⟨_, rfl, rfl⟩
      · split
        · rename_i hg
          rw [(hobj t i u ht hi hu).2 hg]
          exact ⟨_, rfl, rfl⟩
        · split
          · exact ⟨u, hu, rfl⟩
          · rename_i next c hstep
            split_ifs with hone
            · obtain ⟨hD, u', v, hu', hv, hc⟩ := hlink t i next c ht hi hstep hone
              obtain rfl := Option.mem_unique hu hu'
              obtain ⟨w, hw, hmod⟩ := @ih next v (off + c) hD hv
              refine ⟨w, hw, .trans ?_ hmod⟩
              calc u.toNat + off.toNat ≡ v.toNat + c.toNat + off.toNat [ZMOD addrMod ptrw] := hc.add_right _
                _ = v.toNat + (off.toNat + c.toNat) := by ring
                _ ≡ v.toNat + (off + c).toNat [ZMOD addrMod ptrw] :=
                  (toNat_add_modEq ptrw off c).symm.add_left _
            · exact ⟨u, hu, rfl⟩

lemma baseWalk_vreg (hlink : ∀ t i x c, D t → d.insOf fn t = some i → baseStep fn d ptrw i = some (x, c) → oneValue fn d x →
      D x) {b : ℤ} {off : BitVec 64} (ht : D t) (h : (baseWalk fn d ptrw hop t off).1 = .vreg b) : D b := by
  have hhere : ∀ t', D t' → Base.vreg t' = .vreg b → D b := fun t' ht' heq =>
    Base.vreg.inj heq ▸ ht'
  induction hop generalizing t off with
  | zero => exact hhere t ht h
  | succ hop ih =>
    rw [baseWalk] at h
    split at h
    · exact hhere t ht h
    · rename_i i hi
      split at h
      · cases h
      · split at h
        · cases h
        · split at h
          · exact hhere t ht h
          · rename_i next c hstep
            split_ifs at h with hone
            · exact ih (hlink t i next c ht hi hstep hone) h
            · exact hhere t ht h

lemma memAccess_base (hp : 0 < ptrw) (hlink : Links ptrw s fn d D) (hobj : Objects M s fn d D) (ha : oneValue fn d a → D a)
    (hu : s.temps a = some u) : ∀ b, (memAccess fn d ptrw a size).base = some b → ∃ v, b.val M s = some v
    ∧ (u.toNat : ℤ) ≡ v.toNat + (memAccess fn d ptrw a size).off.toNat [ZMOD addrMod ptrw] := by
  intro b hb
  unfold memAccess at hb ⊢
  split at hb
  · rename_i hone
    rw [if_pos hone]
    cases hb
    obtain ⟨v, hv, hmod⟩ := @baseWalk_sound _ _ _ M s fn d D hlink hobj 16 a u 0 (ha hone) hu
    refine ⟨v, hv, ?_⟩
    rw [toNat_and_addrMask hp, natCast_mod]
    exact hmod.trans ((mod_modEq _ _).symm.add_left _)
  · cases hb

lemma memAccess_size (d : Defs) (a : ℤ) (size : ℕ) : (memAccess fn d ptrw a size).size = size := by
  unfold memAccess
  split <;> rfl

lemma memAccess_obj (d : Defs) (a : ℤ) (size : ℕ) : (memAccess fn d ptrw a size).obj = memBase fn d a := by
  unfold memAccess
  split <;> rfl

lemma describes_slotAccess (v : ℤ) : Describes M s taken nvars (slotAccess v) (M.bytes (.slot v)) :=
  ⟨fun r hr => by obtain rfl := Option.some.inj hr; exact subset_rfl, fun h => (by cases h), fun b hb => (by cases hb)⟩

end
end EmbCC.Opt
