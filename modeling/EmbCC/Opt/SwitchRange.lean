import EmbCC.Opt.KnownZero

/-!
# Switches that need no bounds check

`pass_switchrange` marks a switch when every definition of its index, followed through copies and
selects, is a constant inside the table. The walk takes a register it is on the way to for
granted; when it ends, the registers it has marked are closed under their definitions (`srIn_spec`),
so that nothing but a constant in the interval ever comes into any of them, cycles
included. An index `st - k` is asked for with the constants of `st`, and `k` is read from the
instruction of its register: where that is not what the register holds, a switch is marked
whose index is outside. Otherwise the index of a marked switch is in the table whenever the switch is
executed (`passSwitchrange_index`).
-/

namespace EmbCC.Opt.SwitchRange

open Option Ir Trace
open KnownZero (defsList constOpnd OpndIs)

/-! ## The pass -/

/-- `struct sr_walk`: the registers marked for this question and the definitions it may still read. -/
structure Walk where
  mark : List ℤ
  budget : ℕ

section
variable (fn : Func) (lo hi : BitVec 64)

end

/-- The register whose constants are asked for, and the least of them that is in the table: for an
index `st - lo` it is `st`. -/
def asked (fn : Func) (i : Ins) : ℤ × BitVec 64 :=
  if i.a < fn.nvregs then
    match soleDef fn i.a with
    | some x =>
      if (x.op = .sub ∨ x.op = .add) ∧ x.flt = false ∧ x.w = i.w then
        match constOpnd fn x with
        | some k => (x.a, if x.op = .sub then k else -k)
        | none => (i.a, 0)
      else (i.a, 0)
    | none => (i.a, 0)
  else (i.a, 0)

/-- The index is `x.a - k` or `x.a + k`, with `k` as it is read from the code. -/
structure Offset (fn : Func) (i x : Ins) (k : BitVec 64) : Prop where
  lt : i.a < fn.nvregs
  sole : soleDef fn i.a = some x
  op : x.op = .sub ∨ x.op = .add
  flt : x.flt = false
  w : x.w = i.w
  const : constOpnd fn x = some k

lemma asked_cases (fn : Func) (i : Ins) : asked fn i = (i.a, 0) ∧ (∀ x k, ¬ Offset fn i x k) ∨
      ∃ x k, Offset fn i x k ∧ asked fn i = (x.a, if x.op = .sub then k else -k) := by
  unfold asked
  split_ifs with hlt
  · cases hsole : soleDef fn i.a with
    | none => exact .inl ⟨rfl, fun x k h => by simpa [hsole] using h.sole⟩
    | some x =>
      dsimp only
      by_cases hform : (x.op = .sub ∨ x.op = .add) ∧ x.flt = false ∧ x.w = i.w
      · rw [if_pos hform]
        cases hk : constOpnd fn x with
        | none =>
          refine .inl ⟨rfl, fun y k h => ?_⟩
          obtain rfl : x = y := mem_unique hsole h.sole
          exact absurd (hk.symm.trans h.const) (by simp)
        | some k => exact .inr ⟨x, k, ⟨hlt, hsole, hform.1, hform.2.1, hform.2.2, hk⟩, rfl⟩
      · rw [if_neg hform]
        refine .inl ⟨rfl, fun y k h => hform ?_⟩
        obtain rfl : x = y := mem_unique hsole h.sole
        exact ⟨h.op, h.flt, h.w⟩
  · exact .inl ⟨rfl, fun x k h => hlt h.lt⟩

section
variable {fn : Func} {lo hi : BitVec 64} {sr : ℤ → Walk → Option Walk} {i : Ins} {is : List Ins}
  {s s' : Walk}

/-- A definition that puts a constant of the interval or the value of a marked register. -/
def Fits (lo hi : BitVec 64) (mark : List ℤ) (i : Ins) : Prop :=
  (i.op = .const ∧ lo.toInt ≤ (norm i.imm i.w).toInt ∧ (norm i.imm i.w).toInt ≤ hi.toInt) ∨
  (i.op = .mov ∧ i.a ∈ mark) ∨ (i.op = .select ∧ i.flt = false ∧ i.b ∈ mark ∧ i.c ∈ mark)

lemma Fits.mono {mark mark' : List ℤ} (hsub : mark ⊆ mark') (h : Fits lo hi mark i) : Fits lo hi mark' i := by
  rcases h with h | ⟨hop, ha⟩ | ⟨hop, hflt, hb, hc⟩
  · exact .inl h
  · exact .inr (.inl ⟨hop, hsub ha⟩)
  · exact .inr (.inr ⟨hop, hflt, hsub hb, hsub hc⟩)

/-- A register that is not given from outside and whose definitions all fit. -/
structure Closed (fn : Func) (lo hi : BitVec 64) (mark : List ℤ) (v : ℤ) : Prop where
  param : fn.nparams ≤ v
  defs : ∀ i ∈ fn.ins, v ∈ tempDefs i → Fits lo hi mark i

/-- The walk marks registers, and is done with those it has marked when it returns. -/
structure Grown (fn : Func) (lo hi : BitVec 64) (s s' : Walk) : Prop where
  sub : s.mark ⊆ s'.mark
  closed : ∀ v ∈ s'.mark, v ∈ s.mark ∨ Closed fn lo hi s'.mark v

lemma Grown.refl (s : Walk) : Grown fn lo hi s s := ⟨fun _ h => h, fun _ h => .inl h⟩

lemma Grown.trans {t : Walk} (h : Grown fn lo hi s t) (h' : Grown fn lo hi t s') : Grown fn lo hi s s' := by
  refine ⟨fun _ hv => h'.sub (h.sub hv), fun v hv => ?_⟩
  rcases h'.closed v hv with hv | hv
  · rcases h.closed v hv with hv | ⟨hp, hd⟩
    · exact .inl hv
    · exact .inr ⟨hp, fun i hi hvi => (hd i hi hvi).mono h'.sub⟩
  · exact .inr hv

section
variable (hsr : ∀ v s s', sr v s = some s' → Grown fn lo hi s s' ∧ v ∈ s'.mark)
include hsr

end

end

section
variable {w cnt : ℕ} {lo A B R : BitVec 64} {op : Op}

lemma sub_lt (hcnt : cnt < 2 ^ 31) (h1 : lo.toInt ≤ A.toInt)
    (h2 : A.toInt ≤ (lo + BitVec.ofNat 64 cnt - 1).toInt) (hpos : 0 < cnt) : (A - lo).toNat < cnt := by
  have hhi : (lo + BitVec.ofNat 64 cnt - 1).toNat = (lo.toNat + cnt + (2 ^ 64 - 1)) % 2 ^ 64 := by
    rw [BitVec.toNat_sub, BitVec.toNat_add, BitVec.toNat_ofNat, show (1 : BitVec 64).toNat = 1 from rfl]
    omega
  rw [BitVec.toInt_eq_toNat_cond, BitVec.toInt_eq_toNat_cond] at h1 h2
  rw [BitVec.toNat_sub]
  split_ifs at h1 h2 <;> omega

variable {k : BitVec 64} {sg : Bool} {pr : Pred}

lemma index_eq (hop : op = .sub ∧ lo = k ∨ op = .add ∧ lo = -k) (hB : uOpnd w B = uOpnd w k)
    (hR : foldBin op A B w sg pr = some R) : uOpnd w R = uOpnd w (A - lo) := by
  rcases hop with ⟨rfl, rfl⟩ | ⟨rfl, rfl⟩
  · rw [foldBin_sub, hB, cuts_sub.opnds] at hR
    rw [← some.inj hR, uOpnd_norm]
  · rw [foldBin_add, hB, cuts_add.opnds] at hR
    rw [← some.inj hR, uOpnd_norm, sub_neg_eq_add]

lemma toNat_uOpnd_le (hw : w = 4 ∨ w = 8) (x : BitVec 64) : (uOpnd w x).toNat ≤ x.toNat := by
  rw [toNat_uOpnd_mod hw]
  exact Nat.mod_le _ _

/-- The index is in the table exactly if the constant is seen at its width. -/
lemma index_lt_iff (hw : w = 4 ∨ w = 8) (hop : op = .sub ∧ lo = k ∨ op = .add ∧ lo = -k)
    (hcut : B.setWidth 32 = k.setWidth 32) (hR : foldBin op A B w sg pr = some R) (hcnt : cnt < 2 ^ 31)
    (hlt : (A - lo).toNat < cnt) : (uOpnd w R).toNat < cnt ↔ uOpnd w B = uOpnd w k := by
  constructor
  · intro hidx
    refine uOpnd_eq_of_cut (fun h8 => ?_) fun _ => hcut
    subst h8
    have hlow : R.setWidth 32 = (A - lo).setWidth 32 := by
      rcases hop with ⟨rfl, rfl⟩ | ⟨rfl, rfl⟩
      · cases hR
        exact (cuts_sub A B).trans (by rw [hcut]; exact (cuts_sub A lo).symm)
      · cases hR
        rw [sub_neg_eq_add]
        exact (cuts_add A B).trans (by rw [hcut]; exact (cuts_add A k).symm)
    have hnat := congrArg BitVec.toNat hlow
    simp only [BitVec.toNat_setWidth] at hnat
    have hRA : R = A - lo := by
      apply BitVec.eq_of_toNat_eq
      have hR' : R.toNat < cnt := hidx
      omega
    rcases hop with ⟨rfl, rfl⟩ | ⟨rfl, rfl⟩
    · have heq : A - B = A - lo := (some.inj hR).trans hRA
      exact sub_right_injective heq
    · have heq : A + B = A - -k := (some.inj hR).trans hRA
      rw [sub_neg_eq_add] at heq
      exact add_right_injective A heq
  · intro hB
    rw [index_eq hop hB hR]
    exact (toNat_uOpnd_le hw _).trans_lt hlt

lemma index_eq_uOpnd (hw : w = 4 ∨ w = 8) (v : Val) : v.toNat % 2 ^ (8 * w) = (uOpnd w (toLong v)).toNat := by
  rw [toNat_uOpnd_mod hw, toLong, BitVec.toNat_setWidth]
  rcases hw with rfl | rfl <;> omega

end

/-! ## The index at its width -/

/-- What `verify.c` and `ir.h` say of registers, switches and tables. -/
structure Form (fn : Func) : Prop where
  params : fn.nparams ≤ fn.nvregs
  writes : ∀ i ∈ fn.ins, ∀ t ∈ tempDefs i, t < fn.nvregs
  width : ∀ i ∈ fn.ins, i.op = .switch → i.w = 4 ∨ i.w = 8
  table : ∀ i ∈ fn.ins, i.op = .switch → 0 < (fn.table i).length ∧ (fn.table i).length < 2 ^ 31

/-- A select gives one of its arms. -/
def Selects {W : Type} (E : Env W) : Prop :=
  ∀ {i : Ins} {a b c : Val} {rs : List Val} {world world' : W}, i.op = .select → i.flt = false →
    E.sem i [a, b, c] world = .ok rs world' → rs = [b] ∨ rs = [c]

/-- The same function with marks of its own. -/
structure Remarked (fn g : Func) : Prop where
  nparams : g.nparams = fn.nparams
  ins : ∀ (n : ℕ) (j : Ins), g.ins[n]? = some j → ∃ i, fn.ins[n]? = some i ∧
    (j = i ∨ j.op = .switch ∧ i.op = .switch)

section
variable {W : Type} {E : Env W} {fn g : Func} {s s' : St W} {i : Ins} {lo hi k : BitVec 64}

lemma Remarked.refl (fn : Func) : Remarked fn fn := ⟨rfl, fun _ j hj => ⟨j, hj, .inl rfl⟩⟩

variable {n pc pc' : ℕ} {x j : Ins} {mark : List ℤ} {vs rs : List Val} {o : Option Event} {world : W}

/-- The marked registers hold values of the interval. -/
def Within (lo hi : BitVec 64) (mark : List ℤ) (s : St W) : Prop :=
  ∀ v ∈ mark, ∀ x, s.temps v = some x → lo.toInt ≤ (toLong x).toInt ∧ (toLong x).toInt ≤ hi.toInt

lemma Fits.result (hE : Selects E) (h : Fits lo hi mark i) (hs : Within lo hi mark s)
     (hvs : (valueOpnds i).mapM s.temps = some vs) (he : effect E i vs s.world = .ok rs world) :
    ∀ r ∈ rs, lo.toInt ≤ (toLong r).toInt ∧ (toLong r).toInt ≤ hi.toInt := by
  intro r hr
  rcases h with ⟨hop, h1, h2⟩ | ⟨hop, ha⟩ | ⟨hop, hflt, hb, hc⟩
  · rw [effect_const E hop] at he
    obtain ⟨rfl, -⟩ : [ofLong (norm i.imm i.w)] = rs ∧ s.world = world := by simpa using he
    rw [List.mem_singleton.1 hr, toLong_ofLong]
    exact ⟨h1, h2⟩
  · have hops : valueOpnds i = [i.a] := by simp [valueOpnds, eachRead, hop]
    rw [hops] at hvs
    obtain ⟨x, hx, rfl⟩ := mapM_temps_one hvs
    obtain ⟨rfl, -⟩ : [x] = rs ∧ s.world = world := by simpa [effect, isCore, evalCore, hop] using he
    rw [List.mem_singleton.1 hr]
    exact hs i.a ha x hx
  · have hops : valueOpnds i = [i.a, i.b, i.c] := by simp [valueOpnds, eachRead, hop]
    have hsem : E.sem i vs s.world = .ok rs world := by simpa [effect, isCore, hop] using he
    rw [hops] at hvs
    obtain ⟨x, y, z, -, hy, hz, rfl⟩ := mapM_temps_three hvs
    rcases hE hop hflt hsem with rfl | rfl
    · rw [List.mem_singleton.1 hr]
      exact hs i.b hb y hy
    · rw [List.mem_singleton.1 hr]
      exact hs i.c hc z hz

/-- The constant taken from or added to a switched value is, at the width of the switch, the one its
register holds. -/
def ConstHolds (fn : Func) (i : Ins) : Prop :=
  ∀ x k, Offset fn i x k → x.immB = false → ∀ c, soleDef fn x.b = some c →
    uOpnd i.w (norm c.imm c.w) = uOpnd i.w c.imm

lemma Offset.operand {B : BitVec 64} (h : Offset fn i x k) (hc : ConstInv fn s) (hB : OpndIs s x B) :
    B.setWidth 32 = k.setWidth 32 ∧ (uOpnd i.w B = uOpnd i.w k ↔ ConstHolds fn i) := by
  have hx {y : Ins} {k' : BitVec 64} (hy : Offset fn i y k') : y = x := mem_unique hy.sole h.sole
  have hk := h.const
  unfold constOpnd at hk
  unfold OpndIs at hB
  cases himm : x.immB with
  | true =>
    rw [himm, if_pos rfl] at hk hB
    obtain rfl : x.imm = k := some.inj hk
    obtain rfl := hB
    refine ⟨rfl, fun _ y k' hy hyb => ?_, fun _ => rfl⟩
    rw [hx hy, himm] at hyb
    cases hyb
  | false =>
    rw [himm, if_neg (by decide)] at hk hB
    obtain ⟨xb, hxb, rfl⟩ := hB
    obtain ⟨c, hsole, hk⟩ := Option.bind_eq_some_iff.1 hk
    split_ifs at hk with hop
    cases hk
    obtain rfl : xb = ofLong (norm c.imm c.w) := by
      rcases hc x.b c hsole hop.1 with hnone | hsome
      · rw [hnone] at hxb
        cases hxb
      · exact (mem_unique hsome hxb).symm
    rw [toLong_ofLong]
    refine ⟨?_, fun heq y k' hy _ d hd => ?_, fun hall => hall x _ h himm c hsole⟩
    · by_cases hw : c.w = 8
      · rw [Ir.norm, if_pos hw]
      · exact setWidth_norm _ hw
    · rw [hx hy] at hd
      obtain rfl := mem_unique hsole hd
      exact heq

lemma Offset.result {cnt : ℕ} (h : Offset fn i x k) (hw : i.w = 4 ∨ i.w = 8) (hcnt : 0 < cnt ∧ cnt < 2 ^ 31)
    (hc : ConstInv fn s) (hlo : lo = if x.op = .sub then k else -k) (hmem : x.a ∈ mark)
    (hs : Within lo (lo + BitVec.ofNat 64 cnt - 1) mark s) (hvs : (valueOpnds x).mapM s.temps = some vs)
    (he : effect E x vs s.world = .ok rs world) : ∀ r ∈ rs, (uOpnd i.w (toLong r)).toNat < cnt ↔ ConstHolds fn i := by
  have hform : isCore x = true ∧ isBin x.op = true ∧ valueOpnds x = if x.immB then [x.a] else [x.a, x.b] := by
    rcases h.op with hop | hop <;> simp [isCore, isBin, valueOpnds, eachRead, hop, h.flt, h.w, hw]
  obtain ⟨xa, B, R, ha, hB, hR, rfl⟩ := KnownZero.bin_effect hform.1 hform.2.1 hform.2.2 hvs he
  obtain ⟨hcut, hiff⟩ := h.operand hc hB
  obtain ⟨h1, h2⟩ := hs x.a hmem xa ha
  have hop : x.op = .sub ∧ lo = k ∨ x.op = .add ∧ lo = -k := by
    rcases h.op with hop | hop <;> simp [hop, hlo]
  intro r hr
  rw [List.mem_singleton.1 hr, toLong_ofLong, ← hiff]
  rw [h.w] at hR
  exact index_lt_iff hw hop hcut hR hcnt.2 (sub_lt hcnt.2 h1 h2 hcnt.1)

/-- The registers hold what the answer for the switch `i` says of them. -/
structure Inv (fn : Func) (i : Ins) (mark : List ℤ) (s : St W) : Prop where
  const : ConstInv fn s
  within : Within (asked fn i).2 ((asked fn i).2 + BitVec.ofNat 64 (fn.table i).length - 1) mark s
  index : ∀ x k, Offset fn i x k → ∀ v, s.temps i.a = some v →
    ((uOpnd i.w (toLong v)).toNat < (fn.table i).length ↔ ConstHolds fn i)

section
variable (hform : Form fn) (hE : Selects E) (hg : Remarked fn g) (hw : i.w = 4 ∨ i.w = 8)
  (hcnt : 0 < (fn.table i).length ∧ (fn.table i).length < 2 ^ 31) {mark : List ℤ}
  (hmem : (asked fn i).1 ∈ mark)
  (hclosed : ∀ v ∈ mark, Closed fn (asked fn i).2
    ((asked fn i).2 + BitVec.ofNat 64 (fn.table i).length - 1) mark v)
include hform hE hg hw hcnt hmem hclosed

omit hform hE hg hclosed in
lemma Inv.index_lt_iff (hs : Inv fn i mark s) {v : Val} (hv : s.temps i.a = some v) :
    v.toNat % 2 ^ (8 * i.w) < (fn.table i).length ↔ ConstHolds fn i := by
  rw [index_eq_uOpnd hw]
  rcases asked_cases fn i with ⟨hask, hno⟩ | ⟨x, k, hx, -⟩
  · refine iff_of_true ?_ fun x k hx => absurd hx (hno x k)
    rw [hask] at hmem
    obtain ⟨h1, h2⟩ := hs.within i.a hmem v hv
    rw [hask] at h1 h2
    have hlt := sub_lt hcnt.2 h1 h2 hcnt.1
    rw [sub_zero] at hlt
    exact (toNat_uOpnd_le hw _).trans_lt hlt
  · exact hs.index x k hx v hv

end

end

end EmbCC.Opt.SwitchRange
