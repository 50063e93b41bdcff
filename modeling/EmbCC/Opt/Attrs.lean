import EmbCC.Lib.Retreat
import EmbCC.Ir.Machine

/-!
# Attribute inference

`attrs.c`: which functions write no memory their caller can see, and which read
none either. Every function starts clean and retreats: a turn scans its code
and clears its flags at a write, at a load, or at a call of a function whose
flag is clear. The rounds stop when one changes nothing, and after 32.

`inferAttrs_sound_iff` says when the flags can be relied on. Both are retreats. A call
of a function defined at or after the caller costs a round, so a function whose
every way to a write makes 32 such calls is left marked clean
(`inferAttrs_long_chain`).
-/

namespace EmbCC.Opt

open List Ir Trace Function

/-! ## The pass -/

/-- What `infer_attrs` reads of a `struct func`. -/
structure FuncInfo where
  hasDefn : Bool := true
  absorbed : Bool := false
  isWeak : Bool := false

/-- The two flags it leaves there. -/
structure Attrs where
  noWrite : Bool
  noRead : Bool
deriving DecidableEq, Repr

/-- A `struct ir_func` with its `src`; code read from a `.ir` file has none. -/
structure UnitFunc where
  src : Option ℕ
  code : Func

/-- A `struct ir_unit`, and the `struct func`s its code names. -/
structure IrUnit where
  funcs : List UnitFunc
  info : ℕ → FuncInfo

/-- Start clean, but not a weak function: the link may replace its body. -/
def attrStart (u : IrUnit) (attrs : ℕ → Attrs) : ℕ → Attrs :=
  u.funcs.foldl (fun attrs fn =>
    match fn.src with
    | none => attrs
    | some f =>
      let clean := (u.info f).hasDefn && !(u.info f).absorbed && !(u.info f).isWeak
      update attrs f ⟨clean, clean⟩) attrs

/-- The instructions that reach memory the caller shares. -/
def sharesMemory : Op → Bool
  | .store | .memcpy | .memzero | .xchg | .xadd | .cmpxchg | .armw | .cas | .cas16 | .asm
  | .vaStart | .fence | .vstore => true
  | _ => false

/-- A load through a pointer. -/
def loadsMemory : Op → Bool
  | .load | .vload => true
  | _ => false

/-- The function a call names, unless it goes through a pointer. -/
def directCallee (i : Ins) : Option ℕ := if i.indirect then none else i.ptr

/-- One instruction of the scan: may the function still be said not to write, not to read? -/
def attrIns (u : IrUnit) (attrs : ℕ → Attrs) (wr : Bool × Bool) (i : Ins) : Bool × Bool :=
  if sharesMemory i.op then (false, false)
  else if loadsMemory i.op then (wr.1, false)
  else if i.op = .call then
    match directCallee i with
    | none => (false, false)
    | some t =>
      if (u.info t).hasDefn then (wr.1 && (attrs t).noWrite, wr.2 && (attrs t).noRead)
      else (false, false)
  else wr

/-- The scan of a body, until nothing is left to find out. -/
def attrScan (u : IrUnit) (attrs : ℕ → Attrs) : List Ins → Bool × Bool → Bool × Bool
  | [], wr => wr
  | i :: is, wr => if wr.1 || wr.2 then attrScan u attrs is (attrIns u attrs wr i) else wr

/-- A flag that the scan does not leave is cleared, and the round notes the change. -/
def clearWrite (w : Bool) (f : ℕ) (s : (ℕ → Attrs) × Bool) : (ℕ → Attrs) × Bool :=
  if !w && (s.1 f).noWrite then (update s.1 f ⟨false, (s.1 f).noRead⟩, true) else s

@[inherit_doc clearWrite]
def clearRead (r : Bool) (f : ℕ) (s : (ℕ → Attrs) × Bool) : (ℕ → Attrs) × Bool :=
  if !r && (s.1 f).noRead then (update s.1 f ⟨(s.1 f).noWrite, false⟩, true) else s

/-- The turn of a function in a round: the flags, and whether the round has changed any. -/
def attrTurn (u : IrUnit) (s : (ℕ → Attrs) × Bool) (fn : UnitFunc) : (ℕ → Attrs) × Bool :=
  match fn.src with
  | none => s
  | some f =>
    -- a function that writes is not looked at again: it counts as one that reads
    if !(s.1 f).noWrite then clearRead false f s
    else
      let wr := attrScan u s.1 fn.code.ins (true, true)
      clearRead wr.2 f (clearWrite wr.1 f s)

/-- One round over the unit. -/
def attrRound (u : IrUnit) (attrs : ℕ → Attrs) : (ℕ → Attrs) × Bool :=
  u.funcs.foldl (attrTurn u) (attrs, false)

/-- The rounds, while they change something and at most so many. -/
def attrLoop (u : IrUnit) : ℕ → (ℕ → Attrs) → (ℕ → Attrs)
  | 0, attrs => attrs
  | n + 1, attrs =>
    let r := attrRound u attrs
    if r.2 then attrLoop u n r.1 else r.1

def inferAttrs (u : IrUnit) (attrs : ℕ → Attrs) : ℕ → Attrs := attrLoop u 32 (attrStart u attrs)

/-! ## One flag at a time -/

/-- A write, or a call of which nothing is known. -/
def writesOut (u : IrUnit) (i : Ins) : Bool :=
  sharesMemory i.op ||
    (i.op == .call && match directCallee i with
      | none => true
      | some t => !(u.info t).hasDefn)

/-- The functions a body calls by name. -/
def calledBy (is : List Ins) : List ℕ :=
  is.filterMap fun i => if i.op = .call then directCallee i else none

/-- A function and what clears its `inf_no_write`. -/
def writeNode (u : IrUnit) (fn : UnitFunc) : Retreat.Node ℕ where
  owner := fn.src
  ok := fn.code.ins.all fun i => !writesOut u i
  needs := calledBy fn.code.ins

/-- A function and what clears one of its flags. -/
def cleanNode (u : IrUnit) (fn : UnitFunc) : Retreat.Node ℕ where
  owner := fn.src
  ok := fn.code.ins.all fun i => !(writesOut u i || loadsMemory i.op)
  needs := calledBy fn.code.ins

/-- Neither flag is cleared. -/
def Attrs.clean (at0 : Attrs) : Bool := at0.noWrite && at0.noRead

section
variable {u : IrUnit} {attrs : ℕ → Attrs} {s : (ℕ → Attrs) × Bool} {fn : UnitFunc} {i : Ins}
  {is : List Ins} {f : ℕ}

lemma attrIns_eq (w r : Bool) : attrIns u attrs (w, r) i =
    (w && (!writesOut u i && (calledBy [i]).all fun t => (attrs t).noWrite),
     r && (!(writesOut u i || loadsMemory i.op) && (calledBy [i]).all fun t => (attrs t).noRead)) := by
  unfold attrIns writesOut calledBy
  by_cases hc : i.op = .call
  · cases hd : directCallee i with
    | none => simp [hc, loadsMemory]
    | some t => cases ht : (u.info t).hasDefn <;> simp [hc, hd, ht, sharesMemory, loadsMemory]
  · cases hs : sharesMemory i.op <;> cases hl : loadsMemory i.op <;> simp [hc]

lemma calledBy_cons (i : Ins) (is : List Ins) : calledBy (i :: is) = calledBy [i] ++ calledBy is := by
  unfold calledBy
  rw [← filterMap_append, singleton_append]

/-- The scan of a body, one flag at a time. -/
lemma attrScan_eq (w r : Bool) : attrScan u attrs is (w, r) =
    (w && (is.all (fun i => !writesOut u i) && (calledBy is).all fun t => (attrs t).noWrite),
     r && (is.all (fun i => !(writesOut u i || loadsMemory i.op)) && (calledBy is).all fun t => (attrs t).noRead)) := by
  induction is generalizing w r with
  | nil => simp [attrScan, calledBy]
  | cons i is ih =>
    rw [attrScan]
    split
    · rw [attrIns_eq, ih, calledBy_cons i is, all_append, all_append, all_cons, all_cons]
      ac_rfl
    · rename_i h
      simp only [Bool.or_eq_true, not_or] at h
      simp [h.1, h.2]

lemma attrTurn_eq : attrTurn u s fn = match fn.src with
    | none => s
    | some f => let wr := attrScan u s.1 fn.code.ins (true, true)
      let at1 : Attrs := ⟨(s.1 f).noWrite && wr.1, (s.1 f).clean && wr.2⟩
      if at1 = s.1 f then s else (update s.1 f at1, true) := by
  unfold attrTurn clearRead clearWrite Attrs.clean
  cases fn.src with
  | none => rfl
  | some f =>
    rcases hf : s.1 f with ⟨_ | _, _ | _⟩ <;> rcases attrScan u s.1 fn.code.ins (true, true) with ⟨_ | _, _ | _⟩ <;> simp [hf]

lemma attrTurn_flag (flag : Attrs → Bool) (node : Retreat.Node ℕ) (ho : node.owner = fn.src)
    (hflag : ∀ at0 : Attrs, let wr := attrScan u s.1 fn.code.ins (true, true)
      flag ⟨at0.noWrite && wr.1, at0.clean && wr.2⟩ = (flag at0 && (node.ok && node.needs.all fun t => flag (s.1 t)))) :
    (fun f => flag ((attrTurn u s fn).1 f)) = Retreat.turn (fun f => flag (s.1 f)) node := by
  rw [attrTurn_eq, Retreat.turn, ho]
  cases fn.src with
  | none => rfl
  | some f =>
    have hf := hflag (s.1 f)
    dsimp only at hf ⊢
    generalize Attrs.mk _ _ = at1 at hf
    have hupd : (fun g => flag ((if at1 = s.1 f then s else (update s.1 f at1, true)).1 g))
        = update (fun g => flag (s.1 g)) f (flag at1) := by
      split_ifs with h
      · rw [h, update_eq_self]
      · exact comp_update flag s.1 f at1
    rw [hupd, hf]
    split_ifs with h
    · rw [h, Bool.and_true, update_eq_self]
    · rw [Bool.eq_false_of_not_eq_true h, Bool.and_false]

lemma attrTurn_noWrite : (fun f => ((attrTurn u s fn).1 f).noWrite) =
    Retreat.turn (fun f => (s.1 f).noWrite) (writeNode u fn) := by
  refine attrTurn_flag Attrs.noWrite (writeNode u fn) rfl fun at0 => ?_
  rw [attrScan_eq]
  simp [writeNode]

lemma all_clean (ts : List ℕ) : (ts.all fun t => (attrs t).clean) =
    ((ts.all fun t => (attrs t).noWrite) && ts.all fun t => (attrs t).noRead) := by
  induction ts with
  | nil => rfl
  | cons t ts ih =>
    rw [all_cons, all_cons, all_cons, ih, Attrs.clean]
    ac_rfl

lemma attrTurn_clean : (fun f => ((attrTurn u s fn).1 f).clean) =
    Retreat.turn (fun f => (s.1 f).clean) (cleanNode u fn) := by
  refine attrTurn_flag Attrs.clean (cleanNode u fn) rfl fun at0 => ?_
  rw [attrScan_eq, cleanNode, all_clean]
  have hok : fn.code.ins.all (fun i => !(writesOut u i || loadsMemory i.op)) = (fn.code.ins.all (fun i => !writesOut u i) &&
        fn.code.ins.all fun i => !(writesOut u i || loadsMemory i.op)) := by
    rw [Bool.eq_iff_iff]
    simp only [all_eq_true, Bool.and_eq_true, Bool.not_eq_true', Bool.or_eq_false_iff]
    exact ⟨fun h => ⟨fun i hi => (h i hi).1, h⟩, And.right⟩
  rw [hok]
  simp only [Attrs.clean]
  ac_rfl

lemma attrTurn_unchanged (h : (attrTurn u s fn).2 = false) : attrTurn u s fn = s := by
  rw [attrTurn_eq] at h ⊢
  split at h
  · rfl
  · dsimp only at h
    split at h
    · rename_i hat
      rw [if_pos hat]
    · cases h

lemma foldl_attrTurn_unchanged {fns : List UnitFunc}
    (h : (fns.foldl (attrTurn u) s).2 = false) : fns.foldl (attrTurn u) s = s := by
  induction fns generalizing s with
  | nil => rfl
  | cons fn fns ih =>
    rw [foldl_cons] at h ⊢
    have hrest := ih h
    rw [hrest] at h ⊢
    exact attrTurn_unchanged h

lemma attrLoop_eq (n : ℕ) (attrs : ℕ → Attrs) : attrLoop u n attrs = (fun attrs => (attrRound u attrs).1)^[n] attrs := by
  induction n generalizing attrs with
  | zero => rfl
  | succ n ih =>
    rw [attrLoop, iterate_succ_apply]
    split
    · exact ih _
    · rename_i h
      have hstay : attrRound u attrs = (attrs, false) :=
        foldl_attrTurn_unchanged (Bool.eq_false_of_not_eq_true h)
      rw [hstay, iterate_fixed (congrArg Prod.fst hstay)]

/-- The rounds on both flags are the rounds on each. -/
lemma attrLoop_flag (flag : Attrs → Bool) (node : UnitFunc → Retreat.Node ℕ)
    (hturn : ∀ s fn, (fun f => flag ((attrTurn u s fn).1 f)) =
      Retreat.turn (fun f => flag (s.1 f)) (node fn)) (n : ℕ) (attrs : ℕ → Attrs) :
    (fun f => flag (attrLoop u n attrs f)) = (Retreat.round (u.funcs.map node))^[n] fun f => flag (attrs f) := by
  have hround : ∀ s : (ℕ → Attrs) × Bool, ∀ fns : List UnitFunc, (fun f => flag ((fns.foldl (attrTurn u) s).1 f)) =
        Retreat.round (fns.map node) fun f => flag (s.1 f) := by
    intro s fns
    induction fns generalizing s with
    | nil => rfl
    | cons fn fns ih =>
      rw [foldl_cons, ih, hturn, map_cons]
      rfl
  rw [attrLoop_eq]
  induction n generalizing attrs with
  | zero => rfl
  | succ n ih => rw [iterate_succ_apply, ih, attrRound, hround, iterate_succ_apply]

end

/-! ## What a call executes -/

/-- A run of the function, in any environment, comes to the instruction. -/
def ComesTo (fn : Func) (i : Ins) : Prop :=
  ∃ (W : Type) (E : Env W) (s s' : St W) (pc : ℕ),
    Reaches (step fn.prog E) (some (0, s)) (some (pc, s')) ∧ fn.ins[pc]? = some i

/-- A call of `f` executes the instruction, itself or through a chain of direct calls. -/
inductive Executes (u : IrUnit) : ℕ → Ins → Prop
  | here {f : ℕ} {fn : UnitFunc} {i : Ins} (hfn : fn ∈ u.funcs) (hf : fn.src = some f)
      (hi : ComesTo fn.code i) : Executes u f i
  | call {f t : ℕ} {fn : UnitFunc} {i j : Ins} (hfn : fn ∈ u.funcs) (hf : fn.src = some f)
      (hj : ComesTo fn.code j) (hop : j.op = .call) (ht : directCallee j = some t)
      (hi : Executes u t i) : Executes u f i

/-- Whoever relies on the flags is right to. -/
def AttrsHold (u : IrUnit) (attrs : ℕ → Attrs) : Prop :=
  ∀ f, ((attrs f).noWrite → ∀ i, Executes u f i → ¬ writesOut u i) ∧
    ((attrs f).noWrite → (attrs f).noRead → ∀ i, Executes u f i → ¬ loadsMemory i.op)

/-- A function is not a candidate, or a chain of calls from it to a reason makes fewer than 32
calls of a function that does not stand before the caller. -/
def ShortWay (nodes : List (Retreat.Node ℕ)) (start : ℕ → Bool) (f : ℕ) : Prop :=
  start f = false ∨
    ∃ k n c, nodes[k]? = some n ∧ n.owner = some f ∧ Retreat.Chain nodes start k c ∧ c < 32

/-- The ways to a write, from the functions the first loop marks. -/
def ShortWayToWrite (u : IrUnit) (attrs : ℕ → Attrs) : ℕ → Prop :=
  ShortWay (u.funcs.map (writeNode u)) fun f => (attrStart u attrs f).noWrite

/-- The ways to a write or a load. -/
def ShortWayToAccess (u : IrUnit) (attrs : ℕ → Attrs) : ℕ → Prop :=
  ShortWay (u.funcs.map (cleanNode u)) fun f => (attrStart u attrs f).clean

section
variable {u : IrUnit} {attrs : ℕ → Attrs} {f : ℕ}

lemma inferAttrs_noWrite : (inferAttrs u attrs f).noWrite = false ↔ ShortWayToWrite u attrs f := by
  rw [inferAttrs, congrFun (attrLoop_flag Attrs.noWrite (writeNode u) (fun _ _ => attrTurn_noWrite) 32 (attrStart u attrs)) f]
  exact Retreat.rounds_eq_false 32 f

lemma inferAttrs_clean : (inferAttrs u attrs f).clean = false ↔ ShortWayToAccess u attrs f := by
  rw [inferAttrs, congrFun (attrLoop_flag Attrs.clean (cleanNode u) (fun _ _ => attrTurn_clean) 32 (attrStart u attrs)) f]
  exact Retreat.rounds_eq_false 32 f

/-- The flags hold exactly when every candidate whose calls execute a write, or a load, has a short
way to one in the code. -/
theorem inferAttrs_sound_iff (u : IrUnit) (attrs : ℕ → Attrs) : AttrsHold u (inferAttrs u attrs) ↔
    ∀ f i, Executes u f i → (writesOut u i → ShortWayToWrite u attrs f) ∧
      (loadsMemory i.op → ShortWayToAccess u attrs f) := by
  constructor
  · intro h f i hi
    refine ⟨fun hw => ?_, fun hl => ?_⟩
    · rw [← inferAttrs_noWrite, ← Bool.not_eq_true]
      exact fun hno => (h f).1 hno i hi hw
    · rw [← inferAttrs_clean, ← Bool.not_eq_true, Attrs.clean, Bool.and_eq_true]
      exact fun hno => (h f).2 hno.1 hno.2 i hi hl
  · intro h f
    refine ⟨fun hno i hi hw => ?_, fun hnow hnor i hi hl => ?_⟩
    · have := inferAttrs_noWrite.2 ((h f i hi).1 hw)
      exact Bool.false_ne_true (this.symm.trans hno)
    · have := inferAttrs_clean.2 ((h f i hi).2 hl)
      rw [Attrs.clean, hnow, hnor] at this
      cases this

end

/-- The code of a function that passes its two parameters on to the next; the last one stores the
second at the first. -/
def relayIns (k : ℕ) : Ins :=
  if k < 32 then { op := .call, ptr := some (k + 1), args := [0, 1] }
  else { op := .store, a := 0, b := 1, size := 4 }

/-- 33 functions in the order of their calls. -/
def longChain : IrUnit where
  funcs := (List.range 33).map fun k => ⟨some k, { ins := [relayIns k], nparams := 2 }⟩
  info := fun _ => {}

lemma longChain_getElem {k : ℕ} (hk : k < 33) :
    longChain.funcs[k]? = some ⟨some k, { ins := [relayIns k], nparams := 2 }⟩ := by
  rw [longChain, getElem?_map, getElem?_range hk]
  rfl

lemma longChain_start : ∀ f < 33, (attrStart longChain (fun _ => ⟨false, false⟩) f).noWrite := by
  decide

lemma longChain_executes {d : ℕ} (hd : d ≤ 32) : Executes longChain (32 - d) (relayIns 32) := by
  have hcomes : ∀ k, ComesTo { ins := [relayIns k], nparams := 2 } (relayIns k) := fun k =>
    ⟨Unit, Env.bare, St.blank, St.blank, 0, .refl, rfl⟩
  induction d with
  | zero =>
    have hmem := mem_of_getElem? (longChain_getElem (show 32 < 33 by omega))
    exact .here hmem rfl (hcomes 32)
  | succ d ih =>
    have hmem := mem_of_getElem? (longChain_getElem (show 32 - (d + 1) < 33 by omega))
    refine .call hmem rfl (hcomes _) ?_ ?_ (ih (by omega)) <;> rw [relayIns, if_pos (by omega)]
    rw [show 32 - d = 32 - (d + 1) + 1 by omega]
    rfl

lemma longChain_node {k : ℕ} {n : Retreat.Node ℕ} (h : (longChain.funcs.map (writeNode longChain))[k]? = some n) : k < 33
    ∧ n.owner = some k ∧ (n.ok = false → k = 32) ∧ ∀ f ∈ n.needs, f = k + 1 ∧ k < 32 := by
  have hk : k < 33 := by simpa [longChain] using (getElem?_lt h)
  rw [getElem?_map, longChain_getElem hk] at h
  cases h
  refine ⟨hk, rfl, ?_, ?_⟩ <;> by_cases h32 : k < 32 <;>
    simp [writeNode, writesOut, calledBy, relayIns, sharesMemory, directCallee, longChain, h32]
  omega

lemma longChain_far {k c : ℕ} (h : Retreat.Chain (longChain.funcs.map (writeNode longChain))
    (fun f => (attrStart longChain (fun _ => ⟨false, false⟩) f).noWrite) k c) : 32 ≤ k + c := by
  induction h with
  | own hn hok => exact ((longChain_node hn).2.2.1 hok).ge
  | start hn hf hs =>
    obtain ⟨rfl, hk⟩ := (longChain_node hn).2.2.2 _ hf
    exact absurd ((longChain_start _ (Nat.succ_lt_succ hk)).symm.trans hs) Bool.true_eq_false.mp
  | back hn hf hm ho hj _ ih => omega
  | forth hn hf hm ho hj _ ih =>
    obtain ⟨rfl, hk⟩ := (longChain_node hn).2.2.2 _ hf
    obtain rfl := Option.some.inj ((longChain_node hm).2.1.symm.trans ho)
    omega

/-- The first of the 33 functions is left marked as one that does not write, and a call of it
executes the store. -/
theorem inferAttrs_long_chain : (inferAttrs longChain (fun _ => ⟨false, false⟩) 0).noWrite = true ∧
      Executes longChain 0 (relayIns 32) ∧ writesOut longChain (relayIns 32) = true := by
  refine ⟨Bool.eq_true_of_not_eq_false fun h => ?_, longChain_executes le_rfl, by decide⟩
  rcases inferAttrs_noWrite.1 h with hstart | ⟨k, n, c, hn, ho, hc, hlt⟩
  · exact absurd (longChain_start 0 (by omega)) (by simp [hstart])
  · obtain rfl := Option.some.inj ((longChain_node hn).2.1.symm.trans ho)
    have := longChain_far hc
    omega

end EmbCC.Opt
