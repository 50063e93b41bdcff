import EmbCC.Lib.ScopedWalk
import EmbCC.Opt.Frontier
import EmbCC.Opt.Lvn.Table

/-!
# Global common subexpressions

`pass_gcse`: a computation that repeats one of a block that dominates it becomes a copy of its result. The
walk goes down the dominator tree with a table of the values of the blocks above, and an operand that is a
constant is keyed by its value (`gcseKeyConsts`).
-/

namespace EmbCC.Opt.Gcse

open Ir Idom Dominators List

/-- `gcse_numberable`; `addrs` is its test of the target and of the environment for addresses. -/
def gcseNumberable (addrs : Bool) : Op → Bool
  | .add | .sub | .mul | .div | .mod | .and | .or | .xor | .shl | .shr | .cmp | .neg | .bnot | .mulh
  | .mulw => true
  | .gaddr | .straddr => addrs
  | _ => false

def vnStable (fn : Func) (d : Defs) (i : Ins) : Bool :=
  decide (0 ≤ i.dst ∧ i.dst < fn.nvregs ∧ d.cnt i.dst = 1 ∧ (valueOpnds i).length ≤ 4) &&
    (valueOpnds i).all fun v => decide (0 ≤ v ∧ v < fn.nvregs ∧ d.cnt v = 1)

/-- The number that an instruction is. -/
def literal (i : Ins) : Option (BitVec 64) := if i.op = .const ∧ i.flt = false then some i.imm else none

/-- `get_const`, where the definitions were found before the code was changed. -/
def constIn (fn : Func) (d : Defs) (v : ℤ) : Option (BitVec 64) :=
  if v < 0 ∨ d.cnt v ≠ 1 then none else (d.insOf fn v).bind literal

/-- A key whose constant operands are `ca` and `cb`. -/
structure Key where
  k : Vn
  ca : Option (BitVec 64)
  cb : Option (BitVec 64)
deriving DecidableEq, Repr

def gcseKeyConsts (fn : Func) (d : Defs) (k : Vn) : Key :=
  let ca := if 0 ≤ k.a then constIn fn d k.a else none
  let cb := if 0 ≤ k.b then constIn fn d k.b else none
  ⟨{ k with a := if ca.isSome then -1 else k.a, b := if cb.isSome then -1 else k.b }, ca, cb⟩

/-- The key of an instruction that the pass numbers. -/
def gcseKey (addrs : Bool) (fn : Func) (d : Defs) (i : Ins) : Option Key :=
  if i.dst < 0 ∨ ¬ gcseNumberable addrs i.op ∨ ¬ vnStable fn d i then none
  else (vnKey i 0).map (gcseKeyConsts fn d)

/-- A key and the register that holds its value. -/
structure Ent where
  k : Key
  result : ℤ

/-- `vntab_find`; the newest entry is last. -/
def find (tab : List Ent) (k : Key) : Option ℤ := (tab.reverse.find? (·.k = k)).map (·.result)

/-- The turn of one instruction. -/
def gcseIns (addrs : Bool) (fn : Func) (st : List Ins × List Ent) (n : ℕ) : List Ins × List Ent :=
  match st.1[n]? with
  | none => st
  | some i =>
    match gcseKey addrs { fn with ins := st.1 } (computeDefs fn) i with
    | none => st
    | some k =>
      match find st.2 k with
      | some hit => if hit ≠ i.dst then (st.1.set n (vnToMov i hit), st.2) else st
      | none => (st.1, st.2 ++ [⟨k, i.dst⟩])

/-- The first `len` instructions of a block. -/
def gcseBlock (addrs : Bool) (fn : Func) (b len : ℕ) (st : List Ins × List Ent) : List Ins × List Ent :=
  (range' (bbStart fn b) len).foldl (gcseIns addrs fn) st

/-- The children of a block in the dominator tree. -/
def domKids (fn : Func) (bb : Blocks) : ℕ → List ℕ := kids (nbb fn) (range (nbb fn)) bb.idom

/-- The walk of `pass_gcse`. Every block is entered once and left once. -/
def gcseWalk (addrs : Bool) (fn : Func) (bb : Blocks) : ScopedWalk.State ℕ Ent (List Ins) :=
  ScopedWalk.walk (domKids fn bb) (fun b out tab => gcseBlock addrs fn b (bbEnd fn b - bbStart fn b) (out, tab))
    0 fn.ins (2 * nbb fn)

/-- `pass_gcse`; `old` is what the blocks held before. -/
def passGcse (addrs : Bool) (fn : Func) (old : Blocks) : Func :=
  if fn.ins = [] ∨ (order (buildCfg fn)).length ≠ nbb fn then fn
  else { fn with ins := (gcseWalk addrs fn (dominators (buildCfg fn) old)).out }

section
variable {addrs : Bool} {fn : Func} {ins : List Ins} {i j : Ins} {k : Key} {v : ℤ} {n b len : ℕ}
variable {d : Defs} {tab : List Ent}

lemma gcseKey_eq_some : gcseKey addrs fn d i = some k ↔ 0 ≤ i.dst ∧ gcseNumberable addrs i.op ∧
    vnStable fn d i ∧ ∃ u, vnKey i 0 = some u ∧ gcseKeyConsts fn d u = k := by
  unfold gcseKey
  split_ifs with h
  · simp only [false_iff]
    rintro ⟨h0, hn, hs, -⟩
    rcases h with h | h | h
    · omega
    · exact h hn
    · exact h hs
  · push Not at h
    simp [h]

lemma gcseNumberable_value (h : gcseNumberable addrs i.op) : isValue i.op := by
  revert h
  cases i.op <;> simp [gcseNumberable, isValue]

/-- The code with some keyed instructions turned into copies. -/
def Rewritten (addrs : Bool) (fn : Func) (ins : List Ins) : Prop :=
  ∀ (n : ℕ) (i' : Ins), ins[n]? = some i' → ∃ i, fn.ins[n]? = some i ∧
    (i' = i ∨ i'.op = .mov ∧ gcseNumberable addrs i.op)

lemma constIn_rewritten (hlen : ins.length = fn.ins.length) (h : Rewritten addrs fn ins) :
    constIn { fn with ins := ins } d v = constIn fn d v := by
  have hsame (m : ℕ) : ins[m]?.bind literal = fn.ins[m]?.bind literal := by
    cases hm : ins[m]? with
    | none =>
      have : fn.ins[m]? = none := by
        rw [List.getElem?_eq_none_iff] at hm ⊢
        omega
      rw [this]
    | some i' =>
      obtain ⟨i, hi, rfl | ⟨hmov, hnum⟩⟩ := h m i' hm
      · rw [hi]
      · have hop : i.op ≠ .const := by
          intro hop
          simp [gcseNumberable, hop] at hnum
        simp [hi, literal, hmov, hop]
  unfold constIn Defs.insOf
  split_ifs <;> simp_all

lemma gcseKey_rewritten (hlen : ins.length = fn.ins.length) (h : Rewritten addrs fn ins) :
    gcseKey addrs { fn with ins := ins } d i = gcseKey addrs fn d i := by
  unfold gcseKey gcseKeyConsts
  simp only [constIn_rewritten hlen h]
  rfl

/-- The entry is of an instruction of the block that comes before `n`. -/
def From (addrs : Bool) (fn : Func) (b n : ℕ) (e : Ent) : Prop :=
  ∃ m j, InBlock fn b m ∧ m < n ∧ fn.ins[m]? = some j ∧
    gcseKey addrs fn (computeDefs fn) j = some e.k ∧ e.result = j.dst

/-- The entry is of an instruction of the block. -/
def Owns (addrs : Bool) (fn : Func) (b : ℕ) (e : Ent) : Prop := From addrs fn b (bbEnd fn b) e

/-- Why the instruction `i` at `n` became a copy of `h`. -/
def Hit (addrs : Bool) (fn : Func) (bb : Blocks) (n : ℕ) (i : Ins) (h : ℤ) : Prop :=
  ∃ e b, gcseKey addrs fn (computeDefs fn) i = some e.k ∧ e.result = h ∧ InBlock fn b n ∧
    (From addrs fn b n e ∨ ∃ a, ScopedWalk.Above (domKids fn bb) a b ∧ Owns addrs fn a e)

/-- The code of the blocks that the walk has not entered is as it was, and the rest is copies. -/
structure Made (addrs : Bool) (fn : Func) (bb : Blocks) (touched : ℕ → Prop) (out : List Ins) : Prop where
  length : out.length = fn.ins.length
  same : ∀ n, ¬ touched n → out[n]? = fn.ins[n]?
  hit : ∀ n i, fn.ins[n]? = some i → out[n]? = some i ∨
    ∃ h, out[n]? = some (vnToMov i h) ∧ Hit addrs fn bb n i h

variable {bb : Blocks} {touched touched' : ℕ → Prop} {out : List Ins}

lemma Made.mono (h : Made addrs fn bb touched out) (ht : ∀ n, touched n → touched' n) : Made addrs fn bb touched' out :=
  ⟨h.length, fun n hn => h.same n fun h' => hn (ht n h'), h.hit⟩

lemma Made.rewritten (h : Made addrs fn bb touched out) : Rewritten addrs fn out := by
  intro n i' hi'
  have hlt : n < fn.ins.length := h.length ▸ (getElem?_lt hi')
  have hi := List.getElem?_eq_getElem hlt
  refine ⟨_, hi, ?_⟩
  rcases h.hit n _ hi with hsame | ⟨s, hs, e, b, hk, -⟩
  · exact .inl (Option.mem_unique hi' hsame)
  · obtain rfl := Option.mem_unique hi' hs
    exact .inr ⟨rfl, (gcseKey_eq_some.1 hk).2.1⟩

lemma find_spec {h : ℤ} (hf : find tab k = some h) : ∃ e ∈ tab, e.k = k ∧ e.result = h := by
  obtain ⟨e, he, hr⟩ := Option.map_eq_some_iff.1 hf
  exact ⟨e, mem_reverse.1 (List.mem_of_find?_eq_some he), by simpa using List.find?_some he, hr⟩

/-- One instruction of the walk makes only copies of what dominates it. -/
lemma made_gcseIns {new : List Ent} (hn : InBlock fn b n) (hnt : ¬ touched n) (h : Made addrs fn bb touched out)
    (htab : ∀ e ∈ tab, ∃ a, ScopedWalk.Above (domKids fn bb) a b ∧ Owns addrs fn a e)
    (hnew : ∀ e ∈ new, From addrs fn b n e) :
    Made addrs fn bb (fun m => touched m ∨ m = n) (gcseIns addrs fn (out, tab ++ new) n).1 ∧
      ∃ new', (gcseIns addrs fn (out, tab ++ new) n).2 = tab ++ new' ∧ ∀ e ∈ new', From addrs fn b (n + 1) e := by
  have hfrom : ∀ e ∈ new, From addrs fn b (n + 1) e := by
    intro e he
    obtain ⟨m, j, hm, hlt, hrest⟩ := hnew e he
    exact ⟨m, j, hm, by omega, hrest⟩
  have hkeep : Made addrs fn bb (fun m => touched m ∨ m = n) out := h.mono fun m => .inl
  unfold gcseIns
  rw [h.same n hnt]
  cases hi : fn.ins[n]? with
  | none => exact ⟨hkeep, new, rfl, hfrom⟩
  | some i =>
    dsimp only
    rw [gcseKey_rewritten h.length h.rewritten]
    cases hk : gcseKey addrs fn (computeDefs fn) i with
    | none => exact ⟨hkeep, new, rfl, hfrom⟩
    | some k =>
      dsimp only
      cases hf : find (tab ++ new) k with
      | none =>
        refine ⟨hkeep, new ++ [⟨k, i.dst⟩], append_assoc .., fun e he => ?_⟩
        rcases mem_append.1 he with he | he
        · exact hfrom e he
        · obtain rfl := mem_singleton.1 he
          exact ⟨n, i, hn, Nat.lt_succ_self n, hi, hk, rfl⟩
      | some s =>
        dsimp only
        split_ifs
        · obtain ⟨e, he, rfl, rfl⟩ := find_spec hf
          refine ⟨⟨by simp [h.length], fun m hm => ?_, fun m j hj => ?_⟩, new, rfl, hfrom⟩
          · push Not at hm
            rw [List.getElem?_set_ne (Ne.symm hm.2), h.same m hm.1]
          · show (out.set n _)[m]? = _ ∨ ∃ h, (out.set n _)[m]? = _ ∧ _
            by_cases hmn : n = m
            · subst hmn
              obtain rfl := Option.mem_unique hi hj
              have hlt : n < out.length := h.length ▸ (getElem?_lt hi)
              refine .inr ⟨e.result, List.getElem?_set_self hlt, e, b, hk, rfl, hn, ?_⟩
              exact (mem_append.1 he).elim (fun he => .inr (htab e he)) fun he => .inl (hnew e he)
            · rw [List.getElem?_set_ne hmn]
              exact h.hit m j hj
        · exact ⟨hkeep, new, rfl, hfrom⟩

lemma made_gcseBlock (hlen : bbStart fn b + len ≤ bbEnd fn b) (hbt : ∀ n, InBlock fn b n → ¬ touched n)
    (h : Made addrs fn bb touched out) (htab : ∀ e ∈ tab, ∃ a, ScopedWalk.Above (domKids fn bb) a b ∧ Owns addrs fn a e) :
    Made addrs fn bb (fun m => touched m ∨ InBlock fn b m ∧ m < bbStart fn b + len) (gcseBlock addrs fn b len (out, tab)).1
    ∧ ∃ new, (gcseBlock addrs fn b len (out, tab)).2 = tab ++ new ∧ ∀ e ∈ new, From addrs fn b (bbStart fn b + len) e := by
  induction len with
  | zero => exact ⟨h.mono fun n => .inl, [], (append_nil tab).symm, by simp⟩
  | succ len ih =>
    obtain ⟨hmade, new, htab', hnew⟩ := ih (by omega)
    have hn : InBlock fn b (bbStart fn b + len) := ⟨by omega, by omega⟩
    have hsplit : gcseBlock addrs fn b (len + 1) (out, tab) =
        gcseIns addrs fn (gcseBlock addrs fn b len (out, tab)) (bbStart fn b + len) := by
      rw [gcseBlock, range'_concat, foldl_append, ← gcseBlock, Nat.one_mul]
      rfl
    have hpair : gcseBlock addrs fn b len (out, tab) = ((gcseBlock addrs fn b len (out, tab)).1, tab ++ new) :=
      Prod.ext rfl htab'
    rw [hsplit, hpair]
    have hnt : ¬ (touched (bbStart fn b + len) ∨
        InBlock fn b (bbStart fn b + len) ∧ bbStart fn b + len < bbStart fn b + len) := by
      rintro (ht | ⟨-, hlt⟩)
      · exact hbt _ hn ht
      · exact lt_irrefl _ hlt
    obtain ⟨hmade', hnew'⟩ := made_gcseIns hn hnt hmade htab hnew
    refine ⟨hmade'.mono ?_, hnew'⟩
    rintro m ((ht | ⟨hm, hlt⟩) | rfl)
    · exact .inl ht
    · exact .inr ⟨hm, by omega⟩
    · exact .inr ⟨hn, by omega⟩

lemma domKids_tree (fn : Func) (bb : Blocks) : ScopedWalk.Tree (domKids fn bb) 0 := by
  refine ⟨fun a => ?_, fun {a b c} ha hb => ?_, fun a ha => ?_⟩
  · rw [domKids, kids_eq]
    exact nodup_range.filter _
  · exact Int.ofNat.inj ((mem_kids.1 ha).2.2.1.symm.trans (mem_kids.1 hb).2.2.1)
  · exact (mem_kids.1 ha).2.1 rfl

/-- So does the whole walk over the dominator tree. -/
lemma made_gcseWalk : Made addrs fn bb (fun _ => True) (gcseWalk addrs fn bb).out := by
  have hinv : ScopedWalk.Inv (domKids fn bb) 0 (Owns addrs fn)
      (fun entered out => Made addrs fn bb (fun n => ∃ b ∈ entered, InBlock fn b n) out) (gcseWalk addrs fn bb) := by
    refine ScopedWalk.inv_walk (domKids_tree fn bb) ?_ ⟨rfl, fun _ _ => rfl, fun n i hi => .inl hi⟩ _
    intro b entered out tab h hb _ htab
    have hle : bbStart fn b ≤ bbEnd fn b := bbStart_mono fn (Nat.le_succ b)
    have hnot : ∀ n, InBlock fn b n → ¬ ∃ c ∈ entered, InBlock fn c n := by
      rintro n hn ⟨c, hc, hcn⟩
      exact hb (hn.unique hcn ▸ hc)
    obtain ⟨hmade, new, htab', hnew⟩ :=
      made_gcseBlock (show bbStart fn b + (bbEnd fn b - bbStart fn b) ≤ bbEnd fn b by omega) hnot h htab
    refine ⟨hmade.mono ?_, new, htab', fun e he => ?_⟩
    · rintro n (⟨c, hc, hcn⟩ | ⟨hn, -⟩)
      · exact ⟨c, .tail _ hc, hcn⟩
      · exact ⟨b, .head _, hn⟩
    · have := hnew e he
      rwa [Nat.add_sub_cancel' hle] at this
  exact hinv.out.mono fun _ _ => trivial

end
end EmbCC.Opt.Gcse
