import EmbCC.Ir.Compact
import EmbCC.Opt.Alias
import EmbCC.Opt.Attrs

/-!
# Dead store elimination (`opt/dse.c`)

A store goes when a later store of the block writes every byte of it and nothing between them
could read one. Each block is walked backward with the list of the stores seen so far; a read
takes those from the list that it may overlap, and what could read anything empties it.
-/

namespace EmbCC.Opt

open List Ir

namespace Dse

/-- A store seen later in the block, as `sa` and `ssz` have it: the address register and the size, or
the frame slot and the size. -/
inductive Later
  | mem (a : ℤ) (size : ℕ)
  | var (v : ℤ) (size : ℕ)
deriving DecidableEq, Repr

/-- What the target and the other passes tell: the size of a pointer, `target_keep_vars` and the
flags `infer_attrs` left on a function. -/
structure Target where
  ptrw : ℕ
  keepVars : Bool := false
  attrs : ℕ → Attrs

section
variable (T : Target) (fn : Func) (d : Defs) (taken : ℤ → Bool)

/-- `sacc`: the bytes such a store writes. -/
def Later.acc : Later → MAccess
  | .mem a size => memAccess fn d T.ptrw a size
  | .var v _ => slotAccess v

/-- A call of a function that neither reads nor writes memory its caller can see. -/
def quietCall (i : Ins) : Bool :=
  match directCallee i with
  | some f => (T.attrs f).noRead && (T.attrs f).noWrite
  | none => false

/-- The stores the walk can compare: through a register with one definition, and to a slot whose
address is not taken. -/
def keyed (i : Ins) : Option Later :=
  if i.op = .store ∧ i.vol = false ∧ 0 ≤ i.a ∧ i.a < fn.nvregs ∧ d.cnt i.a = 1 then
    some (.mem i.a i.size)
  else if i.op = .stvar ∧ i.vol = false ∧ 0 ≤ i.dst ∧ i.dst < fn.nvars ∧ taken i.dst = false ∧
      T.keepVars = false then
    some (.var i.dst i.size)
  else none

/-- Does the later store write every byte of the earlier one? -/
def kills (later early : Later) : Bool :=
  match early with
  | .mem _ _ => later == early || accCovers T.ptrw (later.acc T fn d) (early.acc T fn d)
  | .var _ _ => later == early

/-- What an instruction could see of the stores before it. -/
inductive Sight
  | nothing
  | access (r : MAccess)
  | everything

/-- The switch of the walk. -/
def sight (i : Ins) : Sight :=
  match i.op with
  | .load => .access (memAccess fn d T.ptrw i.a i.size)
  | .ldvar => .access (slotAccess i.a)
  | .memcpy => .access (objAccess fn d i.b)
  | .store | .stvar => .everything
  | .call => if quietCall T i then .nothing else .everything
  | .asm | .vaStart | .fence | .xchg | .xadd | .cmpxchg | .armw | .cas | .cas16 | .memzero
  | .alloca | .vload => .everything
  | _ => .nothing

/-- One turn of the walk: is the instruction dead, and the list above it. -/
def turn (i : Ins) (ls : List Later) : Bool × List Later :=
  match keyed T fn d taken i with
  | some e => if ls.any fun l => kills T fn d l e then (true, ls) else (false, ls ++ [e])
  | none =>
    match sight T fn d i with
    | .nothing => (false, ls)
    | .everything => (false, [])
    | .access r =>
      (false, ls.filter fun l => !accOverlap T.ptrw (l.acc T fn d) r taken fn.nvars)

/-- The walk over the rest of a block that starts at `n`: the dead instructions, and the list. -/
def walk : ℕ → List Ins → List ℕ × List Later
  | _, [] => ([], [])
  | n, i :: is =>
    let below := walk (n + 1) is
    let r := turn T fn d taken i below.2
    (if r.1 then n :: below.1 else below.1, r.2)

end

/-- The instructions of block `b` from `n` on. -/
def blockFrom (fn : Func) (b n : ℕ) : List Ins := (fn.ins.take (bbEnd fn b)).drop n

def dead (T : Target) (fn : Func) : List ℕ :=
  (List.range (nbb fn)).flatMap fun b =>
    (walk T fn (computeDefs fn) (slotsTaken fn) (bbStart fn b) (blockFrom fn b (bbStart fn b))).1

/-- The code with the dead stores taken out. -/
def code (T : Target) (fn : Func) : List (Option Ins) :=
  fn.ins.mapIdx fun n i => if n ∈ dead T fn then none else some i

def passDse (T : Target) (fn : Func) : Func := { fn with ins := (code T fn).reduceOption }

section
variable (T : Target) (fn : Func)

/-- The list the walk has when it has been down to `n`. -/
def laters (b n : ℕ) : List Later :=
  (walk T fn (computeDefs fn) (slotsTaken fn) n (blockFrom fn b n)).2

/-- Is the instruction at `n` dead? -/
def deadAt (b n : ℕ) (i : Ins) : Bool :=
  (turn T fn (computeDefs fn) (slotsTaken fn) i (laters T fn b (n + 1))).1

variable {T fn} {b n m : ℕ} {i : Ins}

lemma blockFrom_eq (hn : InBlock fn b n) (hi : fn.ins[n]? = some i) : blockFrom fn b n = i :: blockFrom fn b (n + 1) := by
  have hlt : n < (fn.ins.take (bbEnd fn b)).length := by
    rw [length_take]
    have := hn.2
    have := hn.lt
    omega
  have hget : (fn.ins.take (bbEnd fn b))[n]? = some i := by
    rw [getElem?_take_of_lt hn.2]
    exact hi
  rw [blockFrom, drop_eq_getElem_cons hlt, blockFrom]
  rw [getElem?_eq_getElem hlt] at hget
  rw [Option.some.inj hget]

lemma blockFrom_end (b : ℕ) : blockFrom fn b (bbEnd fn b) = [] := by
  rw [blockFrom, drop_eq_nil_iff, length_take]
  exact min_le_left _ _

lemma laters_end (b : ℕ) : laters T fn b (bbEnd fn b) = [] := by
  rw [laters, blockFrom_end]
  rfl

lemma laters_eq (hn : InBlock fn b n) (hi : fn.ins[n]? = some i) : laters T fn b n =
      (turn T fn (computeDefs fn) (slotsTaken fn) i (laters T fn b (n + 1))).2 := by
  rw [laters, blockFrom_eq hn hi]
  rfl

/-- The backward walk marks the stores that are dead where they stand. -/
lemma mem_walk (hn : bbStart fn b ≤ n) (hle : n ≤ bbEnd fn b) : m ∈ (walk T fn (computeDefs fn) (slotsTaken fn) n
    (blockFrom fn b n)).1 ↔ n ≤ m ∧ m < bbEnd fn b ∧ ∃ i, fn.ins[m]? = some i ∧ deadAt T fn b m i = true := by
  -- from the end of the block up
  induction hk : bbEnd fn b - n generalizing n with
  | zero =>
    obtain rfl : n = bbEnd fn b := by omega
    rw [blockFrom_end]
    simp only [walk, not_mem_nil, false_iff]
    omega
  | succ k ih =>
    have hb : InBlock fn b n := ⟨hn, by omega⟩
    obtain ⟨i, hi⟩ : ∃ i, fn.ins[n]? = some i := ⟨_, getElem?_eq_getElem hb.lt⟩
    have hrest := ih (n := n + 1) (by omega) (by omega) (by omega)
    have hcases : m ∈ (walk T fn (computeDefs fn) (slotsTaken fn) n (blockFrom fn b n)).1 ↔ m = n ∧ deadAt T fn b n i = true ∨
          m ∈ (walk T fn (computeDefs fn) (slotsTaken fn) (n + 1) (blockFrom fn b (n + 1))).1 := by
      rw [blockFrom_eq hb hi, deadAt, laters, walk]
      split_ifs with hd
      · simp [hd]
      · simp [hd]
    rw [hcases, hrest]
    constructor
    · rintro (⟨rfl, hd⟩ | ⟨h1, h2, h3⟩)
      · exact ⟨le_rfl, hb.2, _, hi, hd⟩
      · exact ⟨by omega, h2, h3⟩
    · rintro ⟨h1, h2, i, hmi, hd⟩
      by_cases hmn : m = n
      · subst hmn
        obtain rfl := Option.some.inj (hi.symm.trans hmi)
        exact .inl ⟨rfl, hd⟩
      · exact .inr ⟨by omega, h2, i, hmi, hd⟩

lemma mem_dead (hn : InBlock fn b n) (hi : fn.ins[n]? = some i) : n ∈ dead T fn ↔ deadAt T fn b n i = true := by
  have hblock : ∀ c, n ∈ (walk T fn (computeDefs fn) (slotsTaken fn) (bbStart fn c) (blockFrom fn c (bbStart fn c))).1 ↔
      InBlock fn c n ∧ ∃ j, fn.ins[n]? = some j ∧ deadAt T fn c n j = true := by
    intro c
    rw [mem_walk le_rfl (bbStart_mono fn (Nat.le_succ c)), InBlock, and_assoc]
  simp only [dead, mem_flatMap, mem_range, hblock]
  constructor
  · rintro ⟨c, -, hc, j, hj, hd⟩
    obtain rfl := hn.unique hc
    obtain rfl := Option.some.inj (hi.symm.trans hj)
    exact hd
  · exact fun hd => ⟨b, hn.block_lt, hn, i, hi, hd⟩

lemma code_getElem (hi : fn.ins[n]? = some i) : (code T fn)[n]? = some (if n ∈ dead T fn then none else some i) := by
  rw [code, getElem?_mapIdx, hi]
  rfl

end
end Dse
end EmbCC.Opt
