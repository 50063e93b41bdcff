import EmbCC.Lib.BitRow

/-!
# The sparse interference graph (`arch/regalloc.c`)

A node with at most `RG_ROW` neighbours keeps them in a list, one with more keeps a bit row.
Lists and rows belong to storage slots: `slot` says which slot a node is kept in, `owner` which
node a slot is, and entries and bits name slots. A list entry also holds where the reverse entry
is (`back`), while the neighbour has a list.

An access the source would make through a freed pointer or outside a list is `none` here.
-/

namespace EmbCC.Arch.Graph

open BitRow Function

/-- `RG_ROW`: the longest list. -/
def rgRow : ℕ := 32

/-- `struct rg_ent`: a neighbour slot, and this slot's index in its list. -/
structure RgEnt where
  v : ℕ
  back : ℤ
deriving DecidableEq, Repr

/-- What a slot keeps its neighbours in: `nb` and `nnb`, or `row`, or neither once its node is
absorbed. -/
inductive Store
  | list (l : List RgEnt)
  | row (r : Row)
  | freed

/-- The entries `nb[0 .. nnb - 1]`: none once there is a row. -/
def Store.nb : Store → List RgEnt
  | .list l => l
  | .row _ | .freed => []

/-- `struct ra_graph`, without the scratch buffer. -/
structure RaGraph where
  n : ℕ
  slot : ℕ → ℕ
  owner : ℕ → ℤ
  store : ℕ → Store
  deg : ℕ → ℤ

/-- The words of a row. -/
def RaGraph.words (g : RaGraph) : ℕ := (g.n + 63) / 64

/-- The graph with other storage for slot `a`. -/
def RaGraph.keep (g : RaGraph) (a : ℕ) (s : Store) : RaGraph :=
  { g with store := update g.store a s }

def rgInit (n : ℕ) : RaGraph where
  n := n
  slot e := e
  owner e := e
  store _ := .list []
  deg _ := 0

/-- `rg_slot_has`: are slots `a` and `b` neighbours? -/
def rgSlotHas (g : RaGraph) (a b : ℕ) : Bool :=
  match g.store a, g.store b with
  | .row r, _ => has r b
  | _, .row r => has r a
  | sa, sb =>
    if sb.nb.length < sa.nb.length then sb.nb.any (·.v == a) else sa.nb.any (·.v == b)

/-- `rg_has`: do nodes `a` and `b` interfere? -/
def rgHas (g : RaGraph) (a b : ℕ) : Bool := rgSlotHas g (g.slot a) (g.slot b)

/-- `rg_db`: the position of the lowest bit, by the top six bits of the product. -/
def rgDb : List ℕ :=
  [0, 1, 48, 2, 57, 49, 28, 3, 61, 58, 50, 42, 38, 29, 17, 4, 62, 55, 59,
   36, 53, 51, 43, 22, 45, 39, 33, 30, 24, 18, 12, 5, 63, 47, 56, 27, 60,
   41, 37, 16, 54, 35, 52, 21, 44, 32, 23, 11, 46, 26, 40, 15, 34, 20, 31,
   10, 25, 14, 19, 9, 13, 8, 7, 6]

/-- `RG_LOW`: the index of the lowest set bit of a nonzero word. -/
def rgLow (bits : BitVec 64) : ℕ :=
  rgDb.getD (((bits &&& (0 - bits)) * 0x03f79d71b4cb0a89#64) >>> 58).toNat 0

/-- `rg_row_slots`: the slots of a row. -/
def rgRowSlots (g : RaGraph) (r : Row) : List ℕ := members rgLow g.words r

/-- `rg_nbrs`: node `u`'s neighbours, as nodes. -/
def rgNbrs (g : RaGraph) (u : ℕ) : List ℤ :=
  match g.store (g.slot u) with
  | .row r => (rgRowSlots g r).map g.owner
  | s => s.nb.map fun e => g.owner e.v

/-- The row a full list turns into. -/
def rowOf (l : List RgEnt) : Row := l.foldl (fun r e => set r e.v) fun _ => 0

/-- `rg_put`: slot `a` gains neighbour slot `v`, whose list holds `a` at index `back`. The new
entry's index in `a`'s list, or -1 when `a` has a row, already or now. -/
def rgPut (g : RaGraph) (a v : ℕ) (back : ℤ) : Option (RaGraph × ℤ) :=
  match g.store a with
  | .freed => none
  | .row r => some (g.keep a (.row (set r v)), -1)
  | .list l =>
    if l.length = rgRow then some (g.keep a (.row (set (rowOf l) v)), -1)
    else some (g.keep a (.list (l ++ [⟨v, back⟩])), l.length)

/-- `rg_find`: where slot `a`'s list names slot `v`: `hint` when it is the place, else a scan.
-1 when `a` has a row. -/
def rgFind (g : RaGraph) (a v : ℕ) (hint : ℤ) : ℤ :=
  match g.store a with
  | .row _ => -1
  | s =>
    if 0 ≤ hint ∧ (s.nb[hint.toNat]?.any (·.v == v)) = true then hint
    else match s.nb.findIdx? (·.v == v) with
      | some k => k
      | none => -1

/-- `rg_add`'s `kb`: the index the next entry of a list gets, -1 when there is a row or will be. -/
def rgNext : Store → ℤ
  | .row _ => -1
  | s => if s.nb.length = rgRow then -1 else s.nb.length

/-- `rg_add`: make nodes `a` and `b` interfere; nothing if they already do. -/
def rgAdd (g : RaGraph) (a b : ℕ) : Option RaGraph :=
  if a = b then some g else
  let sa := g.slot a
  let sb := g.slot b
  if rgSlotHas g sa sb then some g else
  do
    let (g, ka) ← rgPut g sa sb (rgNext (g.store sb))
    let (g, _) ← rgPut g sb sa ka
    let deg := update g.deg a (g.deg a + 1)
    some { g with deg := update deg b (deg b + 1) }

/-- A write to entry `k` of a slot's list. -/
def RaGraph.entry (g : RaGraph) (a : ℕ) (k : ℤ) (f : RgEnt → RgEnt) : Option RaGraph :=
  match g.store a with
  | .list l => if 0 ≤ k ∧ k < l.length then some (g.keep a (.list (l.modify k.toNat f))) else none
  | .row _ | .freed => none

/-- `rg_drop`: slot `a` no longer has neighbour slot `v`, named at index `k` of its list. The
last entry takes its place, and that entry's reverse is told. -/
def rgDrop (g : RaGraph) (a v : ℕ) (k : ℤ) : Option RaGraph :=
  match g.store a with
  | .freed => none
  | .row r => some (g.keep a (.row (clear r v)))
  | .list l => do
    let m ← l.getLast?
    let last : ℤ := l.length - 1
    if k = last then some (g.keep a (.list l.dropLast)) else
    let g ← (g.keep a (.list l.dropLast)).entry a k fun _ => m
    match g.store m.v with
    | .row _ => some g
    | _ => g.entry m.v m.back fun e => { e with back := k }

/-- The neighbours of the slot a merge folds in, with where that slot is in each one's list. -/
def rgSmall (g : RaGraph) (small : ℕ) : List (ℕ × ℤ) :=
  match g.store small with
  | .row r => (rgRowSlots g r).map fun v => (v, -1)
  | s => s.nb.map fun e => (e.v, e.back)

/-- One turn of `rg_merge`'s loop: neighbour `v` of `small` names `big` instead, or, when it
names `big` already, loses one edge. The count is of the neighbours renamed. -/
def rgRename (big small : ℕ) (st : RaGraph × ℤ) (ve : ℕ × ℤ) : Option (RaGraph × ℤ) :=
  let (g, renamed) := st
  let (v, hint) := ve
  let j := rgFind g v small hint
  if rgSlotHas g big v then do
    let g ← rgDrop g v small j
    let u ← if 0 ≤ g.owner v then some (g.owner v).toNat else none
    some ({ g with deg := update g.deg u (g.deg u - 1) }, renamed)
  else match g.store v with
    | .row r => do
      let (g, _) ← rgPut (g.keep v (.row (set (clear r small) big))) big v (-1)
      some (g, renamed + 1)
    | _ => do
      let g ← g.entry v j fun e => { e with v := big }
      let (g, k) ← rgPut g big v j
      let g ← g.entry v j fun e => { e with back := k }
      some (g, renamed + 1)

/-- `rg_merge`: merge node `y` into node `x`, which do not interfere. The slot with more
neighbours is kept. -/
def rgMerge (g : RaGraph) (x y : ℕ) : Option RaGraph :=
  let swap := g.deg x < g.deg y
  let big := if swap then g.slot y else g.slot x
  let small := if swap then g.slot x else g.slot y
  let dbig := if swap then g.deg y else g.deg x
  do
    let (g, renamed) ← (rgSmall g small).foldlM (rgRename big small) (g, 0)
    some
      { g with
        store := update g.store small .freed
        slot := update g.slot x big
        owner := update (update g.owner big x) small (-1)
        deg := update (update g.deg x (dbig + renamed)) y 0 }

/-- A call on the graph. -/
inductive Call
  | add (a b : ℕ)
  | merge (x y : ℕ)
deriving DecidableEq, Repr

/-- The graph after a call. -/
def RaGraph.call (g : RaGraph) : Call → Option RaGraph
  | .add a b => rgAdd g a b
  | .merge x y => rgMerge g x y

/-- The graph after a sequence of calls. -/
def RaGraph.calls (g : RaGraph) (cs : List Call) : Option RaGraph := cs.foldlM RaGraph.call g

end EmbCC.Arch.Graph
