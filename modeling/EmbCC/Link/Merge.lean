import EmbCC.Lib.Probe
import EmbCC.Lib.Words

/-!
# Merging sections

`merge_group` of `link.c` makes one section of a group of `SHF_MERGE` inputs.
Every input is cut into strings or entries; equal ones are found through a hash
table and the first stands for the rest; the distinct strings are sorted by
their characters read backwards, and one that ends another is put inside it when
it lands aligned there; the others are placed in order of appearance.
`merge_map` says where a byte of an input went.

A string is its bytes, with the terminator, where the code has a pointer and a
length. `qsort` is an insertion sort. Arrays filled from the last index down are lists
built from the end. A probe of the hash table that finds no slot, which would go
on for ever, is `none`.
-/

namespace EmbCC.Link

open Words Probe

abbrev Bytes := List (BitVec 8)

/-- `struct mpiece`; the new place of a piece that was dropped is `none`. -/
structure Mpiece where
  old : ℕ
  len : ℕ
  nw : Option ℕ

/-- The binary search of `merge_map` in the pieces from `lo` to before `hi`. -/
def mapLoop (mp : List Mpiece) (off : ℕ) : ℕ → ℕ → ℕ → Option Mpiece
  | 0, _, _ => none
  | k + 1, lo, hi =>
    if lo < hi then
      let m := (lo + (hi - 1)) / 2
      match mp[m]? with
      | none => none
      | some p =>
        if off < p.old then mapLoop mp off k lo m
        else if p.old + p.len ≤ off then mapLoop mp off k (m + 1) hi
        else some p
    else none

def mergeMap (mp : List Mpiece) (off : ℕ) : Option ℕ :=
  match mapLoop mp off mp.length 0 mp.length with
  | some p => p.nw.map (· + (off - p.old))
  | none =>
    -- one past the end: past the last piece
    mp.getLast?.bind fun p => if off = p.old + p.len then p.nw.map (· + p.len) else none

/-- `struct mstr`: a string or entry, and the input it spans. -/
structure Mstr where
  bytes : Bytes
  span : ℕ

/-- The next character is a terminator. -/
def isZero (es : ℕ) (d : Bytes) : Bool := (d.take es).all (· == 0)

/-- The bytes up to and with the first terminator, or to the end. -/
def strLen (es : ℕ) : ℕ → Bytes → ℕ
  | 0, _ => 0
  | k + 1, d => if isZero es d ∨ d.length ≤ es then es else es + strLen es k (d.drop es)

/-- The zeros up to the next aligned string. -/
def padLen (es align : ℕ) : ℕ → ℕ → Bytes → ℕ
  | 0, _, _ => 0
  | k + 1, pos, d =>
    if d ≠ [] ∧ pos % align ≠ 0 ∧ isZero es d then es + padLen es align k (pos + es) (d.drop es) else 0

/-- The pieces of an input, from a position on. -/
def pieces (es align : ℕ) (strings : Bool) : ℕ → ℕ → Bytes → List Mstr
  | 0, _, _ => []
  | k + 1, pos, d =>
    if d = [] then []
    else
      let len := if strings then strLen es d.length d else es
      let span := if strings ∧ es < align then
        len + padLen es align d.length (pos + len) (d.drop len) else len
      ⟨d.take len, span⟩ :: pieces es align strings k (pos + span) (d.drop span)

def mergeHash (x : Bytes) : ℕ :=
  x.foldl (fun h b => ((h ^^^ b.toNat) * 1099511628211) % 2 ^ 64) 1469598103934665603

/-- The size of the hash table: doubled until it is twice what goes in. -/
def hashCap (n : ℕ) : ℕ → ℕ → ℕ
  | 0, cap => cap
  | k + 1, cap => if cap < 2 * n then hashCap n k (cap * 2) else cap

/-- What stands for each string, those from `k` on being left. The capacity is a power of two, so
that masking is taking the remainder. -/
def dedup (v : List Bytes) (cap : ℕ) : List Bytes → ℕ → (ℕ → Option ℕ) → Option (List ℕ)
  | [], _, _ => some []
  | x :: rest, k, ht =>
    (probe ht (fun j => v.getD j [] = x) cap cap (mergeHash x % cap)).bind fun hh =>
      match ht hh with
      | some j => (dedup v cap rest (k + 1) ht).map (j :: ·)
      | none => (dedup v cap rest (k + 1) (Function.update ht hh (some k))).map (k :: ·)

/-- `memcmp` of two runs of bytes of one length. -/
def memcmp : Bytes → Bytes → Ordering
  | a :: x, b :: y => (compare a.toNat b.toNat).then (memcmp x y)
  | _, _ => .eq

/-- The loop of `merge_rcmp`. -/
def rcmpLoop (es : ℕ) (x y : Bytes) : ℕ → ℕ → ℕ → Ordering
  | 0, _, _ => .eq
  | k + 1, i, j =>
    if i ≠ 0 ∧ j ≠ 0 then
      match memcmp ((x.drop (i - es)).take es) ((y.drop (j - es)).take es) with
      | .eq => rcmpLoop es x y k (i - es) (j - es)
      | c => c
    else if i ≠ 0 then .gt
    else if j ≠ 0 then .lt
    else .eq

/-- `merge_rcmp`: by the characters read backwards, past the terminator. -/
def mergeRcmp (es : ℕ) (x y : Bytes) : Ordering :=
  rcmpLoop es x y (x.length + 1) (x.length - es) (y.length - es)

/-- A distinct string, and its place among all. -/
structure Ustr where
  bytes : Bytes
  rep : ℕ

/-- A distinct string with its container, as the distance to it (`uidx`), and where in its outermost
container it starts (`rel`). -/
structure Tail where
  str : Ustr
  up : Option ℕ
  rel : ℕ

/-- The first of the strings behind `x` in which it lands aligned, as long as they end in it. -/
def container (al : ℕ) (x : Bytes) : ℕ → List Tail → Option (ℕ × ℕ)
  | _, [] => none
  | d, t :: ts =>
    if t.str.bytes.length < x.length ∨ t.str.bytes.drop (t.str.bytes.length - x.length) ≠ x then none
    else
      let r := t.rel + (t.str.bytes.length - x.length)
      if r % al = 0 then some (d, r) else container al x (d + 1) ts

/-- The containers of the strings, each looked for among the 64 behind it. -/
def tails (tail : Bool) (al : ℕ) : List Ustr → List Tail
  | [] => []
  | x :: us =>
    let ts := tails tail al us
    match if tail then container al x.bytes 0 (ts.take 64) else none with
    | some (d, r) => ⟨x, some d, r⟩ :: ts
    | none => ⟨x, none, 0⟩ :: ts

/-- The outermost container of the first of the strings. -/
def outermost : ℕ → List Tail → Option Tail
  | 0, _ => none
  | _ + 1, [] => none
  | k + 1, t :: ts =>
    match t.up with
    | none => some t
    | some d => outermost k (ts.drop d)

/-- Containers placed one behind the other. -/
def place (al : ℕ) : ℕ → List Ustr → List (Ustr × ℕ)
  | _, [] => []
  | size, s :: ss =>
    let nw := (size + al - 1) / al * al
    (s, nw) :: place al (nw + s.bytes.length) ss

/-- The size of the section they make. -/
def placedSize (al : ℕ) : ℕ → List Ustr → ℕ
  | size, [] => size
  | size, s :: ss => placedSize al ((size + al - 1) / al * al + s.bytes.length) ss

/-- `memcpy`. -/
def memcpyAt (out : Mem) (a : ℕ) (x : Bytes) : Mem := fun z =>
  if a ≤ z ∧ z < a + x.length then x.getD (z - a) 0 else out z

/-- The bytes of the merged section. -/
def mergedData (placed : List (Ustr × ℕ)) : Mem :=
  placed.foldl (fun out s => memcpyAt out s.2 s.1.bytes) fun _ => 0

/-- Where the string at a place among all was put, by its number. -/
def placeOf (placed : List (Ustr × ℕ)) (rep : ℕ) : Option ℕ :=
  (placed.find? fun s => s.1.rep = rep).map Prod.snd

/-- Where each distinct string went. -/
def newPlaces (placed : List (Ustr × ℕ)) : List Tail → List (ℕ × Option ℕ)
  | [] => []
  | t :: ts =>
    let nw := match t.up with
      | none => placeOf placed t.str.rep
      | some _ => (outermost (ts.length + 1) (t :: ts)).bind fun c =>
          (placeOf placed c.str.rep).map (· + t.rel)
    (t.str.rep, nw) :: newPlaces placed ts

/-- The pieces of the next input, as many as it has bytes for. -/
def takeSpan (size : ℕ) : ℕ → List (Mstr × ℕ) → List (Mstr × ℕ) × List (Mstr × ℕ)
  | _, [] => ([], [])
  | off, x :: xs =>
    if off < size then
      let r := takeSpan size (off + x.1.span) xs
      (x :: r.1, r.2)
    else ([], x :: xs)

/-- The map of an input with these pieces. -/
def pieceMap (nw : List (ℕ × Option ℕ)) : ℕ → List (Mstr × ℕ) → List Mpiece
  | _, [] => []
  | off, x :: xs => ⟨off, x.1.span, (nw.lookup x.2).join⟩ :: pieceMap nw (off + x.1.span) xs

/-- An input of a group. -/
structure Member where
  data : Bytes
  align : ℕ

/-- The maps of the inputs. -/
def memberMaps (nw : List (ℕ × Option ℕ)) : List Member → List (Mstr × ℕ) → List (List Mpiece)
  | [], _ => []
  | m :: ms, vr =>
    let r := takeSpan m.data.length 0 vr
    pieceMap nw 0 r.1 :: memberMaps nw ms r.2

/-- A group as `merge_sections` makes it: whole characters or entries, and strings that end in a
terminator. -/
structure Group where
  es : ℕ
  strings : Bool
  members : List Member
  es_pos : 0 < es
  align_pos : ∀ m ∈ members, 0 < m.align
  whole : ∀ m ∈ members, es ∣ m.data.length
  terminated : strings = true → ∀ m ∈ members, isZero es (m.data.drop (m.data.length - es)) = true

/-- The largest alignment. -/
def Group.align (g : Group) : ℕ := (g.members.map Member.align).foldl max 0

/-- The alignment of what is placed. -/
def Group.al (g : Group) : ℕ := if g.align > g.es then g.align else g.es

/-- The merged section and the maps of the inputs. -/
structure Merged where
  size : ℕ
  data : Mem
  maps : List (List Mpiece)

/-- The pieces of an input of the group. -/
def Group.cut (g : Group) (m : Member) : List Mstr :=
  pieces g.es g.align g.strings m.data.length 0 m.data

/-- What is made of the pieces, each with what stands for it. -/
def Group.layOut (g : Group) (vr : List (Mstr × ℕ)) : Merged :=
  let u := vr.zipIdx.filterMap fun x => if x.1.2 = x.2 then some ⟨x.1.1.bytes, x.2⟩ else none
  let u := if g.strings then u.insertionSort fun a b => mergeRcmp g.es a.bytes b.bytes ≠ .gt else u
  let ts := tails g.strings g.al u
  let ord := ((ts.filter fun t => t.up.isNone).map Tail.str).insertionSort fun a b => a.rep ≤ b.rep
  let placed := place g.al 0 ord
  { size := placedSize g.al 0 ord
    data := mergedData placed
    maps := memberMaps (newPlaces placed ts) g.members vr }

def mergeGroup (g : Group) : Option Merged :=
  let v := g.members.flatMap g.cut
  let n := v.length
  (dedup (v.map Mstr.bytes) (hashCap n n 16) (v.map Mstr.bytes) 0 fun _ => none).map fun reps =>
    g.layOut (v.zip reps)

end EmbCC.Link
