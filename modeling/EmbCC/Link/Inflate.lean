import EmbCC.Lib.Bits

/-!
# The zlib reader

`inflate_zlib` of `link.c`, which undoes the compression of a debug section:
stored, fixed and dynamic blocks, with a decoder for canonical Huffman codes.
A symbol -1 is `none`, and so is a damaged stream. What stands in a `symbol` or
`l` that was never written is read as 0. The loops have more turns than the
input has bits.
-/

namespace EmbCC.Link

/-- `struct infl`. -/
structure Infl where
  input : List (BitVec 8)
  inpos : ℕ := 0
  bitbuf : ℕ := 0
  bitcnt : ℕ := 0
  out : List (BitVec 8) := []
  bad : Bool := false

/-- `struct inhuff`. -/
structure Inhuff where
  count : List ℕ
  symbol : List ℕ
deriving DecidableEq

namespace Infl

/-- The `while` of `infl_bits`; `none` when the input ends. -/
def fill (need : ℕ) : ℕ → ℕ → Infl → Option ℕ × Infl
  | 0, val, s => (some val, s)
  | k + 1, val, s =>
    if s.bitcnt < need then
      if s.inpos ≥ s.input.length then (none, { s with bad := true })
      else
        let c := (s.input.getD s.inpos 0).toNat
        fill need k (val ||| c <<< s.bitcnt)
          { s with inpos := s.inpos + 1, bitcnt := s.bitcnt + 8 }
    else (some val, s)

def inflBits (s : Infl) (need : ℕ) : ℕ × Infl :=
  match fill need need s.bitbuf s with
  | (none, s) => (0, s)
  | (some val, s) =>
    (val &&& (1 <<< need - 1), { s with bitbuf := val >>> need, bitcnt := s.bitcnt - need })

def inflPut (s : Infl) (c : BitVec 8) : Infl := { s with out := s.out ++ [c] }

/-- The loop of `infl_decode` from the length `len` on; `k` lengths are left. -/
def decodeFrom (h : Inhuff) : ℕ → ℕ → ℕ → ℕ → ℕ → Infl → Option ℕ × Infl
  | 0, _, _, _, _, s => (none, { s with bad := true })
  | k + 1, len, code, first, index, s =>
    let (bit, s) := s.inflBits 1
    let code := code ||| bit
    let count := h.count.getD len 0
    if code < first + count then (some (h.symbol.getD (index + code - first) 0), s)
    else if s.bad then (none, s)
    else decodeFrom h k (len + 1) (code <<< 1) ((first + count) <<< 1) (index + count) s

def inflDecode (s : Infl) (h : Inhuff) : Option ℕ × Infl := decodeFrom h 15 1 0 0 0 s

end Infl

def inflBuild (length : List ℕ) : Inhuff :=
  let count := length.foldl (fun c l => c.modify l (· + 1)) (List.replicate 16 0)
  let offs := (List.range' 1 14).foldl
    (fun o len => o.set (len + 1) (o.getD len 0 + count.getD len 0)) (List.replicate 16 0)
  let filled := length.zipIdx.foldl
    (fun (o, s) (l, sym) =>
      if l ≠ 0 then (o.modify l (· + 1), s.set (o.getD l 0) sym) else (o, s))
    (offs, List.replicate 320 0)
  { count, symbol := filled.2 }

def inLbase : List ℕ :=
  [3, 4, 5, 6, 7, 8, 9, 10, 11, 13, 15, 17, 19, 23, 27, 31, 35, 43, 51, 59,
   67, 83, 99, 115, 131, 163, 195, 227, 258]

def inLext : List ℕ :=
  [0, 0, 0, 0, 0, 0, 0, 0, 1, 1, 1, 1, 2, 2, 2, 2, 3, 3, 3, 3, 4, 4, 4, 4,
   5, 5, 5, 5, 0]

def inDbase : List ℕ :=
  [1, 2, 3, 4, 5, 7, 9, 13, 17, 25, 33, 49, 65, 97, 129, 193, 257, 385, 513,
   769, 1025, 1537, 2049, 3073, 4097, 6145, 8193, 12289, 16385, 24577]

def inDext : List ℕ :=
  [0, 0, 0, 0, 1, 1, 2, 2, 3, 3, 4, 4, 5, 5, 6, 6, 7, 7, 8, 8, 9, 9, 10, 10,
   11, 11, 12, 12, 13, 13]

namespace Infl

/-- The copy of a match: bytes it has just put are read again when `dist < len`. -/
def copyBack (dist : ℕ) : ℕ → Infl → Infl
  | 0, s => s
  | len + 1, s => copyBack dist len (s.inflPut (s.out.getD (s.out.length - dist) 0))

/-- What `infl_codes` does with the symbol of a length, `sym` less 257, and whether it goes on. -/
def inflMatch (s : Infl) (dc : Inhuff) (sym : ℕ) : Bool × Infl :=
  if sym ≥ 29 then (false, { s with bad := true })
  else
    let (ext, s) := s.inflBits (inLext.getD sym 0)
    let len := inLbase.getD sym 0 + ext
    let (ds, s) := s.inflDecode dc
    match ds with
    | none => (false, { s with bad := true })
    | some ds =>
      if s.bad ∨ ds ≥ 30 then (false, { s with bad := true })
      else
        let (ext, s) := s.inflBits (inDext.getD ds 0)
        let dist := inDbase.getD ds 0 + ext
        if dist > s.out.length then (false, { s with bad := true })
        else (true, copyBack dist len s)

/-- The loop of `infl_codes`, for at most `k` symbols. -/
def codesLoop (lc dc : Inhuff) : ℕ → Infl → Infl
  | 0, s => s
  | k + 1, s =>
    let (sym, s) := s.inflDecode lc
    match sym with
    | none => s
    | some sym =>
      if s.bad then s
      else if sym < 256 then codesLoop lc dc k (s.inflPut (BitVec.ofNat 8 sym))
      else if sym = 256 then s
      else
        let (more, s) := s.inflMatch dc (sym - 257)
        if more then codesLoop lc dc k s else s

def inflCodes (s : Infl) (lc dc : Inhuff) : Infl := codesLoop lc dc (8 * s.input.length + 1) s

/-- A stored block. -/
def stored (s : Infl) : Infl :=
  let s := { s with bitbuf := 0, bitcnt := 0 }
  if s.inpos + 4 > s.input.length then { s with bad := true }
  else
    let len := (s.input.getD s.inpos 0).toNat ||| (s.input.getD (s.inpos + 1) 0).toNat <<< 8
    let s := { s with inpos := s.inpos + 4 }
    if s.inpos + len > s.input.length then { s with bad := true }
    else { s with out := s.out ++ (s.input.drop s.inpos).take len, inpos := s.inpos + len }

end Infl

/-- The code lengths of the fixed codes. -/
def fixedLengths : List ℕ :=
  List.replicate 144 8 ++ List.replicate 112 9 ++ List.replicate 24 7 ++ List.replicate 8 8

/-- The static `lc` of a fixed block. -/
def fixedLc : Inhuff := inflBuild fixedLengths

/-- The static `dc` of a fixed block. -/
def fixedDc : Inhuff := inflBuild (List.replicate 30 5)

namespace Infl

def order : List ℕ := [16, 17, 18, 0, 8, 7, 9, 6, 10, 5, 11, 4, 12, 3, 13, 2, 14, 1, 15]

/-- The lengths of the code length code, 19 of them, the first `ncode` from the stream. -/
def codeLengths (s : Infl) (ncode : ℕ) : List ℕ × Infl :=
  (List.range 19).foldl
    (fun (l, s) k =>
      if k < ncode then
        let (v, s) := s.inflBits 3
        (l.set (order.getD k 0) v, s)
      else (l.set (order.getD k 0) 0, s))
    (List.replicate 320 0, s)

/-- The loop that reads the lengths of both codes, from the `k`th on; each turn reads one or more. -/
def readLengths (lc : Inhuff) (total : ℕ) : ℕ → ℕ → List ℕ → Infl → List ℕ × Infl
  | 0, _, l, s => (l, s)
  | turns + 1, k, l, s =>
    if k < total ∧ ¬s.bad then
      let (sym, s) := s.inflDecode lc
      match sym with
      | none => (l, { s with bad := true })
      | some sym =>
        if sym < 16 then readLengths lc total turns (k + 1) (l.set k sym) s
        else if sym = 16 ∧ k = 0 then (l, { s with bad := true })
        else
          let len := if sym = 16 then l.getD (k - 1) 0 else 0
          let (ext, s) := s.inflBits (if sym = 16 then 2 else if sym = 17 then 3 else 7)
          let rep := (if sym = 16 ∨ sym = 17 then 3 else 11) + ext
          if k + rep > total then (l, { s with bad := true })
          else readLengths lc total turns (k + rep)
            ((List.range' k rep).foldl (fun l j => l.set j len) l) s
    else (l, s)

/-- A block with dynamic codes. -/
def dynamic (s : Infl) : Infl :=
  let (nlen, s) := s.inflBits 5
  let nlen := nlen + 257
  let (ndist, s) := s.inflBits 5
  let ndist := ndist + 1
  let (ncode, s) := s.inflBits 4
  let ncode := ncode + 4
  if nlen > 286 ∨ ndist > 30 then { s with bad := true }
  else
    let (l, s) := s.codeLengths ncode
    let (l, s) := readLengths (inflBuild (l.take 19)) (nlen + ndist) (nlen + ndist) 0 l s
    if s.bad then s
    else s.inflCodes (inflBuild (l.take nlen)) (inflBuild ((l.drop nlen).take ndist))

/-- The blocks of a stream, at most `k` of them. -/
def blocks : ℕ → Infl → Infl
  | 0, s => s
  | k + 1, s =>
    let (last, s) := s.inflBits 1
    let (type, s) := s.inflBits 2
    let s :=
      if type = 0 then s.stored
      else if type = 1 then s.inflCodes fixedLc fixedDc
      else if type = 2 then s.dynamic
      else { s with bad := true }
    if last = 0 ∧ ¬s.bad then blocks k s else s

end Infl

def inflateZlib (p : List (BitVec 8)) : Option (List (BitVec 8)) :=
  let p0 := (p.getD 0 0).toNat
  let p1 := (p.getD 1 0).toNat
  if p.length < 2 ∨ p0 &&& 0x0f ≠ 8 ∨ (p0 <<< 8 ||| p1) % 31 ≠ 0 then none
  else
    let s := Infl.blocks (8 * p.length + 1) { input := p.drop 2 }
    if s.bad then none else some s.out

end EmbCC.Link
