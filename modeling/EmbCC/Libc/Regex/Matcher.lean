import Mathlib

/-!
# The regular expression matcher

`match`, `next` and `regexec` of `regex.c`, on the trees of its parser. A chain of
`struct k` is a list of frames, and the fields of `struct m` that a search changes are
its state. The two functions call each other with one unit of `fuel` less each time;
the number of steps is bounded, and with it the depth of the calls, so the fuel of
`regexec` is more than they use (`matchNode_fuel`). The memory for the captures is
taken to be there.
-/

namespace EmbCC.Libc.Regex

open Function

def stepLimit : ℕ := 20000000

/-- `struct node`. A set is 256 bits, and is negated or not; a repetition without a limit has no
`max`. -/
inductive Node
  | empty
  | char (c : ℕ)
  | any
  | set (bits : BitVec 256) (neg : Bool)
  | bol
  | eol
  | wordb
  | nwordb
  | wbeg
  | wend
  | bufbeg
  | bufend
  | group (num : ℕ) (kid : Node)
  | bref (num : ℕ)
  | cat (kids : List Node)
  | alt (kids : List Node)
  | rep (min : ℕ) (max : Option ℕ) (kid : Node)

/-- `struct k`: what must follow. `seq` has the kids that are left. -/
inductive Frame
  | seq (kids : List Node)
  | rep (min : ℕ) (max : Option ℕ) (kid : Node) (idx start : ℕ)
  | group (num gstart : ℕ)

/-- The fields of `struct m` that a search reads: the string is `s[lo, hi)`. -/
structure Text where
  s : List UInt8
  lo : ℕ
  hi : ℕ
  notbol : Bool := false
  noteol : Bool := false
  newline : Bool := false
  icase : Bool := false
  firstOnly : Bool := false

/-- `regmatch_t`. -/
abbrev Span := ℤ × ℤ

/-- The fields of `struct m` that a search writes. -/
structure State where
  cap : ℕ → Span := fun _ => (-1, -1)
  best : ℕ → Span := fun _ => (-1, -1)
  bestEnd : ℕ := 0
  found : Bool := false
  spent : Bool := false
  steps : ℕ := 0

/-- `(regoff_t)i`: an `int`. -/
def regoff (i : ℕ) : ℤ := Int.bmod i (2 ^ 32)

variable (m : Text)

/-- `(unsigned char)m->s[i]`. -/
def Text.at (i : ℕ) : ℕ := (m.s.getD i 0).toNat

def isalnum (c : ℕ) : Bool := (48 ≤ c && c ≤ 57) || (65 ≤ c && c ≤ 90) || (97 ≤ c && c ≤ 122)

def tolower (c : ℕ) : ℕ := if 65 ≤ c && c ≤ 90 then c + 32 else c

def isWord (c : ℕ) : Bool := isalnum c || c == 95

def done (i : ℕ) (st : State) : Bool × State :=
  (m.firstOnly || i == m.hi,
    if !st.found || i > st.bestEnd then { st with found := true, bestEnd := i, best := st.cap } else st)

/-- `one`: does one character at `i` match the single-character node? -/
def one (n : Node) (i : ℕ) : Bool :=
  if i ≥ m.hi then false
  else
    let c := m.at i
    match n with
    | .char d => c == d
    | .any => c != 0 && !(c == 10 && m.newline)
    | .set bits neg => if c == 10 && neg && m.newline then false else bits.getLsbD c
    | _ => false

/-- A single character, a set or `.`. -/
def Node.isOne : Node → Bool
  | .char _ | .any | .set .. => true
  | _ => false

/-- The condition of an anchor or a word assertion at `i`. -/
def anchorOk (n : Node) (i : ℕ) : Bool :=
  let before := i > m.lo && isWord (m.at (i - 1))
  let after := i < m.hi && isWord (m.at i)
  match n with
  | .bol => (i == 0 && !m.notbol) || (i > 0 && m.at (i - 1) == 10 && m.newline)
  | .eol => (i == m.hi && !m.noteol) || (i < m.hi && m.at i == 10 && m.newline)
  | .bufbeg => i == m.lo
  | .bufend => i == m.hi
  | .wordb => before != after
  | .nwordb => before == after
  | .wbeg => !before && after
  | .wend => before && !after
  | _ => false

/-- `(unsigned char)` characters equal, or equal but for their case. -/
def sameChar (a b : ℕ) : Bool := a == b || (m.icase && tolower a == tolower b)

/-- A back-reference to `g` at `i`: its length where it matches. -/
def brefLen (g : Span) (i : ℕ) : Option ℕ :=
  if g.1 < 0 then none
  else
    let so := g.1.toNat
    let len := (g.2 - g.1).toNat
    if i + len > m.hi then none
    else if (List.range len).all fun j => sameChar m (m.at (so + j)) (m.at (i + j)) then some len
    else none

/-- `if (a) return 1;`, and what follows it. -/
def orElse (a : Bool × State) (f : State → Bool × State) : Bool × State := if a.1 then a else f a.2

/-- Each in turn, until one returns 1. -/
def tryAll (fs : List (State → Bool × State)) (st : State) : Bool × State :=
  fs.foldr (fun f rest st => orElse (f st) rest) (fun st => (false, st)) st

/-- `++m->steps > STEP_LIMIT`. -/
def tick (st : State) (f : State → Bool × State) : Bool × State :=
  let st := { st with steps := st.steps + 1 }
  if st.steps > stepLimit then (true, { st with spent := true }) else f st

/-- How many characters from `i` on match, up to `cap`; without a limit they are no more than the string
has left. -/
def runLen (n : Node) (i : ℕ) : ℕ → ℕ
  | 0 => 0
  | cap + 1 => if one m n i then runLen n (i + 1) cap + 1 else 0

/-- `for (j = run; j >= min; j--)`. -/
def giveBack (min : ℕ) (f : ℕ → State → Bool × State) : ℕ → State → Bool × State
  | j, st =>
    if j < min then (false, st)
    else
      orElse (f j st) fun st => tick st fun st =>
        match j with
        | 0 => (false, st)
        | j + 1 => giveBack min f j st

/-- Is there room for one more iteration? -/
def below (count : ℕ) : Option ℕ → Bool
  | none => true
  | some max => count < max

mutual

def next (m : Text) : ℕ → List Frame → ℕ → State → Bool × State
  | 0, _, _, st => (true, { st with spent := true })
  | _ + 1, [], i, st => done m i st
  | fuel + 1, .seq (kid :: kids) :: k, i, st => matchNode m fuel kid i (.seq kids :: k) st
  | fuel + 1, .seq [] :: k, i, st => next m fuel k i st
  | fuel + 1, .group g gstart :: k, i, st =>
    let old := st.cap g
    let (r, st) := next m fuel k i { st with cap := update st.cap g (regoff gstart, regoff i) }
    (r, { st with cap := update st.cap g old })
  | fuel + 1, .rep min max kid idx start :: k, i, st =>
    let count := idx + 1
    -- an iteration that matched nothing would match nothing forever
    if i = start ∧ count > min then (false, st)
    else
      orElse
        (if below count max then matchNode m fuel kid i (.rep min max kid count i :: k) st
          else (false, st))
        fun st => if count ≥ min then next m fuel k i st else (false, st)

/-- `match`. -/
def matchNode (m : Text) : ℕ → Node → ℕ → List Frame → State → Bool × State
  | 0, _, _, _, st => (true, { st with spent := true })
  | fuel + 1, n, i, k, st =>
    tick st fun st =>
      match n with
      | .empty => next m fuel k i st
      | .char c => if one m (.char c) i then next m fuel k (i + 1) st else (false, st)
      | .any => if one m .any i then next m fuel k (i + 1) st else (false, st)
      | .set bits neg => if one m (.set bits neg) i then next m fuel k (i + 1) st else (false, st)
      | .group num kid => matchNode m fuel kid i (.group num i :: k) st
      | .bref num =>
        match brefLen m (st.cap num) i with
        | some len => next m fuel k (i + len) st
        | none => (false, st)
      | .cat [] => next m fuel k i st
      | .cat (kid :: kids) => matchNode m fuel kid i (.seq kids :: k) st
      | .alt kids => tryAll (kids.map fun kid => matchNode m fuel kid i k) st
      | .rep min max kid =>
        if kid.isOne then
          -- count the run, then give back from the longest
          let run := runLen m kid i (max.getD (m.hi - i))
          giveBack min (fun j => next m fuel k (i + j)) run st
        else
          orElse
            (if max ≠ some 0 then matchNode m fuel kid i (.rep min max kid 0 i :: k) st
              else (false, st))
            fun st => if min = 0 then next m fuel k i st else (false, st)
      | n => if anchorOk m n i then next m fuel k i st else (false, st)

end

/-- `struct prog`, with the flags it was compiled with. -/
structure Prog where
  root : Node
  nsub : ℕ := 0
  newline : Bool := false
  icase : Bool := false
  nosub : Bool := false
  hasBref : Bool := false

/-- `kid`. -/
def Node.kids : Node → List Node
  | .group _ kid | .rep _ _ kid => [kid]
  | .cat kids | .alt kids => kids
  | _ => []

/-- A pattern anchored at the start of the text cannot match later, unless a newline makes a new line
there. -/
def Prog.anchored (pg : Prog) : Bool :=
  match pg.root.kids with
  | [b] =>
    match b.kids with
    | .bufbeg :: _ => true
    | .bol :: _ => !pg.newline
    | _ => false
  | _ => false

def regNomatch : ℕ := 1

def regEspace : ℕ := 12

/-- More calls than can be open at once. -/
def callDepth : ℕ := 3 * (stepLimit + 1)

/-- The loop of `regexec` over the start positions: an error, or what is reported. The test `(int)g < ncap`
is of an `int`; an entry of `best` behind its end is `(-1, -1)` here. -/
def searchFrom (m : Text) (pg : Prog) (nmatch : ℕ) : List ℕ → Except ℕ (List Span)
  | [] => .error regNomatch
  | start :: rest =>
    let st := (matchNode m callDepth pg.root start [] {}).2
    if st.spent then .error regEspace
    else if st.found then
      let best := update st.best 0 (regoff start, regoff st.bestEnd)
      .ok ((List.range nmatch).map fun g => if regoff g < pg.nsub + 1 then best g else (-1, -1))
    else if pg.anchored then .error regNomatch
    else searchFrom m pg nmatch rest

def strlen (s : List UInt8) : ℕ := (s.takeWhile (· ≠ 0)).length

/-- What `regexec` puts into `struct m`; `range` is what `pmatch[0]` holds with `REG_STARTEND`. -/
def Prog.text (pg : Prog) (s : List UInt8) (nmatch : ℕ) (range : Option (ℕ × ℕ)) (notbol noteol : Bool) :
    Text :=
  let (lo, hi) := range.getD (0, strlen s)
  { s, lo, hi, notbol, noteol, newline := pg.newline, icase := pg.icase
    firstOnly := nmatch == 0 && !pg.hasBref }

/-- `REG_NOSUB`: nothing is reported. -/
def Prog.reported (pg : Prog) (nmatch : ℕ) : ℕ := if pg.nosub then 0 else nmatch

def regexec (pg : Prog) (s : List UInt8) (nmatch : ℕ) (range : Option (ℕ × ℕ)) (notbol noteol : Bool) :
    Except ℕ (List Span) :=
  let m := pg.text s (pg.reported nmatch) range notbol noteol
  searchFrom m pg (pg.reported nmatch) (List.range' m.lo (m.hi + 1 - m.lo))

end EmbCC.Libc.Regex
