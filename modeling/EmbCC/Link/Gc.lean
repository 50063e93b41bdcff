import EmbCC.Lib.Rounds
import EmbCC.Lib.Words

/-!
# Section garbage collection

`--gc-sections` of `link.c`: input sections are marked from the roots, following
the relocations of each marked section to the sections of their symbols, and
keeping an `SHF_LINK_ORDER` section with the section it is about. `.eh_frame` is
a root whose FDEs do not refer to their functions: `eh_is_fde_pc` walks its
records to find out whether a relocation is at the `pc_begin` of one.

The tables are as the loader leaves them: headers, symbols and relocations in
host order, no section live yet. The hash table of global symbols is a search by
name. What `eh_neutralize` writes into dead FDEs afterwards is not modelled.
-/

namespace EmbCC.Link

open Words

/-- The fields of `Elf64_Shdr` that are read here. -/
structure Shdr where
  shType : ℕ := 0
  shFlags : ℕ := 0
  shOffset : ℕ := 0
  shSize : ℕ := 0
  shLink : ℕ := 0
  shInfo : ℕ := 0

/-- The fields of `Elf64_Sym`, the name looked up. -/
structure ElfSym where
  name : String := ""
  stInfo : ℕ := 0
  stShndx : ℕ := 0

/-- `struct object`. -/
structure Object (nsec : ℕ) where
  elf32 : Bool
  bigEndian : Bool
  buf : Mem
  shdrs : List Shdr
  syms : List ElfSym
  secOut : ℕ → Option (Fin nsec)

/-- `struct insec`; a section the linker made itself has no object. -/
structure Insec (nobj : ℕ) where
  name : String
  obj : Option (Fin nobj)
  shndx : ℕ := 0
  data : Option Mem := none
  size : ℕ := 0
  osec : ℕ := 1
  shflags : ℕ := 0
  discarded : Bool := false
  keep : Bool := false

/-- `struct symbol`. -/
structure Symbol (nsec : ℕ) where
  name : String
  insec : Option (Fin nsec)
  defined : Bool
  scripted : Bool := false
  common : Bool := false

/-- `struct linker`, with the names of `-u`. `sc` is the script's `EXTERN` names if there is one. -/
structure Linker where
  nobj : ℕ
  nsec : ℕ
  objs : Fin nobj → Object nsec
  insecs : Fin nsec → Insec nobj
  syms : List (Symbol nsec)
  entry : String
  undefs : List String
  sc : Option (List String)
  shndx_lt : ∀ i o, (insecs i).obj = some o → (insecs i).shndx < (objs o).shdrs.length

def shtRela : ℕ := 4
def shtNote : ℕ := 7
def shtRel : ℕ := 9
def shtInitArray : ℕ := 14
def shtFiniArray : ℕ := 15
def shtPreinitArray : ℕ := 16
def shfLinkOrder : ℕ := 0x80
def shfGnuRetain : ℕ := 0x200000
def osecVectors : ℕ := 0

def Object.shAt {nsec : ℕ} (o : Object nsec) (k : ℕ) : Shdr := o.shdrs.getD k {}

def mergeRd32 (be : Bool) (p : Mem) (x : ℕ) : ℕ :=
  if be then (p x).toNat <<< 24 ||| (p (x + 1)).toNat <<< 16 ||| (p (x + 2)).toNat <<< 8 ||| (p (x + 3)).toNat
  else readLE p x 4

/-- The loop of `eh_is_fde_pc`. -/
def ehWalk (p : Mem) (size off : ℕ) : ℕ → ℕ → Bool
  | 0, _ => false
  | k + 1, pos =>
    if pos + 8 ≤ size then
      let len := readLE p pos 4
      if len = 0 ∨ len = 0xffffffff then false
      else if off < pos + 4 + len then readLE p (pos + 4) 4 != 0 && off == pos + 8
      else ehWalk p size off k (pos + 4 + len)
    else false

/-- `eh_is_fde_pc`; every turn of its loop moves on. -/
def ehIsFdePc (p : Mem) (size off : ℕ) : Bool := ehWalk p size off size 0

/-- What is read of a relocation. -/
structure Reloc where
  off : ℕ
  symi : ℕ
deriving DecidableEq

/-- The size of an entry of a relocation section. -/
def relSize {nsec : ℕ} (o : Object nsec) (rsh : Shdr) : ℕ :=
  if o.elf32 then if rsh.shType = shtRel then 8 else 12
  else if rsh.shType = shtRel then 16 else 24

/-- An entry of a relocation section. -/
def relAt {nsec : ℕ} (o : Object nsec) (x : ℕ) : Reloc :=
  if o.elf32 then ⟨readLE o.buf x 4, readLE o.buf (x + 4) 4 >>> 8⟩
  else ⟨readLE o.buf x 8, readLE o.buf (x + 8) 8 >>> 32⟩

/-- The entries of a relocation section. -/
def relocs {nsec : ℕ} (o : Object nsec) (rsh : Shdr) : List Reloc :=
  (List.range (rsh.shSize / relSize o rsh)).map fun j => relAt o (rsh.shOffset + j * relSize o rsh)

/-- Whether the section holds the relocations of section `k`. -/
def IsRelOf {nsec : ℕ} (o : Object nsec) (sh : Shdr) (k : ℕ) : Prop :=
  (sh.shType = shtRel ∨ sh.shType = shtRela) ∧ sh.shInfo < o.shdrs.length ∧ sh.shInfo = k

instance {nsec : ℕ} (o : Object nsec) (sh : Shdr) (k : ℕ) : Decidable (IsRelOf o sh k) := by
  unfold IsRelOf
  infer_instance

/-- `relsec`: the relocation section of section `k`, the last one if there are several. -/
def relsec {nsec : ℕ} (o : Object nsec) (k : ℕ) : Option ℕ :=
  (List.range o.shdrs.length).foldl (fun r j => if IsRelOf o (o.shAt j) k then some j else r) none

namespace Linker
variable (l : Linker)

def symFind (name : String) : Option (Symbol l.nsec) := l.syms.find? fun g => g.name = name

/-- The section a global symbol is in, as `gc_mark_sym` and `gc_target_insec` take it. -/
def symInsec (name : String) : Option (Fin l.nsec) :=
  (l.symFind name).bind fun g => if g.defined && !g.scripted && !g.common then g.insec else none

def gcTargetInsec (o : Object l.nsec) (symi : ℕ) : Option (Fin l.nsec) :=
  if symi = 0 then none
  else match o.syms[symi]? with
    | none => none
    | some sy =>
      if sy.stInfo >>> 4 = 0 then
        if sy.stShndx ≠ 0 ∧ sy.stShndx < o.shdrs.length then o.secOut sy.stShndx else none
      else if sy.name = "" then none
      else l.symInsec sy.name

/-- What the mark follows from a section: the targets of its relocations. -/
def gcTargets (i : Fin l.nsec) : List (Fin l.nsec) :=
  match (l.insecs i).obj with
  | none => []
  | some k =>
    let o := l.objs k
    match relsec o (l.insecs i).shndx with
    | none => []
    | some rs => (relocs o (o.shAt rs)).filterMap fun r =>
      if (l.insecs i).name = ".eh_frame" ∧
          (l.insecs i).data.any (fun p => ehIsFdePc p (l.insecs i).size r.off) then none
      else l.gcTargetInsec o r.symi

/-- The section that an `SHF_LINK_ORDER` section is kept with. -/
def linkTarget (i : Fin l.nsec) : Option (Fin l.nsec) :=
  (l.insecs i).obj.bind fun k =>
    let o := l.objs k
    if (l.insecs i).shflags &&& shfLinkOrder ≠ 0 then
      let ln := (o.shAt (l.insecs i).shndx).shLink
      if ln < o.shdrs.length then o.secOut ln else none
    else none

def gcRootName (n : String) : Bool :=
  [".init_array", ".fini_array", ".preinit_array", ".ctors", ".dtors", ".init", ".fini", ".jcr"].any
    fun pfx => pfx.toList.isPrefixOf n.toList &&
      (match (n.toList.drop pfx.toList.length).head? with
      | none => true
      | some c => c == '.')

/-- The sections kept whatever refers to them. -/
def rootSection (i : Fin l.nsec) : Bool :=
  let s := l.insecs i
  s.obj.isNone || s.keep || (l.sc.isNone && s.osec == osecVectors) || gcRootName s.name ||
    s.name == ".eh_frame" || s.obj.any fun k =>
      let sh := (l.objs k).shAt s.shndx
      sh.shType == shtInitArray || sh.shType == shtFiniArray || sh.shType == shtPreinitArray ||
        sh.shType == shtNote || sh.shFlags &&& shfGnuRetain != 0

/-- The `NAME` of a symbol `__start_NAME` or `__stop_NAME`. -/
def boundName (n : String) : Option (List Char) :=
  let sec :=
    if "__start_".toList.isPrefixOf n.toList then n.toList.drop 8
    else if "__stop_".toList.isPrefixOf n.toList then n.toList.drop 7
    else []
  if sec = [] then none else some sec

/-- `gc_mark`: the live sections and the work. -/
def gcMark {n : ℕ} (s : List (Fin n) × List (Fin n)) : Option (Fin n) → List (Fin n) × List (Fin n)
  | none => s
  | some i => Worklist.visit s i

/-- The roots, marked. -/
def gcRoots : List (Fin l.nsec) × List (Fin l.nsec) :=
  let s := gcMark ([], []) (l.symInsec l.entry)
  let s := l.undefs.foldl (fun s n => gcMark s (l.symInsec n)) s
  let s := (l.sc.getD []).foldl (fun s n => gcMark s (l.symInsec n)) s
  let s := (List.finRange l.nsec).foldl (fun s i => if l.rootSection i then gcMark s (some i) else s) s
  l.syms.foldl (fun s g => match boundName g.name with
    | none => s
    | some sec => (List.finRange l.nsec).foldl
        (fun s k => if (l.insecs k).name.toList = sec then gcMark s (some k) else s) s) s

/-- The sections that are live in the end. -/
def gcLive : List (Fin l.nsec) :=
  Worklist.rounds l.gcTargets l.linkTarget (List.finRange l.nsec) (l.nsec + 1) l.gcRoots

/-- What is written into an `insec`. -/
structure Swept where
  live : Bool
  discarded : Bool
  gc : Bool

def gcSections (i : Fin l.nsec) : Swept :=
  let live := decide (i ∈ l.gcLive)
  if live || (l.insecs i).discarded then ⟨live, (l.insecs i).discarded, false⟩
  else ⟨live, true, true⟩

end Linker
end EmbCC.Link
