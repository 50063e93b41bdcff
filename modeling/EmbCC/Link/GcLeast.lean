import EmbCC.Lib.Scan
import EmbCC.Link.Gc

/-!
# What the mark keeps

The sections that have to be kept are the least set that contains the roots and
is closed under following relocations, the `pc_begin` of FDEs left out, and under
keeping an `SHF_LINK_ORDER` section with its section (`needed`). The mark finds
the least set for the `pc_begin`s it reads (`gcLive_isLeast`), which is the set
that is needed if and only if what it reads wrongly does not matter
(`gcSections_least_iff`).
-/

namespace EmbCC.Link

open List Words Worklist

/-! ## Records of `.eh_frame` -/

/-- Where a record starts: the first, and each one behind a record of the 32-bit format. -/
inductive EhRecord (be : Bool) (p : Mem) (size : ℕ) : ℕ → Prop
  | first : EhRecord be p size 0
  | next {pos : ℕ} (h : EhRecord be p size pos) (hsize : pos + 8 ≤ size)
      (h0 : mergeRd32 be p pos ≠ 0) (h64 : mergeRd32 be p pos ≠ 0xffffffff) :
      EhRecord be p size (pos + 4 + mergeRd32 be p pos)

/-- The offset is that of the `pc_begin` of an FDE: 8 bytes into a record that is not a CIE. -/
def FdePc (be : Bool) (p : Mem) (size off : ℕ) : Prop :=
  ∃ pos, EhRecord be p size pos ∧ pos + 8 ≤ size ∧ mergeRd32 be p pos ≠ 0 ∧
    mergeRd32 be p pos ≠ 0xffffffff ∧ mergeRd32 be p (pos + 4) ≠ 0 ∧ off = pos + 8 ∧
    off < pos + 4 + mergeRd32 be p pos

section
variable {be : Bool} {p : Mem} {size off pos pos' : ℕ}

lemma EhRecord.next_le (h : EhRecord be p size pos) (h' : EhRecord be p size pos') (hlt : pos < pos') :
    pos + 8 ≤ size ∧ mergeRd32 be p pos ≠ 0 ∧ mergeRd32 be p pos ≠ 0xffffffff ∧ pos + 4 + mergeRd32 be p pos ≤ pos' := by
  induction pos' using Nat.strong_induction_on generalizing pos with
  | _ pos' ih =>
    cases h' with
    | first => omega
    | @next q hq hsize h0 h64 =>
      rcases lt_trichotomy pos q with hpq | rfl | hqp
      · obtain ⟨h1, h2, h3, hle⟩ := ih q (by omega) h hq hpq
        exact ⟨h1, h2, h3, by omega⟩
      · exact ⟨hsize, h0, h64, le_rfl⟩
      · obtain ⟨-, -, -, hle⟩ := ih pos hlt hq h hqp
        omega

/-- The walk over `.eh_frame` finds the offset exactly in a record's first address. -/
lemma ehWalk_iff {k : ℕ} (hk : size < pos + k + 8) (h : EhRecord false p size pos) : ehWalk p size off k pos = true ↔
      ∃ pos', pos ≤ pos' ∧ EhRecord false p size pos' ∧ pos' + 8 ≤ size ∧ readLE p pos' 4 ≠ 0 ∧ readLE p pos' 4 ≠ 0xffffffff
      ∧ readLE p (pos' + 4) 4 ≠ 0 ∧ off = pos' + 8 ∧ off < pos' + 4 + readLE p pos' 4 := by
  induction k generalizing pos with
  | zero =>
    rw [ehWalk]
    refine iff_of_false (by simp) ?_
    rintro ⟨pos', hle, -, hsize, -⟩
    omega
  | succ k ih =>
    have hnext : ∀ pos', EhRecord false p size pos' → pos < pos' → pos + 8 ≤ size ∧
        readLE p pos 4 ≠ 0 ∧ readLE p pos 4 ≠ 0xffffffff ∧ pos + 4 + readLE p pos 4 ≤ pos' :=
      fun _ => h.next_le
    rw [ehWalk]
    by_cases hsize : pos + 8 ≤ size
    · rw [if_pos hsize]
      by_cases hend : readLE p pos 4 = 0 ∨ readLE p pos 4 = 0xffffffff
      · rw [if_pos hend]
        refine iff_of_false (by simp) ?_
        rintro ⟨pos', hle, hrec, -, h0, h64, -⟩
        rcases hle.eq_or_lt with rfl | hlt
        · tauto
        · have := hnext pos' hrec hlt
          tauto
      · rw [not_or] at hend
        rw [if_neg (by tauto)]
        by_cases hoff : off < pos + 4 + readLE p pos 4
        · rw [if_pos hoff, Bool.and_eq_true, bne_iff_ne, beq_iff_eq]
          constructor
          · rintro ⟨hid, heq⟩
            exact ⟨pos, le_rfl, h, hsize, hend.1, hend.2, hid, heq, hoff⟩
          · rintro ⟨pos', hle, hrec, -, -, -, hid, heq, -⟩
            rcases hle.eq_or_lt with rfl | hlt
            · exact ⟨hid, heq⟩
            · have := hnext pos' hrec hlt
              omega
        · have hrec : EhRecord false p size (pos + 4 + readLE p pos 4) := .next h hsize hend.1 hend.2
          rw [if_neg hoff, ih (by omega) hrec]
          constructor
          · rintro ⟨pos', hle, hrest⟩
            exact ⟨pos', by omega, hrest⟩
          · rintro ⟨pos', hle, hrec', hsize', h0, h64, hid, heq, hlt'⟩
            have hlt : pos < pos' := by
              rcases hle.eq_or_lt with rfl | hlt
              · omega
              · exact hlt
            exact ⟨pos', (hnext pos' hrec' hlt).2.2.2, hrec', hsize', h0, h64, hid, heq, hlt'⟩
    · rw [if_neg hsize]
      refine iff_of_false (by simp) ?_
      rintro ⟨pos', hle, -, hsize', -⟩
      omega

lemma ehIsFdePc_iff : ehIsFdePc p size off = true ↔ FdePc false p size off := by
  rw [ehIsFdePc, ehWalk_iff (by omega) .first]
  exact ⟨fun ⟨pos, _, h⟩ => ⟨pos, h⟩, fun ⟨pos, h⟩ => ⟨pos, Nat.zero_le _, h⟩⟩

end

namespace Linker
variable (l : Linker)

/-! ## What a section refers to -/

/-- The relocations of a section. -/
def relocsOf (i : Fin l.nsec) : Set Reloc :=
  {r | ∃ k, (l.insecs i).obj = some k ∧ ∃ j < (l.objs k).shdrs.length,
    IsRelOf (l.objs k) ((l.objs k).shAt j) (l.insecs i).shndx ∧
    r ∈ relocs (l.objs k) ((l.objs k).shAt j)}

/-- The section that a relocation of a section refers to. -/
def target (i : Fin l.nsec) (r : Reloc) : Option (Fin l.nsec) :=
  (l.insecs i).obj.bind fun k => l.gcTargetInsec (l.objs k) r.symi

/-- The place in a section is the `pc_begin` of an FDE. -/
def PcBegin (i : Fin l.nsec) (off : ℕ) : Prop :=
  (l.insecs i).name = ".eh_frame" ∧ ∃ k p, (l.insecs i).obj = some k ∧ (l.insecs i).data = some p ∧
    FdePc (l.objs k).bigEndian p (l.insecs i).size off

/-- The place in a section is one that `eh_is_fde_pc` takes for such. -/
def ReadsPcBegin (i : Fin l.nsec) (off : ℕ) : Prop :=
  (l.insecs i).name = ".eh_frame" ∧ ∃ p, (l.insecs i).data = some p ∧
    ehIsFdePc p (l.insecs i).size off = true

/-- The sections a section refers to, from places that are not left out. -/
def refers (skip : Fin l.nsec → ℕ → Prop) (i : Fin l.nsec) : Set (Fin l.nsec) :=
  {t | ∃ r ∈ l.relocsOf i, ¬ skip i r.off ∧ l.target i r = some t}

/-- The entry, `-u` and `EXTERN` symbols' sections, the sections kept whatever refers to them, and
those with a `__start_` or `__stop_` symbol. -/
inductive Root : Fin l.nsec → Prop
  | symbol {name : String} {i : Fin l.nsec} (hname : name ∈ l.entry :: l.undefs ++ l.sc.getD [])
      (hi : l.symInsec name = some i) : Root i
  | kept {i : Fin l.nsec} (hi : l.rootSection i = true) : Root i
  | bound {g : Symbol l.nsec} {i : Fin l.nsec} (hg : g ∈ l.syms)
      (hi : boundName g.name = some (l.insecs i).name.toList) : Root i

/-- The sets that contain the roots and are closed, with some places left out. -/
def closedSets (skip : Fin l.nsec → ℕ → Prop) : Set (Set (Fin l.nsec)) :=
  {S | Closed {i | l.Root i} (l.refers skip) l.linkTarget S}

/-- What has to be kept, with some places left out. -/
def needed (skip : Fin l.nsec → ℕ → Prop) : Set (Fin l.nsec) := ⋂₀ l.closedSets skip

/-- No section has two relocation sections. -/
def OneRelsec : Prop :=
  ∀ o k, ∀ j < (l.objs o).shdrs.length, ∀ j' < (l.objs o).shdrs.length,
    IsRelOf (l.objs o) ((l.objs o).shAt j) k → IsRelOf (l.objs o) ((l.objs o).shAt j') k → j = j'

/-! ## The collector's roots and targets -/

/-- The roots in the order they are marked. -/
def rootList : List (Fin l.nsec) :=
  (l.entry :: l.undefs ++ l.sc.getD []).filterMap l.symInsec ++
    (List.finRange l.nsec).filter (l.rootSection ·) ++
    l.syms.flatMap fun g => (List.finRange l.nsec).filter
      fun k => boundName g.name = some (l.insecs k).name.toList

lemma foldl_gcMark {β : Type} {n : ℕ} (f : β → Option (Fin n)) (names : List β) (s : List (Fin n) × List (Fin n)) :
    names.foldl (fun s x => gcMark s (f x)) s = (names.filterMap f).foldl visit s := by
  induction names generalizing s with
  | nil => rfl
  | cons x names ih =>
    rw [foldl_cons, filterMap_cons, ih]
    cases f x with
    | none => rfl
    | some i => rfl

lemma foldl_boundName (s : List (Fin l.nsec) × List (Fin l.nsec)) (g : Symbol l.nsec) : (match boundName g.name with
      | none => s
      | some sec => (List.finRange l.nsec).foldl
        (fun s k => if (l.insecs k).name.toList = sec then gcMark s (some k) else s) s) =
    ((List.finRange l.nsec).filter fun k => boundName g.name = some (l.insecs k).name.toList).foldl visit s := by
  rw [foldl_filter]
  cases boundName g.name with
  | none => exact (foldl_fixed _).symm
  | some sec => simp only [Option.some.injEq, decide_eq_true_eq, gcMark, eq_comm (a := sec)]

lemma gcRoots_eq : l.gcRoots = l.rootList.foldl visit ([], []) := by
  rw [rootList, foldl_append, foldl_append, ← foldl_gcMark, foldl_append,
    foldl_cons, foldl_filter, foldl_flatMap, ← funext₂ l.foldl_boundName]
  rfl

lemma mem_rootList {i : Fin l.nsec} : i ∈ l.rootList ↔ l.Root i := by
  simp only [rootList, mem_append, mem_filterMap, mem_filter, mem_finRange, true_and, mem_flatMap, decide_eq_true_eq]
  constructor
  · rintro ((⟨name, hname, hi⟩ | hi) | ⟨g, hg, hi⟩)
    · exact .symbol (List.mem_append.2 hname) hi
    · exact .kept hi
    · exact .bound hg hi
  · rintro (⟨hname, hi⟩ | hi | ⟨hg, hi⟩)
    · exact .inl (.inl ⟨_, List.mem_append.1 hname, hi⟩)
    · exact .inl (.inr hi)
    · exact .inr ⟨_, hg, hi⟩

variable {l}

lemma relsec_iff (h : l.OneRelsec) {o : Fin l.nobj} {k j : ℕ} : relsec (l.objs o) k = some j ↔
      j < (l.objs o).shdrs.length ∧ IsRelOf (l.objs o) ((l.objs o).shAt j) k := by
  have hfound : ∀ j, relsec (l.objs o) k = some j →
      j < (l.objs o).shdrs.length ∧ IsRelOf (l.objs o) ((l.objs o).shAt j) k := fun j hj => by
    rcases Scan.foldl_last_eq_some hj with h | ⟨hmem, hrel⟩
    · cases h
    · exact ⟨List.mem_range.1 hmem, hrel⟩
  refine ⟨hfound j, fun ⟨hlt, hrel⟩ => ?_⟩
  obtain ⟨j', hj'⟩ := Option.isSome_iff_exists.1 (show (relsec (l.objs o) k).isSome from
    Scan.foldl_last_isSome (.inr ⟨j, List.mem_range.2 hlt, hrel⟩))
  obtain ⟨hlt', hrel'⟩ := hfound j' hj'
  rw [hj', h o k j hlt j' hlt' hrel hrel']

/-- The targets found are those that the relocations name. -/
lemma mem_gcTargets (h : l.OneRelsec) {i t : Fin l.nsec} : t ∈ l.gcTargets i ↔ t ∈ l.refers l.ReadsPcBegin i := by
  rw [gcTargets]
  cases hobj : (l.insecs i).obj with
  | none =>
    simp only [not_mem_nil, false_iff]
    rintro ⟨r, ⟨k, hk, -⟩, -⟩
    rw [hobj] at hk
    cases hk
  | some k =>
    have hskip : ∀ off, ((l.insecs i).name = ".eh_frame" ∧ (l.insecs i).data.any
        (fun p => ehIsFdePc p (l.insecs i).size off) = true) ↔ l.ReadsPcBegin i off := fun off => by
      rw [ReadsPcBegin, Option.any_eq_true]
    have htarget : ∀ r, l.target i r = l.gcTargetInsec (l.objs k) r.symi := fun r => by
      rw [target, hobj, Option.bind_some]
    simp only [refers, relocsOf, hobj, Option.some.injEq, htarget]
    cases hrs : relsec (l.objs k) (l.insecs i).shndx with
    | none =>
      simp only [not_mem_nil, false_iff]
      rintro ⟨r, ⟨k', rfl, j, hj, hrel, -⟩, -⟩
      rw [(relsec_iff h).2 ⟨hj, hrel⟩] at hrs
      cases hrs
    | some rs =>
      obtain ⟨hlt, hrel⟩ := (relsec_iff h).1 hrs
      simp only [mem_filterMap, Option.ite_none_left_eq_some, hskip]
      constructor
      · rintro ⟨r, hr, hno, ht⟩
        exact ⟨r, ⟨k, rfl, rs, hlt, hrel, hr⟩, hno, ht⟩
      · rintro ⟨r, ⟨k', rfl, j, hj, hrel', hr⟩, hno, ht⟩
        obtain rfl := h k _ j hj rs hlt hrel' hrel
        exact ⟨r, hr, hno, ht⟩

lemma gcLive_isLeast (h : l.OneRelsec) : IsLeast (l.closedSets l.ReadsPcBegin) {i | i ∈ l.gcLive} := by
  have hleast := @rounds_isLeast _ _ l.gcTargets l.linkTarget _ _ (mem_finRange ·) l.rootList (l.nsec + 1) (by simp)
  rw [← gcRoots_eq] at hleast
  have hroots : {i | i ∈ l.rootList} = {i | l.Root i} := Set.ext fun _ => l.mem_rootList
  have hsuccs : (fun i => {t | t ∈ l.gcTargets i}) = l.refers l.ReadsPcBegin :=
    funext fun _ => Set.ext fun _ => mem_gcTargets h
  rwa [hroots, hsuccs] at hleast

lemma gcSections_live {i : Fin l.nsec} : (l.gcSections i).live = true ↔ i ∈ l.gcLive := by
  unfold gcSections
  by_cases h : i ∈ l.gcLive
  · simp [h]
  · simp only [h, iff_false, Bool.not_eq_true]
    split <;> rfl

lemma gcSections_gc {i : Fin l.nsec} (h : i ∈ l.gcLive) : (l.gcSections i).gc = false := by
  simp [gcSections, h]

lemma needed_of_isLeast {skip : Fin l.nsec → ℕ → Prop} {S : Set (Fin l.nsec)}
    (h : IsLeast (l.closedSets skip) S) : l.needed skip = S := h.isGLB.sInf_eq

lemma needed_isLeast (skip : Fin l.nsec → ℕ → Prop) : IsLeast (l.closedSets skip) (l.needed skip) := by
  refine ⟨⟨fun i hi S hS => hS.roots hi, fun i hi t ht S hS => hS.succs i (hi S hS) ht,
    fun i t hit ht S hS => hS.pull i t hit (ht S hS)⟩, fun S hS i hi => hi S hS⟩

/-! ## The sections kept -/

/-- A relocation that the walk takes for a `pc_begin` wrongly, or does not take for the one it is,
refers to a section that is needed anyway. -/
def Harmless (l : Linker) : Prop :=
  ∀ i, ∀ r ∈ l.relocsOf i, ∀ t, l.target i r = some t →
    (l.PcBegin i r.off → ¬ l.ReadsPcBegin i r.off → t ∈ l.needed l.PcBegin) ∧
    (l.ReadsPcBegin i r.off → ¬ l.PcBegin i r.off → t ∈ l.needed l.ReadsPcBegin)

lemma needed_subset {skip skip' : Fin l.nsec → ℕ → Prop} (h : ∀ i, ∀ r ∈ l.relocsOf i, ∀ t, l.target i r = some t →
    skip' i r.off → ¬ skip i r.off → t ∈ l.needed skip') : l.needed skip ⊆ l.needed skip' := by
  have hleast := (needed_isLeast skip').1
  refine (needed_isLeast skip).2 ⟨hleast.roots, fun i hi t ⟨r, hr, hno, ht⟩ => ?_, hleast.pull⟩
  by_cases hskip : skip' i r.off
  · exact h i r hr t ht hskip hno
  · exact hleast.succs i hi ⟨r, hr, hskip, ht⟩

lemma eh_needed {skip : Fin l.nsec → ℕ → Prop} {i : Fin l.nsec} (hi : (l.insecs i).name = ".eh_frame") : i ∈ l.needed skip :=
  (needed_isLeast skip).1.roots (.kept (by simp [rootSection, hi]))

lemma needed_eq_iff : l.needed l.ReadsPcBegin = l.needed l.PcBegin ↔ l.Harmless := by
  constructor
  · intro heq i r hr t ht
    refine ⟨fun hpc hno => ?_, fun hreads hno => ?_⟩
    · rw [← heq]
      exact (needed_isLeast l.ReadsPcBegin).1.succs i (eh_needed hpc.1) ⟨r, hr, hno, ht⟩
    · rw [heq]
      exact (needed_isLeast l.PcBegin).1.succs i (eh_needed hreads.1) ⟨r, hr, hno, ht⟩
  · intro h
    exact (needed_subset fun i r hr t ht => (h i r hr t ht).1).antisymm (needed_subset fun i r hr t ht => (h i r hr t ht).2)

/-- The sections marked live are the least set that contains the roots and is closed, and no kept
section refers to a discarded one, exactly when what the walk reads wrongly does no harm. -/
theorem gcSections_least_iff (h : l.OneRelsec) :
    (IsLeast (l.closedSets l.PcBegin) {i | (l.gcSections i).live = true} ∧
      ∀ i t, (l.gcSections i).live = true → t ∈ l.refers l.PcBegin i → (l.gcSections t).gc = false) ↔
    l.Harmless := by
  have hlive : {i | (l.gcSections i).live = true} = {i | i ∈ l.gcLive} :=
    Set.ext fun _ => gcSections_live
  have hread := needed_of_isLeast (gcLive_isLeast h)
  rw [← needed_eq_iff, hlive, hread]
  constructor
  · rintro ⟨hleast, -⟩
    exact (needed_of_isLeast hleast).symm
  · intro heq
    have hleast := needed_isLeast l.PcBegin
    rw [← heq] at hleast
    refine ⟨hleast, fun i t hi ht => gcSections_gc ?_⟩
    exact hleast.1.succs i (gcSections_live.1 hi) ht

lemma harmless_of_little (h : ∀ o, (l.objs o).bigEndian = false) : l.Harmless := by
  intro i r hr t _
  obtain ⟨k, hk, -⟩ := hr
  have hreads : l.ReadsPcBegin i r.off ↔ l.PcBegin i r.off := by
    simp only [ReadsPcBegin, PcBegin, ehIsFdePc_iff, hk, Option.some.injEq, exists_and_left, exists_eq_left', h k]
  exact ⟨fun h hno => absurd (hreads.2 h) hno, fun h hno => absurd (hreads.1 h) hno⟩

end Linker

/-- A CIE and the FDE of a function, with `pc_begin` at 24. -/
def ehBytes (be : Bool) : Mem := fun x =>
  if be then [0, 0, 0, 12, 0, 0, 0, 0, 0, 0, 0, 0, 0, 0, 0, 0, 0, 0, 0, 12, 0, 0, 0, 20].getD x 0
  else [12, 0, 0, 0, 0, 0, 0, 0, 0, 0, 0, 0, 0, 0, 0, 0, 12, 0, 0, 0, 20, 0, 0, 0].getD x 0

/-- An object with the entry's section, a section nothing but its FDE refers to, and the
`.eh_frame` with that FDE. -/
def unwound (be : Bool) : Linker where
  nobj := 1
  nsec := 3
  objs _ :=
    { elf32 := true
      bigEndian := be
      buf := fun x => [24, 0, 0, 0, 2, 1, 0, 0].getD x 0
      shdrs := [{}, { shType := 1 }, { shType := 1 }, { shType := 1 },
        { shType := shtRel, shSize := 8, shInfo := 3 }]
      syms := [{}, { stInfo := 3, stShndx := 2 }]
      secOut := fun k => if k = 1 then some 0 else if k = 2 then some 1 else if k = 3 then some 2 else none }
  insecs i :=
    { name := [".text.main", ".text.dead", ".eh_frame"].getD i ""
      obj := some 0
      shndx := i + 1
      data := some (if i = 2 then ehBytes be else fun _ => 0)
      size := 32 }
  syms := [{ name := "main", insec := some 0, defined := true }]
  entry := "main"
  undefs := []
  sc := none
  shndx_lt i _ _ := by
    show i.val + 1 < 5
    omega

lemma unwound_isRelOf {be : Bool} {o : Fin 1} {j k : ℕ}
    (h : IsRelOf ((unwound be).objs o) (((unwound be).objs o).shAt j) k) : j = 4 ∧ k = 3 := by
  obtain ⟨htype, -, hinfo⟩ := h
  match j with
  | 0 | j + 5 => exact absurd htype (show ¬ (0 = shtRel ∨ 0 = shtRela) by decide)
  | 1 | 2 | 3 => exact absurd htype (show ¬ (1 = shtRel ∨ 1 = shtRela) by decide)
  | 4 => exact ⟨rfl, hinfo.symm⟩

lemma unwound_oneRelsec (be : Bool) : (unwound be).OneRelsec := fun _ _ _ _ _ _ hj hj' =>
  (unwound_isRelOf hj).1.trans (unwound_isRelOf hj').1.symm

/-- The little-endian link keeps what is needed and drops the function. -/
theorem gcSections_little_endian : IsLeast ((unwound false).closedSets (unwound false).PcBegin)
      {i | ((unwound false).gcSections i).live = true} ∧
    ((unwound false).gcSections (1 : Fin 3)).gc = true :=
  ⟨((Linker.gcSections_least_iff (unwound_oneRelsec false)).2 (Linker.harmless_of_little fun _ => rfl)).1, by decide +kernel⟩

/-- The big-endian link keeps the function, though the others are a closed set. -/
theorem gcSections_big_endian : (unwound true).OneRelsec ∧
    ¬ IsLeast ((unwound true).closedSets (unwound true).PcBegin)
      {i | ((unwound true).gcSections i).live = true} := by
  refine ⟨unwound_oneRelsec true, fun hleast => ?_⟩
  have hdead : ((unwound true).gcSections (1 : Fin 3)).live = true := by decide +kernel
  have hpc : (unwound true).PcBegin (2 : Fin 3) 24 := by
    have hrec : EhRecord true (ehBytes true) 32 16 :=
      @EhRecord.next true (ehBytes true) 32 0 .first (by decide) (by decide) (by decide)
    exact ⟨rfl, (0 : Fin 1), ehBytes true, rfl, rfl, 16, hrec, by decide, by decide, by decide, by decide, rfl,
      by decide⟩
  have hclosed : {i : Fin 3 | i ≠ 1} ∈ (unwound true).closedSets (unwound true).PcBegin := by
    refine ⟨fun i hi => ?_, fun i hi t ⟨r, hr, hno, ht⟩ => ?_, fun i t hit => ?_⟩
    · have hroots : (unwound true).rootList.map Fin.val = [0, 2] := by decide +kernel
      have hmem := mem_map_of_mem (f := Fin.val) ((unwound true).mem_rootList.2 hi)
      rw [hroots] at hmem
      rintro rfl
      exact absurd (show 1 ∈ [0, 2] from hmem) (by decide)
    · obtain ⟨k, -, j, -, hrel, hr⟩ := hr
      obtain ⟨rfl, hk⟩ := unwound_isRelOf hrel
      have hi2 : i = (2 : Fin 3) := Fin.ext (Nat.succ.inj hk)
      have hoff : r.off = 24 := by
        have : ∀ k, ∀ r ∈ relocs ((unwound true).objs k) (((unwound true).objs k).shAt 4), r.off = 24 := by decide
        exact this k r hr
      subst hi2
      rw [hoff] at hno
      exact absurd hpc hno
    · have hnone : ∀ i, ((unwound true).linkTarget i).isNone := by decide
      have := hnone i
      rw [hit] at this
      cases this
  exact hleast.2 hclosed hdead rfl

end EmbCC.Link
