import Mathlib

/-!
# The line program of a function

`emit_line_func` of `dwarf.c` and the machine of the DWARF standard that runs what it emits. The machine keeps the
registers that the emitted opcodes touch, and refuses every other opcode: so a run here is one of the whole machine.
A section is a list of bytes, in which a relocated address is one element. A row is one of four shapes
(`lineOp_run`), each after an `advance_line` if the line does not fit in a special opcode.
-/

namespace EmbCC.Debug.Line

open List

/-- `db_u8`. -/
def dbU8 (v : ℤ) : ℤ := v % 256

/-- `db_uleb`. -/
def dbUleb (v : ℕ) : List ℤ :=
  if v / 128 = 0 then [dbU8 (v % 128)] else dbU8 (v % 128 + 128) :: dbUleb (v / 128)

/-- `db_sleb`; a shift of `long` to the right rounds down. -/
def dbSleb (v : ℤ) : List ℤ :=
  let byte := v % 128
  if (v / 128 = 0 ∧ byte < 64) ∨ (v / 128 = -1 ∧ 64 ≤ byte) then [dbU8 byte]
  else dbU8 (byte + 128) :: dbSleb (v / 128)
termination_by v.natAbs

def lineBase : ℤ := -5
def lineRange : ℤ := 14
def opcodeBase : ℤ := 13

/-- `MAX_SPECIAL_ADDR`. -/
def maxSpecialAddr : ℤ := (255 - opcodeBase) / lineRange

/-- `line_row` after its line advance. -/
def lineOp (dl da : ℤ) : List ℤ :=
  let op := dl - lineBase + opcodeBase
  if dl = 0 ∧ da = 0 then [dbU8 1]
  else if da ≥ 0 ∧ op + da * lineRange ≤ 255 then [dbU8 (op + da * lineRange)]
  else if da ≥ maxSpecialAddr ∧ op + (da - maxSpecialAddr) * lineRange ≤ 255 then
    [dbU8 8, dbU8 (op + (da - maxSpecialAddr) * lineRange)]
  else dbU8 2 :: dbUleb (da % 2 ^ 64).toNat ++ [dbU8 op]

/-- `line_row`; the caller's registers become `addr` and `line`. -/
def lineRow (curAddr curLine addr line : ℤ) (prologueEnd : Bool) : List ℤ :=
  let dl := line - curLine
  let far := dl < lineBase ∨ dl ≥ lineBase + lineRange
  (if far then dbU8 3 :: dbSleb dl else []) ++ (if prologueEnd then [dbU8 10] else []) ++
    lineOp (if far then 0 else dl) (addr - curAddr)

/-- `struct ir_line`. -/
structure IrLine where
  off : ℤ
  line : ℤ

/-- What `emit_line_func` reads of a function: its entry and its end, of type `long`, its line, and its rows, whose
addresses do not decrease and lie between the two. -/
structure LineFunc where
  lo : ℤ
  hi : ℤ
  line : ℤ
  lines : List IrLine
  size : hi - lo < 2 ^ 64
  sorted : (lo :: (lines.map IrLine.off ++ [hi])).Pairwise (· ≤ ·)

/-- A row of the machine's matrix. -/
structure Row where
  addr : ℤ
  line : ℤ
  prologueEnd : Bool
  endSequence : Bool

/-- The registers of the machine, as they are when a sequence starts, and the rows it has made. -/
structure Machine where
  addr : ℤ := 0
  line : ℤ := 1
  prologueEnd : Bool := false
  rows : List Row := []

/-- An unsigned LEB128 number and what follows it. -/
def uleb : List ℤ → Option (ℤ × List ℤ)
  | [] => none
  | b :: bs => if b < 128 then some (b, bs) else (uleb bs).map fun p => (b - 128 + 128 * p.1, p.2)

/-- A signed LEB128 number and what follows it: bit 6 of its last byte is the sign. -/
def sleb : List ℤ → Option (ℤ × List ℤ)
  | [] => none
  | b :: bs =>
    if b < 64 then some (b, bs) else if b < 128 then some (b - 128, bs)
    else (sleb bs).map fun p => (b - 128 + 128 * p.1, p.2)

/-- The registers become a row, and `prologue_end` is cleared. -/
def Machine.append (m : Machine) (endSequence : Bool) : Machine :=
  { m with prologueEnd := false, rows := m.rows ++ [⟨m.addr, m.line, m.prologueEnd, endSequence⟩] }

/-- One opcode, with the header's parameters, and what follows it. -/
def stepLine (addrBytes : ℕ) (m : Machine) : List ℤ → Option (Machine × List ℤ)
  | 0 :: bs =>
    match uleb bs with
    | some (len, 1 :: bs) => if len = 1 then some ({ rows := (m.append true).rows }, bs) else none
    | some (len, 2 :: v :: bs) => if len = addrBytes + 1 then some ({ m with addr := v }, bs) else none
    | _ => none
  | 1 :: bs => some (m.append false, bs)
  | 2 :: bs => (uleb bs).map fun p => ({ m with addr := m.addr + p.1 }, p.2)
  | 3 :: bs => (sleb bs).map fun p => ({ m with line := m.line + p.1 }, p.2)
  | 8 :: bs => some ({ m with addr := m.addr + (255 - opcodeBase) / lineRange }, bs)
  | 10 :: bs => some ({ m with prologueEnd := true }, bs)
  | op :: bs =>
    if opcodeBase ≤ op then some (.append { m with
      addr := m.addr + (op - opcodeBase) / lineRange
      line := m.line + (lineBase + (op - opcodeBase) % lineRange) } false, bs) else none
  | [] => none

/-- The rows of a program; each opcode takes at least its byte. -/
def runLine (addrBytes : ℕ) (m : Machine) (bs : List ℤ) : Option (List Row) :=
  if bs = [] then some m.rows
  else
    match stepLine addrBytes m bs with
    | none => none
    | some (m, rest) => if rest.length < bs.length then runLine addrBytes m rest else none
termination_by bs.length

lemma uleb_dbUleb (v : ℕ) (bs : List ℤ) : uleb (dbUleb v ++ bs) = some ((v : ℤ), bs) := by
  induction v using dbUleb.induct with
  | case1 v h =>
    rw [dbUleb, if_pos h, singleton_append, uleb, dbU8, if_pos (by omega)]
    congr 2
    omega
  | case2 v h ih =>
    rw [dbUleb, if_neg h, cons_append, uleb, dbU8, if_neg (by omega), ih, Option.map_some]
    congr 2
    omega

lemma sleb_dbSleb (v : ℤ) (bs : List ℤ) : sleb (dbSleb v ++ bs) = some (v, bs) := by
  induction v using dbSleb.induct with
  | case1 v byte h =>
    rw [dbSleb, if_pos h, singleton_append, sleb, dbU8, if_pos (show byte % 256 < 128 by omega)]
    split <;> congr 2 <;> omega
  | case2 v byte h ih =>
    rw [dbSleb, if_neg h, cons_append, sleb, dbU8, if_neg (by omega), if_neg (by omega), ih, Option.map_some]
    congr 2
    omega

section
variable {n : ℕ} {m m' : Machine} {bs rest : List ℤ} {dl da : ℤ}

lemma run_step (h : stepLine n m bs = some (m', rest)) (hlt : rest.length < bs.length) :
    runLine n m bs = runLine n m' rest := by
  rw [runLine, if_neg (ne_nil_of_length_pos (by omega)), h]
  exact if_pos hlt

lemma run_advancePc {d : ℤ} (h : 0 ≤ d) (hlt : d < 2 ^ 64) :
    runLine n m (dbU8 2 :: dbUleb (d % 2 ^ 64).toNat ++ rest) = runLine n { m with addr := m.addr + d } rest := by
  obtain ⟨v, rfl⟩ := Int.eq_ofNat_of_zero_le h
  rw [Int.emod_eq_of_lt h hlt]
  exact run_step (congrArg (Option.map _) (uleb_dbUleb v rest)) (by simp)

lemma run_advanceLine (v : ℤ) :
    runLine n m (dbU8 3 :: dbSleb v ++ rest) = runLine n { m with line := m.line + v } rest :=
  run_step (congrArg (Option.map _) (sleb_dbSleb v rest)) (by simp)

/-- A special opcode advances both registers and appends a row. -/
lemma run_special (hl : lineBase ≤ dl) (hu : dl < lineBase + lineRange) (hda : 0 ≤ da)
    (hop : dl - lineBase + opcodeBase + da * lineRange ≤ 255) :
    runLine n m (dbU8 (dl - lineBase + opcodeBase + da * lineRange) :: rest) =
      runLine n (.append { m with addr := m.addr + da, line := m.line + dl } false) rest := by
  refine run_step ?_ (Nat.lt_succ_self _)
  simp only [dbU8, lineBase, lineRange, opcodeBase] at *
  rw [Int.emod_eq_of_lt (by omega) (by omega)]
  unfold stepLine
  split
  case h_7 h =>
    obtain ⟨rfl, rfl⟩ := cons.inj h
    rw [if_pos (by simp only [opcodeBase]; omega)]
    congr 4 <;> simp only [opcodeBase, lineRange, lineBase] <;> omega
  all_goals simp_all <;> omega

/-- The row of a `line_row`, from registers whose line is at most a special opcode away. -/
lemma lineOp_run (hl : lineBase ≤ dl) (hu : dl < lineBase + lineRange) (hda : 0 ≤ da)
    (hlt : da < 2 ^ 64) : runLine n m (lineOp dl da ++ rest) = runLine n (.append { m with addr := m.addr + da, line := m.line + dl } false) rest := by
  rw [lineOp]
  split_ifs with hcopy hone htwo
  · obtain ⟨rfl, rfl⟩ := hcopy
    rw [add_zero, add_zero]
    exact run_step rfl (by simp)
  · exact run_special hl hu hda hone.2
  · refine (run_step rfl (by simp)).trans ((run_special hl hu (by omega) htwo.2).trans ?_)
    rw [add_assoc, ← maxSpecialAddr, add_sub_cancel]
    rfl
  · have hop : dl - lineBase + opcodeBase = dl - lineBase + opcodeBase + 0 * lineRange := by ring
    rw [append_assoc, run_advancePc hda hlt, hop, singleton_append,
      run_special hl hu le_rfl (by simp only [lineRange, opcodeBase] at *; omega)]
    simp only [add_zero]

/-- One row: whichever opcodes are written, the reader appends it. -/
lemma lineRow_run {a l addr line : ℤ} {pe : Bool} {R : List Row} (ha : a ≤ addr) (hlt : addr - a < 2 ^ 64) :
    runLine n ⟨a, l, false, R⟩ (lineRow a l addr line pe ++ rest) =
      runLine n ⟨addr, line, false, R ++ [⟨addr, line, pe, false⟩]⟩ rest := by
  have hpe l' bs : runLine n ⟨a, l', false, R⟩ ((if pe then [dbU8 10] else []) ++ bs) = runLine n ⟨a, l', pe, R⟩ bs := by
    cases pe
    · rfl
    · exact run_step rfl (by simp)
  by_cases hfar : line - l < lineBase ∨ line - l ≥ lineBase + lineRange
  · simp only [lineRow, if_pos hfar]
    rw [append_assoc, append_assoc, run_advanceLine, hpe, lineOp_run (by decide) (by decide) (by omega) hlt]
    simp [Machine.append]
  · simp only [lineRow, if_neg hfar]
    rw [append_assoc, nil_append, hpe, lineOp_run (by omega) (by omega) (by omega) hlt]
    simp [Machine.append]

end

namespace LineFunc
variable (fn : LineFunc)

/-- `entry_row`. -/
def entryRow : Bool := decide (fn.line > 0) && fn.lines.head?.all fun r => decide (r.off > fn.lo)

/-- The loop over the rows, and the end of the sequence. -/
def emitRows : ℤ → ℤ → Bool → List IrLine → List ℤ
  | curAddr, _, _, [] =>
    (if fn.hi ≠ curAddr then dbU8 2 :: dbUleb ((fn.hi - curAddr) % 2 ^ 64).toNat else []) ++
      (dbU8 0 :: dbUleb 1 ++ [dbU8 1])
  | curAddr, curLine, body, r :: rs =>
    let pe := !body && (decide (r.off > fn.lo) || !fn.entryRow)
    lineRow curAddr curLine r.off r.line pe ++ emitRows r.off r.line (body || pe) rs

/-- `emit_line_func`. -/
def emitLineFunc (addrBytes : ℕ) : List ℤ :=
  dbU8 0 :: dbUleb (addrBytes + 1) ++ [dbU8 2, fn.lo] ++
    if fn.entryRow then lineRow fn.lo 1 fn.lo fn.line false ++ fn.emitRows fn.lo fn.line false fn.lines
    else fn.emitRows fn.lo 1 false fn.lines

variable {fn : LineFunc} {n : ℕ} {R : List Row}

/-- After the first row of the list; by induction on the rows that are left. -/
lemma emitRows_run {rows : List IrLine} {a : ℤ} (l : ℤ) (hlo : fn.lo ≤ a)
    (hs : (a :: (rows.map IrLine.off ++ [fn.hi])).Pairwise (· ≤ ·)) :
    ∃ last, runLine n ⟨a, l, false, R⟩ (fn.emitRows a l true rows) =
      some (R ++ ((rows.map fun r => ⟨r.off, r.line, false, false⟩) ++ [⟨fn.hi, last, false, true⟩])) := by
  have hsize := fn.size
  induction rows generalizing a l R with
  | nil =>
    have ha := rel_of_pairwise_cons hs (mem_singleton.2 rfl)
    have hstep : stepLine n ⟨fn.hi, l, false, R⟩ (dbU8 0 :: (dbUleb 1 ++ [dbU8 1])) =
        some ({ rows := R ++ [⟨fn.hi, l, false, true⟩] }, []) := by
      rw [show dbU8 0 = 0 from rfl, stepLine, uleb_dbUleb]
      rfl
    have hend := (run_step hstep (by simp)).trans (by rw [runLine, if_pos rfl])
    refine ⟨l, ?_⟩
    rw [emitRows]
    split
    · rw [run_advancePc (by omega) (by omega), add_sub_cancel]
      exact hend
    · rename_i h
      rw [nil_append, ← not_ne_iff.1 h]
      exact hend
  | cons r rows ih =>
    obtain ⟨ha, hs⟩ := pairwise_cons.1 hs
    have hr := ha r.off mem_cons_self
    have hhi := (pairwise_cons.1 hs).1 fn.hi (by simp)
    obtain ⟨last, hrun⟩ := ih r.line (hlo.trans hr) hs
    refine ⟨last, ?_⟩
    rw [emitRows, lineRow_run hr (by omega)]
    exact hrun.trans (by simp)

lemma entryRow_iff : fn.entryRow = true ↔ fn.line > 0 ∧ ∀ r ∈ fn.lines, r.off ≠ fn.lo := by
  rw [entryRow, Bool.and_eq_true, decide_eq_true_iff]
  refine and_congr_right fun _ => ?_
  have h := fn.sorted
  cases hl : fn.lines with
  | nil => simp
  | cons r rows =>
    rw [hl, map_cons, cons_append, pairwise_cons, pairwise_cons] at h
    have hr := h.1 r.off mem_cons_self
    simp only [head?_cons, Option.all_some, decide_eq_true_iff, forall_mem_cons]
    refine ⟨fun hgt => ⟨by omega, fun x hx => ?_⟩, fun hne => by omega⟩
    have := h.2.1 x.off (mem_append_left _ (mem_map_of_mem hx))
    omega

/-- What `emit_line_func` emits gives the row of the entry, if the function's line is known and no row is there, then
the rows of the list, the first with `prologue_end`, and the end of the sequence. -/
theorem emitLineFunc_rows (fn : LineFunc) (n : ℕ) : ∃ last, runLine n {} (fn.emitLineFunc n) =
    some ((if fn.line > 0 ∧ ∀ r ∈ fn.lines, r.off ≠ fn.lo then [⟨fn.lo, fn.line, false, false⟩] else []) ++
      (fn.lines.mapIdx (fun k r => ⟨r.off, r.line, k == 0, false⟩) ++ [⟨fn.hi, last, false, true⟩])) := by
  have hset bs : runLine n {} (dbU8 0 :: dbUleb (n + 1) ++ [dbU8 2, fn.lo] ++ bs) = runLine n ⟨fn.lo, 1, false, []⟩ bs := by
    rw [append_assoc, cons_append]
    refine run_step ?_ (by simp; omega)
    rw [show dbU8 0 = 0 from rfl, stepLine, uleb_dbUleb]
    exact if_pos (by simp)
  have hrows l R : ∃ last, runLine n ⟨fn.lo, l, false, R⟩ (fn.emitRows fn.lo l false fn.lines) =
      some (R ++ (fn.lines.mapIdx (fun k r => ⟨r.off, r.line, k == 0, false⟩) ++ [⟨fn.hi, last, false, true⟩])) := by
    have h := fn.sorted
    cases hl : fn.lines with
    | nil => exact emitRows_run l le_rfl (hl ▸ h)
    | cons r rows =>
      rw [hl] at h
      have hr := rel_of_pairwise_cons h mem_cons_self
      have hhi := (pairwise_cons.1 h.of_cons).1 fn.hi (by simp)
      have hsize := fn.size
      -- without an entry row the flag is set wherever the row is, and with one it is past the entry
      have hpe : (decide (r.off > fn.lo) || !fn.entryRow) = true := by
        cases hoff : decide (r.off > fn.lo) <;> simp [entryRow, hl, hoff]
      obtain ⟨last, hrun⟩ := emitRows_run r.line hr h.of_cons
      refine ⟨last, ?_⟩
      simp only [emitRows, hpe, Bool.not_false, Bool.and_self, Bool.or_true]
      rw [lineRow_run hr (by omega), hrun]
      simp only [mapIdx_cons, append_assoc, cons_append, nil_append]
      congr 4
      exact ext_getElem? fun k => by simp
  rw [emitLineFunc, hset]
  split
  · rename_i he
    rw [lineRow_run le_rfl (by omega), if_pos (entryRow_iff.1 he)]
    exact hrows ..
  · rename_i he
    rw [if_neg (mt entryRow_iff.2 he)]
    exact hrows ..

-- rows far apart in address and line, and two at one address
example : LineFunc := ⟨16, 4096, 7, [⟨20, 8⟩, ⟨2000, 900⟩, ⟨2000, 3⟩], by decide, by decide⟩

end LineFunc
end EmbCC.Debug.Line
