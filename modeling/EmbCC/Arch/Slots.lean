import EmbCC.Lib.LinearScan
import EmbCC.Opt.Flow

/-!
# Stack slots for temps

`ra_coalesce_temps`: the temps that did not get a register get slots of the frame, and two temps may
get the same one. The interval of a temp is from the first instruction that names it to the last, and
only temps that are named in one block share a slot.

An interval is not a live range: a branch back may read a temp above where it is written. For
a temp that is written before it is read on every path and named in one block that cannot be
(`toBeRead_span`): between the write and the read a run goes straight on. So no two temps with one slot
hold a value that is still to be read (`raCoalesceTemps_safe`).
-/

namespace EmbCC.Arch

open Nat List Ir Opt Trace LinearScan Prod

/-! ## The pass -/

/-- `struct ra_slots`; a register is `-1` for none. -/
structure RaSlots where
  loc : Option (ℤ → ℤ) := none
  floc : Option (ℤ → ℤ) := none
  optFrames : Bool := false
  hasCgoto : Bool := false

/-- Is the temp in a register? -/
def RaSlots.inReg (o : RaSlots) (v : ℤ) : Bool := (o.loc.any (· v ≥ 0)) || o.floc.any (· v ≥ 0)

/-- The fields of an instruction that count as naming a register. -/
def raNamed (i : Ins) : List ℤ :=
  [i.dst, i.a, i.b] ++
    (if i.op = .cmpxchg ∨ i.op = .cas ∨ i.op = .cas16 ∨ i.op = .select then [i.c] else []) ++
    (if i.op = .call then i.args else []) ++
    (if i.op = .asm then i.asmIr.ins.map (·.temp) ++ i.asmIr.outs.map (·.temp) else [])

section
variable (fn : Func)

/-- `blk`: the number of the block of an instruction. -/
def slotBlk (n : ℕ) : ℕ :=
  (fn.ins.take (n + 1)).countP (·.op = .label) + (fn.ins.take n).countP (endsBlock ·.op)

/-- `first` and `last` of a register, `none` if it is never named. -/
def raSpan (v : ℤ) : Option (ℕ × ℕ) :=
  (range fn.ins.length).foldl
    (fun r n =>
      if (fn.ins[n]?).any (v ∈ raNamed ·) then
        match r with
        | none => some (n, n)
        | some (first, _) => some (first, n)
      else r) none

variable (nvars : ℕ) (o : RaSlots)

/-- The temps whose interval starts at `i`; those that are never named come last. -/
def raBucket (i : ℕ) : List ℕ :=
  (range (fn.nvregs - nvars)).filter fun k =>
    ((raSpan fn (k + nvars : ℕ)).map (·.1)).getD fn.ins.length = i

/-- The body of the loop: a slot for temp `k`. -/
def raSlotOf (st : Pool × List (ℕ × ℤ)) (k : ℕ) : Pool × List (ℕ × ℤ) :=
  if o.inReg (k + nvars : ℕ) then (st.1, st.2 ++ [(k, -1)])
  else
    match raSpan fn (k + nvars : ℕ) with
    | none => if o.optFrames then (st.1, st.2 ++ [(k, -1)]) else (st.1.fresh.2, st.2 ++ [(k, (st.1.fresh.1 : ℤ))])
    | some (first, last) =>
      let r := (st.1.expired first).take (slotBlk fn first = slotBlk fn last ∧ ¬ o.hasCgoto) last
      (r.2, st.2 ++ [(k, (r.1 : ℤ))])

/-- The loop over the temps, in the order of their intervals. -/
def raSlotScan : Pool × List (ℕ × ℤ) :=
  (range (fn.ins.length + 1)).foldl (fun st i => (raBucket fn nvars i).foldl (raSlotOf fn nvars o) st)
    ({}, [])

/-- `ra_coalesce_temps`: the slot of each temp, `-1` for none, and how many slots there are. -/
def raCoalesceTemps : Option ((ℕ → ℤ) × ℕ) :=
  if fn.nvregs ≤ nvars then none
  else
    let st := raSlotScan fn nvars o
    some (fun k => (st.2.lookup k).getD (-1), st.1.size)

end

/-! ## The scan -/

section
variable {fn : Func} {nvars : ℕ} {o : RaSlots}

/-- What the loop has done, when the intervals to come start at `f` or later. -/
def ScanInv (fn : Func) (nvars : ℕ) (f : ℕ) (st : Pool × List (ℕ × ℤ)) : Prop :=
  ∃ done : List (Placed ℕ), Inv st.1 done f ∧
    (∀ e ∈ st.2, 0 ≤ e.2 → ∃ x ∈ done, x.key = e.1 ∧ (x.place : ℤ) = e.2) ∧
    ∀ x ∈ done, x.share → raSpan fn (x.key + nvars : ℕ) = some (x.first, x.last) ∧
      slotBlk fn x.first = slotBlk fn x.last

variable {f k : ℕ} {st : Pool × List (ℕ × ℤ)}

lemma ScanInv.skip (h : ScanInv fn nvars f st) (k : ℕ) : ScanInv fn nvars f (st.1, st.2 ++ [(k, -1)]) := by
  obtain ⟨done, hinv, hslot, hspan⟩ := h
  refine ⟨done, hinv, fun e he h0 => ?_, hspan⟩
  rcases mem_append.1 he with he | he
  · exact hslot e he h0
  · rw [mem_singleton.1 he] at h0
    exact absurd h0 (by simp)

/-- A value gets a place. -/
lemma ScanInv.place {p : Pool} {done : List (Placed ℕ)} {x : Placed ℕ}
    (hslot : ∀ e ∈ st.2, 0 ≤ e.2 → ∃ x ∈ done, x.key = e.1 ∧ (x.place : ℤ) = e.2)
    (hspan : ∀ x ∈ done, x.share → raSpan fn (x.key + nvars : ℕ) = some (x.first, x.last) ∧
      slotBlk fn x.first = slotBlk fn x.last) (hinv : Inv p (done ++ [x]) f)
    (hx : x.share → raSpan fn (x.key + nvars : ℕ) = some (x.first, x.last) ∧ slotBlk fn x.first = slotBlk fn x.last) :
    ScanInv fn nvars f (p, st.2 ++ [(x.key, (x.place : ℤ))]) := by
  refine ⟨done ++ [x], hinv, fun e he h0 => ?_, fun y hy => ?_⟩
  · rcases mem_append.1 he with he | he
    · obtain ⟨y, hy, hye⟩ := hslot e he h0
      exact ⟨y, mem_append_left _ hy, hye⟩
    · rw [mem_singleton.1 he]
      exact ⟨x, by simp, rfl, rfl⟩
  · rcases mem_append.1 hy with hy | hy
    · exact hspan y hy
    · rw [mem_singleton.1 hy]
      exact hx

/-- An interval over the first `n` instructions: it holds every one of them that names the register. -/
def SpanOk (fn : Func) (v : ℤ) (n : ℕ) : Option (ℕ × ℕ) → Prop
  | none => ∀ m < n, ¬ (fn.ins[m]?).any (v ∈ raNamed ·)
  | some (first, last) => first ≤ last ∧ last < n ∧
      ∀ m < n, (fn.ins[m]?).any (v ∈ raNamed ·) → first ≤ m ∧ m ≤ last

lemma raSpan_ok (v : ℤ) : SpanOk fn v fn.ins.length (raSpan fn v) := by
  unfold raSpan
  generalize fn.ins.length = n
  induction n with
  | zero => exact fun m hm => absurd hm (Nat.not_lt_zero m)
  | succ n ih =>
    rw [range_succ, foldl_append, foldl_cons, foldl_nil]
    generalize (range n).foldl _ _ = r at ih
    by_cases hn : (fn.ins[n]?).any (v ∈ raNamed ·)
    · rw [if_pos hn]
      obtain _ | ⟨first, last⟩ := r
      · refine ⟨le_rfl, lt_succ_self n, fun m hm hv => ?_⟩
        rcases Nat.lt_succ_iff_lt_or_eq.1 hm with hlt | rfl
        · exact absurd hv (ih m hlt)
        · exact ⟨le_rfl, le_rfl⟩
      · obtain ⟨hle, hlt, hall⟩ := ih
        refine ⟨by omega, lt_succ_self n, fun m hm hv => ?_⟩
        rcases Nat.lt_succ_iff_lt_or_eq.1 hm with hmn | rfl
        · have := hall m hmn hv
          omega
        · omega
    · rw [if_neg hn]
      have hold {m : ℕ} (hm : m < n + 1) (hv : (fn.ins[m]?).any (v ∈ raNamed ·)) : m < n := by
        rcases Nat.lt_succ_iff_lt_or_eq.1 hm with hmn | rfl
        · exact hmn
        · exact absurd hv hn
      obtain _ | ⟨first, last⟩ := r
      · exact fun m hm hv => ih m (hold hm hv) hv
      · obtain ⟨hle, hlt, hall⟩ := ih
        exact ⟨hle, by omega, fun m hm hv => hall m (hold hm hv) hv⟩

lemma raSpan_spec {v : ℤ} {first last : ℕ} (h : raSpan fn v = some (first, last)) :
    first ≤ last ∧ ∀ n i, fn.ins[n]? = some i → v ∈ raNamed i → first ≤ n ∧ n ≤ last := by
  have hspan := @raSpan_ok fn v
  rw [h] at hspan
  refine ⟨hspan.1, fun n i hi hv => hspan.2.2 n (getElem?_lt hi) ?_⟩
  simp [hi, hv]

/-- One value of the scan. -/
lemma raSlotOf_inv (h : ScanInv fn nvars f st)
    (hk : k ∈ raBucket fn nvars f) : ScanInv fn nvars f (raSlotOf fn nvars o st k) := by
  unfold raSlotOf
  split
  · exact h.skip k
  · obtain ⟨done, hinv, hslot, hspan⟩ := h
    split
    · split
      · exact ScanInv.skip ⟨done, hinv, hslot, hspan⟩ k
      · exact ScanInv.place hslot hspan (hinv.fresh k 0 0 false) fun h => by cases h
    · rename_i first last hs
      obtain rfl : first = f := by
        have := of_decide_eq_true (List.mem_filter.1 hk).2
        rwa [hs] at this
      exact ScanInv.place hslot hspan (hinv.expired.take k (raSpan_spec hs).1 _) fun h => ⟨hs, (of_decide_eq_true h).1⟩

/-- The scan up to an instruction, by induction over the buckets. -/
lemma raBuckets_inv (n : ℕ) : ScanInv fn nvars n
    ((range n).foldl (fun st i => (raBucket fn nvars i).foldl (raSlotOf fn nvars o) st) ({}, [])) := by
  induction n with
  | zero => exact ⟨[], inv_empty 0, by simp, by simp⟩
  | succ n ih =>
    rw [range_succ, foldl_append, foldl_cons, foldl_nil]
    have hall : ∀ ks : List ℕ, (∀ k ∈ ks, k ∈ raBucket fn nvars n) → ∀ st, ScanInv fn nvars n st →
        ScanInv fn nvars n (ks.foldl (raSlotOf fn nvars o) st) := by
      intro ks
      induction ks with
      | nil => exact fun _ st h => h
      | cons k ks ih =>
        intro hks st h
        obtain ⟨hk, hks⟩ := List.forall_mem_cons.1 hks
        exact ih hks _ (raSlotOf_inv h hk)
    obtain ⟨done, hinv, hrest⟩ := hall _ (fun k hk => hk) _ ih
    exact ⟨done, hinv.mono (le_succ n), hrest⟩

lemma raCoalesceTemps_disjoint {slot : ℕ → ℤ} {npool j : ℕ} (h : raCoalesceTemps fn nvars o = some (slot, npool))
    (hjk : j ≠ k) (h0 : 0 ≤ slot j) (hslot : slot j = slot k) :
    ∃ fj lj fk lk, raSpan fn (j + nvars : ℕ) = some (fj, lj) ∧ slotBlk fn fj = slotBlk fn lj ∧
      raSpan fn (k + nvars : ℕ) = some (fk, lk) ∧ slotBlk fn fk = slotBlk fn lk ∧ (lj < fk ∨ lk < fj) := by
  unfold raCoalesceTemps at h
  split at h
  · cases h
  · obtain ⟨rfl, -⟩ := mk.inj (Option.some.inj h)
    obtain ⟨done, hinv, hplace, hspan⟩ := @raBuckets_inv fn nvars o (fn.ins.length + 1)
    have hfound {k : ℕ} (hk : 0 ≤ ((raSlotScan fn nvars o).2.lookup k).getD (-1)) :
        ∃ x ∈ done, x.key = k ∧ x.place = ((raSlotScan fn nvars o).2.lookup k).getD (-1) := by
      cases hl : (raSlotScan fn nvars o).2.lookup k with
      | none =>
        rw [hl] at hk
        exact absurd hk (by decide)
      | some i =>
        rw [hl] at hk
        obtain ⟨l1, l2, hlist, -⟩ := List.lookup_eq_some_iff.1 hl
        exact hplace (k, i) (show (k, i) ∈ (raSlotScan fn nvars o).2 by simp [hlist]) hk
    obtain ⟨x, hx, rfl, hxi⟩ := hfound h0
    obtain ⟨y, hy, rfl, hyi⟩ := hfound (hslot ▸ h0)
    have hne : x ≠ y := fun h => hjk (congrArg Placed.key h)
    obtain ⟨hsx, hsy, hdis⟩ := hinv.disjoint hx hy hne (Int.natCast_inj.1 (hxi.trans (hslot.trans hyi.symm)))
    exact ⟨_, _, _, _, (hspan x hx hsx).1, (hspan x hx hsx).2, (hspan y hy hsy).1, (hspan y hy hsy).2, hdis⟩

end

/-! ## Registers of one block -/

/-- A register that is named in a stretch of code without labels and branches only. -/
structure Local (fn : Func) (t : ℤ) (f l : ℕ) : Prop where
  lt : l < fn.ins.length
  named : ∀ n i, fn.ins[n]? = some i → t ∈ raNamed i → f ≤ n ∧ n ≤ l
  noLabel : ∀ n i, f < n → n ≤ l → fn.ins[n]? = some i → i.op ≠ .label
  falls : ∀ n i, f ≤ n → n < l → fn.ins[n]? = some i → fallsThrough i.op

/-- Some point ahead on the run reads `t`, and the run does not write it before. -/
inductive ToBeRead {W : Type} (fn : Func) (E : Env W) (t : ℤ) : Cfg W → Prop
  | read {pc : ℕ} {s : St W} {i : Ins} : fn.ins[pc]? = some i → t ∈ valueOpnds i →
      ToBeRead fn E t (some (pc, s))
  | later {c c' : Cfg W} {o : Option Event} : step fn.prog E c = some (o, c') →
      (∀ i vs, o = some (.exec i vs) → t ∉ tempDefs i) → ToBeRead fn E t c' → ToBeRead fn E t c

/-- The register holds a value that is still to be read. -/
def HoldsForRead {W : Type} (fn : Func) (E : Env W) (t : ℤ) (pc : ℕ) (s : St W) : Prop :=
  s.temps t ≠ none ∧ ToBeRead fn E t (some (pc, s))

section
variable {fn : Func}
variable {n f l : ℕ} {i : Ins} {t : ℤ}

lemma countP_take_eq {p : Ins → Bool} {l : List Ins} {m q : ℕ} (h : (l.take n).countP p = (l.take m).countP p) (hmq : m ≤ q)
    (hqn : q < n) (hi : l[q]? = some i) : p i = false := by
  have h1 := (take_prefix_take_left (l := l) hmq).sublist.countP_le (p := p)
  have h2 := (take_prefix_take_left (l := l) (succ_le_of_lt hqn)).sublist.countP_le (p := p)
  rw [take_add_one, hi, countP_append, Option.toList_some, countP_singleton] at h2
  split at h2
  · omega
  · rename_i hp
    simpa using hp

lemma slotBlk_eq (hfl : f ≤ l) (h : slotBlk fn f = slotBlk fn l) (hi : fn.ins[n]? = some i) :
    (f < n → n ≤ l → i.op ≠ .label) ∧ (f ≤ n → n < l → endsBlock i.op = false) := by
  have h1 := (take_prefix_take_left (l := fn.ins) (Nat.add_le_add_right hfl 1)).sublist.countP_le
    (p := fun i => decide (i.op = .label))
  have h2 := (take_prefix_take_left (l := fn.ins) hfl).sublist.countP_le (p := fun i => endsBlock i.op)
  simp only [slotBlk] at h
  have hlab : (fn.ins.take (l + 1)).countP (·.op = .label) = (fn.ins.take (f + 1)).countP (·.op = .label) := by
    omega
  refine ⟨fun hf hl => ?_, fun hf hl => ?_⟩
  · exact of_decide_eq_false (countP_take_eq hlab (succ_le_of_lt hf) (lt_succ_of_le hl) hi)
  · exact countP_take_eq (p := fun i => endsBlock i.op) (by omega) hf hl hi

lemma local_of_span (h : raSpan fn t = some (f, l)) (hb : slotBlk fn f = slotBlk fn l) : Local fn t f l := by
  have hspan := @raSpan_ok fn t
  rw [h] at hspan
  obtain ⟨hle, hlt, -⟩ := hspan
  refine ⟨hlt, (raSpan_spec h).2, fun n i hf hl hi => (slotBlk_eq hle hb hi).1 hf hl, fun n i hf hl hi => ?_⟩
  have hends := (slotBlk_eq hle hb hi).2 hf hl
  revert hends
  cases i.op <;> simp [endsBlock, fallsThrough]

/-- The operations with operands beside `a` and `b`. -/
def hasMoreOpnds : Op → Bool
  | .cmpxchg | .cas | .cas16 | .select | .call | .asm => true
  | _ => false

lemma eachRead_subset (h : hasMoreOpnds i.op = false) : eachRead i ⊆ [i.a, i.b] := by
  revert h
  unfold eachRead
  cases i.op
  case add | sub | mul | div | mod | and | or | xor | shl | shr | cmp =>
    intro _
    show (if i.immB then [i.a] else [i.a, i.b]) ⊆ _
    split <;> simp
  case vbin =>
    intro _
    show (if i.b ≥ 0 then [i.a, i.b] else [i.a]) ⊆ _
    split <;> simp
  case ret =>
    intro _
    show (if i.a ≥ 0 then [i.a] else []) ⊆ _
    split <;> simp
  all_goals simp [hasMoreOpnds]

lemma raNamed_of_read (h : t ∈ valueOpnds i) : t ∈ raNamed i := by
  unfold valueOpnds at h
  split at h
  · cases h
  · cases hm : hasMoreOpnds i.op with
    | false =>
      have := eachRead_subset hm h
      simp only [mem_cons, not_mem_nil, or_false] at this
      rcases this with rfl | rfl <;> simp [raNamed]
    | true =>
      cases hop : i.op <;> rw [hop] at hm
      case cmpxchg | cas | cas16 | select =>
        simp only [eachRead, hop, mem_cons, not_mem_nil, or_false] at h
        rcases h with rfl | rfl | rfl <;> simp [raNamed, hop]
      case call =>
        simp only [eachRead, hop] at h
        split at h
        · rcases mem_cons.1 h with rfl | h
          · simp [raNamed]
          · simp [raNamed, hop, h]
        · simp [raNamed, hop, h]
      case asm =>
        simp only [eachRead, hop, mem_append, mem_map, mem_filter] at h
        rcases h with ⟨x, hx, rfl⟩ | ⟨x, ⟨hx, -⟩, rfl⟩
        · simp only [raNamed, hop, mem_append, if_true, mem_map]
          exact .inr (.inl ⟨x, hx, rfl⟩)
        · simp only [raNamed, hop, mem_append, if_true, mem_map]
          exact .inr (.inr ⟨x, hx, rfl⟩)
      all_goals cases hm

lemma raNamed_of_write (h : t ∈ tempDefs i) : t ∈ raNamed i := by
  unfold tempDefs at h
  split at h
  · simp only [mem_cons, not_mem_nil, or_false] at h
    rcases h with rfl | rfl <;> simp [raNamed]
  · split at h
    · rw [mem_singleton.1 h]
      simp [raNamed]
    · cases h

section
variable {W : Type} {E : Env W} {t : ℤ} {f l pc : ℕ} {s₀ s : St W}

lemma Local.unwritten_first (h : Local fn t f l) {n : ℕ} (hf : f ≤ n) (hl : n ≤ l)
    (hu : Unwritten fn t n) : Unwritten fn t f := by
  induction n, hf using le_induction with
  | base => exact hu
  | succ n hf ih =>
    have hi : fn.ins[n + 1]? = some _ := getElem?_eq_getElem (hl.trans_lt h.lt)
    exact ih (by omega) (hu.pred hi (h.noLabel _ _ (by omega) hl hi)).1

lemma Local.written_above (h : Local fn t f l) (hu : Unwritten fn t f) {q : ℕ} {i : Ins} (hi : fn.ins[q]? = some i)
    (ht : t ∈ valueOpnds i) (hq : ¬ Unwritten fn t q) : ∃ w j, f ≤ w ∧ w < q ∧ fn.ins[w]? = some j ∧ t ∈ tempDefs j := by
  by_contra hno
  push Not at hno
  obtain ⟨hf, hl⟩ := h.named q i hi (raNamed_of_read ht)
  refine hq ?_
  clear hi ht hq
  induction q, hf using le_induction with
  | base => exact hu
  | succ n hf ih =>
    have hn : fn.ins[n]? = some _ := getElem?_eq_getElem ((lt_of_succ_le hl).trans h.lt)
    refine .pass (ih (fun w j hw hwn => hno w j hw (hwn.trans (lt_succ_self n))) (by omega)) hn
      (hno n _ hf (lt_succ_self n) hn) ⟨_, hn, .inl ⟨h.falls n _ hf (by omega) hn, rfl⟩⟩

lemma Local.run_inv (h : Local fn t f l) (hs : Entry fn s₀) (hp : ¬ t < fn.nparams)
    (hreach : Reaches (step fn.prog E) (some (0, s₀)) (some (pc, s))) :
    TakenInv fn s ∧ (Unwritten fn t pc ∨ Unwritten fn t f) := by
  refine reaches_invariant (I := fun pc s => TakenInv fn s ∧ (Unwritten fn t pc ∨ Unwritten fn t f))
    ⟨by simp [TakenInv, hs.taken], .inl (.entry hp)⟩ (@fun _ _ _ _ i _ _ hinv hi hstep => ?_) _ hreach pc s rfl
  refine ⟨takenInv_step hinv.1 hi hstep, hinv.2.elim (fun hu => ?_) .inr⟩
  rcases step_writes hinv.1 hi hstep with ⟨-, hpass⟩ | ⟨-, -, -, -, -, -, -, -, hpass⟩
  · exact .inl (hpass t hu)
  · by_cases ht : t ∈ tempDefs i
    · obtain ⟨hf, hl⟩ := h.named _ _ hi (raNamed_of_write ht)
      exact .inr (h.unwritten_first hf hl hu)
    · exact .inl (hpass t ht hu)

/-- A register of one block that will be read is between its write and its last read. -/
lemma Local.toBeRead_span (h : Local fn t f l) (hs : Entry fn s₀) (hp : ¬ t < fn.nparams)
    (hwf : ∀ pc i, fn.ins[pc]? = some i → t ∈ valueOpnds i → ¬ Unwritten fn t pc) {c : Cfg W} (hr : ToBeRead fn E t c)
    (hreach : Reaches (step fn.prog E) (some (0, s₀)) c) : ∃ pc s q i, c = some (pc, s) ∧ fn.ins[q]? = some i
    ∧ t ∈ valueOpnds i ∧ f < pc ∧ pc ≤ q ∧ ∀ w j, pc ≤ w → w < q → fn.ins[w]? = some j → t ∉ tempDefs j := by
  induction hr with
  | @read pc s i hi ht =>
    have hu := (h.run_inv hs hp hreach).2.resolve_left (hwf pc i hi ht)
    obtain ⟨w, j, hw, hwq, -⟩ := h.written_above hu hi ht (hwf pc i hi ht)
    exact ⟨pc, s, pc, i, rfl, hi, ht, by omega, le_rfl, fun w j h1 h2 => absurd h2 (by omega)⟩
  | @later c c' o hstep hno _ ih =>
    obtain ⟨pc', s', q, i, rfl, hi, ht, hf, hq, hfree⟩ := ih (hreach.tail ⟨o, hstep⟩)
    obtain _ | ⟨pc, s⟩ := c
    · cases hstep
    obtain ⟨-, hql⟩ := h.named q i hi (raNamed_of_read ht)
    have hi' : fn.ins[pc']? = some _ := getElem?_eq_getElem ((hq.trans hql).trans_lt h.lt)
    cases hk : fn.ins[pc]? with
    | none => simp [step, Func.prog, hk] at hstep
    | some k =>
      have hlab := labelAt_ne hi' (h.noLabel _ _ hf (hq.trans hql) hi')
      obtain ⟨rfl, hnot⟩ : pc' = pc + 1 ∧ t ∉ tempDefs k := by
        rcases step_cases (prog_code hk) hstep with ⟨-, -, ⟨hpc, hop⟩ | ⟨l, -, hat⟩⟩ |
          ⟨-, ⟨vs, rs, world, -, -, ho, hpc, -⟩ | ⟨world, -, l, -, hat⟩⟩
        · have hctl : k.op.isControl := by rcases hop with h | h | h <;> simp [h, Op.isControl]
          exact ⟨hpc, by simp [tempDefs_control hctl]⟩
        · exact absurd hat (hlab l)
        · exact ⟨hpc, hno k vs ho⟩
        · exact absurd hat (hlab l)
      have hu : Unwritten fn t f := (h.run_inv hs hp hreach).2.elim (h.unwritten_first (le_of_lt_succ hf) (by omega)) id
      obtain ⟨w, j, hw, hwq, hj, hwt⟩ := h.written_above hu hi ht (hwf q i hi ht)
      have hlt : w < pc := by
        rcases lt_trichotomy w pc with hlt | rfl | hgt
        · exact hlt
        · exact absurd (Option.some.inj (hj.symm.trans hk) ▸ hwt) hnot
        · exact absurd hwt (hfree w j hgt hwq hj)
      refine ⟨pc, s, q, i, rfl, hi, ht, by omega, by omega, fun v m hv hvq hm => ?_⟩
      rcases Nat.eq_or_lt_of_le hv with rfl | hgt
      · exact Option.some.inj (hk.symm.trans hm) ▸ hnot
      · exact hfree v m hgt hvq hm

/-- At no point of a run do two temps with one slot hold values that are still to be read, where every temp is
written before it is read on every path. -/
theorem raCoalesceTemps_safe (E : Env W) (fn : Func) (nvars : ℕ) (o : RaSlots) (s₀ : St W)
    (hs : Entry fn s₀) (hparams : fn.nparams ≤ nvars)
    (hwf : ∀ pc i, fn.ins[pc]? = some i → ∀ t ∈ valueOpnds i, (nvars : ℤ) ≤ t → ¬ Unwritten fn t pc)
    {slot : ℕ → ℤ} {npool j k : ℕ} (h : raCoalesceTemps fn nvars o = some (slot, npool)) (hjk : j ≠ k)
    (h0 : 0 ≤ slot j) (hslot : slot j = slot k) {pc : ℕ} {s : St W}
    (hreach : Reaches (step fn.prog E) (some (0, s₀)) (some (pc, s))) :
    ¬ (HoldsForRead fn E (j + nvars : ℕ) pc s ∧ HoldsForRead fn E (k + nvars : ℕ) pc s) := by
  obtain ⟨fj, lj, fk, lk, hsj, hbj, hsk, hbk, hdis⟩ := raCoalesceTemps_disjoint h hjk h0 hslot
  have hwhere {k f l : ℕ} (hsp : raSpan fn (k + nvars : ℕ) = some (f, l)) (hb : slotBlk fn f = slotBlk fn l)
      (hr : HoldsForRead fn E (k + nvars : ℕ) pc s) : f < pc ∧ pc ≤ l := by
    have hloc := local_of_span hsp hb
    obtain ⟨pc', s', q, i, hc, hi, ht, hf, hq, -⟩ := hloc.toBeRead_span hs (by omega)
      (fun pc i hi ht => hwf pc i hi _ ht (by omega)) hr.2 hreach
    obtain ⟨rfl, -⟩ := mk.inj (Option.some.inj hc)
    exact ⟨hf, hq.trans (hloc.named q i hi (raNamed_of_read ht)).2⟩
  rintro ⟨hj, hk⟩
  have hj := hwhere hsj hbj hj
  have hk := hwhere hsk hbk hk
  omega

end
end

/-- Three temps, each copied to the next. -/
def copyChain : Func where
  ins := [{ op := .const, dst := 0, w := 4, imm := 7 }, { op := .mov, dst := 1, a := 0, w := 4 },
    { op := .mov, dst := 2, a := 1, w := 4 }, { op := .ret, a := 2 }]
  nvregs := 3

/-- The first and the last of them have one slot. -/
theorem raCoalesceTemps_safe_chain :
    ∃ slot npool, raCoalesceTemps copyChain 0 {} = some (slot, npool) ∧ slot 0 = slot 2 ∧
      ∀ pc s, Reaches (step copyChain.prog Env.bare) (some (0, St.blank)) (some (pc, s)) →
        ¬ (HoldsForRead copyChain Env.bare (0 + 0 : ℕ) pc s ∧ HoldsForRead copyChain Env.bare (2 + 0 : ℕ) pc s) := by
  have hwf : WrittenFirst copyChain := writtenFirst_of_straight (by decide) (by decide)
  exact ⟨_, _, rfl, by decide, fun pc s hreach => raCoalesceTemps_safe Env.bare copyChain 0 {} St.blank (blank_entry _)
    (by decide) (fun pc i hi t ht _ => hwf pc i hi t ht) rfl (by decide) (by decide) (by decide) hreach⟩

end EmbCC.Arch
