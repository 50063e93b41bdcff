import EmbCC.Lib.Liveness
import EmbCC.Lib.Worklist
import EmbCC.Opt.Flow

/-!
# Liveness by block

`ra_live_compute`: the registers that are live into and out of each basic block, found one register
at a time by a worklist that starts at the blocks that read it before they write it and goes
back through predecessors until a block that writes it.

`raLiveCompute_exact`: with the reads and writes of the instructions as the rest of the
compiler has them, the sets are those of the paths. The allocator's own list of writes lacks a landing
pad's, and its list of reads has an operand `b` that an immediate has replaced.
-/

namespace EmbCC.Arch

open List Ir Opt Liveness Function Prod

/-! ## The allocator's liveness -/

/-- `ra_ins_def`: the register an instruction writes, or `-1`. -/
def raInsDef (i : Ins) : ℤ :=
  match i.op with
  | .const | .mov | .add | .sub | .mul | .div | .mod | .and | .or | .xor | .neg | .bnot | .cmp
  | .ldvar | .addr | .straddr | .gaddr | .faddr | .load | .ext | .i2f | .f2i | .f2f | .bitcast
  | .bswap | .sqrt | .clz | .ctz | .popcnt | .shl | .shr | .xchg | .xadd | .cmpxchg | .armw | .cas
  | .cas16 | .frameaddr | .alloca | .spsave | .stvar | .call | .labeladdr | .vload | .vbin | .vsplat
  | .vredadd | .vwiden | .select | .mulh | .mulw | .asm => i.dst
  | _ => -1

/-- The operands that `ra_each_use` looks at. -/
def raOpnds (i : Ins) : List ℤ :=
  match i.op with
  | .mov | .neg | .bnot | .ext | .bswap | .clz | .ctz | .popcnt | .sqrt | .i2f | .f2i | .f2f
  | .bitcast | .load | .ldvar | .addr | .stvar | .vaStart | .alloca | .sprestore | .ret | .brz
  | .brnz | .igoto | .switch | .vload | .vsplat | .vredadd | .vwiden => [i.a]
  | .add | .sub | .mul | .div | .mod | .and | .or | .xor | .shl | .shr | .cmp | .store | .memcpy
  | .memzero | .xchg | .xadd | .armw | .vstore | .vbin | .mulh | .mulw => [i.a, i.b]
  | .cmpxchg | .cas | .cas16 | .select => [i.a, i.b, i.c]
  | .call => if i.indirect then i.a :: i.args else i.args
  | .asm => i.asmIr.ins.map (·.temp) ++ (i.asmIr.outs.filter (! ·.val)).map (·.temp)
  | _ => []

/-- `ra_each_use`: the registers an instruction reads. -/
def raEachUse (i : Ins) : List ℤ := (raOpnds i).filter (0 ≤ ·)

/-- `ra_pairs_csr`: the values that were paired with a key, in the order the pairs were made. -/
def raPairsCsr {α β : Type} [DecidableEq α] (p : List (α × β)) (k : α) : List β :=
  (p.filter (·.1 = k)).map (·.2)

section
variable (fn : Func)

/-- `blk`: the block of an instruction, counted along the instructions that start one. The blocks are
`build_cfg`'s. -/
def raBlk (n : ℕ) : ℕ := (range (n + 1)).countP (lead fn) - 1

/-- `labelidx`: where a label is placed; a later place overwrites an earlier one. -/
def labelidx (l : ℤ) : Option ℕ :=
  if 0 ≤ l ∧ l < fn.nlabels then
    (range fn.ins.length).foldl
      (fun r n => if (fn.ins[n]?).any (fun i => i.op = .label ∧ i.label = l) then some n else r) none
  else none

/-- The block a label opens. -/
def labelBlk (l : ℤ) : List ℕ := ((labelidx fn l).map (raBlk fn)).toList

/-- `taken`: the blocks a computed goto may reach, once each. -/
def raTaken : List ℕ :=
  ((fn.ins.filter (·.op = .labeladdr)).flatMap fun i => labelBlk fn i.label).foldl cfgSucc []

/-- The successors of a block, as its edges are made. -/
def raSuccs (b : ℕ) : List ℕ :=
  match fn.ins[bbEnd fn b - 1]? with
  | none => []
  | some s =>
    (if fallsThrough s.op ∧ bbEnd fn b < fn.ins.length then [b + 1] else []) ++
      match s.op with
      | .igoto => raTaken fn
      | .jmp | .brz | .brnz => labelBlk fn s.label
      | .switch => (s.label :: fn.table s).flatMap (labelBlk fn)
      | _ => []

/-- `edge`: each edge as its end and its start. -/
def raEdges : List (ℕ × ℕ) :=
  (range (leaders fn).length).flatMap fun b => (raSuccs fn b).map (·, b)

/-- What a block reads before it writes it, and what it writes: `ustamp` and `dstamp` of the block. -/
structure BlockUses where
  ue : List ℤ := []
  df : List ℤ := []

def raUeCb (nvr : ℕ) (u : BlockUses) (v : ℤ) : BlockUses :=
  if v ≥ nvr ∨ v ∈ u.df ∨ v ∈ u.ue then u else { u with ue := u.ue ++ [v] }

/-- The body of the loop over the instructions of a block. -/
def raUeIns (u : BlockUses) (n : ℕ) : BlockUses :=
  match fn.ins[n]? with
  | none => u
  | some i =>
    let u := (raEachUse i).foldl (raUeCb fn.nvregs) u
    let d := raInsDef i
    if d ≥ 0 ∧ d < fn.nvregs ∧ d ∉ u.df then { u with df := u.df ++ [d] } else u

/-- The loop over `k` instructions from `s` on. -/
def raUses (s k : ℕ) : BlockUses := (range' s k).foldl (raUeIns fn) {}

/-- The loop over a block. -/
def raBlockUses (b : ℕ) : BlockUses := raUses fn (bbStart fn b) (bbEnd fn b - bbStart fn b)

/-- The blocks that read a register before they write it. -/
def ueBlocks (v : ℤ) : List ℕ :=
  raPairsCsr ((range (leaders fn).length).flatMap fun b => (raBlockUses fn b).ue.map (·, b)) v

/-- The blocks that write a register. -/
def dfBlocks (v : ℤ) : List ℕ :=
  raPairsCsr ((range (leaders fn).length).flatMap fun b => (raBlockUses fn b).df.map (·, b)) v

/-- The marks of one register: `outmk`, and `inmk` with the blocks still to be looked at. -/
structure Walk where
  out : List ℕ
  marks : List ℕ × List ℕ

/-- The body of the loop over the predecessors of a block; `df` are the blocks that write the register. -/
def raPred (df : List ℕ) (s : Walk) (p : ℕ) : Walk where
  out := if p ∈ s.out then s.out else p :: s.out
  marks := if p ∈ df then s.marks else Worklist.visit s.marks p

/-- The loop over the blocks to be looked at, for at most so many turns. -/
def raLoop (v : ℤ) : ℕ → Walk → Walk
  | fuel + 1, ⟨out, r, b :: wl⟩ =>
    raLoop v fuel ((raPairsCsr (raEdges fn) b).foldl (raPred (dfBlocks fn v)) ⟨out, r, wl⟩)
  | _, s => s

/-- The loop for one register. It is skipped for one that no block reads before writing it, for
which it does nothing. -/
def raWalk (v : ℤ) : Walk :=
  raLoop fn v (leaders fn).length ⟨[], (ueBlocks fn v).reverse, (ueBlocks fn v).reverse⟩

/-- `lin`, by block. -/
def liveIn (b : ℕ) : List ℕ :=
  raPairsCsr ((range fn.nvregs).flatMap fun v : ℕ => (raWalk fn v).marks.1.map (·, v)) b

/-- `lout`, by block. -/
def liveOut (b : ℕ) : List ℕ :=
  raPairsCsr ((range fn.nvregs).flatMap fun v : ℕ => (raWalk fn v).out.map (·, v)) b

/-- `struct ra_fl`: the first and the last place of each register, `-1` for none. -/
structure Ranges where
  first : ℤ → ℤ := fun _ => -1
  last : ℤ → ℤ := fun _ => -1

def raFlUpd (f : Ranges) (p : ℤ × ℕ) : Ranges where
  first := if f.first p.1 < 0 ∨ p.2 < f.first p.1 then update f.first p.1 p.2 else f.first
  last := if p.2 > f.last p.1 then update f.last p.1 p.2 else f.last

/-- The places that count for the ranges: where a register is live into a block or out of it, and where
it is read or written. -/
def raPlaces (b : ℕ) : List (ℤ × ℕ) :=
  (liveIn fn b).map (fun v => ((v : ℤ), bbStart fn b)) ++
    (liveOut fn b).map (fun v => ((v : ℤ), bbEnd fn b - 1)) ++
    (range' (bbStart fn b) (bbEnd fn b - bbStart fn b)).flatMap fun n =>
      match fn.ins[n]? with
      | none => []
      | some i =>
        ((raEachUse i ++ if raInsDef i ≥ 0 then [raInsDef i] else []).filter
          fun v => v < (fn.nvregs : ℤ)).map (·, n)

/-- `struct ra_live`, with `first` and `last`. -/
structure RaLive where
  nbb : ℕ := 0
  bstart : ℕ → ℕ := fun _ => 0
  blk : ℕ → ℕ := fun _ => 0
  live_in : ℕ → List ℕ := fun _ => []
  live_out : ℕ → List ℕ := fun _ => []
  ranges : Ranges := {}

def raLiveCompute : RaLive :=
  if fn.ins.length = 0 ∨ fn.nvregs = 0 then {}
  else
    { nbb := (leaders fn).length
      bstart := bbStart fn
      blk := raBlk fn
      live_in := liveIn fn
      live_out := liveOut fn
      ranges := ((range (leaders fn).length).flatMap (raPlaces fn)).foldl raFlUpd {} }

end

lemma mem_raPairsCsr {α β : Type} [DecidableEq α] {p : List (α × β)} {k : α} {x : β} : x ∈ raPairsCsr p k ↔ (k, x) ∈ p := by
  simp [raPairsCsr]

/-! ## Edges between blocks -/

section
variable {fn : Func}

/-- The labels an instruction may branch to. -/
def branchLabels (fn : Func) (i : Ins) : List ℤ :=
  match i.op with
  | .jmp | .brz | .brnz => [i.label]
  | .switch => i.label :: fn.table i
  | .igoto => (fn.ins.filter (·.op = .labeladdr)).map (·.label)
  | _ => []

/-- Control goes from one instruction to the other, along an edge of the allocator's graph. -/
def RaFlow (fn : Func) (n n' : ℕ) : Prop :=
  ∃ i, fn.ins[n]? = some i ∧ ((fallsThrough i.op ∧ n' = n + 1 ∧ n' < fn.ins.length) ∨
    ∃ l ∈ branchLabels fn i, labelidx fn l = some n')

variable {n b c : ℕ} {l : ℤ}

lemma countP_lead (h : InBlock fn b n) : (range (n + 1)).countP (lead fn) = b + 1 := by
  induction n generalizing b with
  | zero =>
    have h0 : InBlock fn 0 0 := by
      have hb := bbStart_inBlock h.lt ((Nat.zero_le b).trans_lt h.block_lt)
      rwa [bbStart_zero] at hb
    rw [h.unique h0]
    simp [lead]
  | succ n ih =>
    obtain ⟨c, hc⟩ := exists_inBlock ((Nat.lt_succ_self n).trans h.lt)
    rw [range_succ, countP_append, ih hc, countP_singleton]
    rcases Nat.lt_or_ge (n + 1) (bbEnd fn c) with hin | hend
    · have hc' : InBlock fn c (n + 1) := ⟨hc.1.trans (Nat.le_succ n), hin⟩
      rw [h.unique hc', not_lead_of_inBlock hc' (Nat.lt_succ_of_le hc.1)]
      rfl
    · have hstart : bbStart fn (c + 1) = n + 1 := le_antisymm hend hc.2
      have hlt : c + 1 < (leaders fn).length := by
        by_contra hge
        rw [bbStart_of_ge (not_lt.1 hge)] at hstart
        have := h.lt
        omega
      have hc' : InBlock fn (c + 1) (n + 1) := by
        rw [← hstart]
        exact ⟨le_rfl, bbStart_lt_succ hlt⟩
      rw [h.unique hc', ← hstart, (mem_leaders.1 (bbStart_mem hlt)).2]
      rfl

lemma raBlk_inBlock (h : n < fn.ins.length) : InBlock fn (raBlk fn n) n := by
  obtain ⟨b, hb⟩ := exists_inBlock h
  rwa [raBlk, countP_lead hb]

lemma labelidx_spec (h : labelidx fn l = some n) : ∃ i, fn.ins[n]? = some i ∧ i.op = .label ∧ i.label = l := by
  unfold labelidx at h
  split at h
  · rcases Scan.foldl_last_eq_some h with h | ⟨-, hl⟩
    · cases h
    · obtain ⟨i, hi, hil⟩ := Option.any_eq_true _ _ |>.1 hl
      exact ⟨i, hi, of_decide_eq_true hil⟩
  · cases h

lemma labelidx_start (h : labelidx fn l = some n) : InBlock fn (raBlk fn n) n ∧ n = bbStart fn (raBlk fn n) := by
  obtain ⟨i, hi, hop, -⟩ := labelidx_spec h
  have hb := raBlk_inBlock (getElem?_lt hi)
  exact ⟨hb, label_starts hb hi hop⟩

lemma mem_labelBlk : c ∈ labelBlk fn l ↔ ∃ n, labelidx fn l = some n ∧ c = raBlk fn n := by
  simp [labelBlk, eq_comm]

lemma mem_raSuccs : c ∈ raSuccs fn b ↔ ∃ i, fn.ins[bbEnd fn b - 1]? = some i ∧
    ((fallsThrough i.op ∧ bbEnd fn b < fn.ins.length ∧ c = b + 1) ∨ ∃ l ∈ branchLabels fn i, c ∈ labelBlk fn l) := by
  unfold raSuccs
  cases hi : fn.ins[bbEnd fn b - 1]? with
  | none => simp
  | some i =>
    simp only [mem_append, Option.some.injEq, exists_eq_left']
    refine or_congr ?_ ?_
    · split <;> simp_all
    · unfold branchLabels
      split
      · rename_i hop
        simp [raTaken, mem_foldl_cfgSucc, hop]
      all_goals simp_all

lemma raFlow_inside {n' : ℕ} (h : InBlock fn b n) (hn : n + 1 < bbEnd fn b) : RaFlow fn n n' ↔ n' = n + 1 := by
  obtain ⟨i, hi⟩ : ∃ i, fn.ins[n]? = some i := ⟨_, getElem?_eq_getElem h.lt⟩
  have hends := not_endsBlock h hn hi
  have hfall : fallsThrough i.op = true ∧ branchLabels fn i = [] := by
    unfold branchLabels
    revert hends
    cases i.op <;> simp [endsBlock, fallsThrough]
  have hlt : n + 1 < fn.ins.length := hn.trans_le (bbStart_le fn _)
  simp only [RaFlow, hi, Option.some.injEq, exists_eq_left', hfall.1, hfall.2, not_mem_nil,
    false_and, exists_false, or_false, true_and]
  exact ⟨fun h => h.1, fun h => ⟨h, h ▸ hlt⟩⟩

lemma raFlow_last (h : InBlock fn b (bbEnd fn b - 1)) :
    RaFlow fn (bbEnd fn b - 1) n ↔ ∃ c ∈ raSuccs fn b, n = bbStart fn c := by
  have hend : bbEnd fn b - 1 + 1 = bbStart fn (b + 1) := by
    have := h.2
    rw [bbEnd] at *
    omega
  constructor
  · rintro ⟨i, hi, ⟨hfall, rfl, hlt⟩ | ⟨l, hl, hn⟩⟩
    · exact ⟨b + 1, mem_raSuccs.2 ⟨i, hi, .inl ⟨hfall, by rwa [bbEnd, ← hend], rfl⟩⟩, hend⟩
    · exact ⟨raBlk fn n, mem_raSuccs.2 ⟨i, hi, .inr ⟨l, hl, mem_labelBlk.2 ⟨n, hn, rfl⟩⟩⟩, (labelidx_start hn).2⟩
  · rintro ⟨c, hc, rfl⟩
    obtain ⟨i, hi, ⟨hfall, hlt, rfl⟩ | ⟨l, hl, hc⟩⟩ := mem_raSuccs.1 hc
    · exact ⟨i, hi, .inl ⟨hfall, hend.symm, hlt⟩⟩
    · obtain ⟨n, hn, rfl⟩ := mem_labelBlk.1 hc
      rw [← (labelidx_start hn).2]
      exact ⟨i, hi, .inr ⟨l, hl, hn⟩⟩

lemma raSuccs_lt (h : c ∈ raSuccs fn b) : c < (leaders fn).length := by
  obtain ⟨i, -, ⟨-, hlt, rfl⟩ | ⟨l, -, hc⟩⟩ := mem_raSuccs.1 h
  · by_contra hge
    rw [bbEnd, bbStart_of_ge (not_lt.1 hge)] at hlt
    exact lt_irrefl _ hlt
  · obtain ⟨n, hn, rfl⟩ := mem_labelBlk.1 hc
    have hb := (labelidx_start hn).1
    exact nbb_eq ((Nat.zero_le n).trans_lt hb.lt) ▸ hb.block_lt

/-! ## Uses of a block -/

/-- Instruction `n` reads `v`. -/
def ReadsAt (fn : Func) (v : ℤ) (n : ℕ) : Prop := ∃ i, fn.ins[n]? = some i ∧ v ∈ raEachUse i

/-- Instruction `n` writes `v`. -/
def WritesAt (fn : Func) (v : ℤ) (n : ℕ) : Prop := ∃ i, fn.ins[n]? = some i ∧ raInsDef i = v

/-- One read of the scan: upward exposed unless the block has written the register. -/
lemma raUeCb_spec (nvr : ℕ) (u : BlockUses) (w : ℤ) : (raUeCb nvr u w).df = u.df ∧ (u.ue.Nodup → (raUeCb nvr u w).ue.Nodup) ∧
      ∀ v, v ∈ (raUeCb nvr u w).ue ↔ v ∈ u.ue ∨ v = w ∧ v < nvr ∧ v ∉ u.df := by
  unfold raUeCb
  split_ifs with hc
  · refine ⟨rfl, id, fun v => ⟨.inl, ?_⟩⟩
    rintro (h | ⟨rfl, hlt, hdf⟩)
    · exact h
    · rcases hc with hc | hc | hc
      · omega
      · exact absurd hc hdf
      · exact hc
  · push Not at hc
    refine ⟨rfl, fun hu => ?_, fun v => ?_⟩
    · exact List.nodup_append.2 ⟨hu, by simp, by simpa using fun x hx => ne_of_mem_of_not_mem hx hc.2.2⟩
    · simp only [mem_append, mem_singleton]
      exact or_congr Iff.rfl ⟨fun h => ⟨h, h ▸ hc.1, h ▸ hc.2.1⟩, fun h => h.1⟩

lemma foldl_raUeCb (nvr : ℕ) (vs : List ℤ) (u : BlockUses) :
    (vs.foldl (raUeCb nvr) u).df = u.df ∧ (u.ue.Nodup → (vs.foldl (raUeCb nvr) u).ue.Nodup) ∧
      ∀ v, v ∈ (vs.foldl (raUeCb nvr) u).ue ↔ v ∈ u.ue ∨ v ∈ vs ∧ v < nvr ∧ v ∉ u.df := by
  induction vs generalizing u with
  | nil => simp
  | cons w vs ih =>
    obtain ⟨hdf, hnd, hue⟩ := ih (raUeCb nvr u w)
    obtain ⟨hdf', hnd', hue'⟩ := raUeCb_spec nvr u w
    refine ⟨hdf.trans hdf', fun hu => hnd (hnd' hu), fun v => ?_⟩
    rw [foldl_cons, hue, hue', hdf', mem_cons, or_and_right, or_assoc]

lemma ReadsAt.nonneg {v : ℤ} (h : ReadsAt fn v n) : 0 ≤ v := by
  obtain ⟨i, -, hv⟩ := h
  exact of_decide_eq_true (mem_filter.1 hv).2

/-- One instruction of the scan. -/
lemma raUeIns_spec (u : BlockUses) (n : ℕ) : (u.ue.Nodup → (raUeIns fn u n).ue.Nodup) ∧
    (∀ v, v ∈ (raUeIns fn u n).ue ↔ v ∈ u.ue ∨ ReadsAt fn v n ∧ v < fn.nvregs ∧ v ∉ u.df) ∧
    ∀ v, v ∈ (raUeIns fn u n).df ↔ v ∈ u.df ∨ 0 ≤ v ∧ v < fn.nvregs ∧ WritesAt fn v n := by
  unfold raUeIns ReadsAt WritesAt
  cases hi : fn.ins[n]? with
  | none => simp
  | some i =>
    obtain ⟨hdf, hnd, hue⟩ := foldl_raUeCb fn.nvregs (raEachUse i) u
    simp only [Option.some.injEq, exists_eq_left']
    split
    · rename_i hd
      refine ⟨hnd, hue, fun v => ?_⟩
      rw [mem_append, mem_singleton, hdf]
      exact or_congr Iff.rfl ⟨fun h => by subst h; exact ⟨hd.1, hd.2.1, rfl⟩, fun h => h.2.2.symm⟩
    · rename_i hd
      refine ⟨hnd, hue, fun v => ?_⟩
      rw [hdf]
      refine ⟨.inl, fun h => h.elim id ?_⟩
      rintro ⟨h0, hlt, rfl⟩
      by_contra hv
      exact hd ⟨h0, hlt, hdf ▸ hv⟩

/-- The scan of a block: what it reads before it writes it, and what it writes. -/
lemma raUses_spec (s k : ℕ) : (raUses fn s k).ue.Nodup ∧ (∀ v, v ∈ (raUses fn s k).ue ↔ v < fn.nvregs ∧ ∃ n, s ≤ n
    ∧ n < s + k ∧ ReadsAt fn v n ∧ ∀ m, s ≤ m → m < n → ¬ WritesAt fn v m) ∧ ∀ v, v ∈ (raUses fn s k).df ↔ 0 ≤ v
    ∧ v < fn.nvregs ∧ ∃ n, s ≤ n ∧ n < s + k ∧ WritesAt fn v n := by
  induction k with
  | zero =>
    refine ⟨nodup_nil, fun v => ?_, fun v => ?_⟩
    · simp only [raUses, range'_zero, foldl_nil, not_mem_nil, false_iff]
      rintro ⟨-, n, h1, h2, -⟩
      omega
    · simp only [raUses, range'_zero, foldl_nil, not_mem_nil, false_iff]
      rintro ⟨-, -, n, h1, h2, -⟩
      omega
  | succ k ih =>
    obtain ⟨hnd, hue, hdf⟩ := ih
    have hstep : raUses fn s (k + 1) = raUeIns fn (raUses fn s k) (s + k) := by
      rw [raUses, range'_concat, foldl_append, Nat.one_mul]
      rfl
    obtain ⟨hnd', hue', hdf'⟩ := raUeIns_spec (raUses fn s k) (s + k)
    rw [hstep]
    refine ⟨hnd' hnd, fun v => ?_, fun v => ?_⟩
    · rw [hue', hue, hdf]
      constructor
      · rintro (⟨hv, n, h1, h2, hr, hw⟩ | ⟨hr, hv, hw⟩)
        · exact ⟨hv, n, h1, by omega, hr, hw⟩
        · exact ⟨hv, s + k, by omega, by omega, hr, fun m hm hlt hwm =>
            hw ⟨hr.nonneg, hv, m, hm, hlt, hwm⟩⟩
      · rintro ⟨hv, n, h1, h2, hr, hw⟩
        rcases Nat.lt_or_ge n (s + k) with hn | hn
        · exact .inl ⟨hv, n, h1, hn, hr, hw⟩
        · obtain rfl : n = s + k := by omega
          exact .inr ⟨hr, hv, fun ⟨_, _, m, hm, hlt, hwm⟩ => hw m hm hlt hwm⟩
    · rw [hdf', hdf]
      constructor
      · rintro (⟨h0, hv, n, h1, h2, hw⟩ | ⟨h0, hv, hw⟩)
        · exact ⟨h0, hv, n, h1, by omega, hw⟩
        · exact ⟨h0, hv, s + k, by omega, by omega, hw⟩
      · rintro ⟨h0, hv, n, h1, h2, hw⟩
        rcases Nat.lt_or_ge n (s + k) with hn | hn
        · exact .inl ⟨h0, hv, n, h1, hn, hw⟩
        · obtain rfl : n = s + k := by omega
          exact .inr ⟨h0, hv, hw⟩

lemma block_range : bbStart fn b ≤ n ∧ n < bbStart fn b + (bbEnd fn b - bbStart fn b) ↔ InBlock fn b n := by
  unfold InBlock bbEnd
  omega

lemma mem_ueBlocks {v : ℤ} : b ∈ ueBlocks fn v ↔ b < (leaders fn).length ∧ v < fn.nvregs ∧
    ∃ n, InBlock fn b n ∧ ReadsAt fn v n ∧ ∀ m, bbStart fn b ≤ m → m < n → ¬ WritesAt fn v m := by
  simp only [ueBlocks, mem_raPairsCsr, mem_flatMap, mem_range, mem_map, mk.injEq,
    raBlockUses, (raUses_spec _ _).2.1, ← block_range]
  constructor
  · rintro ⟨c, hc, w, ⟨hw, n, h1, h2, h3⟩, rfl, rfl⟩
    exact ⟨hc, hw, n, ⟨h1, h2⟩, h3⟩
  · rintro ⟨hb, hv, n, ⟨h1, h2⟩, h3⟩
    exact ⟨b, hb, v, ⟨hv, n, h1, h2, h3⟩, rfl, rfl⟩

lemma mem_dfBlocks {v : ℤ} (h0 : 0 ≤ v) (hv : v < fn.nvregs) :
    b ∈ dfBlocks fn v ↔ b < (leaders fn).length ∧ ∃ n, InBlock fn b n ∧ WritesAt fn v n := by
  simp only [dfBlocks, mem_raPairsCsr, mem_flatMap, mem_range, mem_map, mk.injEq,
    raBlockUses, (raUses_spec _ _).2.2, ← block_range]
  constructor
  · rintro ⟨c, hc, w, ⟨-, -, n, h1, h2, h3⟩, rfl, rfl⟩
    exact ⟨hc, n, ⟨h1, h2⟩, h3⟩
  · rintro ⟨hb, n, ⟨h1, h2⟩, h3⟩
    exact ⟨b, hb, v, ⟨h0, hv, n, h1, h2, h3⟩, rfl, rfl⟩

lemma raPairsCsr_nodup {α : Type} [DecidableEq α] {f : ℕ → List α} (hf : ∀ b, (f b).Nodup) (l : List ℕ)
    (hl : l.Nodup) (v : α) : (raPairsCsr (l.flatMap fun b => (f b).map (·, b)) v).Nodup := by
  induction l with
  | nil => exact nodup_nil
  | cons b l ih =>
    obtain ⟨hb, hl⟩ := List.nodup_cons.1 hl
    rw [flatMap_cons, raPairsCsr, filter_append, map_append]
    refine List.nodup_append.2 ⟨?_, ih hl, ?_⟩
    · have hone : (f b).filter ((fun p => decide (p.1 = v)) ∘ (·, b)) = replicate ((f b).count v) v := filter_eq v
      rw [filter_map, hone, map_replicate, map_replicate, nodup_replicate]
      exact List.nodup_iff_count_le_one.1 (hf b) v
    · intro x hx y hy hxy
      obtain rfl : x = b := by
        simp only [mem_map, mem_filter] at hx
        obtain ⟨p, ⟨⟨w, -, rfl⟩, -⟩, rfl⟩ := hx
        rfl
      have hy' : (v, y) ∈ l.flatMap fun b => (f b).map (·, b) := mem_raPairsCsr.1 hy
      simp only [mem_flatMap, mem_map] at hy'
      obtain ⟨c, hc, w, -, -, rfl⟩ := hy'
      exact hb (hxy ▸ hc)

/-! ## The walk -/

section
variable (v : ℤ)

/-- The blocks a marked block marks: its predecessors that do not write the register. -/
def clearPreds (fn : Func) (v : ℤ) (b : ℕ) : List ℕ :=
  (raPairsCsr (raEdges fn) b).filter (· ∉ dfBlocks fn v)

/-- One block of the walk: its predecessors are reached, and those that do not write are queued. -/
lemma foldl_raPred (df ps : List ℕ) (s : Walk) : (ps.foldl (raPred df) s).marks = (ps.filter
    (· ∉ df)).foldl Worklist.visit s.marks ∧ ∀ p, p ∈ (ps.foldl (raPred df) s).out ↔ p ∈ s.out ∨ p ∈ ps := by
  induction ps generalizing s with
  | nil => simp
  | cons q ps ih =>
    obtain ⟨hm, ho⟩ := ih (raPred df s q)
    refine ⟨?_, fun p => ?_⟩
    · rw [foldl_cons, hm, raPred]
      by_cases hq : q ∈ df <;> simp [hq]
    · rw [foldl_cons, ho, raPred, mem_cons]
      split
      · rename_i hq
        exact ⟨fun h => h.imp_right .inr, fun h => h.elim .inl fun h => h.elim (fun h => .inl (h ▸ hq)) .inr⟩
      · rw [mem_cons]
        tauto

lemma raLoop_marks (fuel : ℕ) (s : Walk) : (raLoop fn v fuel s).marks.1 = Worklist.close (clearPreds fn v) fuel s.marks := by
  induction fuel generalizing s with
  | zero => rfl
  | succ fuel ih =>
    obtain ⟨-, r, _ | ⟨b, -⟩⟩ := s
    · rfl
    · rw [raLoop, ih, (foldl_raPred _ _ _).1]
      rfl

lemma mem_preds {b p : ℕ} : p ∈ raPairsCsr (raEdges fn) b ↔ p < (leaders fn).length ∧ b ∈ raSuccs fn p := by
  simp [mem_raPairsCsr, raEdges]

lemma clearPreds_lt (b : ℕ) : ∀ p ∈ clearPreds fn v b, p ∈ Finset.range (leaders fn).length := by
  intro p hp
  exact Finset.mem_range.2 (mem_preds.1 (mem_filter.1 hp).1).1

lemma start_inv : Worklist.Inv (clearPreds fn v) (Finset.range (leaders fn).length)
    ((ueBlocks fn v).reverse, (ueBlocks fn v).reverse) where
  nodup := List.nodup_reverse.2 (raPairsCsr_nodup (fun _ => (raUses_spec _ _).1) _ nodup_range v)
  sub _ hb := Finset.mem_range.2 (mem_ueBlocks.1 (mem_reverse.1 hb)).1
  listed _ hb := hb
  closed _ hb := .inl hb

lemma start_count {r : List ℕ} (hnd : r.Nodup) (hr : ∀ b ∈ r, b ∈ Finset.range (leaders fn).length) :
    (Finset.range (leaders fn).length).card - r.length + r.length ≤ (leaders fn).length := by
  have hle : r.length ≤ (Finset.range (leaders fn).length).card := by
    rw [← toFinset_card_of_nodup hnd]
    exact Finset.card_le_card fun b hb => hr b (List.mem_toFinset.1 hb)
  rw [Finset.card_range] at hle ⊢
  omega

lemma raWalk_closed : (∀ b ∈ ueBlocks fn v, b ∈ (raWalk fn v).marks.1) ∧
    ∀ b ∈ (raWalk fn v).marks.1, ∀ p ∈ clearPreds fn v b, p ∈ (raWalk fn v).marks.1 := by
  have hinv := @start_inv fn v
  rw [raWalk, raLoop_marks]
  obtain ⟨hkeep, hclosed⟩ := Worklist.close_closed (clearPreds_lt v) hinv (start_count hinv.nodup hinv.sub)
  exact ⟨fun b hb => hkeep b (mem_reverse.2 hb), hclosed⟩

lemma raWalk_forall {P : ℕ → Prop} (hue : ∀ b ∈ ueBlocks fn v, P b)
    (hstep : ∀ b, P b → ∀ p ∈ clearPreds fn v b, P p) : ∀ b ∈ (raWalk fn v).marks.1, P b := by
  rw [raWalk, raLoop_marks]
  exact Worklist.close_forall hstep (fun b hb => hue b (mem_reverse.1 hb)) fun b hb => hue b (mem_reverse.1 hb)

/-- Between two turns: `out` has predecessors of marked blocks only, and all of them for a block
that has left the list. -/
structure OutInv (fn : Func) (s : Walk) : Prop where
  sub : ∀ p ∈ s.out, ∃ b ∈ s.marks.1, p ∈ raPairsCsr (raEdges fn) b
  full : ∀ b ∈ s.marks.1, b ∈ s.marks.2 ∨ ∀ p ∈ raPairsCsr (raEdges fn) b, p ∈ s.out

/-- When the walk ends, the register is live out of the predecessors of the blocks it visited. -/
lemma raLoop_out {fuel : ℕ} {s : Walk} (hinv : Worklist.Inv (clearPreds fn v) (Finset.range (leaders fn).length) s.marks)
    (hf : (Finset.range (leaders fn).length).card - s.marks.1.length + s.marks.2.length ≤ fuel) (hs : OutInv fn s) : ∀ p,
    p ∈ (raLoop fn v fuel s).out ↔ ∃ b ∈ (raLoop fn v fuel s).marks.1, p ∈ raPairsCsr (raEdges fn) b := by
  have hdone {s : Walk} (hs : OutInv fn s) (hwl : s.marks.2 = []) p :
      p ∈ s.out ↔ ∃ b ∈ s.marks.1, p ∈ raPairsCsr (raEdges fn) b := by
    refine ⟨hs.sub p, fun ⟨b, hb, hp⟩ => (hs.full b hb).elim (fun h => ?_) fun h => h p hp⟩
    rw [hwl] at h
    cases h
  induction fuel generalizing s with
  | zero => exact hdone hs (eq_nil_of_length_eq_zero (show s.marks.2.length = 0 by omega))
  | succ fuel ih =>
    obtain ⟨out, r, _ | ⟨b, wl⟩⟩ := s
    · exact hdone hs rfl
    · obtain ⟨hmarks, hout⟩ := foldl_raPred (dfBlocks fn v) (raPairsCsr (raEdges fn) b) ⟨out, r, wl⟩
      obtain ⟨hinv', hmono, hcount⟩ := Worklist.turn_inv (clearPreds_lt v) hinv
      have hmarks' : ((raPairsCsr (raEdges fn) b).foldl (raPred (dfBlocks fn v)) ⟨out, r, wl⟩).marks =
          (clearPreds fn v b).foldl Worklist.visit (r, wl) := hmarks
      refine ih (hmarks' ▸ hinv') ?_ ⟨fun p hp => ?_, fun c hc => ?_⟩
      · rw [hmarks']
        simp only at hf
        omega
      · rw [hmarks']
        rcases (hout p).1 hp with hp | hp
        · obtain ⟨c, hc, hpc⟩ := hs.sub p hp
          exact ⟨c, hmono c hc, hpc⟩
        · exact ⟨b, hmono b (hinv.listed b (.head _)), hp⟩
      · obtain ⟨new, hnew, -, -⟩ := Worklist.foldl_visit (clearPreds fn v b) r wl hinv.nodup
        rw [hmarks', hnew] at hc ⊢
        rcases mem_append.1 hc with hc | hc
        · exact .inl (mem_append_left _ hc)
        · rcases hs.full c hc with hl | hall
          · rcases mem_cons.1 hl with rfl | hl
            · exact .inr fun p hp => (hout p).2 (.inr hp)
            · exact .inl (mem_append_right _ hl)
          · exact .inr fun p hp => (hout p).2 (.inl (hall p hp))

lemma mem_raWalk_out {p : ℕ} :
    p ∈ (raWalk fn v).out ↔ p < (leaders fn).length ∧ ∃ b ∈ (raWalk fn v).marks.1, b ∈ raSuccs fn p := by
  have hinv := @start_inv fn v
  have hout := raLoop_out v hinv (start_count hinv.nodup hinv.sub)
    (s := ⟨[], (ueBlocks fn v).reverse, (ueBlocks fn v).reverse⟩)
    ⟨fun p hp => absurd hp not_mem_nil, fun b hb => .inl hb⟩ p
  rw [raWalk, hout]
  simp only [mem_preds]
  exact ⟨fun ⟨b, hb, hp, hs⟩ => ⟨hp, b, hb, hs⟩, fun ⟨hp, b, hb, hs⟩ => ⟨b, hb, hp, hs⟩⟩

end

variable {v : ℤ}

/-! ## Live on entry to a block -/

/-- A register is live before an instruction, in the allocator's graph. -/
def RaLiveAt (fn : Func) (v : ℤ) : ℕ → Prop := Live (RaFlow fn) (ReadsAt fn v) (WritesAt fn v)

lemma live_start (h : InBlock fn b n) (hw : ∀ m, bbStart fn b ≤ m → m < n → ¬ WritesAt fn v m)
    (hn : RaLiveAt fn v n) : RaLiveAt fn v (bbStart fn b) := by
  refine Live.back h.1 (fun k hk hkn => ?_) hw hn
  have := h.2
  exact (raFlow_inside ⟨hk, hkn.trans h.2⟩ (by omega)).2 rfl

lemma last_inBlock (hb : b < (leaders fn).length) : InBlock fn b (bbEnd fn b - 1) := by
  have := bbStart_lt_succ hb
  unfold InBlock bbEnd
  omega

lemma live_of_mem (h0 : 0 ≤ v) (hv : v < fn.nvregs) :
    ∀ b ∈ (raWalk fn v).marks.1, b < (leaders fn).length ∧ RaLiveAt fn v (bbStart fn b) := by
  refine raWalk_forall v (fun b hb => ?_) fun b hb p hp => ?_
  · obtain ⟨hlt, -, n, hn, hr, hw⟩ := mem_ueBlocks.1 hb
    exact ⟨hlt, live_start hn hw (.use hr)⟩
  · obtain ⟨hp, hclear⟩ := mem_filter.1 hp
    obtain ⟨hlt, hsucc⟩ := mem_preds.1 hp
    have hw : ∀ n, InBlock fn p n → ¬ WritesAt fn v n := by
      intro n hn hwn
      exact of_decide_eq_true hclear ((mem_dfBlocks h0 hv).2 ⟨hlt, n, hn, hwn⟩)
    have hlast := last_inBlock hlt
    refine ⟨hlt, live_start hlast (fun m hm hml => hw m ⟨hm, hml.trans hlast.2⟩) ?_⟩
    exact .pass (hw _ hlast) ((raFlow_last hlast).2 ⟨b, hsucc, rfl⟩) hb.2

/-- A block in which the register is live before any write of it has been visited. -/
lemma mem_of_live (h0 : 0 ≤ v) (hv : v < fn.nvregs) (h : RaLiveAt fn v n) :
    ∀ b, InBlock fn b n → (∀ m, bbStart fn b ≤ m → m < n → ¬ WritesAt fn v m) → b ∈ (raWalk fn v).marks.1 := by
  obtain ⟨hue, hclosed⟩ := @raWalk_closed fn v
  have hlt {b n : ℕ} (hb : InBlock fn b n) : b < (leaders fn).length :=
    nbb_eq ((Nat.zero_le n).trans_lt hb.lt) ▸ hb.block_lt
  induction h with
  | use hr => exact fun b hb hw => hue b (mem_ueBlocks.2 ⟨hlt hb, hv, _, hb, hr, hw⟩)
  | @pass n n' hk hflow _ ih =>
    intro b hb hw
    rcases Nat.lt_or_ge (n + 1) (bbEnd fn b) with hin | hend
    · obtain rfl := (raFlow_inside hb hin).1 hflow
      refine ih b ⟨hb.1.trans (Nat.le_succ n), hin⟩ fun m hm hmn => ?_
      rcases Nat.lt_succ_iff_lt_or_eq.1 hmn with hlt | rfl
      · exact hw m hm hlt
      · exact hk
    · have hn : n = bbEnd fn b - 1 := by
        have := hb.2
        omega
      obtain ⟨c, hc, rfl⟩ := (raFlow_last (hn ▸ hb)).1 (hn ▸ hflow)
      have hcb : InBlock fn c (bbStart fn c) := ⟨le_rfl, bbStart_lt_succ (raSuccs_lt hc)⟩
      have hmem := ih c hcb fun m hm hmn => absurd hmn (not_lt.2 hm)
      refine hclosed c hmem b (mem_filter.2 ⟨mem_preds.2 ⟨hlt hb, hc⟩, decide_eq_true fun hdf => ?_⟩)
      obtain ⟨-, m, hm, hwm⟩ := (mem_dfBlocks h0 hv).1 hdf
      rcases Nat.lt_or_ge m n with hmn | hmn
      · exact hw m hm.1 hmn hwm
      · have := hm.2
        obtain rfl : m = n := by omega
        exact hk hwm

lemma mem_liveIn {v : ℕ} : v ∈ liveIn fn b ↔ v < fn.nvregs ∧ b ∈ (raWalk fn v).marks.1 := by
  simp [liveIn, mem_raPairsCsr]

lemma mem_liveOut {v : ℕ} : v ∈ liveOut fn b ↔ v < fn.nvregs ∧ b ∈ (raWalk fn v).out := by
  simp [liveOut, mem_raPairsCsr]

lemma liveIn_iff {v : ℕ} (hb : b < (leaders fn).length) (hv : v < fn.nvregs) :
    v ∈ liveIn fn b ↔ RaLiveAt fn v (bbStart fn b) := by
  have hv' : (v : ℤ) < fn.nvregs := by omega
  rw [mem_liveIn, and_iff_right hv]
  refine ⟨fun h => (live_of_mem (by omega) hv' b h).2, fun h => ?_⟩
  exact mem_of_live (by omega) hv' h b ⟨le_rfl, bbStart_lt_succ hb⟩ fun m hm hmn => absurd hmn (not_lt.2 hm)

lemma liveOut_iff {v : ℕ} (hb : b < (leaders fn).length) (hv : v < fn.nvregs) :
    v ∈ liveOut fn b ↔ ∃ n, RaFlow fn (bbEnd fn b - 1) n ∧ RaLiveAt fn v n := by
  rw [mem_liveOut, mem_raWalk_out, and_iff_right hv, and_iff_right hb]
  constructor
  · rintro ⟨c, hc, hs⟩
    refine ⟨bbStart fn c, (raFlow_last (last_inBlock hb)).2 ⟨c, hs, rfl⟩, ?_⟩
    exact (live_of_mem (by omega) (by omega) c hc).2
  · rintro ⟨n, hflow, hn⟩
    obtain ⟨c, hs, rfl⟩ := (raFlow_last (last_inBlock hb)).1 hflow
    exact ⟨c, (mem_liveIn.1 ((liveIn_iff (raSuccs_lt hs) hv).2 hn)).2, hs⟩

end

/-! ## Liveness of a run -/

/-- The operations whose second operand may be an immediate. -/
def takesImm : Op → Bool
  | .add | .sub | .mul | .div | .mod | .and | .or | .xor | .shl | .shr | .cmp => true
  | _ => false

/-- There is no landing pad, and an operand `b` that is not read is `-1`. -/
structure RaOk (fn : Func) : Prop where
  landing : ∀ i ∈ fn.ins, i.op ≠ .landing
  imm : ∀ i ∈ fn.ins, takesImm i.op → i.immB → i.b < 0
  memzero : ∀ i ∈ fn.ins, i.op = .memzero → i.b < 0

/-- Control goes from one instruction to another: to the next, or along a branch, a switch or a computed
goto. -/
def PathFlow (fn : Func) (n n' : ℕ) : Prop :=
  n' < fn.ins.length ∧ ∃ i, fn.ins[n]? = some i ∧ ((fallsThrough i.op ∧ n' = n + 1) ∨
    ∃ l ∈ branchLabels fn i, fn.prog.labelAt l = some n')

/-- Some path from instruction `n` on reads `v` before it writes it. -/
def LiveAt (fn : Func) (v : ℤ) : ℕ → Prop :=
  Live (PathFlow fn) (fun n => ∃ i, fn.ins[n]? = some i ∧ v ∈ eachRead i)
    fun n => ∃ i, fn.ins[n]? = some i ∧ v ∈ countedDefs fn i

section
variable {fn : Func}

lemma raInsDef_eq (i : Ins) : raInsDef i = defTarget i := by
  unfold raInsDef defTarget
  cases i.op <;> rfl

lemma mem_raEachUse {i : Ins} {v : ℤ} (h0 : 0 ≤ v) (himm : takesImm i.op → i.immB → i.b < 0)
    (hzero : i.op = .memzero → i.b < 0) : v ∈ raEachUse i ↔ v ∈ eachRead i := by
  rw [raEachUse, mem_filter, decide_eq_true h0, and_iff_left rfl]
  have hb : i.b < 0 → v ≠ i.b := by omega
  have himmB : (takesImm i.op → i.immB → v ≠ i.b) ∧ (i.op = .memzero → v ≠ i.b) :=
    ⟨fun h h' => hb (himm h h'), fun h => hb (hzero h)⟩
  revert himmB
  unfold raOpnds eachRead
  cases i.op
  case add | sub | mul | div | mod | and | or | xor | shl | shr | cmp =>
    rintro ⟨h, -⟩
    show v ∈ [i.a, i.b] ↔ v ∈ if i.immB then [i.a] else [i.a, i.b]
    split_ifs with hi
    · simp [h rfl hi]
    · exact Iff.rfl
  case memzero =>
    rintro ⟨-, h⟩
    simp [h rfl]
  case ret =>
    intro _
    show v ∈ [i.a] ↔ v ∈ if i.a ≥ 0 then [i.a] else []
    split
    · exact Iff.rfl
    · simp
      omega
  case vbin =>
    intro _
    show v ∈ [i.a, i.b] ↔ v ∈ if i.b ≥ 0 then [i.a, i.b] else [i.a]
    split
    · exact Iff.rfl
    · simp
      omega
  all_goals exact fun _ => Iff.rfl

lemma labelidx_eq (honce : (fn.ins.filterMap placedLabel).Nodup) (hrange : ∀ l ∈ fn.ins.filterMap placedLabel, 0 ≤ l
    ∧ l < fn.nlabels) (l : ℤ) : labelidx fn l = fn.prog.labelAt l := by
  have hplaced {n : ℕ} (h : labelidx fn l = some n) : fn.prog.labelAt l = some n := by
    obtain ⟨i, hi, hil⟩ := labelidx_spec h
    exact labelAt_of_once honce hi (placedLabel_eq_some.2 hil)
  cases hn : labelidx fn l with
  | some n => exact (hplaced hn).symm
  | none =>
    cases hat : fn.prog.labelAt l with
    | none => rfl
    | some n =>
      obtain ⟨i, hi, hop, hl⟩ := labelAt_spec hat
      have hi' : fn.ins[n]? = some i := by simpa [Func.prog] using hi
      obtain ⟨h0, hlt⟩ := hrange l (List.mem_filterMap.2 ⟨i, mem_of_getElem? hi', placedLabel_eq_some.2 ⟨hop, hl⟩⟩)
      have hsome : (labelidx fn l).isSome := by
        rw [labelidx, if_pos ⟨h0, hlt⟩]
        refine Scan.foldl_last_isSome (.inr ⟨n, mem_range.2 (getElem?_lt hi'), ?_⟩)
        simp [hi', hop, hl]
      rw [hn] at hsome
      cases hsome

lemma liveAt_iff (hok : RaOk fn) (honce : (fn.ins.filterMap placedLabel).Nodup)
    (hrange : ∀ l ∈ fn.ins.filterMap placedLabel, 0 ≤ l ∧ l < fn.nlabels) :
    (∀ n n', RaFlow fn n n' ↔ PathFlow fn n n') ∧ ∀ {v : ℤ}, 0 ≤ v → ∀ n, RaLiveAt fn v n ↔ LiveAt fn v n := by
  have hflow (n n' : ℕ) : RaFlow fn n n' ↔ PathFlow fn n n' := by
    simp only [RaFlow, labelidx_eq honce hrange]
    constructor
    · rintro ⟨i, hi, ⟨hf, hn, hlt⟩ | ⟨l, hl, hn⟩⟩
      · exact ⟨hlt, i, hi, .inl ⟨hf, hn⟩⟩
      · obtain ⟨j, hj, -⟩ := labelAt_spec hn
        refine ⟨?_, i, hi, .inr ⟨l, hl, hn⟩⟩
        simpa [Func.prog] using (getElem?_lt hj)
    · rintro ⟨hlt, i, hi, ⟨hf, hn⟩ | ⟨l, hl, hn⟩⟩
      · exact ⟨i, hi, .inl ⟨hf, hn, hlt⟩⟩
      · exact ⟨i, hi, .inr ⟨l, hl, hn⟩⟩
  refine ⟨hflow, fun {v} h0 n => live_congr hflow (fun m => ?_) fun m => ?_⟩
  · refine exists_congr fun i => and_congr_right fun hi => ?_
    have hmem := mem_of_getElem? hi
    exact mem_raEachUse h0 (hok.imm i hmem) (hok.memzero i hmem)
  · refine exists_congr fun i => and_congr_right fun hi => ?_
    rw [raInsDef_eq, countedDefs, if_neg (hok.landing i (mem_of_getElem? hi))]
    split
    · simp
      omega
    · rw [mem_singleton, eq_comm]

/-- The sets of `ra_live_compute` are path liveness: a register is live into a block when some path from its
start reads it before it writes it, and out of it when some path from its end does. -/
theorem raLiveCompute_exact (fn : Func) (hok : RaOk fn) (honce : (fn.ins.filterMap placedLabel).Nodup)
    (hrange : ∀ l ∈ fn.ins.filterMap placedLabel, 0 ≤ l ∧ l < fn.nlabels) {b v : ℕ}
    (hb : b < (raLiveCompute fn).nbb) (hv : v < fn.nvregs) :
    (v ∈ (raLiveCompute fn).live_in b ↔ LiveAt fn v ((raLiveCompute fn).bstart b)) ∧
    (v ∈ (raLiveCompute fn).live_out b ↔
      ∃ n, PathFlow fn ((raLiveCompute fn).bstart (b + 1) - 1) n ∧ LiveAt fn v n) := by
  obtain ⟨hflow, hlive⟩ := liveAt_iff hok honce hrange
  unfold raLiveCompute at hb ⊢
  split at hb
  · cases hb
  · rename_i hne
    rw [if_neg hne]
    refine ⟨(liveIn_iff hb hv).trans (hlive (by omega) _), (liveOut_iff hb hv).trans ?_⟩
    exact exists_congr fun n => and_congr (hflow _ n) (hlive (by omega) n)

end

/-- A loop that reads register 0 on every turn and writes register 1 before reading it. -/
def rereading : Func where
  ins := [{ op := .const, dst := 0, w := 4 }, { op := .label, label := 0 },
    { op := .add, dst := 1, a := 0, w := 4, imm := 1, immB := true }, { op := .brnz, a := 1, w := 4, label := 0 },
    { op := .ret, a := 1 }]
  nvregs := 2
  nlabels := 1

theorem raLiveCompute_exact_rereading : LiveAt rereading 0 1 ∧ ¬ LiveAt rereading 1 1 := by
  have hok : RaOk rereading := ⟨by decide, by decide, by decide⟩
  refine ⟨?_, fun h => ?_⟩
  · exact (raLiveCompute_exact rereading hok (by decide) (by decide) (b := 1) (by decide) (by decide)).1.1 (by decide +kernel)
  · have hmem := (raLiveCompute_exact rereading hok (by decide) (by decide) (b := 1) (by decide) (by decide)).1.2 h
    exact absurd hmem (by decide +kernel)

/-- A landing pad whose exception is read. -/
def caught : Func where
  ins := [{ op := .label, label := 0 }, { op := .landing, dst := 0, b := 1 }, { op := .ret, a := 0 }]
  nvregs := 2
  nlabels := 1

/-- Instructions that leave a register they do not read in `b`. -/
def stale (op : Op) : Func where
  ins := [{ op := op, dst := 0, a := 0, b := 1, w := 4, immB := true }, { op := .ret }]
  nvregs := 2

lemma not_liveAt_of_unread {fn : Func} {v : ℤ} (h : ∀ i ∈ fn.ins, v ∉ eachRead i) (n : ℕ) : ¬ LiveAt fn v n := by
  intro hl
  induction hl with
  | use hu =>
    obtain ⟨i, hi, hv⟩ := hu
    exact h i (mem_of_getElem? hi) hv
  | pass _ _ _ ih => exact ih

/-- A landing pad's result is found live into its block, and so is a stale operand of an addition with an
immediate or of a `memzero`. -/
theorem raLiveCompute_inexact :
    (0 ∈ (raLiveCompute caught).live_in 0 ∧ ¬ LiveAt caught 0 ((raLiveCompute caught).bstart 0)) ∧
    ∀ op, op = .add ∨ op = .memzero → 1 ∈ (raLiveCompute (stale op)).live_in 0 ∧
      ¬ LiveAt (stale op) 1 ((raLiveCompute (stale op)).bstart 0) := by
  refine ⟨⟨by decide +kernel, ?_⟩, ?_⟩
  · have hpad : ¬ LiveAt caught 0 1 := by
      rintro (⟨i, hi, hv⟩ | ⟨hk, -⟩)
      · cases hi
        exact absurd hv (by decide)
      · exact hk ⟨_, rfl, by decide⟩
    rintro (⟨i, hi, hv⟩ | ⟨-, hflow, hl⟩)
    · cases hi
      exact absurd hv (by decide)
    · obtain ⟨-, i, hi, ⟨-, rfl⟩ | ⟨l, hl', -⟩⟩ := hflow
      · exact hpad hl
      · cases hi
        cases hl'
  · rintro op (rfl | rfl)
    · exact ⟨by decide +kernel, not_liveAt_of_unread (by decide) _⟩
    · exact ⟨by decide +kernel, not_liveAt_of_unread (by decide) _⟩

end EmbCC.Arch
