import EmbCC.Ir.Bytewise
import EmbCC.Opt.Access
import EmbCC.Opt.Dse.Pass

/-!
# The bytes of a dead store

The list of the walk, at a point of a run: a byte that a store of the list will write is `Doomed`.
An instruction of the block reads none of these bytes, and after it a byte that was doomed is still
doomed, or was stored to (`Doomed.turn`). The bytes of a dead store are doomed (`doomed_of_dead`).
-/

namespace EmbCC.Opt

open Ir Trace

/-! ## Accesses that are sure -/

/-- The register is written at one place at most, and is written where `pc` is. -/
structure Sure (fn : Func) (t : ℤ) (pc : ℕ) : Prop where
  once : Once fn t
  written : ¬ Unwritten fn t pc

/-- So is the register of a base; the address of an object is what it is. -/
def Base.Sure (fn : Func) (pc : ℕ) : Base → Prop
  | .vreg t => Opt.Sure fn t pc
  | .obj _ => True

section
variable {W : Type} {E : Env W} {ptrw : ℕ} {M : Memory ptrw E} {fn : Func} {b pc n : ℕ} {i : Ins}
  {t a : ℤ} {s s' : St W} {bs : Base}

lemma Sure.not_mem (h : Sure fn t pc) (hreach : Relation.ReflTransGen (Flow fn) 0 pc)
    (hi : fn.ins[pc]? = some i) : t ∉ tempDefs i := fun hd =>
  h.written ((h.once pc i hi hd).unwritten hreach)

lemma Sure.next (h : Sure fn t pc) (hb : InBlock fn b pc) (hn : pc + 1 < bbEnd fn b) : Sure fn t (pc + 1) := by
  have hb' : InBlock fn b (pc + 1) := ⟨hb.1.trans (Nat.le_succ _), hn⟩
  obtain ⟨j, hj⟩ : ∃ j, fn.ins[pc + 1]? = some j := ⟨_, List.getElem?_eq_getElem hb'.lt⟩
  refine ⟨h.once, fun hu => h.written (hu.pred hj fun hop => ?_).1⟩
  have hstart := label_starts hb' hj hop
  have := hb.1
  omega

lemma Base.Sure.next (h : bs.Sure fn pc) (hb : InBlock fn b pc) (hn : pc + 1 < bbEnd fn b) : bs.Sure fn (pc + 1) := by
  cases bs with
  | vreg t => exact Opt.Sure.next h hb hn
  | obj r => trivial

lemma Base.Sure.val (h : bs.Sure fn pc) (hreach : Relation.ReflTransGen (Flow fn) 0 pc) (hi : fn.ins[pc]? = some i)
    (hs : ∀ t, t ∉ tempDefs i → s'.temps t = s.temps t) : bs.val M s' = bs.val M s := by
  cases bs with
  | vreg t => exact hs t (Opt.Sure.not_mem h hreach hi)
  | obj r => rfl

lemma base_sure (hwf : WrittenFirst fn) (ha : ¬ Unwritten fn a pc)
    (h : (memAccess fn (computeDefs fn) ptrw a n).base = some bs) : bs.Sure fn pc := by
  unfold memAccess at h
  split at h
  · rename_i hone
    cases h
    cases hbs : (baseWalk fn (computeDefs fn) ptrw 16 a 0).1 with
    | obj r => trivial
    | vreg t =>
      obtain ⟨ht, htw⟩ : oneValue fn (computeDefs fn) t ∧ ¬ Unwritten fn t pc := by
        refine baseWalk_vreg (D := fun t => oneValue fn (computeDefs fn) t ∧ ¬ Unwritten fn t pc) ?_ ⟨hone, ha⟩ hbs
        rintro t i x c ⟨ht, htw⟩ hi hs hx
        obtain ⟨-, m, hm, -, hsole⟩ := oneValue_def ht hi
        exact ⟨hx, opnd_written hwf hm hsole (adds_of_baseStep hs).opnds.1 htw⟩
      exact ⟨once_of_oneValue ht, htw⟩
  · cases h

end

namespace Dse

section
variable {W R : Type} {E : Env W} {T : Target} {M : Memory T.ptrw E}
  (B : Bytewise M (quietCall T) R) (fn : Func)

/-- The bytes that a store of the list will write, known from its address or from its base. -/
inductive Spans (pc : ℕ) (s : St W) : Later → Set ℕ → Prop
  | key {a : ℤ} {size : ℕ} {u : Val} : Sure fn a pc → s.temps a = some u →
      Spans pc s (.mem a size) (bytesAt T.ptrw u size)
  | base {a : ℤ} {size : ℕ} {u v : Val} {bs : Base} :
      (memAccess fn (computeDefs fn) T.ptrw a size).base = some bs → bs.Sure fn pc →
      bs.val M s = some v →
      (u.toNat : ℤ) ≡ v.toNat + (memAccess fn (computeDefs fn) T.ptrw a size).off.toNat
        [ZMOD addrMod T.ptrw] →
      Spans pc s (.mem a size) (bytesAt T.ptrw u size)
  | slot {v : ℤ} {size : ℕ} : Spans pc s (.var v size) (B.part v size)

variable (M) in
/-- The byte is in the objects of the store. -/
def Later.Within (x : ℕ) : Later → Prop
  | .mem a _ => InObjects M fn a {x}
  | .var v _ => x ∈ M.bytes (.slot v)

/-! ## Bytes that will be overwritten -/

/-- A store of the list will write the byte. -/
def Doomed (b pc : ℕ) (s : St W) (x : ℕ) : Prop :=
  ∃ l ∈ laters T fn b pc, ∃ X, Spans B fn pc s l X ∧ x ∈ X ∧ l.Within M fn x

variable {B fn} {b pc x : ℕ} {s s' : St W} {l : Later} {X Y : Set ℕ} {i : Ins} {r : MAccess}

lemma Spans.next (h : Spans B fn pc s l X) (hreach : Relation.ReflTransGen (Flow fn) 0 pc)
    (hb : InBlock fn b pc) (hn : pc + 1 < bbEnd fn b) (hi : fn.ins[pc]? = some i)
    (hs : ∀ t, t ∉ tempDefs i → s'.temps t = s.temps t) : Spans B fn (pc + 1) s' l X := by
  cases h with
  | key ha hu => exact .key (ha.next hb hn) ((hs _ (ha.not_mem hreach hi)).trans hu)
  | base hbs hsure hv hu =>
    exact .base hbs (hsure.next hb hn) ((hsure.val hreach hi hs).trans hv) hu
  | slot => exact .slot

variable (hp : 0 < T.ptrw)
  (hw : ∀ i ∈ fn.ins, i.op = .add ∨ i.op = .sub → i.w = T.ptrw → T.ptrw = 4 ∨ T.ptrw = 8)
  (hwf : WrittenFirst fn)
include hp hw hwf

lemma Spans.ranged (h : Spans B fn pc s l X) (hheld : HeldAt E fn pc s) : Ranged M s (l.acc T fn (computeDefs fn)) X := by
  cases h with
  | key ha hu => exact ranged_at hw hwf hp hheld ha.written hu
  | @base a size u v bs hbs _ hv hu =>
    intro bs' hbs' _
    obtain rfl := Option.mem_unique hbs hbs'
    exact ⟨u, v, hv, by rw [Later.acc, memAccess_size], hu⟩
  | slot =>
    intro bs hbs
    cases hbs

omit hp hw hwf in
lemma Later.Within.known (h : l.Within M fn x) {o : Obj}
    (ho : (l.acc T fn (computeDefs fn)).obj = some o) : x ∈ M.bytes o := by
  cases l with
  | mem a size =>
    rw [Later.acc, memAccess_obj] at ho
    have hb : Based fn a o := memBaseGo_based (fun m i hi => ⟨i, hi, .inl rfl⟩) ho
    exact h.1 o hb rfl
  | var v size =>
    cases ho
    exact h

omit hp hw hwf in
lemma Later.Within.unknown (h : l.Within M fn x) (ho : (l.acc T fn (computeDefs fn)).obj = none) {v : ℤ} (h0 : 0 ≤ v)
    (hv : v < fn.nvars) (ht : ¬ slotsTaken fn v) : x ∉ M.bytes (.slot v) := by
  cases l with
  | mem a size => exact Set.disjoint_singleton_left.1 (h.2 v h0 hv ht)
  | var v size => cases ho

lemma Spans.not_mem (h : Spans B fn pc s l X) (hx : x ∈ X) (hl : l.Within M fn x) (hheld : HeldAt E fn pc s)
    (hr : Describes M s (slotsTaken fn) fn.nvars r Y) (hover : accOverlap T.ptrw (l.acc T fn (computeDefs fn)) r
    (slotsTaken fn) fn.nvars = false) : x ∉ Y := by
  by_cases hsame : sameBase (l.acc T fn (computeDefs fn)) r
  · have hdisj := accOverlap_sameBase hp (h.ranged hp hw hwf hheld) hr.range (fun _ _ _ => rfl) hsame hover
    exact Set.disjoint_left.1 hdisj hx
  · rw [accOverlap, if_neg hsame] at hover
    have hdisj : Disjoint {x} Y := by
      refine mayAlias_apart (fun o ho => ?_) (fun ho v h0 hv ht => ?_) hr.known hr.unknown hover
      · exact Set.singleton_subset_iff.2 (hl.known ho)
      · exact Set.disjoint_singleton_left.2 (hl.unknown ho h0 hv ht)
    exact Set.disjoint_singleton_left.1 hdisj

omit hp hw hwf

variable (M fn) in
/-- What is assumed of an instruction that executes with the operands `vs`: an access stays in the
objects its address is based on, and a call of a function that neither reads nor writes memory has
no argument that is a struct. -/
structure Meets (i : Ins) (vs : List Val) : Prop where
  access : i.op = .load ∨ i.op = .store → ∀ u ∈ vs.head?,
    InObjects M fn i.a (bytesAt T.ptrw u i.size)
  source : i.op = .memcpy → ∀ u ∈ vs[1]?, InObjects M fn i.b (bytesAt T.ptrw u i.size)
  call : i.op = .call → quietCall T i → ∀ a ∈ i.abi.args, a.isStruct = false

variable {vs : List Val} {ls : List Later} {d : Defs} {taken : ℤ → Bool} {e : Later}

lemma keyed_cases (h : keyed T fn d taken i = some e) : i.vol = false ∧
    (i.op = .store ∧ 0 ≤ i.a ∧ i.a < fn.nvregs ∧ d.cnt i.a = 1 ∧ e = .mem i.a i.size ∨
      i.op = .stvar ∧ e = .var i.dst i.size) := by
  unfold keyed at h
  split at h
  · rename_i hc
    cases h
    exact ⟨hc.2.1, .inl ⟨hc.1, hc.2.2.1, hc.2.2.2.1, hc.2.2.2.2, rfl⟩⟩
  · split at h
    · rename_i hc
      cases h
      exact ⟨hc.2.1, .inr ⟨hc.1, rfl⟩⟩
    · cases h

lemma mem_turn (h : l ∈ (turn T fn d taken i ls).2) : (keyed T fn d taken i = some l ∧ (turn T fn d taken i ls).1 = false) ∨
    (l ∈ ls ∧ ((∃ e, keyed T fn d taken i = some e) ∨ sight T fn d i = .nothing ∨ ∃ r, sight T fn d i = .access r ∧
        accOverlap T.ptrw (l.acc T fn d) r taken fn.nvars = false)) := by
  unfold turn at h ⊢
  split at h
  · rename_i e he
    split at h
    · exact .inr ⟨h, .inl ⟨e, he⟩⟩
    · rename_i hk
      rcases List.mem_append.1 h with h | h
      · exact .inr ⟨h, .inl ⟨e, he⟩⟩
      · obtain rfl := List.mem_singleton.1 h
        refine .inl ⟨he, ?_⟩
        rw [if_neg hk]
  · split at h
    · rename_i hsight
      exact .inr ⟨h, .inr (.inl hsight)⟩
    · cases h
    · rename_i r hsight
      obtain ⟨hl, hover⟩ := List.mem_filter.1 h
      exact .inr ⟨hl, .inr (.inr ⟨r, hsight, by simpa using hover⟩)⟩

lemma reads_keyed (h : keyed T fn d taken i = some e) : reads T.ptrw M.bytes (quietCall T) i vs = ∅ := by
  rcases (keyed_cases h).2 with ⟨hop, -⟩ | ⟨hop, -⟩ <;> simp [reads, hop]

lemma reads_nothing (h : sight T fn d i = .nothing) (hend : endsBlock i.op = false)
    (hm : Meets M fn i vs) : reads T.ptrw M.bytes (quietCall T) i vs = ∅ := by
  by_cases hcall : i.op = .call
  · have hquiet : quietCall T i := by
      by_contra hq
      simp [sight, hcall, hq] at h
    simp only [reads, hcall, hquiet]
    refine Set.eq_empty_of_forall_notMem ?_
    rintro x ⟨k, v, a, -, ha, hstruct, -⟩
    rw [hm.call hcall hquiet a (List.mem_of_getElem? ha)] at hstruct
    cases hstruct
  · unfold sight at h
    unfold reads
    cases hop : i.op <;> simp_all [endsBlock]

omit B in
lemma describes_slot (v : ℤ) : Describes M s taken fn.nvars (slotAccess v) (M.bytes (.slot v)) := by
  refine ⟨fun o ho => ?_, fun ho => ?_, fun bs hbs => ?_⟩
  · cases ho
    exact le_rfl
  · cases ho
  · cases hbs

omit B in
lemma describes_obj {a : ℤ} (hin : InObjects M fn a Y) :
    Describes M s (slotsTaken fn) fn.nvars (objAccess fn (computeDefs fn) a) Y := by
  refine ⟨fun o ho => ?_, fun _ => hin.2, fun bs hbs => ?_⟩
  · exact hin.1 o (memBaseGo_based (fun m i hi => ⟨i, hi, .inl rfl⟩) ho)
  · cases hbs

include hp hw hwf in
lemma reads_access (h : sight T fn (computeDefs fn) i = .access r) (hi : fn.ins[pc]? = some i) (hoff : i.memoff = 0)
    (hheld : HeldAt E fn pc s) (hvs : (valueOpnds i).mapM s.temps = some vs) (hm : Meets M fn i vs) : Describes M s
    (slotsTaken fn) fn.nvars r (reads T.ptrw M.bytes (quietCall T) i vs) := by
  by_cases hload : i.op = .load
  · have hops : valueOpnds i = [i.a] := by simp [valueOpnds, eachRead, hload]
    obtain ⟨u, hu, rfl⟩ := mapM_temps_one (hops ▸ hvs)
    obtain rfl : memAccess fn (computeDefs fn) T.ptrw i.a i.size = r := by
      simpa [sight, hload] using h
    have hreads : reads T.ptrw M.bytes (quietCall T) i [u] = bytesAt T.ptrw u i.size := by
      simp [reads, footprint, hload, hoff]
    rw [hreads]
    exact describes_at_held hw hwf hp hheld (hwf pc i hi i.a (by simp [hops])) hu (hm.access (.inl hload) u rfl)
  · by_cases hld : i.op = .ldvar
    · obtain rfl : slotAccess i.a = r := by simpa [sight, hld] using h
      simp only [reads, hld, footprint]
      exact describes_slot i.a
    · by_cases hcpy : i.op = .memcpy
      · have hops : valueOpnds i = [i.a, i.b] := by simp [valueOpnds, eachRead, hcpy]
        obtain ⟨u, v, -, -, rfl⟩ := mapM_temps_two (hops ▸ hvs)
        obtain rfl : objAccess fn (computeDefs fn) i.b = r := by simpa [sight, hcpy] using h
        simp only [reads, hcpy]
        exact describes_obj (hm.source hcpy v rfl)
      · exfalso
        unfold sight at h
        revert h
        cases hop : i.op <;> simp_all
        all_goals split <;> simp

lemma bytesAt_congr {ptrw size : ℕ} (hp8 : ptrw ≤ 8) {u v : Val}
    (h : (u.toNat : ℤ) ≡ v.toNat [ZMOD addrMod ptrw]) : bytesAt ptrw u size = bytesAt ptrw v size := by
  have hmod : addrMod ptrw = 2 ^ (8 * ptrw) := by rw [addrMod, min_eq_left (by omega)]
  have hmod : u.toNat ≡ v.toNat [MOD 2 ^ (8 * ptrw)] := by
    rw [← hmod]
    exact_mod_cast h
  have hbyte : ∀ k, (u.toNat + k) % 2 ^ (8 * ptrw) = (v.toNat + k) % 2 ^ (8 * ptrw) :=
    fun k => hmod.add_right k
  simp only [bytesAt, hbyte]

lemma stored_store (hop : i.op = .store) (hoff : i.memoff = 0) (u : Val) (us : List Val) :
    stored T.ptrw B.part i (u :: us) = bytesAt T.ptrw u i.size := by simp [stored, hop, hoff]

lemma lt_bbEnd_of_mem (hb : InBlock fn b pc) (hl : l ∈ laters T fn b (pc + 1)) : pc + 1 < bbEnd fn b := by
  refine lt_of_le_of_ne hb.2 fun heq => ?_
  rw [heq, laters_end] at hl
  cases hl

lemma dead_cases (hb : InBlock fn b pc) (hi : fn.ins[pc]? = some i) (h : pc ∈ dead T fn) : ∃ e, keyed T fn (computeDefs fn)
    (slotsTaken fn) i = some e ∧ ∃ l ∈ laters T fn b (pc + 1), kills T fn (computeDefs fn) l e = true := by
  rw [mem_dead hb hi, deadAt, turn] at h
  split at h
  · rename_i e he
    split at h
    · rename_i hk
      obtain ⟨l, hl, hk⟩ := List.any_eq_true.1 hk
      exact ⟨e, he, l, hl, hk⟩
    · cases h
  · split at h <;> cases h

lemma exists_shift (ptrw : ℕ) (v : Val) (off : BitVec 64) :
    ∃ u : Val, (u.toNat : ℤ) ≡ v.toNat + off.toNat [ZMOD addrMod ptrw] := by
  refine ⟨v + off.setWidth 128, ?_⟩
  rw [BitVec.toNat_add, BitVec.toNat_setWidth, Nat.mod_eq_of_lt (off.isLt.trans (by decide))]
  push_cast
  refine (Int.mod_modEq _ _).of_dvd ((addrMod_dvd_long ptrw).trans ?_)
  exact pow_dvd_pow 2 (show 64 ≤ 128 by decide)

lemma inObjects_of_mem {a a' : ℤ} (hin : InObjects M fn a Y) (hx : x ∈ Y)
    (hbased : ∀ r, Based fn a' r → Based fn a r) : InObjects M fn a' {x} :=
  ⟨fun r hr => Set.singleton_subset_iff.2 (hin.1 r (hbased r hr) hx),
    fun v h0 hv ht => (hin.2 v h0 hv ht).mono_left (Set.singleton_subset_iff.2 hx)⟩

section
variable (hp8 : T.ptrw ≤ 8) (hreach : Relation.ReflTransGen (Flow fn) 0 pc)
  (hheld : HeldAt E fn pc s) (hb : InBlock fn b pc) (hi : fn.ins[pc]? = some i)
  (hoff : i.memoff = 0)
include hp hw hwf hp8 hheld hi hoff

lemma Spans.stored (hk : keyed T fn (computeDefs fn) (slotsTaken fn) i = some l) (h : Spans B fn pc s l X)
    (hvs : (valueOpnds i).mapM s.temps = some vs) : stored T.ptrw B.part i vs = X := by
  rcases (keyed_cases hk).2 with ⟨hop, -, -, -, rfl⟩ | ⟨hop, rfl⟩
  · have hops : valueOpnds i = [i.a, i.b] := by simp [valueOpnds, eachRead, hop]
    obtain ⟨u, y, hu, -, rfl⟩ := mapM_temps_two (hops ▸ hvs)
    rw [stored_store hop hoff]
    cases h with
    | key _ hu' =>
      obtain rfl := Option.mem_unique hu hu'
      rfl
    | base hbs _ hv hu' =>
      obtain ⟨v', hv', hmod⟩ := memAccess_at hw hwf hp hheld (hwf pc i hi i.a (by simp [hops])) hu _ hbs
      obtain rfl := Option.mem_unique hv hv'
      exact bytesAt_congr hp8 (hmod.trans hu'.symm)
  · cases h with
    | slot => simp [Ir.stored, hop]

include hreach hb in
/-- A byte that will be overwritten is not read, up to the write. -/
lemma Doomed.turn (h : Doomed B fn b pc s x) (hm : ∀ vs, (valueOpnds i).mapM s.temps = some vs → Meets M fn i vs) :
    (∀ vs, (valueOpnds i).mapM s.temps = some vs → x ∉ reads T.ptrw M.bytes (quietCall T) i vs) ∧
    endsBlock i.op = false ∧
    ((pc ∉ dead T fn ∧ i.vol = false ∧ (i.op = .store ∨ i.op = .stvar) ∧
      ∀ vs, (valueOpnds i).mapM s.temps = some vs → x ∈ Ir.stored T.ptrw B.part i vs) ∨
    pc + 1 < bbEnd fn b ∧ ∀ s' : St W, (∀ t, t ∉ tempDefs i → s'.temps t = s.temps t) → Doomed B fn b (pc + 1) s' x) := by
  obtain ⟨l, hl, X, hspan, hx, hin⟩ := h
  rw [laters_eq hb hi] at hl
  rcases mem_turn hl with ⟨hk, hd⟩ | ⟨hl, hsee⟩
  · obtain ⟨hvol, hop⟩ := keyed_cases hk
    have hop : i.op = .store ∨ i.op = .stvar := hop.imp (·.1) (·.1)
    refine ⟨fun vs _ => ?_, ?_, .inl ⟨fun hdead => ?_, hvol, hop, fun vs hvs => ?_⟩⟩
    · rw [reads_keyed hk]
      exact Set.notMem_empty x
    · rcases hop with hop | hop <;> rw [hop] <;> rfl
    · rw [mem_dead hb hi, deadAt, hd] at hdead
      cases hdead
    · rw [hspan.stored hp hw hwf hp8 hheld hi hoff hk hvs]
      exact hx
  · have hn : pc + 1 < bbEnd fn b := lt_bbEnd_of_mem hb hl
    have hend := not_endsBlock hb hn hi
    refine ⟨fun vs hvs => ?_, hend, .inr ⟨hn, fun s' hs' => ?_⟩⟩
    · rcases hsee with ⟨e, he⟩ | hnothing | ⟨r, hr, hover⟩
      · rw [reads_keyed he]
        exact Set.notMem_empty x
      · rw [reads_nothing hnothing hend (hm vs hvs)]
        exact Set.notMem_empty x
      · exact hspan.not_mem hp hw hwf hx hin hheld (reads_access hp hw hwf hr hi hoff hheld hvs (hm vs hvs)) hover
    · exact ⟨l, hl, X, hspan.next hreach hb hn hi hs', hx, hin⟩

omit hp8 hoff in
include hreach hb in
lemma doomed_of_covers {a : ℤ} {size : ℕ} {u : Val} (ha : ¬ Unwritten fn a pc) (hu : s.temps a = some u)
    (hin : InObjects M fn a (bytesAt T.ptrw u size)) (hl : l ∈ laters T fn b (pc + 1)) (hn : pc + 1 < bbEnd fn b)
    (hc : accCovers T.ptrw (l.acc T fn (computeDefs fn)) (memAccess fn (computeDefs fn) T.ptrw a size) = true)
    (hx : x ∈ bytesAt T.ptrw u size) (hs' : ∀ t, t ∉ tempDefs i → s'.temps t = s.temps t) : Doomed B fn b (pc + 1) s' x := by
  have hsame : sameBase (l.acc T fn (computeDefs fn)) (memAccess fn (computeDefs fn) T.ptrw a size) = true := by
    by_contra hsame
    simp [accCovers, hsame] at hc
  obtain ⟨hbase, heq, -⟩ := of_decide_eq_true hsame
  cases l with
  | var v n => exact absurd rfl hbase
  | mem a' size' =>
    obtain ⟨bs, hbs'⟩ := Option.ne_none_iff_exists'.1 hbase
    have hbs : (memAccess fn (computeDefs fn) T.ptrw a size).base = some bs := heq ▸ hbs'
    obtain ⟨v, hv, -⟩ := memAccess_at hw hwf hp hheld ha hu bs hbs
    obtain ⟨u', hu'⟩ := exists_shift T.ptrw v (memAccess fn (computeDefs fn) T.ptrw a' size').off
    have hspan : Spans B fn pc s (.mem a' size') (bytesAt T.ptrw u' size') :=
      .base hbs' (base_sure hwf ha hbs) hv hu'
    have hsub := accCovers_sound (hspan.ranged hp hw hwf hheld) (ranged_at hw hwf hp hheld ha hu) (fun _ _ _ => rfl) hc
    refine ⟨_, hl, _, hspan.next hreach hb hn hi hs', hsub hx, inObjects_of_mem hin hx fun r hr => ?_⟩
    rwa [based_memAccess hbs, ← based_memAccess hbs']

omit hp8 in
include hreach hb in
lemma doomed_of_dead (hdead : pc ∈ dead T fn) (hvs : (valueOpnds i).mapM s.temps = some vs)
    (hm : Meets M fn i vs) (hx : x ∈ Ir.stored T.ptrw B.part i vs)
    (hs' : ∀ t, t ∉ tempDefs i → s'.temps t = s.temps t) : Doomed B fn b (pc + 1) s' x := by
  obtain ⟨e, he, l, hl, hk⟩ := dead_cases hb hi hdead
  have hn : pc + 1 < bbEnd fn b := lt_bbEnd_of_mem hb hl
  rcases (keyed_cases he).2 with ⟨hop, h0, hlt, hcnt, rfl⟩ | ⟨hop, rfl⟩
  · have hops : valueOpnds i = [i.a, i.b] := by simp [valueOpnds, eachRead, hop]
    obtain ⟨u, y, hu, -, rfl⟩ := mapM_temps_two (hops ▸ hvs)
    rw [stored_store hop hoff] at hx
    have ha : ¬ Unwritten fn i.a pc := hwf pc i hi i.a (by simp [hops])
    have hin := hm.access (.inr hop) u rfl
    rcases Bool.or_eq_true_iff.1 hk with heq | hc
    · obtain rfl := beq_iff_eq.1 heq
      have hspan : Spans B fn pc s (.mem i.a i.size) (bytesAt T.ptrw u i.size) :=
        .key ⟨once_of_cnt h0 hlt hcnt, ha⟩ hu
      exact ⟨_, hl, _, hspan.next hreach hb hn hi hs', hx, inObjects_of_mem hin hx fun _ => id⟩
    · exact doomed_of_covers hp hw hwf hreach hheld hb hi ha hu hin hl hn hc hx hs'
  · obtain rfl := beq_iff_eq.1 hk
    have hx : x ∈ B.part i.dst i.size := by simpa [Ir.stored, hop] using hx
    exact ⟨_, hl, _, .slot, hx, B.part_subset _ _ hx⟩

end
end
end Dse
end EmbCC.Opt
