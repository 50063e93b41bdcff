import EmbCC.Libc.Malloc.Realloc

/-!
# Runs of the allocator

A user of the heap makes calls, writes into the blocks it holds, and keeps a
table of them: for each live pointer the size it asked for. `malloc_runs` is
what every run can rely on, as long as the operating system hands out memory at
multiples of 16 and no call asks for zero bytes at an alignment above 16. The
blocks found by walking the heap do not overlap, headers included; every live
pointer has a block of its own that is large enough; and the free list holds
exactly the blocks marked free.
-/

namespace EmbCC.Libc

open Set Option Words Ring Heap Function Prod

/-! ## Calls and runs -/

/-- A call, or a write of the user into a block it holds. -/
inductive Call
  | malloc (n : ℕ)
  | free (p : ℕ)
  | realloc (p n : ℕ)
  | alignedAlloc (align n : ℕ)
  | store (p k : ℕ) (v : BitVec 8)

/-- The size asked for, of every live pointer. -/
abbrev Table := ℕ → Option ℕ

/-- The heap after a call and the pointer it returned; `none` is a call that does not return. -/
def Call.run {W : Type} (sbrk : W → ℤ → Option ℕ × W) (h : Heap W) : Call → Option (Heap W × ℕ)
  | .malloc n => h.doMalloc sbrk n
  | .free p => some (h.doFree p, 0)
  | .realloc p n => h.doRealloc sbrk p n
  | .alignedAlloc align n => h.doAlignedAlloc sbrk align n
  | .store p k v => some ({ h with mem := update h.mem (p + k) v }, 0)

/-- A pointer is live from the call that returned it. -/
def Table.add (t : Table) (r n : ℕ) : Table := if r = 0 then t else update t r (some n)

/-- The table after a call that returned `r`. -/
def Call.table (t : Table) (r : ℕ) : Call → Table
  | .malloc n => t.add r n
  | .free p => update t p none
  | .realloc p n =>
    if p = 0 then t.add r n
    else if n = 0 then update t p none
    else if r = 0 then t
    else Table.add (update t p none) r n
  | .alignedAlloc _ n => t.add r n
  | .store _ _ _ => t

/-- No computation with a request of so many bytes reaches `LONG_MAX`. -/
def SmallSize (n : ℕ) : Prop := (n + 15) / 16 * 16 + 48 < 2 ^ 63 - 1

/-- No computation of `aligned_alloc` reaches `LONG_MAX`. -/
def SmallAligned (align n : ℕ) : Prop :=
  (align ≤ 16 → SmallSize n) ∧
    (16 < align → align &&& (align - 1) = 0 → SmallSize ((n + 15) / 16 * 16 + align + 32))

lemma SmallSize.long {n : ℕ} (h : SmallSize n) : LongSize n := by
  unfold SmallSize at h
  unfold LongSize
  omega

/-- A call with a live pointer or null, and with a size small enough that no computation reaches
`LONG_MAX`. -/
def Call.Legal (t : Table) : Call → Prop
  | .malloc n => SmallSize n
  | .free p => p = 0 ∨ (t p).isSome
  | .realloc p n => (p = 0 ∨ (t p).isSome) ∧ SmallSize n
  | .alignedAlloc align n => SmallAligned align n
  | .store p k _ => ∃ n, t p = some n ∧ k < n

/-- Not a request for zero bytes at an alignment above 16. -/
def Call.Sized : Call → Prop
  | .alignedAlloc align n => 16 < align → 0 < n
  | _ => True

/-- The states of runs that start with an empty heap. -/
inductive Reached {W : Type} (sbrk : W → ℤ → Option ℕ × W) (ok : Call → Prop) :
    Heap W → Table → Prop
  | start {h : Heap W} (hhead : h.head = 0) (htail : h.tail = 0) (hfree : h.free = 0) :
      Reached sbrk ok h fun _ => none
  | step {h h' : Heap W} {t : Table} {c : Call} {r : ℕ} (hs : Reached sbrk ok h t) (hc : c.Legal t)
      (hok : ok c) (hr : c.run sbrk h = some (h', r)) : Reached sbrk ok h' (c.table t r)

/-- Following a field from an address to null. -/
def Walk {W : Type} (h : Heap W) (f : Field) : ℕ → List ℕ → Prop
  | x, [] => x = 0
  | x, y :: ys => x = y ∧ y ≠ 0 ∧ Walk h f (h.get y f) ys

/-- What holds between calls. -/
structure HeapOk {W : Type} (h : Heap W) (t : Table) (bs : List Blk) (fs : List ℕ) : Prop where
  blocks : Walk h .next h.head (bs.map Blk.addr)
  header : ∀ b ∈ bs, h.bsize b.addr = b.size ∧ h.bfree b.addr = b.free
  apart : bs.Pairwise fun b c => b.stop ≤ c.addr
  freeList : Walk h .fnext h.free fs
  nodup : fs.Nodup
  exact : ∀ x, x ∈ fs ↔ ∃ b ∈ bs, b.addr = x ∧ b.free = true
  held : ∀ p n, t p = some n → ∃ b ∈ bs, b.free = false ∧ p = b.addr + 32 ∧ n ≤ b.size
  noLeak : ∀ b ∈ bs, b.free = false → (t (b.addr + 32)).isSome

/-- The pointer a call that returned `r` gives up. -/
def Call.gives (r : ℕ) : Call → Option ℕ
  | .free p => some p
  | .realloc p n => if r = 0 ∧ n ≠ 0 then none else some p
  | _ => none

/-- What a call that returned `r` does: `r` is null or suitably aligned and new, the bytes of the
pointers not given up are kept, and `realloc` keeps as many bytes as both sizes have. -/
structure StepOk {W : Type} (h : Heap W) (t : Table) (c : Call) (h' : Heap W) (r : ℕ) : Prop where
  aligned : 16 ∣ r
  alignedTo : ∀ k n, c = .alignedAlloc (2 ^ k) n → 2 ^ k ∣ r
  fresh : r ≠ 0 → t r = none ∨ c.gives r = some r
  kept : (∀ p k v, c ≠ .store p k v) → ∀ q n, t q = some n → c.gives r ≠ some q →
    ∀ k < n, h'.mem (q + k) = h.mem (q + k)
  copied : ∀ p n old, c = .realloc p n → t p = some old → r ≠ 0 →
    ∀ k, k < old → k < n → h'.mem (r + k) = h.mem (p + k)

/-! ## The table of live pointers -/

/-- The table names the live blocks. -/
structure Names (t : Table) (B : Set Blk) : Prop where
  held : ∀ p n, t p = some n → ∃ b ∈ B, p = b.addr + 32 ∧ n ≤ b.size
  noLeak : ∀ b ∈ B, (t (b.addr + 32)).isSome

/-- The heap is represented and the table names its live blocks. -/
def Inv {W : Type} (topOf : W → ℕ) (h : Heap W) (t : Table) : Prop :=
  ∃ w bs fs, Ready ∅ h.mem w (topOf w) h bs fs ∧ Names t (live bs)

section
variable {W : Type} {S : Set ℕ} {m : Mem} {w : W} {top : ℕ} {h h' : Heap W} {bs : List Blk}
  {fs : List ℕ} {t : Table} {B : Set Blk} {p n r : ℕ} {b : Blk} {c : Call}
  {sbrk : W → ℤ → Option ℕ × W} {topOf : W → ℕ}

lemma walk_of_next {f : Field} (l' : List ℕ) {l : List ℕ} (hnext : ∀ l1 y l2, l' ++ l = l1 ++ y :: l2 →
    h.get y f = l2.headD 0) (h0 : ∀ y ∈ l, y ≠ 0) : Walk h f (l.headD 0) l := by
  induction l generalizing l' with
  | nil => rfl
  | cons y l ih =>
    refine ⟨rfl, h0 y (.head _), ?_⟩
    rw [hnext l' y l rfl]
    refine ih (l' ++ [y]) (fun l1 z l2 hz => hnext l1 z l2 ?_) fun z hz => h0 z (.tail _ hz)
    rw [← hz, List.append_assoc, List.singleton_append]

lemma Rep.head_eq (H : Rep S m w top h bs fs) : h.head = (bs.map Blk.addr).headD 0 := by
  obtain ⟨-, -, -, V, hV, hsh⟩ := H
  rw [← hV.ring.next_base]
  exact hsh.fld .next 0 (.inr ⟨rfl, by decide, by decide⟩)

lemma Ready.heapOk (H : Ready S m w top h bs fs) (ht : Names t (live bs)) : HeapOk h t bs fs where
  blocks := by
    rw [H.rep.head_eq]
    refine walk_of_next [] (fun l1 y l2 hl => ?_) fun y hy => ?_
    · rw [List.nil_append, List.map_eq_append_iff] at hl
      obtain ⟨bl, br, rfl, -, hr⟩ := hl
      obtain ⟨b, br', rfl, rfl, rfl⟩ := List.map_eq_cons_iff.1 hr
      exact H.rep.links.1
    · obtain ⟨b, hb, rfl⟩ := List.mem_map.1 hy
      have := H.rep.laid.addr_pos Nat.one_pos hb
      omega
  header b hb := ⟨H.rep.bsize hb, H.rep.bfree hb⟩
  apart := H.rep.laid.pairwise
  freeList := by
    rw [H.rep.free_eq]
    refine walk_of_next [] (fun l1 y l2 hl => ?_) fun y hy => ?_
    · have H' := H.rep
      rw [← List.nil_append fs, hl] at H'
      exact H'.fnext_eq
    · obtain ⟨b, hb, rfl⟩ := H.rep.fsub hy
      have := H.rep.laid.addr_pos Nat.one_pos hb
      omega
  nodup := H.rep.fnodup
  exact x := by
    constructor
    · intro hx
      obtain ⟨b, hb, rfl⟩ := H.rep.fsub hx
      exact ⟨b, hb, rfl, (H.exact b hb).1 hx⟩
    · rintro ⟨b, hb, rfl, hfree⟩
      exact (H.exact b hb).2 hfree
  held p n hp := by
    obtain ⟨b, hb, hpb, hn⟩ := ht.held p n hp
    exact ⟨b, hb.1, hb.2, hpb, hn⟩
  noLeak b hb hfree := ht.noLeak b ⟨hb, hfree⟩

lemma inv_start (O : FreshAbove sbrk topOf) (hhead : h.head = 0) (htail : h.tail = 0)
    (hfree : h.free = 0) : Inv topOf h fun _ => none := by
  refine ⟨h.os, [], [], ⟨⟨(O.lt _).2, by simp, by simp, h.fld, ⟨(O.lt _).1, by simp, ?_, ?_, .nil,
    by simp⟩, fun _ _ _ => rfl, fun _ _ => rfl, rfl⟩, by simp [Exact], empty_subset _⟩,
    by simp, by simp [live]⟩
  · exact ⟨hhead, htail, trivial⟩
  · exact ⟨hfree, rfl, trivial⟩

lemma Names.mem_payload (ht : Names t B) (hp : t p = some n) {k : ℕ} (hk : k < n) :
    ∃ d ∈ B, p = d.addr + 32 ∧ p + k ∈ d.payload := by
  obtain ⟨d, hd, rfl, hn⟩ := ht.held p n hp
  refine ⟨d, hd, rfl, ?_⟩
  simp only [Blk.payload, Blk.stop, mem_ofPred_eq]
  omega

lemma Names.ne_zero (ht : Names t B) (hp : t p = some n) : p ≠ 0 := by
  obtain ⟨d, -, rfl, -⟩ := ht.held p n hp
  omega

lemma Names.insert (ht : Names t B) (hnew : ∀ d ∈ B, d.addr ≠ b.addr) (hn : n ≤ b.size) :
    Names (update t (b.addr + 32) (some n)) (insert b B) := by
  refine ⟨fun q old hq => ?_, fun d hd => ?_⟩
  · by_cases hqr : q = b.addr + 32
    · rw [hqr, update_self, some.injEq] at hq
      exact ⟨b, mem_insert _ _, hqr, hq ▸ hn⟩
    · rw [update_of_ne hqr] at hq
      obtain ⟨d, hd, hqd, hle⟩ := ht.held q old hq
      exact ⟨d, mem_insert_of_mem _ hd, hqd, hle⟩
  · rcases hd with rfl | hd
    · rw [update_self]
      rfl
    · have := hnew d hd
      rw [update_of_ne (by omega)]
      exact ht.noLeak d hd

lemma Names.diff (hlaid : Laid 1 bs top) (ht : Names t (live bs)) (hb : b ∈ live bs) :
    Names (update t (b.addr + 32) none) (live bs \ {b}) := by
  refine ⟨fun q old hq => ?_, fun d hd => ?_⟩
  · by_cases hqp : q = b.addr + 32
    · rw [hqp, update_self] at hq
      cases hq
    · rw [update_of_ne hqp] at hq
      obtain ⟨d, hd, hqd, hle⟩ := ht.held q old hq
      exact ⟨d, ⟨hd, fun hdb => hqp (by rw [hqd, hdb])⟩, hqd, hle⟩
  · have hne : d.addr ≠ b.addr := fun h => hd.2 (hlaid.addr_inj hd.1.1 hb.1 h)
    rw [update_of_ne (by omega)]
    exact ht.noLeak d hd.1

lemma Names.malloced (ht : Names t (live bs)) (hr : Malloced topOf (livePayload bs) h.mem (live bs) n (h', r)) :
    Inv topOf h' (t.add r n) ∧ 16 ∣ r ∧ (r ≠ 0 → t r = none) ∧
      ∀ q old, t q = some old → ∀ k < old, h'.mem (q + k) = h.mem (q + k) := by
  obtain ⟨w, bs', fs', H, hcase⟩ := hr
  have hkeep : ∀ q old, t q = some old → ∀ k < old, h'.mem (q + k) = h.mem (q + k) := by
    intro q old hq k hk
    obtain ⟨d, hd, -, hz⟩ := ht.mem_payload hq hk
    exact H.rep.keep ⟨d, hd, hz⟩
  have H' := H.rebase (empty_subset _)
  rcases hcase with ⟨h0, hlive⟩ | ⟨b, hlive, hnew, hfree, hn, hrb⟩
  · dsimp only at h0
    subst h0
    exact ⟨⟨w, bs', fs', H', hlive ▸ ht⟩, dvd_zero _, fun h => absurd rfl h, hkeep⟩
  · dsimp only at hrb
    have hr0 : r ≠ 0 := by omega
    have hnone : t r = none := by
      rw [eq_none_iff_forall_ne_some]
      intro old hold
      obtain ⟨d, hd, hrd, -⟩ := ht.held r old hold
      exact hnew d hd (by omega)
    refine ⟨⟨w, bs', fs', H', ?_⟩, ?_, fun _ => hnone, hkeep⟩
    · rw [hlive, Table.add, if_neg hr0, hrb]
      exact ht.insert hnew hn
    · have := b.addr_dvd
      omega

lemma Ready.freed (H : Ready ∅ m w (topOf w) h bs fs) (ht : Names t (live bs)) (hp : t p = some n) : Inv topOf (h.doFree p)
    (update t p none) ∧ ∀ q old, t q = some old → q ≠ p → ∀ k < old, (h.doFree p).mem (q + k) = h.mem (q + k) := by
  obtain ⟨b, hb, rfl, -⟩ := ht.held p n hp
  have hlaid := H.rep.laid
  have H0 : Ready {z | ∃ d ∈ live bs, d ≠ b ∧ z ∈ d.payload} h.mem w (topOf w) h bs fs :=
    H.rebase fun z ⟨d, hd, _, hz⟩ => ⟨d, hd, hz⟩
  obtain ⟨bs', fs', H', hlive⟩ := H0.doFree hb fun z ⟨d, hd, hdb, hz⟩ hzb =>
    hlaid.not_mem_payload hd.1 hb.1 hdb (by have := hzb.1; omega) hzb.2 hz
  refine ⟨⟨w, bs', fs', H'.rebase (empty_subset _), hlive ▸ ht.diff hlaid hb⟩, fun q old hq hqp k hk => ?_⟩
  obtain ⟨d, hd, hqd, hz⟩ := ht.mem_payload hq hk
  exact H'.rep.keep ⟨d, hd, fun hdb => hqp (by rw [hqd, hdb]), hz⟩

/-- The table of live pointers after a `realloc`. -/
lemma Names.realloced {old : ℕ} (hlaid : Laid 1 bs top) (ht : Names t (live bs)) (hb : b ∈ live bs) (hle : old ≤ b.size)
    (hr : Realloced topOf h.mem (live bs) b n (h', r)) : Inv topOf h' (if r = 0 then t else Table.add
    (update t (b.addr + 32) none) r n) ∧ 16 ∣ r ∧ (r ≠ 0 → t r = none ∨ r = b.addr + 32)
    ∧ (∀ q o, t q = some o → (r = 0 ∨ q ≠ b.addr + 32) → ∀ k < o, h'.mem (q + k) = h.mem (q + k))
    ∧ (r ≠ 0 → ∀ k, k < old → k < n → h'.mem (r + k) = h.mem (b.addr + 32 + k)) := by
  obtain ⟨w, bs', fs', H, ⟨h0, hlive, hkeep⟩ | ⟨b', hlive, hnew, hfree, hn, hrb, hkeep, hcopy⟩⟩ := hr
  · dsimp only at h0
    subst h0
    refine ⟨⟨w, bs', fs', H, hlive ▸ ht⟩, dvd_zero _, fun h => absurd rfl h, fun q o hq _ k hk => ?_, fun h => absurd rfl h⟩
    obtain ⟨d, hd, -, hz⟩ := ht.mem_payload hq hk
    exact hkeep d hd _ hz
  · dsimp only at hrb
    have hr0 : r ≠ 0 := by omega
    have ht' := ht.diff hlaid hb
    have hother : ∀ q o, t q = some o → q ≠ b.addr + 32 → ∃ d ∈ live bs \ {b}, q = d.addr + 32 ∧ o ≤ d.size :=
      fun q o hq hqb => ht'.held q o ((update_of_ne hqb _ _).trans hq)
    refine ⟨⟨w, bs', fs', H, ?_⟩, ?_, fun _ => ?_, fun q o hq hqb k hk => ?_, fun _ k hk hkn => ?_⟩
    · rw [hlive, if_neg hr0, Table.add, if_neg hr0, hrb]
      exact ht'.insert hnew hn
    · have := b'.addr_dvd
      omega
    · refine or_iff_not_imp_right.2 fun hrp => Option.eq_none_iff_forall_ne_some.2 fun o ho => ?_
      obtain ⟨d, hd, hrd, -⟩ := hother r o ho hrp
      exact hnew d hd (by omega)
    · obtain ⟨d, hd, hqd, hle⟩ := hother q o hq (hqb.resolve_left hr0)
      refine hkeep d hd _ ?_
      simp only [Blk.payload, Blk.stop, mem_ofPred_eq]
      omega
    · rw [hrb]
      exact hcopy k (by omega) hkn

/-! ## One call -/

/-- What one call does from a state that meets the invariant. -/
def Steps (sbrk : W → ℤ → Option ℕ × W) (topOf : W → ℕ) (h : Heap W) (t : Table) (c : Call) : Prop :=
  ∃ h' r, c.run sbrk h = some (h', r) ∧ StepOk h t c h' r ∧ Inv topOf h' (c.table t r)

/-- One call of `free`. -/
lemma steps_free (H : Ready ∅ m w (topOf w) h bs fs) (ht : Names t (live bs))
    (hp : p = 0 ∨ (t p).isSome) : Steps sbrk topOf h t (.free p) := by
  refine ⟨h.doFree p, 0, rfl, ?_⟩
  rcases hp with rfl | hp
  · have h0 : t 0 = none := Option.eq_none_iff_forall_ne_some.2 fun n hn => ht.ne_zero hn rfl
    have htab : update t 0 none = t := by rw [← h0, update_eq_self]
    rw [Heap.doFree, if_pos rfl, Call.table, htab]
    exact ⟨⟨dvd_zero _, by simp, fun h => absurd rfl h, fun _ _ _ _ _ _ _ => rfl, by simp⟩,
      w, bs, fs, H.rebase (empty_subset _), ht⟩
  · obtain ⟨n, hn⟩ := Option.isSome_iff_exists.1 hp
    obtain ⟨hinv, hkeep⟩ := H.freed ht hn
    exact ⟨⟨dvd_zero _, by simp, fun h => absurd rfl h,
      fun _ q o hq hqp => hkeep q o hq fun h => hqp (by rw [h]; rfl), by simp⟩, hinv⟩

section
variable (O : FreshAbove sbrk topOf) (A : AlignedBreak sbrk) (H : Ready ∅ m w (topOf w) h bs fs)
  (ht : Names t (live bs))
include O A H ht

/-- One call of `realloc`. -/
lemma steps_realloc (hp : p = 0 ∨ (t p).isSome) (hn : SmallSize n) : Steps sbrk topOf h t (.realloc p n) := by
  by_cases hp0 : p = 0
  · subst hp0
    obtain ⟨⟨h', r⟩, hr, hm⟩ := (H.rebase subset_rfl).doMalloc O A hn.long
    obtain ⟨hinv, h16, hfresh, hkeep⟩ := ht.malloced hm
    refine ⟨h', r, by rw [Call.run, Heap.doRealloc, if_pos rfl, hr], ⟨h16, by simp,
      fun h => .inl (hfresh h), fun _ q o hq _ => hkeep q o hq, fun p n old hpn hold => ?_⟩,
      by rwa [Call.table, if_pos rfl]⟩
    obtain ⟨rfl, rfl⟩ := Call.realloc.inj hpn
    exact absurd rfl (ht.ne_zero hold)
  obtain ⟨old, hold⟩ := Option.isSome_iff_exists.1 (hp.resolve_left hp0)
  by_cases hn0 : n = 0
  · subst hn0
    obtain ⟨hinv, hkeep⟩ := H.freed ht hold
    refine ⟨h.doFree p, 0, by rw [Call.run, Heap.doRealloc, if_neg hp0, if_pos rfl],
      ⟨dvd_zero _, by simp, fun h => absurd rfl h,
      fun _ q o hq hqp => hkeep q o hq fun h => hqp (by rw [h]; rfl),
      fun _ _ _ _ _ h => absurd rfl h⟩, by rwa [Call.table, if_neg hp0, if_pos rfl]⟩
  · obtain ⟨b, hb, rfl, hle⟩ := ht.held p old hold
    obtain ⟨⟨h', r⟩, hr, hre⟩ := H.doRealloc O A hb hn0 hn.long
    obtain ⟨hinv, h16, hfresh, hkeep, hcopy⟩ := ht.realloced H.rep.laid hb hle hre
    refine ⟨h', r, hr, ⟨h16, by simp, fun h => ?_, fun _ q o hq hqp => hkeep q o hq ?_,
      fun p n o hpn ho => ?_⟩, by rwa [Call.table, if_neg hp0, if_neg hn0]⟩
    · refine (hfresh h).imp_right fun hrb => ?_
      rw [Call.gives, if_neg fun h' => h h'.1, hrb]
    · by_cases hr0 : r = 0
      · exact .inl hr0
      · rw [Call.gives, if_neg fun h' => hr0 h'.1] at hqp
        exact .inr fun h => hqp (by rw [h])
    · obtain ⟨rfl, rfl⟩ := Call.realloc.inj hpn
      obtain rfl := mem_unique hold ho
      exact hcopy

/-- One call of `aligned_alloc`. -/
lemma steps_alignedAlloc {align : ℕ} (hn : SmallAligned align n) (hpos : 16 < align → 0 < n) :
    Steps sbrk topOf h t (.alignedAlloc align n) := by
  obtain ⟨⟨h', r⟩, hr, hm, hdvd⟩ := (H.rebase subset_rfl).doAlignedAlloc O A
    (fun hle => (hn.1 hle).long) (fun hlt hpow => (hn.2 hlt hpow).long) hpos
  obtain ⟨hinv, h16, hfresh, hkeep⟩ := ht.malloced hm
  refine ⟨h', r, hr, ⟨h16, fun k n hk => ?_, fun h => .inl (hfresh h), fun _ q o hq _ => hkeep q o hq, by simp⟩, hinv⟩
  obtain ⟨rfl, rfl⟩ := Call.alignedAlloc.inj hk
  by_cases hlt : 16 < 2 ^ k
  · exact hdvd hlt
  · have hk4 : k ≤ 4 := by
      by_contra hk
      have := Nat.pow_le_pow_right (show 0 < 2 by decide) (show 5 ≤ k by omega)
      omega
    exact (pow_dvd_pow 2 hk4).trans h16

end

lemma steps_store (H : Ready ∅ m w (topOf w) h bs fs) (ht : Names t (live bs)) {k : ℕ}
    (v : BitVec 8) (hp : t p = some n) (hk : k < n) : Steps sbrk topOf h t (.store p k v) := by
  obtain ⟨d, hd, -, hz⟩ := ht.mem_payload hp hk
  have hm : ∀ z, z ∉ d.payload → update h.mem (p + k) v z = h.mem z := fun z hzd =>
    update_of_ne (fun h => hzd (by rw [h]; exact hz)) _ _
  refine ⟨_, 0, rfl, ⟨dvd_zero _, by simp, fun h => absurd rfl h, fun h => absurd rfl (h p k v),
    by simp⟩, w, bs, fs, H.write hd hm (empty_subset _), ht⟩

/-- Every legal call of a sound heap returns and keeps it sound. -/
lemma Inv.steps (O : FreshAbove sbrk topOf) (A : AlignedBreak sbrk) (H : Inv topOf h t)
    (hc : c.Legal t) (hs : c.Sized) : Steps sbrk topOf h t c := by
  obtain ⟨w, bs, fs, H, ht⟩ := H
  cases c with
  | malloc n =>
    obtain ⟨⟨h', r⟩, hr, hm⟩ := (H.rebase subset_rfl).doMalloc O A (SmallSize.long hc)
    obtain ⟨hinv, h16, hfresh, hkeep⟩ := ht.malloced hm
    exact ⟨h', r, hr, ⟨h16, by simp, fun h => .inl (hfresh h), fun _ q n hq _ => hkeep q n hq,
      by simp⟩, hinv⟩
  | free p => exact steps_free H ht hc
  | realloc p n => exact steps_realloc O A H ht hc.1 hc.2
  | alignedAlloc align n => exact steps_alignedAlloc O A H ht hc hs
  | store p k v =>
    obtain ⟨n, hp, hk⟩ := hc
    exact steps_store H ht v hp hk

/-! ## Runs -/

lemma Reached.inv (O : FreshAbove sbrk topOf) (A : AlignedBreak sbrk) (H : Reached sbrk Call.Sized h t) : Inv topOf h t := by
  induction H with
  | start hhead htail hfree => exact inv_start O hhead htail hfree
  | step _ hc hok hr ih =>
    obtain ⟨h', r, hr', -, hinv⟩ := ih.steps O A hc hok
    obtain ⟨rfl, rfl⟩ := mk.inj (mem_unique hr hr')
    exact hinv

/-- In every run in which the operating system hands out memory at multiples of 16 and no call asks
for zero bytes at an alignment above 16, the heap is sound in every state, and every call from there
returns and does what it should. -/
theorem malloc_runs (O : FreshAbove sbrk topOf) (A : AlignedBreak sbrk) (H : Reached sbrk Call.Sized h t) :
    (∃ bs fs, HeapOk h t bs fs) ∧ ∀ c : Call, c.Legal t → c.Sized →
      ∃ h' r, c.run sbrk h = some (h', r) ∧ StepOk h t c h' r := by
  have hinv := H.inv O A
  refine ⟨?_, fun c hc hs => ?_⟩
  · obtain ⟨w, bs, fs, H, ht⟩ := hinv
    exact ⟨bs, fs, H.heapOk ht⟩
  · obtain ⟨h', r, hr, hstep, -⟩ := hinv.steps O A hc hs
    exact ⟨h', r, hr, hstep⟩

end

/-- An operating system with 4 GiB that hands out whole units of 16 bytes from its break. -/
def bump (w : ℕ) (k : ℤ) : Option ℕ × ℕ :=
  if 0 < k ∧ 16 ∣ w ∧ 0 < w ∧ w + k.toNat ≤ 2 ^ 32 then (some w, w + k.toNat) else (none, w)

/-- Its break, kept inside the address space. -/
def bumpTop (w : ℕ) : ℕ := max 1 (min w (2 ^ 32))

lemma bump_fresh : FreshAbove bump bumpTop where
  lt w := by
    unfold bumpTop
    omega
  mono w k _ := by
    unfold bump
    split <;> simp only [bumpTop] <;> omega
  fresh w k p _ hp := by
    unfold bump at hp ⊢
    split at hp
    · rename_i h
      cases hp
      rw [if_pos h]
      simp only [bumpTop]
      omega
    · cases hp

lemma bump_aligned : AlignedBreak bump := by
  intro w k p _ hp
  unfold bump at hp
  split at hp
  · rename_i h
    exact some.inj hp ▸ h.2.1
  · cases hp

/-- Nothing is allocated yet. -/
def emptyHeap : Heap ℕ := { mem := fun _ => 0, os := 4096 }

/-- A block that `realloc` has to move, since the next one is in use when it grows, and then is freed. -/
theorem malloc_runs_moved : ∃ (h : Heap ℕ) (t : Table), Reached bump Call.Sized h t ∧
    t 4128 = none ∧ t 4176 = none ∧ t 4240 = some 100 ∧ ∃ bs fs, HeapOk h t bs fs := by
  have e1 : ((Call.malloc 10).run bump emptyHeap).map snd = some 4128 := by decide +kernel
  have e2 : (((Call.malloc 10).run bump emptyHeap).bind fun p =>
      (Call.malloc 24).run bump p.1).map snd = some 4176 := by decide +kernel
  have e3 : ((((Call.malloc 10).run bump emptyHeap).bind fun p => (Call.malloc 24).run bump p.1).bind fun p =>
      (Call.realloc 4128 100).run bump p.1).map snd = some 4240 := by decide +kernel
  obtain ⟨⟨h1, r1⟩, hr1, hp1⟩ := map_eq_some_iff.1 e1
  rw [hr1, bind_some] at e2 e3
  obtain ⟨⟨h2, r2⟩, hr2, hp2⟩ := map_eq_some_iff.1 e2
  rw [hr2, bind_some] at e3
  obtain ⟨⟨h3, r3⟩, hr3, hp3⟩ := map_eq_some_iff.1 e3
  obtain ⟨rfl, rfl, rfl⟩ : r1 = 4128 ∧ r2 = 4176 ∧ r3 = 4240 := ⟨hp1, hp2, hp3⟩
  have hsmall : ∀ n ≤ 100, SmallSize n := fun n hn => by unfold SmallSize; omega
  have hs1 : Reached bump Call.Sized h1 _ := .step (c := .malloc 10) (.start rfl rfl rfl) (hsmall 10 (by norm_num)) trivial hr1
  have hs2 := Reached.step (c := .malloc 24) hs1 (hsmall 24 (by norm_num)) trivial hr2
  have hs3 := Reached.step (c := .realloc 4128 100) hs2 ⟨.inr rfl, hsmall 100 le_rfl⟩ trivial hr3
  have hs4 : Reached bump Call.Sized (h3.doFree 4176) _ := .step (c := .free 4176) hs3 (Or.inr rfl) trivial rfl
  exact ⟨_, _, hs4, rfl, rfl, rfl, (malloc_runs bump_fresh bump_aligned hs4).1⟩

/-- `aligned_alloc(64, 0)` on the empty heap, and the pointer given back. -/
def zeroBlock : Heap ℕ × ℕ :=
  ((Call.alignedAlloc 64 0).run bump emptyHeap).getD (emptyHeap, 0)

@[inherit_doc zeroBlock]
def zeroFreed : Heap ℕ := zeroBlock.1.doFree zeroBlock.2

lemma zeroFreed_list : zeroFreed.free = 4096 ∧ zeroFreed.get 4096 .fnext = 4224 ∧ zeroFreed.bfree 4224 = false := by
  decide +kernel

/-- A request for zero bytes at an alignment of 64, given back: the free list holds a block that is
not marked free, whatever the operating system did right. -/
theorem alignedAlloc_zero_corrupts : FreshAbove bump bumpTop ∧ AlignedBreak bump ∧
    ∃ (h : Heap ℕ) (t : Table), Reached bump (fun _ => True) h t ∧ ¬ ∃ bs fs, HeapOk h t bs fs := by
  have hrun : (Call.alignedAlloc 64 0).run bump emptyHeap = some zeroBlock := by
    have hsome : ((Call.alignedAlloc 64 0).run bump emptyHeap).isSome := by decide +kernel
    obtain ⟨r, hr⟩ := Option.isSome_iff_exists.1 hsome
    rw [zeroBlock, hr, getD_some]
  have hlegal : (Call.alignedAlloc 64 0).Legal fun _ => none :=
    ⟨by omega, fun _ _ => by unfold SmallSize; omega⟩
  have hp : zeroBlock.2 = 4224 := by decide +kernel
  have h₁ : Reached bump (fun _ => True) zeroBlock.1 ((Call.alignedAlloc 64 0).table (fun _ => none) zeroBlock.2) :=
    .step (.start rfl rfl rfl) hlegal trivial hrun
  have hheld : (((Call.alignedAlloc 64 0).table (fun _ => none) zeroBlock.2) zeroBlock.2).isSome := by
    rfl
  have h₂ := Reached.step (c := .free zeroBlock.2) h₁ (.inr hheld) trivial rfl
  refine ⟨bump_fresh, bump_aligned, zeroFreed, _, h₂, fun ⟨bs, fs, hok⟩ => ?_⟩
  obtain ⟨hfree, hnext, hmark⟩ := zeroFreed_list
  have hwalk := hok.freeList
  rw [hfree] at hwalk
  obtain _ | ⟨x, _ | ⟨y, fs⟩⟩ := fs
  · exact absurd (show 4096 = 0 from hwalk) (by decide)
  · obtain ⟨rfl, -, hend⟩ := hwalk
    exact absurd (hnext.symm.trans hend) (by decide)
  · obtain ⟨rfl, -, hy, -, -⟩ := hwalk
    obtain ⟨b, hb, hby, hbfree⟩ := (hok.exact y).1 (by simp)
    have := (hok.header b hb).2
    rw [hby, ← hy, hnext, hmark, hbfree] at this
    cases this

end EmbCC.Libc
