import EmbCC.Libc.Malloc.Runs

/-!
# Sizes near the limits

Which sizes the allocator can be asked for. A request has room when it gives
null or a live block of a sound heap that is large enough. `hasRoom_iff` says
for which sizes this is so whatever the state of the heap and the answers of the
operating system: those whose `sbrk` argument is still a positive `long`, and
for `malloc` and `realloc` the last fifteen, which are refused.
-/

namespace EmbCC.Libc

open Option Nat Words Ring Heap Prod

/-! ## Sizes that fit -/

/-- Null, or a live block with `n` bytes of payload. -/
def HasRoom {W : Type} (topOf : W → ℕ) (n : ℕ) (r : Heap W × ℕ) : Prop :=
  r.2 = 0 ∨ n = 0 ∨ ∃ w bs fs, Ready ∅ r.1.mem w (topOf w) r.1 bs fs ∧
    ∃ b ∈ live bs, r.2 = b.addr + 32 ∧ n ≤ b.size

/-- In every sound state of the heap the call, which may be given any live pointer or null, returns
and has room. -/
def AlwaysRoom (n : ℕ) (c : ℕ → Call) : Prop :=
  ∀ (W : Type) (sbrk : W → ℤ → Option ℕ × W) (topOf : W → ℕ), FreshAbove sbrk topOf →
    AlignedBreak sbrk → ∀ (h : Heap W) (t : Table), Inv topOf h t →
      ∀ p, p = 0 ∨ (t p).isSome → ∃ r, (c p).run sbrk h = some r ∧ HasRoom topOf n r

/-- The size is refused, or nothing that is computed from it wraps. -/
def Fits (n : ℕ) : Prop := 2 ^ 64 ≤ n + 15 ∨ LongSize n

/-- The same for `aligned_alloc`, which refuses no size at an alignment above 16. -/
def FitsAligned (align n : ℕ) : Prop :=
  if align ≤ 16 then Fits n else n = 0 ∨ LongSize ((n + 15) / 16 * 16 + align + 32)

section
variable {W : Type} {S : Set ℕ} {m : Mem} {w : W} {top k : ℕ} {h h' : Heap W} {bs : List Blk}
  {fs : List ℕ} {t : Table} {p n r : ℕ} {b : Blk} {sbrk : W → ℤ → Option ℕ × W} {topOf : W → ℕ} {B : Set Blk}

lemma alignUp_lt (h : n < 2 ^ 64) (hn : 2 ^ 64 ≤ n + 15) : alignUp n < n := by
  have hle : alignUp n ≤ u64 (n + 15) := and_le_left
  unfold u64 at hle
  omega

lemma Malloced.hasRoom {r : Heap W × ℕ} (H : Malloced topOf S m B n r) : HasRoom topOf n r := by
  obtain ⟨w, bs, fs, H, ⟨h0, -⟩ | ⟨b, hlive, -, -, hn, hr⟩⟩ := H
  · exact .inl h0
  · exact .inr (.inr ⟨w, bs, fs, H.rebase (Set.empty_subset _), b, hlive ▸ Set.mem_insert _ _, hr, hn⟩)

lemma Realloced.hasRoom {r : Heap W × ℕ} (H : Realloced topOf m B b n r) : HasRoom topOf n r := by
  obtain ⟨w, bs, fs, H, ⟨h0, -⟩ | ⟨b', hlive, -, -, hn, hr, -⟩⟩ := H
  · exact .inl h0
  · exact .inr (.inr ⟨w, bs, fs, H, b', hlive ▸ Set.mem_insert _ _, hr, hn⟩)

lemma Ready.malloc_room (O : FreshAbove sbrk topOf) (A : AlignedBreak sbrk) (H : Ready S m w (topOf w) h bs fs)
    (hn : n < 2 ^ 64) (hfits : Fits n) : ∃ r, h.doMalloc sbrk n = some r ∧ HasRoom topOf n r := by
  rcases hfits with hbig | hlong
  · refine ⟨({ h with errno := some .enomem }, 0), ?_, .inl rfl⟩
    rw [Heap.doMalloc, if_neg (show n ≠ 0 by omega)]
    exact if_pos (alignUp_lt hn hbig)
  · obtain ⟨r, hr, hm⟩ := H.doMalloc O A hlong
    exact ⟨r, hr, hm.hasRoom⟩

/-- A size that fits is given by `realloc` with its room. -/
lemma Inv.realloc_room (O : FreshAbove sbrk topOf) (A : AlignedBreak sbrk) (H : Inv topOf h t) (hp : p = 0 ∨ (t p).isSome)
    (hn : n < 2 ^ 64) (hfits : Fits n) : ∃ r, h.doRealloc sbrk p n = some r ∧ HasRoom topOf n r := by
  obtain ⟨w, bs, fs, H, ht⟩ := H
  by_cases hp0 : p = 0
  · rw [Heap.doRealloc, if_pos hp0]
    exact H.malloc_room O A hn hfits
  by_cases hn0 : n = 0
  · exact ⟨_, by rw [Heap.doRealloc, if_neg hp0, if_pos hn0], .inl rfl⟩
  rcases hfits with hbig | hlong
  · refine ⟨({ h with errno := some .enomem }, 0), ?_, .inl rfl⟩
    rw [Heap.doRealloc, if_neg hp0, if_neg hn0]
    exact if_pos (alignUp_lt hn hbig)
  · obtain ⟨old, hold⟩ := Option.isSome_iff_exists.1 (hp.resolve_left hp0)
    obtain ⟨b, hb, rfl, -⟩ := ht.held p old hold
    obtain ⟨r, hr, hre⟩ := H.doRealloc O A hb hn0 hlong
    exact ⟨r, hr, hre.hasRoom⟩

lemma Ready.doMalloc_returns (H : Ready S m w top h bs fs) (sbrk : W → ℤ → Option ℕ × W) (n : ℕ) :
    ∃ r, h.doMalloc sbrk n = some r ∧ r.2 < 2 ^ 64 := by
  have htake : ∀ (h : Heap W) (b want : ℕ), (h.take b want).2 < 2 ^ 64 := fun h b want =>
    mod_lt _ (by decide)
  rw [Heap.doMalloc]
  generalize (if n = 0 then 1 else n) = n1
  generalize hwant : alignUp n1 = want
  obtain ⟨x, hx, -⟩ := @Rep.firstFit _ _ _ _ _ _ _ [] _ want _ H.rep H.rep.length_lt
  rw [← H.rep.free_eq] at hx
  dsimp only
  split
  · exact ⟨_, rfl, Nat.two_pow_pos 64⟩
  · rw [hx, map_some]
    refine ⟨_, rfl, ?_⟩
    split
    · exact htake _ _ _
    · split
      · exact Nat.two_pow_pos 64
      · exact htake _ _ _

lemma stepPast_returns {align raw a : ℕ} (h32 : 32 ≤ align) (halign : align ≤ 2 ^ 63)
    (hraw : raw < 2 ^ 64) (ha : a < 2 ^ 64) : ∃ a', stepPast align raw (2 ^ 64) a = some a' := by
  rw [show 2 ^ 64 = 2 ^ 64 - 3 + 1 + 1 + 1 by omega, stepPast]
  split
  · rw [stepPast]
    split
    · rw [stepPast, if_neg]
      · exact ⟨_, rfl⟩
      · unfold sub64 u64 at *
        omega
    · exact ⟨_, rfl⟩
  · exact ⟨_, rfl⟩

/-- `aligned_alloc` returns for every size and every power of two. -/
lemma Ready.alignedAlloc_returns (H : Ready S m w top h bs fs) (sbrk : W → ℤ → Option ℕ × W)
    (hk : k < 64) (n : ℕ) : ∃ r, h.doAlignedAlloc sbrk (2 ^ k) n = some r := by
  have hle63 : 2 ^ k ≤ 2 ^ 63 := Nat.pow_le_pow_right (by decide) (by omega)
  rw [Heap.doAlignedAlloc]
  split
  · obtain ⟨r, hr, -⟩ := H.doMalloc_returns sbrk n
    exact ⟨r, hr⟩
  rename_i hle
  split
  · exact ⟨_, rfl⟩
  obtain ⟨⟨h', raw⟩, hr, hraw⟩ := H.doMalloc_returns sbrk (u64 (alignUp n + 2 ^ k + 32))
  dsimp only
  rw [hr, bind_some]
  split
  · exact ⟨_, rfl⟩
  split
  · exact ⟨_, rfl⟩
  have h5 : 32 ≤ 2 ^ k := by
    by_contra hlt
    have : k ≤ 4 := by
      by_contra hk5
      exact hlt (Nat.pow_le_pow_right (show 0 < 2 by decide) (show 5 ≤ k by omega))
    have := Nat.pow_le_pow_right (show 0 < 2 by decide) this
    omega
  have ha : andNot (u64 (raw + 2 ^ k - 1)) (2 ^ k - 1) < 2 ^ 64 :=
    and_le_left.trans_lt (mod_lt _ (by decide))
  obtain ⟨a', ha'⟩ := stepPast_returns h5 hle63 hraw ha
  rw [ha']
  exact ⟨_, rfl⟩

lemma Ready.alignedAlloc_room (O : FreshAbove sbrk topOf) (A : AlignedBreak sbrk)
    (H : Ready S m w (topOf w) h bs fs) (hk : k < 64) (hn : n < 2 ^ 64)
    (hfits : FitsAligned (2 ^ k) n) : ∃ r, h.doAlignedAlloc sbrk (2 ^ k) n = some r ∧ HasRoom topOf n r := by
  unfold FitsAligned at hfits
  split at hfits
  · rename_i hle
    rw [Heap.doAlignedAlloc, if_pos hle]
    exact H.malloc_room O A hn hfits
  rename_i hle
  by_cases hn0 : n = 0
  · obtain ⟨r, hr⟩ := H.alignedAlloc_returns sbrk hk n
    exact ⟨r, hr, .inr (.inl hn0)⟩
  · obtain ⟨r, hr, hm, -⟩ := H.doAlignedAlloc O A (fun h => absurd h hle)
      (fun _ _ => hfits.resolve_left hn0) fun _ => Nat.pos_of_ne_zero hn0
    exact ⟨r, hr, hm.hasRoom⟩

@[simp] lemma set_os (h : Heap W) (x : ℕ) (f : Field) (v : ℕ) : (h.set x f v).os = h.os := rfl

@[simp] lemma setBlk_os (h : Heap W) (x v : ℕ) (f : Bool) : (h.setBlk x v f).os = h.os := rfl

/-! ## What the operating system has seen -/

@[simp] lemma setPrev_os (h : Heap W) (x v : ℕ) : (h.setPrev x v).os = h.os := by
  unfold setPrev
  split <;> rfl

@[simp] lemma setNext_os (h : Heap W) (x v : ℕ) : (h.setNext x v).os = h.os := by
  unfold setNext
  split <;> rfl

@[simp] lemma setFnext_os (h : Heap W) (x v : ℕ) : (h.setFnext x v).os = h.os := by
  unfold setFnext
  split <;> rfl

@[simp] lemma setFprev_os (h : Heap W) (x v : ℕ) : (h.setFprev x v).os = h.os := by
  unfold setFprev
  split <;> rfl

@[simp] lemma flistPush_os (h : Heap W) (b : ℕ) : (h.flistPush b).os = h.os := by simp [flistPush]

@[simp] lemma flistRemove_os (h : Heap W) (b : ℕ) : (h.flistRemove b).os = h.os := by
  simp [flistRemove]

@[simp] lemma insertAfter_os (h : Heap W) (b nb : ℕ) : (h.insertAfter b nb).os = h.os := by
  simp [insertAfter]

@[simp] lemma split_os (h : Heap W) (b want : ℕ) : (h.split b want).os = h.os := by
  rw [Heap.split, apply_ite Heap.os]
  simp

lemma take_os (h : Heap W) (b want : ℕ) : (h.take b want).1.os = h.os := by simp [Heap.take]

lemma growAt_os (h : Heap W) (b chunk : ℕ) : (h.growAt b chunk).1.os = h.os := by
  rw [Heap.growAt]
  rw [apply_ite fst, apply_ite Heap.os]
  simp

lemma growAt_snd (h : Heap W) (b chunk : ℕ) (htail : h.tail = 0) : (h.growAt b chunk).2 = b := by
  have htail1 : (h.setBlk b (sub64 chunk 32) true).tail = 0 := htail
  rw [Heap.growAt]
  generalize h.setBlk b (sub64 chunk 32) true = h1 at htail1
  have htail2 : ((h1.set b .prev h1.tail).set b .next 0).tail = 0 := htail1
  have hprev : ((h1.set b .prev h1.tail).set b .next 0).get b .prev = 0 := by
    rw [get_set_other (by decide), htail1, get_set_same (by decide)]
  generalize (h1.set b .prev h1.tail).set b .next 0 = h2 at htail2 hprev
  rw [htail2, show h2.setNext 0 b = { h2 with head := b } from rfl, if_neg]
  exact fun hne => hne.1 hprev

end

/-! ## A heap that shows the wrap -/

/-- An operating system that moves its break by whatever it is asked. -/
def lend (w : ℕ) (k : ℤ) : Option ℕ × ℕ :=
  if 16 ∣ w ∧ 0 < w ∧ (w : ℤ) + k < 2 ^ 64 then (some w, ((w : ℤ) + k).toNat) else (none, w)

/-- Its break, kept inside the address space. -/
def lendTop (w : ℕ) : ℕ := max 1 (min w (2 ^ 64 - 1))

variable {n : ℕ}

lemma lend_fresh : FreshAbove lend lendTop where
  lt w := by
    unfold lendTop
    omega
  mono w k _ := by
    unfold lend
    split <;> simp only [lendTop] <;> omega
  fresh w k p _ hp := by
    unfold lend at hp ⊢
    split at hp
    · rename_i h
      cases hp
      rw [if_pos h]
      simp only [lendTop]
      omega
    · cases hp

lemma lend_aligned : AlignedBreak lend := by
  intro w k p _ hp
  unfold lend at hp
  split at hp
  · rename_i h
    exact some.inj hp ▸ h.1
  · cases hp

/-- Nothing is allocated, and the first payload will stand at `2 ^ 63`. -/
def lentHeap : Heap ℕ := { mem := fun _ => 0, os := 2 ^ 63 - 32 }

/-- What `grow` asks for. -/
def chunkFor (need : ℕ) : ℕ :=
  if alignUp (u64 (need + 32)) < 64 * 1024 then 64 * 1024 else alignUp (u64 (need + 32))

lemma lend_lent (chunk : ℕ) (hlt : chunk < 2 ^ 64) :
    lend (2 ^ 63 - 32) (toLong chunk) = (some (2 ^ 63 - 32), (2 ^ 63 - 32 + toLong chunk).toNat) := by
  have hlong : toLong chunk < 2 ^ 63 := by
    unfold toLong
    split <;> omega
  rw [lend, if_pos ⟨by decide, by decide, by omega⟩]
  norm_num

lemma alignUp_lt_size (n : ℕ) : alignUp n < 2 ^ 64 := and_le_left.trans_lt (mod_lt _ (by decide))

lemma chunkFor_lt (need : ℕ) : chunkFor need < 2 ^ 64 := by
  have := alignUp_lt_size (u64 (need + 32))
  unfold chunkFor
  split <;> omega

/-- What `malloc` does on the lent heap for a size that rounds without wrapping. -/
lemma doMalloc_lent {n1 : ℕ} (hn1 : (if n = 0 then 1 else n) = n1) (hlt : n1 + 15 < 2 ^ 64) :
    ∃ h', lentHeap.doMalloc lend n = some (h', 2 ^ 63) ∧ h'.os = (2 ^ 63 - 32 + toLong (chunkFor (alignUp n1))).toNat := by
  have hwant := alignUp_eq hlt
  have hfirst : lentHeap.firstFit (alignUp n1) (2 ^ 64) lentHeap.free = some 0 := by
    exact if_pos rfl
  have hchunk := chunkFor_lt (alignUp n1)
  have hask : osSbrk lend lentHeap (chunkFor (alignUp n1)) = (some (2 ^ 63 - 32),
      { lentHeap with os := (2 ^ 63 - 32 + toLong (chunkFor (alignUp n1))).toNat }) := by
    have := lend_lent _ hchunk
    rw [osSbrk, show lentHeap.os = 2 ^ 63 - 32 from rfl, this]
  have hgrow : lentHeap.grow lend (alignUp n1) =
      Heap.growAt { lentHeap with os := (2 ^ 63 - 32 + toLong (chunkFor (alignUp n1))).toNat }
        (2 ^ 63 - 32) (chunkFor (alignUp n1)) := by
    rw [Heap.grow]
    dsimp only
    rw [show (if alignUp (u64 (alignUp n1 + 32)) < 64 * 1024 then 64 * 1024
      else alignUp (u64 (alignUp n1 + 32))) = chunkFor (alignUp n1) from rfl, hask]
  have hsnd := growAt_snd { lentHeap with os := (2 ^ 63 - 32 + toLong (chunkFor (alignUp n1))).toNat }
    (2 ^ 63 - 32) (chunkFor (alignUp n1)) rfl
  have hos := growAt_os { lentHeap with os := (2 ^ 63 - 32 + toLong (chunkFor (alignUp n1))).toNat }
    (2 ^ 63 - 32) (chunkFor (alignUp n1))
  rw [Heap.doMalloc, hn1]
  dsimp only
  rw [if_neg (by omega), hfirst, map_some, if_neg (by simp), hgrow]
  generalize Heap.growAt _ _ _ = g at hsnd hos
  obtain ⟨h1, b⟩ := g
  dsimp only at hsnd hos ⊢
  subst hsnd
  exact ⟨_, rfl, (take_os _ _ _).trans hos⟩

lemma not_hasRoom_lent {h' : Heap ℕ} {chunk : ℕ} (hn : n ≠ 0) (hos : h'.os = (2 ^ 63 - 32 + toLong chunk).toNat)
    (hchunk : chunk < 2 ^ 63 → chunk ≤ n + 31) (hlt : chunk < 2 ^ 64) : ¬ HasRoom lendTop n (h', 2 ^ 63) := by
  rintro (h0 | h0 | ⟨w, bs, fs, H, b, hb, hp, hsize⟩)
  · exact absurd (show 2 ^ 63 = 0 from h0) (by decide)
  · exact hn h0
  · have hstop := H.rep.laid.size_lt hb.1
    obtain rfl := H.rep.os
    dsimp only at hp hos hstop
    unfold lendTop at hstop
    unfold toLong at hos
    split at hos <;> omega

lemma chunkFor_le {need : ℕ} (hdvd : 16 ∣ need) (hlt : need < 2 ^ 64)
    (hn : need + 32 < 2 ^ 63 → max (64 * 1024) (need + 32) ≤ n) (hn' : 2 ^ 64 ≤ need + 32 → 64 * 1024 ≤ n) :
    chunkFor need < 2 ^ 63 → chunkFor need ≤ n := by
  have hu : u64 (need + 32) = if need + 32 < 2 ^ 64 then need + 32 else need + 32 - 2 ^ 64 := by
    unfold u64
    split <;> omega
  have hleast : alignUp (u64 (need + 32)) = u64 (need + 32) := by
    rw [alignUp_eq (by split at hu <;> omega)]
    split at hu <;> omega
  unfold chunkFor
  rw [hleast, hu]
  split <;> split <;> omega

lemma malloc_lent_short (hn : n < 2 ^ 64) (hf : ¬ Fits n) :
    ∃ h', lentHeap.doMalloc lend n = some (h', 2 ^ 63) ∧ ¬ HasRoom lendTop n (h', 2 ^ 63) := by
  simp only [Fits, LongSize, not_or, not_le] at hf
  have hn1 : (if n = 0 then 1 else n) = n := if_neg (by omega)
  obtain ⟨h', hr, hos⟩ := doMalloc_lent hn1 hf.1
  refine ⟨h', hr, not_hasRoom_lent (by omega) hos ?_ (chunkFor_lt _)⟩
  rw [alignUp_eq hf.1]
  exact chunkFor_le (by omega) (by omega) (by omega) (by omega)

/-- An aligned size that does not fit is given a block that is too short. -/
lemma alignedAlloc_lent_short {k : ℕ} (hn : n < 2 ^ 64) (hk : k < 64) (hf : ¬ FitsAligned (2 ^ k) n) :
    ∃ h', lentHeap.doAlignedAlloc lend (2 ^ k) n = some (h', 2 ^ 63) ∧ ¬ HasRoom lendTop n (h', 2 ^ 63) := by
  unfold FitsAligned at hf
  rw [Heap.doAlignedAlloc]
  split at hf
  · rename_i hle
    rw [if_pos hle]
    exact malloc_lent_short hn hf
  rename_i hle
  simp only [LongSize, not_or] at hf
  have hle63 : 2 ^ k ≤ 2 ^ 63 := Nat.pow_le_pow_right (by decide) (by omega)
  have h16 : 16 ∣ 2 ^ k := by
    refine pow_dvd_pow 2 (m := 4) ?_
    by_contra hk4
    have := Nat.pow_le_pow_right (show 0 < 2 by decide) (show k ≤ 4 by omega)
    omega
  have hpow : 2 ^ k &&& (2 ^ k - 1) = 0 := (and_sub_one_eq_zero_iff_isPowerOfTwo (by omega)).2 ⟨k, rfl⟩
  -- rounding up wraps to nothing for the last fifteen sizes
  have hwant : alignUp n = if n + 15 < 2 ^ 64 then (n + 15) / 16 * 16 else 0 := by
    split
    · exact alignUp_eq (by assumption)
    · rw [alignUp, show u64 (n + 15) = n + 15 - 2 ^ 64 by unfold u64; omega]
      rw [show (15 : ℕ) = 2 ^ 4 - 1 by rfl, andNot_two_pow (by decide) (by omega)]
      omega
  generalize alignUp n = want at hwant
  generalize hreq : u64 (want + 2 ^ k + 32) = req
  have hreq' : req = (want + 2 ^ k + 32) % 2 ^ 64 := hreq.symm
  have hdvd : 16 ∣ req := by split at hwant <;> omega
  obtain ⟨h', hr, hos⟩ := doMalloc_lent (n := req) rfl (by split <;> omega)
  have hround : andNot (u64 (2 ^ 63 + 2 ^ k - 1)) (2 ^ k - 1) = 2 ^ 63 := by
    have hpos := Nat.two_pow_pos k
    rw [u64_of_lt (by omega), andNot_two_pow (by omega) (by omega),
      show 2 ^ 63 = 2 ^ k * 2 ^ (63 - k) by rw [← pow_add]; congr 1; omega,
      Nat.add_sub_assoc hpos, mul_add_div hpos, div_eq_of_lt (by omega), Nat.add_zero,
      Nat.mul_comm]
  refine ⟨h', ?_, not_hasRoom_lent hf.1 hos ?_ (chunkFor_lt _)⟩
  · rw [if_neg hle, if_neg (not_not.2 hpow)]
    dsimp only
    rw [hreq, hr, bind_some]
    dsimp only
    rw [if_neg (by decide), if_pos hround]
  · rw [alignUp_eq (by split <;> omega)]
    split at hwant
    · exact chunkFor_le (by omega) (by split <;> omega) (by split <;> omega) (by split <;> omega)
    · exact chunkFor_le (by omega) (by split <;> omega) (by split <;> omega) (by split <;> omega)

/-- Whatever the state of the heap, the calls have room exactly for the sizes that are refused or
that nothing computed from them wraps. -/
theorem hasRoom_iff {n k : ℕ} (hn : n < 2 ^ 64) (hk : k < 64) :
    (AlwaysRoom n (fun _ => .malloc n) ↔ Fits n) ∧
    (AlwaysRoom n (fun p => .realloc p n) ↔ Fits n) ∧
    (AlwaysRoom n (fun _ => .alignedAlloc (2 ^ k) n) ↔ FitsAligned (2 ^ k) n) := by
  have hlent : ∀ c, AlwaysRoom n c → ∃ r, (c 0).run lend lentHeap = some r ∧ HasRoom lendTop n r :=
    fun c hc => hc ℕ lend lendTop lend_fresh lend_aligned lentHeap (fun _ => none)
      (inv_start lend_fresh rfl rfl rfl) 0 (.inl rfl)
  have hshort : ∀ c, AlwaysRoom n c → ∀ h', (c 0).run lend lentHeap = some (h', 2 ^ 63) →
      HasRoom lendTop n (h', 2 ^ 63) := fun c hc h' hr => by
    obtain ⟨r, hr', hroom⟩ := hlent c hc
    obtain rfl := mem_unique hr hr'
    exact hroom
  refine ⟨⟨fun hc => ?_, ?_⟩, ⟨fun hc => ?_, ?_⟩, ⟨fun hc => ?_, ?_⟩⟩
  · by_contra hf
    obtain ⟨h', hr, hno⟩ := malloc_lent_short hn hf
    exact hno (hshort _ hc h' hr)
  · intro hf W sbrk topOf O A h t ⟨w, bs, fs, H, _⟩ _ _
    exact H.malloc_room O A hn hf
  · by_contra hf
    obtain ⟨h', hr, hno⟩ := malloc_lent_short hn hf
    exact hno (hshort _ hc h' hr)
  · intro hf W sbrk topOf O A h t H p hp
    exact H.realloc_room O A hp hn hf
  · by_contra hf
    obtain ⟨h', hr, hno⟩ := alignedAlloc_lent_short hn hk hf
    exact hno (hshort _ hc h' hr)
  · intro hf W sbrk topOf O A h t ⟨w, bs, fs, H, _⟩ _ _
    exact H.alignedAlloc_room O A hk hn hf

/-- A hundred bytes, at any address or at a multiple of 64. -/
theorem hasRoom_hundred : AlwaysRoom 100 (fun _ => .malloc 100) ∧
    AlwaysRoom 100 (fun p => .realloc p 100) ∧ AlwaysRoom 100 (fun _ => .alignedAlloc (2 ^ 6) 100) := by
  have hall := hasRoom_iff (n := 100) (k := 6) (by decide) (by decide)
  have hfits : Fits 100 := .inr (by unfold LongSize; omega)
  refine ⟨hall.1.2 hfits, hall.2.1.2 hfits, hall.2.2.2 ?_⟩
  exact .inr (by unfold LongSize; omega)

/-- `malloc(SIZE_MAX - 15)` on the empty heap: the header added to the size wraps, 64 KiB are asked
for and granted, and the block is returned as if it had the size. -/
theorem malloc_wraps : FreshAbove bump bumpTop ∧ AlignedBreak bump ∧ Inv bumpTop emptyHeap (fun _ => none) ∧
    ∃ r, (Call.malloc (2 ^ 64 - 16)).run bump emptyHeap = some r ∧ r.2 = 4128 ∧
      ¬ HasRoom bumpTop (2 ^ 64 - 16) r := by
  refine ⟨bump_fresh, bump_aligned, inv_start bump_fresh rfl rfl rfl, ?_⟩
  have hrun : ((Call.malloc (2 ^ 64 - 16)).run bump emptyHeap).isSome := by decide +kernel
  have hsnd : ((Call.malloc (2 ^ 64 - 16)).run bump emptyHeap).map snd = some 4128 := by
    decide +kernel
  obtain ⟨r, hr⟩ := Option.isSome_iff_exists.1 hrun
  rw [hr, map_some, some.injEq] at hsnd
  refine ⟨r, hr, hsnd, ?_⟩
  rintro (h0 | h0 | ⟨w, bs, fs, H, b, hb, -, hsize⟩)
  · omega
  · exact absurd h0 (by decide)
  · have := H.rep.laid.size_lt hb.1
    have := H.rep.1
    omega

end EmbCC.Libc
