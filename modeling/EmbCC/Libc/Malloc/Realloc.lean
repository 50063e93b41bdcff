import EmbCC.Libc.Malloc.Calls

/-!
# realloc and aligned_alloc

The two calls that move a block. `do_realloc` cuts the block, lets it take in
the free block behind it, or copies it to a new one and gives the old one back
(`Ready.doRealloc`). `do_aligned_alloc` takes a block with room to spare, cuts
it at an aligned address, and gives the fragment in front back
(`Ready.doAlignedAlloc`). The fragment behind the cut has a payload as long as
the request is not for zero bytes.
-/

namespace EmbCC.Libc

open Set Words Ring Heap List

section
variable {W : Type} {S T : Set ℕ} {m : Mem} {w : W} {top : ℕ} {h : Heap W} {bs l r : List Blk}
  {fs f1 f2 : List ℕ} {V : View} {a x n want : ℕ} {b c : Blk}
  {sbrk : W → ℤ → Option ℕ × W} {topOf : W → ℕ}

lemma Ready.rebase (H : Ready T m w top h bs fs) (hS : S ⊆ livePayload bs) : Ready S h.mem w top h bs fs :=
  ⟨H.rep.rebase H.exact hS, H.exact, hS⟩

lemma Ready.shrink (H : Ready S m w top h (l ++ b :: r) fs) (hb : b.free = false) (hdvd : 16 ∣ want) (h16 : 16 ≤ want)
    (hle : want ≤ b.size) (hkeep : ∀ z ∈ S, z ∈ b.payload → z < b.addr + 32 + want) : ∃ b' bs' fs', Ready S m w top
    (h.split b.addr want) bs' fs' ∧ live bs' = insert b' (live (l ++ r)) ∧ b'.addr = b.addr ∧ b'.free = false
    ∧ want ≤ b'.size := by
  obtain ⟨H, hx, hused⟩ := H
  have hstay : ∀ z ∈ S, z < b.addr + 32 + want ∨ b.stop ≤ z := fun z hz => by
    obtain ⟨d, ⟨hd, -⟩, hzd⟩ := hused hz
    by_cases hdb : d = b
    · exact .inl (hkeep z hz (hdb ▸ hzd))
    · have := H.laid.apart hd (by simp) hdb
      simp only [Blk.payload, mem_ofPred_eq] at *
      omega
  have hcut : Avoids S (b.addr + 32 + want) (b.size - want) := fun z hz => by
    have := hstay z hz
    unfold Blk.stop at this
    omega
  obtain ⟨b', rest, H', haddr, hfree, hsize, hrest⟩ := H.split hdvd h16 hle hcut
  refine ⟨b', _, _, ⟨H', hx.split H'.laid haddr hfree hrest, ?_⟩, ?_, haddr, hfree.trans hb, hsize⟩
  · intro z hz
    obtain ⟨d, ⟨hd, hdf⟩, hzd⟩ := hused hz
    rcases mem_middle.1 hd with rfl | hd
    · refine ⟨b', ⟨by simp, hfree.trans hb⟩, ?_⟩
      have := hkeep z hz hzd
      simp only [Blk.payload, Blk.stop, mem_ofPred_eq] at *
      omega
    · exact ⟨d, ⟨by simp only [mem_append, mem_cons] at hd ⊢; tauto, hdf⟩, hzd⟩
  · rw [live_split hrest (hfree.trans hb)]

variable {align z raw : ℕ} {bs' : List Blk} {b' : Blk} {B : Set Blk} {h' : Heap W}

/-- The user's writes into a live block leave the heap as it is. -/
lemma Ready.write (H : Ready S m w top h bs fs) (hb : b ∈ live bs) {m' : Mem}
    (hm : ∀ z, z ∉ b.payload → m' z = h.mem z) (hT : T ⊆ livePayload bs) :
    Ready T m' w top { h with mem := m' } bs fs := by
  have hbfs : b.addr ∉ fs := fun hmem => absurd ((H.exact b hb.1).1 hmem) (by simp [hb.2])
  obtain ⟨⟨htop, hS, hL, V, hV, hsh⟩, hx, hused⟩ := H
  have F := hV.laid.frame htop hS
  -- only the links in the block's own payload may look different
  have hget : ∀ f y, y ∈ addrs bs → (y = b.addr → f ≠ .fprev ∧ f ≠ .fnext) →
      ({ h with mem := m' } : Heap W).get y f = h.get y f := by
    intro f y hy hf
    obtain ⟨d, hd, rfl⟩ := mem_map.1 hy
    refine readLE_congr fun z hlo hhi => hm z fun hz => ?_
    have hoff := Field.off_le f
    by_cases hdb : d = b
    · subst hdb
      cases f <;> simp_all [Field.off, Blk.payload] <;> omega
    · have := hV.laid.apart hd hb.1 hdb
      simp only [Blk.payload, Blk.stop, mem_ofPred_eq] at *
      omega
  have hbA : b.addr ∈ addrs bs := mem_map_of_mem hb.1
  have hfld : ∀ f y, y ∈ addrs bs → (y = b.addr → f ≠ .fprev ∧ f ≠ .fnext) →
      ({ h with mem := m' } : Heap W).fld f y = V f y := fun f y hy hf => by
    rw [← get_eq_fld (F.pos y hy), hget f y hy hf, hsh.get F hy]
  have hrep : Rep T m' w top { h with mem := m' } bs fs := by
    obtain ⟨-, hS', hL', -⟩ := Rep.rebase ⟨htop, hS, hL, V, hV, hsh⟩ hx hT
    refine ⟨htop, hS', hL', fun f y => if y = b.addr then ({ h with mem := m' } : Heap W).fld f y
      else V f y, hV.congr (fun f y hy hp hn => ?_) (fun f y hy => if_neg ?_), fun f y hy => ?_,
      fun _ _ => rfl, hsh.os⟩
    · by_cases hyb : y = b.addr
      · exact (if_pos hyb).trans (hfld f y (hyb ▸ hbA) fun _ => ⟨hp, hn⟩)
      · exact if_neg hyb
    · rcases mem_cons.1 hy with rfl | hy
      · exact (F.pos _ hbA).symm
      · exact ne_of_mem_of_not_mem hy hbfs
    · by_cases hyb : y = b.addr
      · exact (if_pos hyb).symm
      · refine Eq.trans ?_ (if_neg hyb).symm
        rcases hy with hy | ⟨rfl, hy⟩
        · exact hfld f y hy fun h => absurd h hyb
        · rw [← hsh.fld f 0 (.inr ⟨rfl, hy⟩)]
          unfold Heap.fld
          rw [if_pos rfl, if_pos rfl]
  exact ⟨hrep, hx, hT⟩

/-! ## Reallocation -/

/-- The bytes of these blocks are as they were. -/
def Keeps (B : Set Blk) (m m' : Mem) : Prop := ∀ d ∈ B, ∀ z ∈ d.payload, m' z = m z

/-- A call that returned null and changed nothing, or the block in its new size: it has the bytes of
the old one, as many as both have. -/
def Realloced (topOf : W → ℕ) (m : Mem) (B : Set Blk) (b : Blk) (n : ℕ) (r : Heap W × ℕ) : Prop :=
  ∃ w bs fs, Ready ∅ r.1.mem w (topOf w) r.1 bs fs ∧
    ((r.2 = 0 ∧ live bs = B ∧ Keeps B m r.1.mem) ∨
    ∃ b', live bs = insert b' (B \ {b}) ∧ (∀ d ∈ B \ {b}, d.addr ≠ b'.addr) ∧ b'.free = false ∧
      n ≤ b'.size ∧ r.2 = b'.addr + 32 ∧ Keeps (B \ {b}) m r.1.mem ∧
      ∀ k, k < b.size → k < n → r.1.mem (b'.addr + 32 + k) = m (b.addr + 32 + k))

/-- The bytes to keep when a block is to have `n` bytes. -/
def kept (B : Set Blk) (b : Blk) (n : ℕ) : Set ℕ :=
  {z | ∃ d ∈ B, z ∈ d.payload ∧ (d = b → z < b.addr + 32 + n)}

lemma Ready.inPlace (hlaid : Laid 1 bs top) (hb : b ∈ live bs) (H : Ready (kept (live bs) b n) m w (topOf w) h' bs' fs)
    (hlive : live bs' = insert b' (live bs \ {b})) (haddr : b'.addr = b.addr)
    (hfree : b'.free = false) (hn : n ≤ b'.size) : Realloced topOf m (live bs) b n (h', b.addr + 32) := by
  refine ⟨w, bs', fs, H.rebase (empty_subset _), .inr ⟨b', hlive, ?_, hfree, hn, by rw [haddr], ?_, ?_⟩⟩
  · exact fun d hd heq => hd.2 (hlaid.addr_inj hd.1.1 hb.1 (heq.trans haddr))
  · exact fun d hd z hz => H.rep.keep ⟨d, hd.1, hz, fun h => absurd h hd.2⟩
  · intro k hk hkn
    rw [haddr]
    refine H.rep.keep ⟨b, hb, ?_, fun _ => by omega⟩
    simp only [Blk.payload, Blk.stop, mem_ofPred_eq]
    omega

/-- The copying branch of `realloc`. -/
lemma Ready.move (hb : b ∈ live bs)
    (H : Ready (livePayload bs) m w (topOf w) h' bs' fs) (hlive : live bs' = insert b' (live bs))
    (hnew : ∀ d ∈ live bs, d.addr ≠ b'.addr) (hfree : b'.free = false) (hn : n ≤ b'.size) :
    Realloced topOf m (live bs) b n ((h'.memcpy (b'.addr + 32) (b.addr + 32) (if b.size < n then b.size else n)).doFree
        (b.addr + 32), b'.addr + 32) := by
  have hb' : b' ∈ live bs' := hlive ▸ mem_insert _ _
  have hbmem : b ∈ live bs' := hlive ▸ mem_insert_of_mem _ hb
  have hne : b ≠ b' := fun h => hnew b hb (h ▸ rfl)
  generalize hcnt : (if b.size < n then b.size else n) = cnt
  have hcnt' : cnt ≤ b.size ∧ cnt ≤ n ∧ ∀ k, k < b.size → k < n → k < cnt := by
    rw [← hcnt]
    split <;> refine ⟨by omega, by omega, fun k => by omega⟩
  have hdisj : ∀ d ∈ live bs', ∀ e ∈ live bs', d ≠ e → ∀ z ∈ d.payload, z ∉ e.payload := by
    intro d hd e he hde z hz
    have := H.rep.laid.apart hd.1 he.1 hde
    simp only [Blk.payload, mem_ofPred_eq] at *
    omega
  rw [Heap.memcpy]
  generalize hm1 : (fun x => if b'.addr + 32 ≤ x ∧ x < b'.addr + 32 + cnt then
    h'.mem (b.addr + 32 + (x - (b'.addr + 32))) else h'.mem x) = m1
  have hcopy : ∀ z, z ∉ b'.payload → m1 z = h'.mem z := fun z hz => by
    rw [← hm1]
    refine if_neg fun hin => hz ?_
    simp only [Blk.payload, Blk.stop, mem_ofPred_eq]
    omega
  have H1 : Ready {z | ∃ d ∈ live bs', d ≠ b ∧ z ∈ d.payload} m1 w (topOf w)
      { h' with mem := m1 } bs' fs :=
    H.write hb' hcopy fun z hz => hz.imp fun _ hd => ⟨hd.1, hd.2.2⟩
  obtain ⟨bs2, fs2, H2, hlive2⟩ := H1.doFree hbmem (by
    rintro z ⟨d, hd, hdb, hz⟩
    exact hdisj d hd b hbmem hdb z hz)
  generalize ({ h' with mem := m1 } : Heap W).doFree (b.addr + 32) = h2 at H2 ⊢
  refine ⟨w, bs2, fs2, H2.rebase (empty_subset _), .inr ⟨b', ?_, ?_, hfree, hn, rfl, ?_, ?_⟩⟩
  · rw [hlive2, hlive, insert_sdiff_of_notMem _ (by simpa using hne.symm)]
  · exact fun d hd => hnew d hd.1
  · intro d hd z hz
    have hd' : d ∈ live bs' := hlive ▸ mem_insert_of_mem _ hd.1
    have hdb' : d ≠ b' := fun h => hnew d hd.1 (h ▸ rfl)
    rw [H2.rep.keep ⟨d, hd', hd.2, hz⟩, hcopy z (hdisj d hd' b' hb' hdb' z hz)]
    exact H.rep.keep ⟨d, hd.1, hz⟩
  · intro k hk hkn
    have hkcnt := hcnt'.2.2 k hk hkn
    have hz : b'.addr + 32 + k ∈ b'.payload := by
      simp only [Blk.payload, Blk.stop, mem_ofPred_eq]
      omega
    have hz' : b.addr + 32 + k ∈ b.payload := by
      simp only [Blk.payload, Blk.stop, mem_ofPred_eq]
      omega
    rw [H2.rep.keep ⟨b', hb', hne.symm, hz⟩, ← H.rep.keep ⟨b, hb, hz'⟩, ← hm1]
    dsimp only
    rw [if_pos (by omega), Nat.add_sub_cancel_left]

lemma kept_subset : kept (live bs) b n ⊆ livePayload bs := fun _ ⟨d, hd, hz, _⟩ => ⟨d, hd, hz⟩

lemma lt_of_mem_kept (hz : z ∈ kept B b n) (hout : ∀ d ∈ B, d ≠ b → z ∉ d.payload) : z < b.addr + 32 + n := by
  obtain ⟨d, hd, hzd, hcut⟩ := hz
  exact hcut (not_not.1 fun hdb => hout d hd hdb hzd)

lemma Laid.not_mem_payload (H : Laid 1 bs top) (hb : b ∈ bs) (hc : c ∈ bs) (hbc : b ≠ c)
    (hlo : c.addr ≤ z) (hhi : z < c.stop) : z ∉ b.payload := by
  have := H.apart hb hc hbc
  simp only [Blk.payload, mem_ofPred_eq] at *
  omega

lemma Ready.reallocCut (H : Ready S m w (topOf w) h (l ++ b :: r) fs) (hb : b.free = false)
    (hn : n ≤ want) (hdvd : 16 ∣ want) (h16 : 16 ≤ want) (hle : want ≤ b.size) :
    Realloced topOf h.mem (live (l ++ b :: r)) b n (h.split b.addr want, b.addr + 32) := by
  have hlaid := H.rep.laid
  have hmem : b ∈ l ++ b :: r := by simp
  obtain ⟨b', bs', fs', H', hlive, haddr, hfree, hsize⟩ :=
    (H.rebase (kept_subset (n := n))).shrink hb hdvd h16 hle fun z hz hzb => (lt_of_mem_kept hz fun d hd hdb =>
        hlaid.not_mem_payload hd.1 hmem hdb (by have := hzb.1; omega) hzb.2).trans_le (by omega)
  rw [live_diff hlaid hb] at hlive
  exact H'.inPlace hlaid ⟨hmem, hb⟩ hlive haddr hfree (hn.trans hsize)

lemma Ready.reallocJoin (H : Ready S m w (topOf w) h (l ++ b :: c :: r) fs) (hb : b.free = false)
    (hc : c.free = true) (hbc : b.stop = c.addr) (hn : n ≤ want) (hdvd : 16 ∣ want)
    (h16 : 16 ≤ want) (hle : want ≤ b.size + 32 + c.size) :
    Realloced topOf h.mem (live (l ++ b :: c :: r)) b n
      (((h.flistRemove c.addr).absorb b.addr c.addr false).split b.addr want, b.addr + 32) := by
  have hlaid := H.rep.laid
  have hmem : b ∈ l ++ b :: c :: r := by simp
  have hlive0 : live (l ++ r) = live (l ++ b :: c :: r) \ {b} := by
    rw [← live_diff hlaid hb, live_free hc]
  obtain ⟨fs1, H1⟩ := (H.rebase (kept_subset (b := b))).join hc hbc
  rw [hb] at H1
  obtain ⟨b', bs', fs', H', hlive, haddr, hfree, hsize⟩ :=
    H1.shrink rfl hdvd h16 hle fun z hz hzb => by
      refine (lt_of_mem_kept hz fun d hd hdb => ?_).trans_le (Nat.add_le_add_left hn _)
      obtain ⟨hlo, hhi⟩ := hzb
      rw [Blk.join_addr] at hlo
      rw [Blk.join_stop hbc] at hhi
      by_cases hlt : z < b.stop
      · exact hlaid.not_mem_payload hd.1 hmem hdb (by omega) hlt
      · refine hlaid.not_mem_payload hd.1 (by simp) ?_ (by omega) hhi
        rintro rfl
        exact absurd hd.2 (by simp [hc])
  rw [hlive0] at hlive
  exact H'.inPlace hlaid ⟨hmem, hb⟩ hlive haddr hfree (hn.trans hsize)

/-- `realloc` in every branch: in place, into the next block, or by copying. -/
lemma Ready.doRealloc (O : FreshAbove sbrk topOf) (A : AlignedBreak sbrk)
    (H : Ready S m w (topOf w) h bs fs) (hb : b ∈ live bs) (hn0 : n ≠ 0) (hn : LongSize n) :
    ∃ r, h.doRealloc sbrk (b.addr + 32) n = some r ∧ Realloced topOf h.mem (live bs) b n r := by
  have htop := H.rep.1
  have hstop := H.rep.laid.size_lt hb.1
  have hsize := H.rep.bsize hb.1
  have hwant : alignUp n = (n + 15) / 16 * 16 := by
    unfold LongSize at hn
    exact alignUp_eq (by omega)
  rw [Heap.doRealloc, if_neg (by omega), if_neg hn0, sub64_of_le (by omega) (by omega), Nat.add_sub_cancel]
  generalize alignUp n = want at hwant
  dsimp only
  rw [if_neg (by omega), hsize]
  obtain ⟨l, r, rfl⟩ := append_of_mem hb.1
  split
  · rename_i hle
    exact ⟨_, rfl, H.reallocCut hb.2 (by omega) (by omega) (by omega) hle⟩
  · split
    · rename_i hnx
      obtain ⟨hnx0, hnxfree, hnxabut, hle⟩ := hnx
      obtain ⟨c, r', rfl, hnext, hc, hbc⟩ := H.rep.next_abuts ⟨hnx0, hnxfree, hnxabut⟩
      have := H.rep.laid.size_lt (b := c) (by simp)
      unfold Blk.stop at hbc
      rw [hnext, H.rep.bsize (by simp), u64_of_lt (by omega)] at hle
      rw [hnext]
      exact ⟨_, rfl, H.reallocJoin hb.2 hc hbc (by omega) (by omega) (by omega) hle⟩
    · obtain ⟨⟨h', q⟩, hr, w', bs', fs', H', hcase⟩ := (H.rebase subset_rfl).doMalloc O A hn
      rw [hr, Option.map_some]
      refine ⟨_, rfl, ?_⟩
      rcases hcase with ⟨rfl, hlive⟩ | ⟨b', hlive, hnew, hfree, hsize', rfl⟩
      · rw [if_pos rfl]
        refine ⟨w', bs', fs', H'.rebase (empty_subset _), .inl ⟨rfl, hlive, ?_⟩⟩
        exact fun d hd z hz => H'.rep.keep ⟨d, hd, hz⟩
      · rw [if_neg (by omega)]
        exact H'.move hb hlive hnew hfree hsize'

/-! ## Aligned allocation -/

lemma stepPast_eq (h32 : 32 ≤ align) (hlt : raw + align + 48 < 2 ^ 64)
    (ha : raw + 16 ≤ a) (hraw : 16 ∣ raw) (hdvd : 16 ∣ a) (halign : align ∣ a) (hnear : a < raw + align) :
    ∃ a', stepPast align raw (2 ^ 64) a = some a' ∧ align ∣ a' ∧ raw + 48 ≤ a' ∧ a' ≤ raw + align + 32 := by
  rw [show 2 ^ 64 = 2 ^ 64 - 2 + 1 + 1 by omega, stepPast, sub64_of_le (by omega) (by omega)]
  split
  · refine ⟨a + align, ?_, (Nat.dvd_add_self_right).2 halign, by omega, by omega⟩
    rw [stepPast, u64_of_lt (by omega), sub64_of_le (by omega) (by omega), if_neg (by omega)]
  · exact ⟨a, rfl, halign, by omega, by omega⟩

lemma roundUp_eq {k : ℕ} (hk : k ≤ 63) (hlt : raw + 2 ^ k < 2 ^ 64) :
    ∃ a, andNot (u64 (raw + 2 ^ k - 1)) (2 ^ k - 1) = a ∧ 2 ^ k ∣ a ∧ raw ≤ a ∧ a < raw + 2 ^ k := by
  have hpos := Nat.two_pow_pos k
  rw [u64_of_lt (by omega), andNot_two_pow (by omega) (by omega)]
  refine ⟨_, rfl, Nat.dvd_mul_left _ _, ?_, ?_⟩
  · have := Nat.lt_div_mul_add (a := raw + 2 ^ k - 1) hpos
    omega
  · have := Nat.div_mul_le_self (raw + 2 ^ k - 1) (2 ^ k)
    omega

/-- The front fragment of an aligned block becomes a free block. -/
lemma Ready.cutFront (H : Ready S m w top h (l ++ b :: r) fs) (hb : b.free = false)
    (hS : ∀ z ∈ S, z ∉ b.payload) (hdvd : 16 ∣ a) (hlo : b.addr + 32 + 48 ≤ a) (hhi : a + 16 ≤ b.stop) :
    ∃ bs' fs' b', Ready S m w top ((((h.setBlk (a - 32) (b.stop - a) false).insertAfter b.addr (a - 32)).setBlk b.addr
          (a - 32 - b.addr - 32) true).flistPush b.addr) bs' fs' ∧
      live bs' = insert b' (live (l ++ r)) ∧ b'.free = false ∧ b'.addr = a - 32 ∧
      b'.size = b.stop - a := by
  obtain ⟨H, hx, hused⟩ := H
  have haddr := b.addr_dvd
  have hsize := b.size_dvd
  have hstop : b.stop = b.addr + 32 + b.size := rfl
  let b1 : Blk := ⟨b.addr, a - 32 - b.addr - 32, true, haddr, by omega, by omega⟩
  let b2 : Blk := ⟨a - 32, b.stop - a, false, by omega, by omega, by omega⟩
  have hmem : b ∈ l ++ b :: r := by simp
  have hout : ∀ z ∈ S, z < b.addr ∨ b.stop ≤ z := fun z hz => by
    have hhdr := H.2.1 b hmem z hz
    have hpay := hS z hz
    simp only [Blk.payload, mem_ofPred_eq] at hpay
    omega
  have h12 : b1.stop = b2.addr := by
    simp only [Blk.stop, b1, b2]
    omega
  have h2 : b2.stop = b.stop := by
    simp only [Blk.stop, b2]
    omega
  obtain ⟨-, H1⟩ := H.carve (show b1.addr = b.addr from rfl) h12 h2 fun z hz => by
    have := hout z hz
    simp only [b2]
    omega
  have hbfs : b.addr ∉ fs := fun h => absurd ((hx b hmem).1 h) (by simp [hb])
  have H2 := H1.push (a := b1.addr) (mem_map_of_mem (by simp)) hbfs fun z hz => by
    have := hout z hz
    simp only [b1]
    omega
  refine ⟨_, _, b2, ⟨H2, ?_, ?_⟩, ?_, rfl, rfl, rfl⟩
  · intro d hd
    by_cases hd1 : d = b1
    · simp [hd1, b1]
    have hne : d.addr ≠ b.addr := fun h => hd1 (H1.laid.addr_inj hd (by simp) h)
    rw [mem_cons, or_iff_right hne]
    rcases mem_middle.1 ((mem_middle.1 hd).resolve_left hd1) with rfl | hd2
    · refine iff_of_false (fun hfs => ?_) (by simp)
      obtain ⟨e, he, hea⟩ := H.fsub hfs
      by_cases heb : e = b
      · subst heb
        omega
      · have := H.laid.apart he hmem heb
        simp only [Blk.stop, b2] at *
        omega
    · exact hx d (mem_middle.2 (.inr hd2))
  · intro z hz
    obtain ⟨d, ⟨hd, hdf⟩, hzd⟩ := hused hz
    rcases mem_middle.1 hd with rfl | hd
    · exact absurd hzd (hS z hz)
    · exact ⟨d, ⟨mem_middle.2 (.inr (mem_middle.2 (.inr hd))), hdf⟩, hzd⟩
  · rw [live_free rfl, live_used rfl]

lemma Ready.alignBlock (H : Ready S m w (topOf w) h bs' fs)
    (hlive : live bs' = insert b B) (hnew : ∀ d ∈ B, d.addr ≠ b.addr) (hfree : b.free = false)
    (hS : S ⊆ {z | ∃ d ∈ B, z ∈ d.payload}) (hdvd : 16 ∣ a) (hlo : b.addr + 32 + 48 ≤ a)
    (hhi : a + 16 ≤ b.stop) (hn : a + n ≤ b.stop) :
    Malloced topOf S m B n ((((h.setBlk (a - 32) (b.stop - a) false).insertAfter b.addr
      (a - 32)).setBlk b.addr (a - 32 - b.addr - 32) true).flistPush b.addr, a) := by
  have hlaid := H.rep.laid
  have hb : b ∈ bs' := (hlive ▸ mem_insert b B : b ∈ live bs').1
  have hB : ∀ d ∈ B, d ∈ bs' ∧ d ≠ b := fun d hd =>
    ⟨(hlive ▸ mem_insert_of_mem b hd : d ∈ live bs').1, fun h => hnew d hd (h ▸ rfl)⟩
  have hSb : ∀ z ∈ S, z ∉ b.payload := fun z hz hzb => by
    obtain ⟨d, hd, hzd⟩ := hS hz
    exact hlaid.not_mem_payload (hB d hd).1 hb (hB d hd).2 (by have := hzb.1; omega) hzb.2 hzd
  obtain ⟨l, r, rfl⟩ := append_of_mem hb
  obtain ⟨bs'', fs'', b', H', hlive', hfree', haddr, hsize⟩ := H.cutFront hfree hSb hdvd hlo hhi
  have hBlive : live (l ++ r) = B := by
    rw [live_diff hlaid hfree, hlive, insert_sdiff_of_mem _ (mem_singleton b), sdiff_singleton_eq_self fun h => hnew b h rfl]
  refine ⟨w, bs'', fs'', H', .inr ⟨b', hBlive ▸ hlive', fun d hd heq => ?_, hfree', by omega,
    by dsimp only; omega⟩⟩
  have := hlaid.apart (hB d hd).1 hb (hB d hd).2
  unfold Blk.stop at *
  omega

/-- `aligned_alloc` gives a block at the alignment, or null. -/
lemma Ready.doAlignedAlloc (O : FreshAbove sbrk topOf) (A : AlignedBreak sbrk) (H : Ready S m w (topOf w) h bs fs)
    (hn : align ≤ 16 → LongSize n) (hlong : 16 < align → align &&& (align - 1) = 0 → LongSize
    ((n + 15) / 16 * 16 + align + 32)) (hpos : 16 < align → 0 < n) : ∃ r, h.doAlignedAlloc sbrk align n = some r
    ∧ Malloced topOf S m (live bs) n r ∧ (16 < align → align ∣ r.2) := by
  rw [Heap.doAlignedAlloc]
  split
  · rename_i hle
    obtain ⟨r, hr, hm⟩ := H.doMalloc O A (hn hle)
    exact ⟨r, hr, hm, fun hlt => absurd hlt (Nat.not_lt.2 hle)⟩
  rename_i hle
  split
  · exact ⟨_, rfl, ⟨w, bs, fs, H.rep.os ▸ H.setOs h.os _, .inl ⟨rfl, rfl⟩⟩, fun _ => dvd_zero _⟩
  rename_i hpow
  have hsmall := hlong (Nat.not_le.1 hle) (not_not.1 hpow)
  obtain ⟨k, rfl⟩ := (Nat.and_sub_one_eq_zero_iff_isPowerOfTwo (by omega)).1 (not_not.1 hpow)
  have hk : 5 ≤ k := by
    by_contra hk
    have := Nat.pow_le_pow_right (show 0 < 2 by decide) (show k ≤ 4 by omega)
    omega
  have h32 : 32 ∣ 2 ^ k := pow_dvd_pow 2 hk
  have hbound : (n + 15) / 16 * 16 + 2 ^ k + 32 < 2 ^ 63 := by
    unfold LongSize at hsmall
    omega
  have hk63 : k ≤ 63 := by
    by_contra hk
    have := Nat.pow_le_pow_right (show 0 < 2 by decide) (show 63 ≤ k by omega)
    omega
  obtain ⟨⟨h', raw⟩, hr, w', bs', fs', H', hcase⟩ := H.doMalloc O A hsmall
  rw [alignUp_eq (by omega)]
  dsimp only at H' hcase ⊢
  rw [u64_of_lt (by omega), hr, Option.bind_some]
  dsimp only
  rcases hcase with ⟨rfl, hlive⟩ | ⟨b, hlive, hnew, hfree, hsize, rfl⟩
  · rw [if_pos rfl]
    exact ⟨_, rfl, ⟨w', bs', fs', H', .inl ⟨rfl, hlive⟩⟩, fun _ => dvd_zero _⟩
  have hb : b ∈ bs' := (hlive ▸ mem_insert b (live bs) : b ∈ live bs').1
  have htop := H'.rep.1
  have hstop := H'.rep.laid.size_lt hb
  have haddr := b.addr_dvd
  rw [if_neg (by omega)]
  obtain ⟨a, ha, hadvd, hale, halt⟩ := roundUp_eq hk63 (show b.addr + 32 + 2 ^ k < 2 ^ 64 by omega)
  rw [ha]
  split
  · rename_i heq
    subst heq
    exact ⟨_, rfl, ⟨w', bs', fs', H', .inr ⟨b, hlive, hnew, hfree, by omega, rfl⟩⟩, fun _ => hadvd⟩
  · rename_i hne
    have h16a : 16 ∣ a := ((show 16 ∣ 32 by decide).trans h32).trans hadvd
    obtain ⟨a', ha', hadvd', hlo, hhi⟩ := stepPast_eq (by omega) (by omega) (by omega) (by omega) h16a hadvd halt
    have h16a' : 16 ∣ a' := ((show 16 ∣ 32 by decide).trans h32).trans hadvd'
    have hbstop : b.stop = b.addr + 32 + b.size := rfl
    have hraw : sub64 (b.addr + 32) 32 = b.addr := by
      rw [sub64_of_le (by omega) (by omega), Nat.add_sub_cancel]
    have hnb : sub64 a' 32 = a' - 32 := sub64_of_le (by omega) (by omega)
    have hlead : sub64 (a' - 32) b.addr = a' - 32 - b.addr := sub64_of_le (by omega) (by omega)
    have hrest : sub64 b.size (a' - 32 - b.addr) = b.stop - a' := by
      rw [sub64_of_le (by omega) (by omega)]
      omega
    have hfrag : sub64 (a' - 32 - b.addr) 32 = a' - 32 - b.addr - 32 :=
      sub64_of_le (by omega) (by omega)
    rw [ha', Option.map_some, hraw, H'.rep.bsize hb, hnb, hlead, hrest, hfrag]
    exact ⟨_, rfl, H'.alignBlock hlive hnew hfree H.used h16a' (by omega) (by omega) (by omega), fun _ => hadvd'⟩

end
end EmbCC.Libc
