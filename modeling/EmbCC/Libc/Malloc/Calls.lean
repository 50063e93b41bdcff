import EmbCC.Libc.Malloc.Stages

/-!
# The calls

What the heap means to its user is the set of its live blocks, those not marked
free. `do_malloc` adds one that is large enough (`Ready.doMalloc`), `do_free`
takes one away (`Ready.doFree`), and between them the free list holds exactly the
blocks marked free (`Exact`). Each call keeps the bytes of every live block it
was not given.
-/

namespace EmbCC.Libc

open List Words Ring Heap

/-! ## Live blocks and the free list -/

/-- The free list holds the blocks marked free, and no others. -/
def Exact (bs : List Blk) (fs : List ℕ) : Prop := ∀ b ∈ bs, b.addr ∈ fs ↔ b.free = true

/-- The blocks in use. -/
def live (bs : List Blk) : Set Blk := {b | b ∈ bs ∧ b.free = false}

/-- The bytes of a block that are its user's. -/
def Blk.payload (b : Blk) : Set ℕ := {z | b.addr + 32 ≤ z ∧ z < b.stop}

/-- The bytes in use. -/
def livePayload (bs : List Blk) : Set ℕ := {z | ∃ b ∈ live bs, z ∈ b.payload}

section
variable {W : Type} {S T : Set ℕ} {m : Mem} {w : W} {top : ℕ} {h : Heap W} {bs l r : List Blk}
  {fs f1 f2 : List ℕ} {V : View} {a x want : ℕ} {b c : Blk}

variable {lo top' n z chunk : ℕ} {rest : List Blk}

lemma Laid.avoids (H : Laid lo bs top) (hS : S ⊆ livePayload bs) (hb : b ∈ bs) :
    Avoids S b.addr 32 ∧ (b.free = true → Avoids S b.addr (32 + b.size)) := by
  refine ⟨fun z hz => ?_, fun hfree z hz => ?_⟩
  all_goals
    obtain ⟨c, ⟨hc, hcfree⟩, hlo, hhi⟩ := hS hz
    by_cases hbc : b = c
    · subst hbc
      first
        | exact .inr hlo
        | exact absurd hfree (by simp [hcfree])
    · have := H.apart hb hc hbc
      unfold Blk.stop at *
      omega

lemma Rep.rebase (H : Rep T m w top h bs fs) (hx : Exact bs fs) (hS : S ⊆ livePayload bs) : Rep S h.mem w top h bs fs := by
  obtain ⟨htop, -, -, V, hV, hsh⟩ := H
  refine ⟨htop, fun b hb => (hV.laid.avoids hS hb).1, fun y hy => ?_, V, hV, hsh.fld, ?_, hsh.os⟩
  · obtain ⟨b, hb, rfl⟩ := mem_map.1 (hV.fsub y hy)
    intro z hz
    have := (hV.laid.avoids hS hb).2 ((hx b hb).1 hy) z hz
    have := b.size_pos
    omega
  · exact fun _ _ => rfl

section
variable (H : Rep S m w top h bs fs)
include H

lemma Rep.laid : Laid 1 bs top := H.2.2.2.choose_spec.1.laid

lemma Rep.fsub (ha : a ∈ fs) : ∃ b ∈ bs, b.addr = a := mem_map.1 (H.2.2.2.choose_spec.1.fsub a ha)

lemma Rep.keep (hz : z ∈ S) : h.mem z = m z := H.2.2.2.choose_spec.2.keep z hz

lemma Rep.os : h.os = w := H.2.2.2.choose_spec.2.os

lemma Rep.setOs (w' : W) (e : Option Errno) : Rep S m w' top { h with os := w', errno := e } bs fs := by
  obtain ⟨htop, hS, hL, V, hV, hsh⟩ := H
  exact ⟨htop, hS, hL, V, hV, hsh.fld, hsh.keep, rfl⟩

lemma Rep.mono (htop : top ≤ top') (hlt : top' < 2 ^ 64) : Rep S m w top' h bs fs := by
  obtain ⟨-, hS, hL, V, hV, hsh⟩ := H
  exact ⟨hlt, hS, hL, V, { hV with laid := hV.laid.mono le_rfl htop }, hsh⟩

lemma Rep.abuts_iff (hb : b ∈ bs) : h.abuts b.addr x = true ↔ x ≠ 0 ∧ b.stop = x := by
  have := H.laid.size_lt hb
  have := H.1
  rw [Heap.abuts, H.bsize hb, u64_of_lt (by omega), Bool.and_eq_true, bne_iff_ne, beq_iff_eq]
  rfl

end

lemma Laid.addr_pos (H : Laid lo bs top) (hlo : 0 < lo) (hb : b ∈ bs) : 16 ≤ b.addr := by
  have := (H.mem hb).1
  have := b.addr_dvd
  omega

/-- `split` leaves the block and, if there is room, a free one behind it. -/
lemma Rep.split (H : Rep S m w top h (l ++ b :: r) fs) (hdvd : 16 ∣ want) (h16 : 16 ≤ want)
    (hle : want ≤ b.size) (hS : Avoids S (b.addr + 32 + want) (b.size - want)) :
    ∃ b' rest, Rep S m w top (h.split b.addr want) (l ++ b' :: (rest ++ r)) (rest.map Blk.addr ++ fs) ∧
      b'.addr = b.addr ∧ b'.free = b.free ∧ want ≤ b'.size ∧ ∀ d ∈ rest, d.free = true := by
  have hstop := H.laid.size_lt (b := b) (by simp)
  have hpos := H.laid.addr_pos Nat.one_pos (b := b) (by simp)
  have htop := H.1
  have hbs := H.bsize (b := b) (by simp)
  have hsize := b.size_dvd
  have haddr := b.addr_dvd
  rw [Heap.split, u64_of_lt (show want + 32 + 16 < 2 ^ 64 by omega)]
  split
  · exact ⟨b, [], H, rfl, rfl, hle, by simp⟩
  · rename_i hlt
    let b1 : Blk := ⟨b.addr, want, b.free, haddr, hdvd, h16⟩
    let b2 : Blk := ⟨b.addr + 32 + want, b.size - want - 32, true, by omega, by omega, by omega⟩
    have hstop2 : b2.stop = b.stop := by
      simp only [Blk.stop, b2]
      omega
    obtain ⟨hfree, H'⟩ := H.carve (show b1.addr = b.addr from rfl) rfl hstop2
      fun z hz => (hS z hz).imp_right fun h => by simp only [b2]; omega
    have hnotfs : b2.addr ∉ fs := fun hmem => by
      obtain ⟨d, hd, hda⟩ := H.fsub hmem
      rcases mem_middle.1 hd with rfl | hd
      · simp only [b2] at hda
        omega
      · have hlaid := H'.laid
        rw [append_cons] at hlaid
        exact hlaid.addr_ne (by simp only [mem_append] at hd ⊢; tauto) hda
    refine ⟨b1, [b2], ?_, rfl, rfl, le_rfl, by simp [b2]⟩
    have hpush := H'.push (mem_map_of_mem (by simp)) hnotfs
      fun z hz => (hS z hz).imp (fun h => by simp only [b2]; omega) fun h => by simp only [b2]; omega
    have hrest : sub64 (sub64 b.size want) 32 = b2.size := by
      rw [sub64_of_le hle (by omega), sub64_of_le (by omega) (by omega)]
    rw [u64_of_lt (show b.addr + 32 + want < 2 ^ 64 by omega), hbs, hrest]
    rw [← hfree] at hpush
    exact hpush

lemma Rep.fnodup (H : Rep S m w top h bs fs) : fs.Nodup := H.2.2.2.choose_spec.1.fnodup

lemma Exact.take (hx : Exact (l ++ b :: r) (f1 ++ b.addr :: f2)) (hlaid : Laid 1 (l ++ b :: r) top)
    (hnd : (f1 ++ b.addr :: f2).Nodup) : Exact (l ++ b.mark false :: r) (f1 ++ f2) := by
  intro d hd
  rcases mem_middle.1 hd with rfl | hd
  · simpa using (List.nodup_middle.1 hnd).notMem
  · rw [← hx d (mem_middle.2 (.inr hd))]
    have := hlaid.addr_ne hd
    simp [this]

/-- Splitting keeps the free list exact. -/
lemma Exact.split {b' : Blk} (hx : Exact (l ++ b :: r) fs)
    (hlaid : Laid 1 (l ++ b' :: (rest ++ r)) top) (haddr : b'.addr = b.addr) (hfree : b'.free = b.free)
    (hrest : ∀ d ∈ rest, d.free = true) : Exact (l ++ b' :: (rest ++ r)) (rest.map Blk.addr ++ fs) := by
  intro d hd
  by_cases hmem : d ∈ rest
  · simpa [hrest d hmem] using .inl ⟨d, hmem, rfl⟩
  · have hout : d.addr ∉ rest.map Blk.addr := fun h => by
      obtain ⟨e, he, hed⟩ := mem_map.1 h
      exact hmem (hlaid.addr_inj (by simp [he]) hd hed ▸ he)
    rw [mem_append, or_iff_right hout]
    rcases mem_middle.1 hd with rfl | hd
    · rw [haddr, hfree]
      exact hx b (by simp)
    · refine hx d (mem_middle.2 (.inr ?_))
      simp only [mem_append] at hd ⊢
      tauto

lemma live_split (hrest : ∀ d ∈ rest, d.free = true) (hb : b.free = false) :
    live (l ++ b :: (rest ++ r)) = insert b (live (l ++ r)) := by
  ext d
  simp only [live, mem_append, mem_cons]
  constructor
  · rintro ⟨hd | rfl | hd | hd, hdf⟩
    · exact .inr ⟨.inl hd, hdf⟩
    · exact .inl rfl
    · exact absurd (hrest d hd) (by simp [hdf])
    · exact .inr ⟨.inr hd, hdf⟩
  · rintro (rfl | ⟨hd, hdf⟩)
    · exact ⟨.inr (.inl rfl), hb⟩
    · exact ⟨by tauto, hdf⟩

lemma live_free (hb : b.free = true) : live (l ++ b :: r) = live (l ++ r) := by
  ext d
  simp only [live, mem_middle]
  constructor
  · rintro ⟨rfl | hd, hdf⟩
    · exact absurd hb (by simp [hdf])
    · exact ⟨hd, hdf⟩
  · exact fun ⟨hd, hdf⟩ => ⟨.inr hd, hdf⟩

lemma Rep.take (H : Rep S m w top h bs fs) (hx : Exact bs fs) (hS : S ⊆ livePayload bs) (hb : b ∈ bs)
    (hfree : b.free = true) (hdvd : 16 ∣ want) (h16 : 16 ≤ want) (hle : want ≤ b.size) : ∃ bs' fs' b', Rep S m w top
    (h.take b.addr want).1 bs' fs' ∧ Exact bs' fs' ∧ live bs' = insert b' (live bs) ∧ (∀ d ∈ live bs, d.addr ≠ b'.addr)
    ∧ b'.free = false ∧ want ≤ b'.size ∧ (h.take b.addr want).2 = b'.addr + 32 := by
  have hlaid := H.laid
  have htop := H.1
  have hstop := hlaid.size_lt hb
  have havoid := (hlaid.avoids hS hb).2 hfree
  obtain ⟨l, r, rfl⟩ := append_of_mem hb
  obtain ⟨f1, f2, rfl⟩ := append_of_mem ((hx b hb).2 hfree)
  have H1 := H.remove
  have H2 := H1.mark false
  rw [← H1.bsize hb] at H2
  obtain ⟨b', rest, H3, haddr, hfree', hsize, hrest⟩ :=
    H2.split hdvd h16 hle fun z hz => by
      have := havoid z hz
      simp only [Blk.mark_addr, Blk.mark_size]
      omega
  have hx' := (hx.take hlaid H.fnodup).split H3.laid haddr hfree' hrest
  refine ⟨_, _, b', H3, hx', ?_, ?_, hfree', hsize, ?_⟩
  · rw [live_split hrest hfree', live_free hfree]
  · intro d hd hda
    obtain rfl := hlaid.addr_inj hd.1 hb (hda.trans haddr)
    exact absurd hd.2 (by simp [hfree])
  · rw [haddr]
    exact u64_of_lt (show b.addr + 32 < 2 ^ 64 by omega)

lemma Rep.free_eq (H : Rep S m w top h bs fs) : h.free = fs.headD 0 := by
  obtain ⟨-, -, -, V, hV, hsh⟩ := H
  rw [← hV.fring.next_base]
  exact hsh.fld .fnext 0 (.inr ⟨rfl, by decide, by decide⟩)

lemma Rep.fnext_eq (H : Rep S m w top h bs (f1 ++ a :: f2)) : h.get a .fnext = f2.headD 0 := by
  obtain ⟨htop, hS, -, V, hV, hsh⟩ := H
  rw [hsh.get (hV.laid.frame htop hS) (hV.fsub a (by simp)), hV.fring.next_eq]

lemma Rep.firstFit {k : ℕ} (H : Rep S m w top h bs (f1 ++ f2)) (hk : f2.length < k) :
    ∃ x, h.firstFit want k (f2.headD 0) = some x ∧ (x = 0 ∨ x ≠ 0 ∧ ∃ b ∈ bs, b.addr = x ∧ x ∈ f1 ++ f2 ∧ want ≤ b.size) := by
  induction f2 generalizing f1 k with
  | nil =>
    cases k with
    | zero => simp at hk
    | succ k => exact ⟨0, by rw [headD_nil, Heap.firstFit, if_pos rfl], .inl rfl⟩
  | cons y f2 ih =>
    cases k with
    | zero => simp at hk
    | succ k =>
      obtain ⟨b, hb, hby⟩ := H.fsub (a := y) (by simp)
      have hy : y ≠ 0 := by
        have := (H.laid.mem hb).1
        omega
      rw [headD_cons, Heap.firstFit, if_neg hy, ← hby, H.bsize hb]
      split_ifs with hle
      · exact ⟨b.addr, rfl, .inr ⟨hby ▸ hy, b, hb, rfl, by simp, hle⟩⟩
      · rw [hby, H.fnext_eq]
        rw [append_cons] at H ⊢
        exact ih H (by simpa using hk)

lemma Rep.length_lt (H : Rep S m w top h bs fs) : fs.length < 2 ^ 64 := by
  have hsub : fs.toFinset ⊆ Finset.Ioo 0 (2 ^ 64) := by
    intro y hy
    obtain ⟨b, hb, rfl⟩ := H.fsub (List.mem_toFinset.1 hy)
    have := H.laid.addr_pos Nat.one_pos hb
    have := H.laid.size_lt hb
    have := H.1
    rw [Finset.mem_Ioo]
    omega
  have hcard := Finset.card_le_card hsub
  rw [toFinset_card_of_nodup H.fnodup, Nat.card_Ioo] at hcard
  omega

/-! ## What the operating system gives -/

/-- The operating system fails or hands out fresh memory above all it gave before: nothing it has
given lies at or above `topOf`. -/
structure FreshAbove (sbrk : W → ℤ → Option ℕ × W) (topOf : W → ℕ) : Prop where
  lt : ∀ w, 0 < topOf w ∧ topOf w < 2 ^ 64
  mono : ∀ w k, 0 < k → topOf w ≤ topOf (sbrk w k).2
  fresh : ∀ w k p, 0 < k → (sbrk w k).1 = some p →
    0 < p ∧ topOf w ≤ p ∧ p + k.toNat ≤ topOf (sbrk w k).2

/-- The memory it hands out starts at a multiple of 16. -/
def AlignedBreak (sbrk : W → ℤ → Option ℕ × W) : Prop :=
  ∀ w k p, 0 < k → (sbrk w k).1 = some p → 16 ∣ p

/-- What the calls see in common: the lists are represented and exact, and the bytes `S` to be kept
are in use. -/
structure Ready (S : Set ℕ) (m : Mem) (w : W) (top : ℕ) (h : Heap W) (bs : List Blk)
    (fs : List ℕ) : Prop where
  rep : Rep S m w top h bs fs
  exact : Exact bs fs
  used : S ⊆ livePayload bs

lemma livePayload_congr {bs' : List Blk} (h : live bs ⊆ live bs') :
    livePayload bs ⊆ livePayload bs' := fun _ ⟨b, hb, hz⟩ => ⟨b, h hb, hz⟩

lemma growAt_joined (H : Rep S m w top h (l ++ [c, b]) fs) :
    { (h.setBlk c.addr (u64 (h.bsize c.addr + 32 + h.bsize b.addr)) true).set c.addr .next
      ((h.setBlk c.addr (u64 (h.bsize c.addr + 32 + h.bsize b.addr)) true).get b.addr .next) with
      tail := c.addr } = h.absorb c.addr b.addr true := by
  have hnext : h.get b.addr .next = 0 := by
    rw [append_cons] at H
    exact H.links.1
  have hapart : c.addr + 48 ≤ b.addr ∨ b.addr + 48 ≤ c.addr := by
    have hlaid := H.laid
    obtain ⟨-, -, -, hb, -⟩ := laid_append.1 hlaid
    have := c.size_pos
    unfold Blk.stop at hb
    omega
  rw [Heap.absorb, Heap.setBlk, get_set_apart hapart, hnext, get_set_apart hapart, get_set_apart hapart, hnext]
  rfl

/-- The chunk that `sbrk` gave becomes a free block, joined to the last one if that is free. -/
lemma Ready.growAt (H : Ready S m w top h bs fs) {p : ℕ} (hp : top ≤ p) (hp0 : 0 < p) (hdvd : 16 ∣ p) (hchunk : 16 ∣ chunk)
    (h48 : 48 ≤ chunk) (htop : p + chunk ≤ top') (hlt : top' < 2 ^ 64) : ∃ bs' fs' b, Ready S m w top'
    (h.growAt p chunk).1 bs' fs' ∧ live bs' = live bs ∧ b ∈ bs' ∧ b.free = true ∧ chunk - 32 ≤ b.size
    ∧ (h.growAt p chunk).2 = b.addr := by
  obtain ⟨H, hx, hS⟩ := H
  let b : Blk := ⟨p, chunk - 32, true, hdvd, by omega, by omega⟩
  have hbstop : b.stop ≤ top' := by
    simp only [Blk.stop, b]
    omega
  have hSb : ∀ k, Avoids S (b.addr + k) 32 := fun k z hz => by
    obtain ⟨c, ⟨hc, -⟩, -, hhi⟩ := hS hz
    exact .inl (Nat.lt_add_right k ((hhi.trans_le (H.laid.mem hc).2).trans_le hp))
  have H1 := H.append hp hp0 hbstop hlt (hSb 0)
  have hbfs : b.addr ∉ fs := fun hmem => by
    obtain ⟨d, hd, hdb⟩ := H.fsub hmem
    have := H.laid.size_lt hd
    simp only [b] at hdb
    omega
  generalize hh1 : ({ ((((h.setBlk b.addr b.size b.free).set b.addr .prev h.tail).set b.addr .next
      0).setNext h.tail b.addr) with tail := b.addr } : Heap W) = h1 at H1
  have hcode : h.growAt p chunk = if h1.get p .prev ≠ 0 ∧ h1.bfree (h1.get p .prev) ∧ h1.abuts (h1.get p .prev) p then
        let h := h1.setBlk (h1.get p .prev)
          (u64 (h1.bsize (h1.get p .prev) + 32 + h1.bsize p)) true
        ({ h.set (h1.get p .prev) .next (h.get p .next) with tail := h1.get p .prev },
          h1.get p .prev)
      else (h1.flistPush p, p) := by
    rw [← hh1, Heap.growAt, sub64_of_le (by omega) (by omega)]
    rfl
  have hprev : h1.get p .prev = (bs.map Blk.addr).getLastD 0 := (H1.links).2
  rw [hcode]
  split
  · rename_i hjoin
    obtain ⟨l, c, rfl⟩ : ∃ l c, bs = l ++ [c] := by
      rcases eq_nil_or_concat' bs with rfl | h
      · exact absurd hprev hjoin.1
      · exact h
    have ht : h1.get p .prev = c.addr := by simpa using hprev
    rw [ht] at hjoin ⊢
    have hc : c ∈ l ++ [c] ++ [b] := by simp
    have hcfree : c.free = true := by rw [← H1.bfree hc]; exact hjoin.2.1
    have hstop : c.stop = b.addr := ((H1.abuts_iff hc).1 hjoin.2.2).2
    rw [append_assoc, cons_append, nil_append] at H1
    have H2 := H1.absorb hstop hbfs true
    rw [← growAt_joined H1] at H2
    have hlive : live (l ++ [c.join b true]) = live (l ++ [c]) := by
      rw [live_free rfl, live_free hcfree]
    refine ⟨_, fs, c.join b true, ⟨H2, ?_, ?_⟩, hlive, by simp, rfl, ?_, rfl⟩
    · intro d hd
      rcases mem_middle.1 hd with rfl | hd
      · exact (hx c (by simp)).trans (by simp [hcfree, Blk.join])
      · exact hx d (mem_middle.2 (.inr hd))
    · exact hS.trans (livePayload_congr hlive.ge)
    · simp only [Blk.join, b]
      omega
  · have H2 := H1.push (mem_map_of_mem (by simp)) hbfs fun z hz => by
      have := hSb 32 z hz
      omega
    have hlive : live (bs ++ [b]) = live bs := by rw [live_free rfl, append_nil]
    refine ⟨_, _, b, ⟨H2, ?_, ?_⟩, hlive, by simp, rfl, le_rfl, rfl⟩
    · intro d hd
      rcases mem_middle.1 hd with rfl | hd
      · simp [b]
      · rw [append_nil] at hd
        rw [mem_cons, or_iff_right (H1.laid.addr_ne (by simpa using hd)), hx d hd]
    · exact hS.trans (livePayload_congr hlive.ge)

/-! ## Growing and taking a block -/

/-- A call that ended with this operating system, and with nothing or with a block that meets the
condition. -/
def Grown (topOf : W → ℕ) (S : Set ℕ) (m : Mem) (bs : List Blk) (need : ℕ) (r : Heap W × ℕ) : Prop :=
  ∃ w, (r.2 = 0 ∧ ∃ fs, Ready S m w (topOf w) r.1 bs fs) ∨
    ∃ bs' fs' b, Ready S m w (topOf w) r.1 bs' fs' ∧ live bs' = live bs ∧ b ∈ bs' ∧
      b.free = true ∧ need ≤ b.size ∧ r.2 = b.addr

lemma toLong_of_lt {x : ℕ} (h : x < 2 ^ 63) : toLong x = x := if_pos h

variable {sbrk : W → ℤ → Option ℕ × W} {topOf : W → ℕ} {need : ℕ}

lemma Ready.setOs (H : Ready S m w top h bs fs) (w' : W) (e : Option Errno) :
    Ready S m w' top { h with os := w', errno := e } bs fs := ⟨H.rep.setOs w' e, H.exact, H.used⟩

lemma Ready.mono (H : Ready S m w top h bs fs) (htop : top ≤ top') (hlt : top' < 2 ^ 64) : Ready S m w top' h bs fs :=
  ⟨H.rep.mono htop hlt, H.exact, H.used⟩

section
variable (O : FreshAbove sbrk topOf) (A : AlignedBreak sbrk) (H : Ready S m w (topOf w) h bs fs)
include O A H

lemma Ready.ask (hdvd : 16 ∣ chunk) (h16 : 16 ≤ need) (hneed : need + 32 ≤ chunk) (hlt : chunk < 2 ^ 63) :
    (∃ p, (osSbrk sbrk h chunk).1 = some p ∧ Grown topOf S m bs need ((osSbrk sbrk h chunk).2.growAt p chunk))
    ∨ (osSbrk sbrk h chunk).1 = none ∧ ∃ w', Ready S m w' (topOf w') (osSbrk sbrk h chunk).2 bs fs := by
  have hlong := toLong_of_lt hlt
  have hpos : 0 < toLong chunk := by omega
  have hmono := O.mono w (toLong chunk) hpos
  rw [osSbrk, H.rep.os]
  cases hp : (sbrk w (toLong chunk)).1 with
  | none => exact .inr ⟨rfl, _, (H.setOs _ h.errno).mono hmono (O.lt _).2⟩
  | some p =>
    obtain ⟨hp0, hptop, hfit⟩ := O.fresh w _ p hpos hp
    have hfit' : p + chunk ≤ topOf (sbrk w (toLong chunk)).2 := by omega
    obtain ⟨bs', fs', b, H', hlive, hb, hfree, hsize, haddr⟩ :=
      (H.setOs (sbrk w (toLong chunk)).2 h.errno).growAt hptop hp0 (A w _ p hpos hp) hdvd (by omega) hfit' (O.lt _).2
    exact .inl ⟨p, rfl, _, .inr ⟨bs', fs', b, H', hlive, hb, hfree, by omega, haddr⟩⟩

lemma Ready.grow (hdvd : 16 ∣ need) (h16 : 16 ≤ need)
    (hsmall : need + 32 < 2 ^ 63) : Grown topOf S m bs need (h.grow sbrk need) := by
  have hleast : alignUp (u64 (need + 32)) = need + 32 := by
    rw [u64_of_lt (by omega), alignUp_eq (by omega)]
    omega
  rw [Heap.grow, hleast]
  generalize hchunk : (if need + 32 < 64 * 1024 then 64 * 1024 else need + 32) = chunk
  have hchunk' : 16 ∣ chunk ∧ need + 32 ≤ chunk ∧ chunk < 2 ^ 63 := by
    rw [← hchunk]
    split <;> omega
  have hfail : ∀ w h, Ready S m w (topOf w) h bs fs →
      Grown topOf S m bs need ({ h with errno := some .enomem }, 0) := fun w h H =>
    ⟨w, .inl ⟨rfl, fs, H.rep.os ▸ H.setOs h.os _⟩⟩
  have hask := H.ask O A hchunk'.1 h16 hchunk'.2.1 hchunk'.2.2
  rcases hr : osSbrk sbrk h chunk with ⟨q, h1⟩
  rw [hr] at hask
  rcases hask with ⟨p, rfl, hg⟩ | ⟨rfl, w1, H1⟩
  · exact hg
  · dsimp only
    split
    · have hask := H1.ask O A (by omega) h16 le_rfl hsmall
      rcases hr' : osSbrk sbrk h1 (need + 32) with ⟨q, h2⟩
      rw [hr'] at hask
      rcases hask with ⟨p, rfl, hg⟩ | ⟨rfl, w2, H2⟩
      · exact hg
      · exact hfail w2 h2 H2
    · exact hfail w1 h1 H1

end

/-- The request, rounded up and with a header, is a `long`. -/
def LongSize (n : ℕ) : Prop := (n + 15) / 16 * 16 + 32 < 2 ^ 63

/-- A call that returned null and changed no live block, or a new live block. -/
def Malloced (topOf : W → ℕ) (S : Set ℕ) (m : Mem) (B : Set Blk) (n : ℕ) (r : Heap W × ℕ) : Prop :=
  ∃ w bs fs, Ready S m w (topOf w) r.1 bs fs ∧ ((r.2 = 0 ∧ live bs = B) ∨
    ∃ b, live bs = insert b B ∧ (∀ d ∈ B, d.addr ≠ b.addr) ∧ b.free = false ∧ n ≤ b.size ∧
      r.2 = b.addr + 32)

lemma Ready.take (H : Ready S m w (topOf w) h bs fs) (hb : b ∈ bs) (hfree : b.free = true) (hdvd : 16 ∣ want)
    (h16 : 16 ≤ want) (hle : want ≤ b.size) (hn : n ≤ want) : Malloced topOf S m (live bs) n (h.take b.addr want) := by
  obtain ⟨bs', fs', b', H', hx, hlive, hnew, hfree', hsize, hp⟩ :=
    H.rep.take H.exact H.used hb hfree hdvd h16 hle
  have hsub : S ⊆ livePayload bs' :=
    H.used.trans (livePayload_congr (hlive ▸ Set.subset_insert _ _))
  exact ⟨w, bs', fs', ⟨H', hx, hsub⟩, .inr ⟨b', hlive, hnew, hfree', hn.trans hsize, hp⟩⟩

lemma Ready.doMalloc (O : FreshAbove sbrk topOf) (A : AlignedBreak sbrk) (H : Ready S m w (topOf w) h bs fs)
    (hn : LongSize n) : ∃ r, h.doMalloc sbrk n = some r ∧ Malloced topOf S m (live bs) n r := by
  unfold LongSize at hn
  rw [Heap.doMalloc]
  generalize hn1 : (if n = 0 then 1 else n) = n1
  have hn1' : n ≤ n1 ∧ 1 ≤ n1 ∧ (n1 + 15) / 16 * 16 + 32 < 2 ^ 63 := by
    rw [← hn1]
    split <;> omega
  have hwant : alignUp n1 = (n1 + 15) / 16 * 16 := alignUp_eq (by omega)
  generalize alignUp n1 = want at hwant
  obtain ⟨x, hx, hfound⟩ := @Rep.firstFit _ _ _ _ _ _ _ [] _ want _ H.rep H.rep.length_lt
  rw [← H.rep.free_eq] at hx
  dsimp only
  rw [if_neg (by omega), hx, Option.map_some]
  refine ⟨_, rfl, ?_⟩
  rcases hfound with rfl | ⟨hx0, b, hb, rfl, hmem, hle⟩
  · rw [if_neg (by simp)]
    obtain ⟨w1, ⟨hnull, fs1, H1⟩ | ⟨bs1, fs1, b, H1, hlive, hb, hfree, hsize, haddr⟩⟩ :=
      H.grow O A (show 16 ∣ want by omega) (by omega) (by omega)
    · rw [if_pos hnull]
      exact ⟨w1, bs, fs1, H1, .inl ⟨rfl, rfl⟩⟩
    · have hpos := H1.rep.laid.addr_pos Nat.one_pos hb
      rw [if_neg (by omega), haddr, ← hlive]
      exact H1.take hb hfree (by omega) (by omega) hsize (by omega)
  · rw [if_pos hx0]
    exact H.take hb ((H.exact b hb).1 hmem) (by omega) (by omega) hle (by omega)

lemma Ready.join (H : Ready S m w top h (l ++ b :: c :: r) fs) (hc : c.free = true) (hbc : b.stop = c.addr) : ∃ fs',
    Ready S m w top ((h.flistRemove c.addr).absorb b.addr c.addr b.free) (l ++ b.join c b.free :: r) fs' := by
  obtain ⟨H, hx, hS⟩ := H
  have hcmem : c ∈ l ++ b :: c :: r := by simp
  obtain ⟨f1, f2, rfl⟩ := append_of_mem ((hx c hcmem).2 hc)
  have hcfs : c.addr ∉ f1 ++ f2 := (List.nodup_middle.1 H.fnodup).notMem
  refine ⟨f1 ++ f2, H.remove.absorb hbc hcfs b.free, ?_, ?_⟩
  · intro d hd
    have hmem : ∀ e ∈ l ++ b :: r, e.addr ∈ f1 ++ f2 ↔ e.free = true := by
      intro e he
      have hlaid := H.laid
      rw [append_cons] at hlaid
      rw [← hx e (by simp only [mem_append, mem_cons] at he ⊢; tauto)]
      have := hlaid.addr_ne (by simpa using he)
      simp [this]
    rcases mem_middle.1 hd with rfl | hd
    · exact hmem b (by simp)
    · exact hmem d (mem_middle.2 (.inr hd))
  · intro z hz
    obtain ⟨d, ⟨hd, hdf⟩, hlo, hhi⟩ := hS hz
    rcases mem_middle.1 hd with rfl | hd
    · refine ⟨d.join c d.free, ⟨by simp, hdf⟩, hlo, ?_⟩
      simp only [Blk.stop, Blk.join] at *
      omega
    · rcases mem_middle.1 hd with rfl | hd
      · exact absurd hc (by simp [hdf])
      · exact ⟨d, ⟨mem_middle.2 (.inr hd), hdf⟩, hlo, hhi⟩

lemma live_used (hb : b.free = false) : live (l ++ b :: r) = insert b (live (l ++ r)) :=
  @live_split _ _ _ [] (by simp) hb

lemma Rep.next_abuts (H : Rep S m w top h (l ++ b :: r) fs)
    (hnx : h.get b.addr .next ≠ 0 ∧ h.bfree (h.get b.addr .next) ∧ h.abuts b.addr (h.get b.addr .next)) :
    ∃ c r', r = c :: r' ∧ h.get b.addr .next = c.addr ∧ c.free = true ∧ b.stop = c.addr := by
  have hnext := H.links.1
  cases r with
  | nil => exact absurd hnext hnx.1
  | cons c r' =>
    rw [hnext] at hnx
    refine ⟨c, r', rfl, hnext, ?_, ((H.abuts_iff (by simp)).1 hnx.2.2).2⟩
    rw [← H.bfree (by simp)]
    exact hnx.2.1

section
variable (H : Ready S m w top h (l ++ b :: r) fs) (hf : b.free = true)
include H hf

lemma Ready.joinNext : ∃ b' r' fs', Ready S m w top (if h.get b.addr .next ≠ 0 ∧ h.bfree (h.get b.addr .next) ∧
            h.abuts b.addr (h.get b.addr .next) then
          (h.flistRemove (h.get b.addr .next)).absorb b.addr (h.get b.addr .next) true
        else h) (l ++ b' :: r') fs' ∧
      b'.addr = b.addr ∧ b'.free = true ∧ live (l ++ b' :: r') = live (l ++ b :: r) := by
  split_ifs with hnx
  · obtain ⟨c, r', rfl, hnext, hc, hbc⟩ := H.rep.next_abuts hnx
    obtain ⟨fs', H'⟩ := H.join hc hbc
    rw [hf] at H'
    refine ⟨b.join c true, r', fs', hnext ▸ H', rfl, rfl, ?_⟩
    rw [live_free rfl, live_free hf, live_free hc]
  · exact ⟨b, r, fs, H, rfl, hf, rfl⟩

/-! ## Freeing -/

lemma Ready.joinPrev : ∃ bs' fs', Ready S m w top (if h.get b.addr .prev ≠ 0 ∧ h.bfree (h.get b.addr .prev) ∧
            h.abuts (h.get b.addr .prev) b.addr then
          (h.flistRemove b.addr).absorb (h.get b.addr .prev) b.addr true
        else h) bs' fs' ∧ live bs' = live (l ++ b :: r) := by
  split_ifs with hpv
  · have hprev := H.rep.links.2
    rcases eq_nil_or_concat' l with rfl | ⟨l', c, rfl⟩
    · exact absurd hprev hpv.1
    rw [map_append, map_singleton, getLastD_concat] at hprev
    rw [hprev] at hpv
    have hc : c.free = true := (H.rep.bfree (by simp)).symm.trans hpv.2.1
    have hcb := ((H.rep.abuts_iff (by simp)).1 hpv.2.2).2
    rw [append_assoc, singleton_append] at H
    obtain ⟨fs', H'⟩ := H.join hf hcb
    rw [hc] at H'
    refine ⟨l' ++ c.join b true :: r, fs', hprev ▸ H', ?_⟩
    rw [append_assoc, singleton_append, live_free rfl, live_free hc, live_free hf]
  · exact ⟨_, fs, H, rfl⟩

end

lemma live_diff (H : Laid 1 (l ++ b :: r) top) (hb : b.free = false) : live (l ++ r) = live (l ++ b :: r) \ {b} := by
  rw [live_used hb, Set.insert_sdiff_of_mem _ (Set.mem_singleton b), Set.sdiff_singleton_eq_self]
  exact fun hmem => H.addr_ne hmem.1 rfl

lemma Ready.release (H : Ready S m w top h (l ++ b :: r) fs) (hb : b.free = false) (hS : ∀ z ∈ S, z ∉ b.payload) :
    Ready S m w top ((h.setBlk b.addr b.size true).flistPush b.addr) (l ++ b.mark true :: r) (b.addr :: fs) := by
  obtain ⟨H, hx, hused⟩ := H
  have hbfs : b.addr ∉ fs := fun hmem => absurd ((hx b (by simp)).1 hmem) (by simp [hb])
  have hlink : Avoids S (b.addr + 32) 16 := fun z hz => by
    have := hS z hz
    have := b.size_pos
    simp only [Blk.payload, Blk.stop, Set.mem_ofPred_eq] at *
    omega
  have hmem : b.addr ∈ addrs (l ++ b.mark true :: r) := mem_map.2 ⟨b.mark true, by simp, rfl⟩
  refine ⟨(H.mark true).push hmem hbfs hlink, ?_, ?_⟩
  · intro d hd
    rcases mem_middle.1 hd with rfl | hd
    · simp
    · rw [mem_cons, or_iff_right (H.laid.addr_ne hd)]
      exact hx d (mem_middle.2 (.inr hd))
  · intro z hz
    obtain ⟨d, ⟨hd, hdf⟩, hzd⟩ := hused hz
    rcases mem_middle.1 hd with rfl | hd
    · exact absurd hzd (hS z hz)
    · exact ⟨d, ⟨mem_middle.2 (.inr hd), hdf⟩, hzd⟩

lemma Ready.doFree (H : Ready S m w top h bs fs) (hb : b ∈ live bs) (hS : ∀ z ∈ S, z ∉ b.payload) :
    ∃ bs' fs', Ready S m w top (h.doFree (b.addr + 32)) bs' fs' ∧ live bs' = live bs \ {b} := by
  obtain ⟨hmem, hbf⟩ := hb
  have hlaid := H.rep.laid
  have htop := H.rep.1
  have hstop := hlaid.size_lt hmem
  have hsize := H.rep.bsize hmem
  obtain ⟨l, r, rfl⟩ := append_of_mem hmem
  have H1 := H.release hbf hS
  obtain ⟨b', r', fs', H2, haddr, hfree, hlive⟩ := H1.joinNext rfl
  obtain ⟨bs', fs'', H3, hlive'⟩ := H2.joinPrev hfree
  refine ⟨bs', fs'', ?_, ?_⟩
  · rw [Heap.doFree, if_neg (by omega), sub64_of_le (by omega) (by omega), Nat.add_sub_cancel]
    rw [haddr, ← hsize] at H3
    exact H3
  · rw [hlive', hlive, live_free rfl, live_diff hlaid hbf]

end
end EmbCC.Libc
