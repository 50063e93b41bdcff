import EmbCC.Libc.Malloc.Layout

/-!
# Changing the lists

What each piece of `malloc.c` does to a represented heap: taking a block off the
free list or putting it there, marking a block, cutting one in two, joining two,
and adding one at the end. Each keeps the representation, with the lists as the
piece leaves them.
-/

namespace EmbCC.Libc

open List Words Ring Heap Function

section
variable {W : Type} {S : Set ℕ} {m : Mem} {w : W} {top : ℕ} {h : Heap W} {bs l r : List Blk}
  {fs f1 f2 : List ℕ} {V : View} {a x : ℕ} {b c : Blk}

section
variable (H : Wf V top bs fs) (F : Frame (addrs bs) S)
include H F

lemma Wf.free_nodup : (0 :: fs).Nodup :=
  nodup_cons.2 ⟨fun h0 => F.pos 0 (H.fsub 0 h0) rfl, H.fnodup⟩

lemma Wf.addr_nodup : (0 :: bs.map Blk.addr).Nodup :=
  nodup_cons.2 ⟨fun h0 => F.pos 0 h0 rfl, H.laid.nodup⟩

lemma Wf.link_ok (hL : ∀ y ∈ fs, Avoids S (y + 32) 16) (hx : x ∈ 0 :: fs) :
    (x = 0 ∨ x ∈ addrs bs) ∧ (x = 0 ∨ Avoids S (x + 32) 16) ∧ x < 2 ^ 64 := by
  rcases mem_cons.1 hx with rfl | hx
  · exact ⟨.inl rfl, .inl rfl, by decide⟩
  · exact ⟨.inr (H.fsub x hx), .inr (hL x hx), F.bound x (H.fsub x hx)⟩

end

variable {A : Set ℕ} {lo hi : ℕ}

lemma Shows.get (H : Shows A S m w h V) (F : Frame A S) (hx : x ∈ A) (f : Field) : h.get x f = V f x := by
  rw [get_eq_fld (F.pos x hx), H.fld f x (.inl hx)]

lemma Rep.remove (H : Rep S m w top h bs (f1 ++ a :: f2)) : Rep S m w top (h.flistRemove a) bs (f1 ++ f2) := by
  obtain ⟨htop, hS, hL, V, hV, hsh⟩ := H
  have F := hV.laid.frame htop hS
  have hmem : a ∈ f1 ++ a :: f2 := by simp
  have ha := hV.fsub a hmem
  have hsub : (f1 ++ f2).Sublist (f1 ++ a :: f2) := (sublist_cons_self a f2).append_left f1
  obtain ⟨hnx, hpv⟩ := hV.fring.mem (.tail 0 hmem)
  obtain ⟨hnxA, hnxL, hnxlt⟩ := hV.link_ok F hL hnx
  obtain ⟨hpvA, hpvL, hpvlt⟩ := hV.link_ok F hL hpv
  have h1 := hsh.put F (f := .fnext) hpvA (fun _ => hpvL) hnxlt
  have h2 := h1.put F (f := .fprev) hnxA (fun _ => hnxL) hpvlt
  have hcode : h.flistRemove a = (h.put .fnext (V .fprev a) (V .fnext a)).put .fprev (V .fnext a) (V .fprev a) := by
    rw [flistRemove, hsh.get F ha, hsh.get F ha]
    rw [setFnext_eq_put, setFprev_eq_put]
  rw [hcode]
  refine ⟨htop, hS, fun y hy => hL y (hsub.subset hy), _, ⟨hV.laid, ?_, ?_, ?_,
    hV.fnodup.sublist hsub, fun y hy => hV.fsub y (hsub.subset hy)⟩, h2⟩
  · simpa using hV.size
  · simpa using hV.ring
  · simpa using hV.fring.remove (hV.free_nodup F)

lemma Rep.push (H : Rep S m w top h bs fs) (ha : a ∈ addrs bs) (hfs : a ∉ fs)
    (hlink : Avoids S (a + 32) 16) : Rep S m w top (h.flistPush a) bs (a :: fs) := by
  obtain ⟨htop, hS, hL, V, hV, hsh⟩ := H
  have F := hV.laid.frame htop hS
  have ha0 := F.pos a ha
  obtain ⟨hgA, hgL, hglt⟩ := hV.link_ok F hL (hV.fring.mem (.head _)).1
  have hfree : h.free = V .fnext 0 := hsh.fld .fnext 0 (.inr ⟨rfl, by decide, by decide⟩)
  have h1 := hsh.put F (f := .fprev) (v := 0) (.inr ha) (fun _ => .inr hlink) (by decide)
  have h2 := h1.put F (f := .fnext) (.inr ha) (fun _ => .inr hlink) hglt
  have h3 := h2.put F (f := .fprev) hgA (fun _ => hgL) (F.bound a ha)
  have h4 := h3.put F (f := .fnext) (.inl rfl) (fun _ => .inl rfl) (F.bound a ha)
  have hcode : h.flistPush a = (((h.put .fprev a 0).put .fnext a (V .fnext 0)).put .fprev (V .fnext 0) a).put .fnext 0 a := by
    rw [← hfree, ← set_eq_put ha0, ← set_eq_put ha0, ← setFprev_eq_put]
    rfl
  rw [hcode]
  refine ⟨htop, hS, ?_, _, ⟨hV.laid, ?_, ?_, ?_, nodup_cons.2 ⟨hfs, hV.fnodup⟩, ?_⟩, h4⟩
  · rintro y (_ | ⟨_, hy⟩)
    · exact hlink
    · exact hL y hy
  · simpa using hV.size
  · simpa using hV.ring
  · have hmem : a ∉ 0 :: fs := by simp [ha0, hfs]
    simpa using IsRing.insert (l := []) hV.fring rfl (hV.free_nodup F) hmem
  · rintro y (_ | ⟨_, hy⟩)
    · exact ha
    · exact hV.fsub y hy

lemma or_flag {n : ℕ} (hn : 16 ∣ n) (f : Bool) : (n ||| if f then 1 else 0) = n + if f then 1 else 0 := by
  obtain ⟨k, rfl⟩ := hn
  rw [show 16 * k = 2 ^ 1 * (8 * k) by omega]
  exact (Nat.two_pow_add_eq_or_of_lt (by split <;> decide) _).symm

lemma Shows.setBlk (H : Shows A S m w h V) (F : Frame A S) (b : Blk) (hb : b.addr ∈ A) (hlt : b.word < 2 ^ 64) :
    Shows A S m w (h.setBlk b.addr b.size b.free) (V.upd .size b.addr b.word) := by
  rw [Heap.setBlk, or_flag b.size_dvd, set_eq_put (F.pos _ hb)]
  exact H.put F (.inr hb) (by simp) hlt

lemma andNot_word (hlt : b.size + 1 < 2 ^ 64) : andNot b.word 1 = b.size := by
  have hword : b.word < 2 ^ 64 := by
    unfold Blk.word
    split <;> omega
  rw [show 1 = 2 ^ 1 - 1 from rfl, andNot_two_pow (by decide) hword]
  have := b.size_dvd
  unfold Blk.word
  split <;> omega

lemma word_flag (b : Blk) : (b.word &&& 1 != 0) = b.free := by
  have := b.size_dvd
  rw [Nat.and_one_is_mod, Blk.word]
  cases b.free
  · rw [if_neg Bool.false_ne_true, show (b.size + 0) % 2 = 0 by omega]
    rfl
  · rw [if_pos rfl, show (b.size + 1) % 2 = 1 by omega]
    rfl

lemma Laid.size_lt (H : Laid lo bs hi) (hb : b ∈ bs) : b.addr + 32 + b.size ≤ hi := (H.mem hb).2

lemma Rep.bsize (H : Rep S m w top h bs fs) (hb : b ∈ bs) : h.bsize b.addr = b.size := by
  obtain ⟨htop, hS, -, V, hV, hsh⟩ := H
  have hA : b.addr ∈ addrs bs := mem_map_of_mem hb
  have := hV.laid.size_lt hb
  rw [Heap.bsize, hsh.get (hV.laid.frame htop hS) hA, hV.size b hb, andNot_word (by omega)]

lemma Rep.bfree (H : Rep S m w top h bs fs) (hb : b ∈ bs) : h.bfree b.addr = b.free := by
  obtain ⟨htop, hS, -, V, hV, hsh⟩ := H
  have hA : b.addr ∈ addrs bs := mem_map_of_mem hb
  rw [Heap.bfree, hsh.get (hV.laid.frame htop hS) hA, hV.size b hb, word_flag]

lemma Rep.links (H : Rep S m w top h (l ++ b :: r) fs) :
    h.get b.addr .next = (r.map Blk.addr).headD 0 ∧ h.get b.addr .prev = (l.map Blk.addr).getLastD 0 := by
  obtain ⟨htop, hS, -, V, hV, hsh⟩ := H
  have hA : b.addr ∈ addrs (l ++ b :: r) := mem_map_of_mem (by simp)
  have hring := hV.ring
  rw [map_append, map_cons] at hring
  rw [hsh.get (hV.laid.frame htop hS) hA, hsh.get (hV.laid.frame htop hS) hA]
  exact ⟨hring.next_eq, hring.prev_eq⟩

lemma Laid.addr_ne (H : Laid lo (l ++ b :: r) hi) (hc : c ∈ l ++ r) : c.addr ≠ b.addr := by
  have hnd := H.nodup
  rw [map_append, map_cons, nodup_middle, nodup_cons, ← map_append] at hnd
  exact fun heq => hnd.1 (heq ▸ mem_map_of_mem hc)

lemma mem_middle : c ∈ l ++ b :: r ↔ c = b ∨ c ∈ l ++ r := by
  simp only [mem_append, mem_cons]
  tauto

lemma size_upd (hV : ∀ c ∈ l ++ r, V .size c.addr = c.word) (hne : ∀ c ∈ l ++ r, c.addr ≠ b.addr) :
    ∀ c ∈ l ++ b :: r, V.upd .size b.addr b.word .size c.addr = c.word := by
  intro c hc
  rw [View.upd_same]
  rcases mem_middle.1 hc with rfl | hc
  · exact update_self ..
  · rw [update_of_ne (hne c hc), hV c hc]

lemma Laid.word_lt (H : Laid lo bs top) (htop : top < 2 ^ 64) (hb : b ∈ bs) : b.word < 2 ^ 64 := by
  have := H.size_lt hb
  unfold Blk.word
  split <;> omega

lemma Rep.mark (H : Rep S m w top h (l ++ b :: r) fs) (f : Bool) :
    Rep S m w top (h.setBlk b.addr b.size f) (l ++ b.mark f :: r) fs := by
  obtain ⟨htop, hS, hL, V, hV, hsh⟩ := H
  have F := hV.laid.frame htop hS
  have hmap : (l ++ b.mark f :: r).map Blk.addr = (l ++ b :: r).map Blk.addr := by simp
  have haddrs : addrs (l ++ b.mark f :: r) = addrs (l ++ b :: r) := by rw [addrs, hmap, addrs]
  have hlaid : Laid 1 (l ++ b.mark f :: r) top :=
    laid_append.2 ((laid_append.1 hV.laid).imp fun _ hmid => hmid)
  have hA : b.addr ∈ addrs (l ++ b :: r) := mem_map_of_mem (by simp)
  have h1 := hsh.setBlk F (b.mark f) hA (hlaid.word_lt htop (by simp))
  refine ⟨htop, ?_, hL, _, ⟨hlaid, ?_, ?_, ?_, hV.fnodup, haddrs ▸ hV.fsub⟩, haddrs ▸ h1⟩
  · intro c hc
    rcases mem_middle.1 hc with rfl | hc
    · exact hS b (by simp)
    · exact hS c (mem_middle.2 (.inr hc))
  · exact size_upd (fun c hc => hV.size c (mem_middle.2 (.inr hc))) fun c hc => hV.laid.addr_ne hc
  · simpa [hmap] using hV.ring
  · simpa using hV.fring

/-! ## Joining and cutting blocks -/

/-- A block together with the one behind it. -/
def Blk.join (b c : Blk) (f : Bool) : Blk where
  addr := b.addr
  size := b.size + 32 + c.size
  free := f
  addr_dvd := b.addr_dvd
  size_dvd := by
    have := b.size_dvd
    have := c.size_dvd
    omega
  size_pos := by
    have := b.size_pos
    omega

@[simp] lemma Blk.join_addr (b c : Blk) (f : Bool) : (b.join c f).addr = b.addr := rfl

lemma Blk.join_stop (hbc : b.stop = c.addr) (f : Bool) : (b.join c f).stop = c.stop := by
  unfold Blk.stop Blk.join at *
  dsimp only
  omega

lemma Wf.next_ok (H : Wf V top bs fs) (F : Frame (addrs bs) S) (hx : x ∈ addrs bs) :
    (V .next x = 0 ∨ V .next x ∈ addrs bs) ∧ V .next x < 2 ^ 64 := by
  rcases mem_cons.1 (H.ring.mem (.tail 0 hx)).1 with h0 | hA
  · exact ⟨.inl h0, by omega⟩
  · exact ⟨.inr hA, F.bound _ hA⟩

/-- Joining a block with the next one. -/
lemma Rep.absorb (H : Rep S m w top h (l ++ b :: c :: r) fs) (hbc : b.stop = c.addr)
    (hfs : c.addr ∉ fs) (f : Bool) : Rep S m w top (h.absorb b.addr c.addr f) (l ++ b.join c f :: r) fs := by
  have hbs := H.bsize (b := b) (by simp)
  have hcs := H.bsize (b := c) (by simp)
  obtain ⟨htop, hS, hL, V, hV, hsh⟩ := H
  have F := hV.laid.frame htop hS
  have hbA : b.addr ∈ addrs (l ++ b :: c :: r) := mem_map_of_mem (by simp)
  have hcA : c.addr ∈ addrs (l ++ b :: c :: r) := mem_map_of_mem (by simp)
  have hcb : c.addr ≠ b.addr := hV.laid.addr_ne (by simp)
  have hlaid : Laid 1 (l ++ b.join c f :: r) top := by
    obtain ⟨mid, hl, hb, -, hr⟩ := laid_append.1 hV.laid
    exact laid_append.2 ⟨mid, hl, hb, Blk.join_stop hbc f ▸ hr⟩
  have hsum : u64 (b.size + 32 + c.size) = (b.join c f).size := by
    have := hlaid.size_lt (b := b.join c f) (by simp)
    exact u64_of_lt (show (b.join c f).size < 2 ^ 64 by omega)
  obtain ⟨hnA, hnlt⟩ := hV.next_ok F hcA
  have h1 := hsh.setBlk F (b.join c f) hbA (hlaid.word_lt htop (by simp))
  have h2 := h1.put F (f := .next) (.inr hbA) (by simp) hnlt
  have h3 := h2.put F (f := .prev) hnA (by simp) (F.bound _ hbA)
  have hcode : h.absorb b.addr c.addr f = ((h.setBlk b.addr (b.join c f).size f).put .next b.addr
      (V .next c.addr)).put .prev (V .next c.addr) b.addr := by
    have hg1 : (h.setBlk b.addr (b.join c f).size f).get c.addr .next = V .next c.addr :=
      (h1.get F hcA .next).trans (by rw [View.upd_other _ (by decide)])
    have hg2 : ((h.setBlk b.addr (b.join c f).size f).put .next b.addr (V .next c.addr)).get c.addr .next = V .next c.addr :=
      (h2.get F hcA .next).trans (by rw [View.upd_same, update_of_ne hcb, View.upd_other _ (by decide)])
    rw [Heap.absorb, hbs, hcs, hsum, hg1, set_eq_put (F.pos _ hbA), hg2, setPrev_eq_put]
  have hsub : ∀ d ∈ l ++ r, d ∈ l ++ b :: c :: r := by
    intro d hd
    exact mem_middle.2 (.inr (mem_middle.2 (.inr hd)))
  have haddrs : addrs (l ++ b.join c f :: r) ⊆ addrs (l ++ b :: c :: r) := by
    intro x hx
    obtain ⟨d, hd, rfl⟩ := mem_map.1 hx
    rcases mem_middle.1 hd with rfl | hd
    · exact hbA
    · exact mem_map_of_mem (hsub d hd)
  rw [hcode]
  refine ⟨htop, ?_, hL, _, ⟨hlaid, ?_, ?_, ?_, hV.fnodup, ?_⟩, h3.mono haddrs⟩
  · intro d hd
    rcases mem_middle.1 hd with rfl | hd
    · exact hS b (by simp)
    · exact hS d (hsub d hd)
  · simpa using size_upd (fun d hd => hV.size d (hsub d hd)) fun d hd => hlaid.addr_ne hd
  · have hring := hV.ring
    have hnd := hV.addr_nodup F
    rw [map_append, map_cons, map_cons, append_cons] at hring hnd
    have hpc : V .prev c.addr = b.addr := by
      rw [hring.prev_eq]
      simp
    have hrem := hring.remove hnd
    rw [hpc] at hrem
    simpa using hrem
  · simpa using hV.fring
  · intro y hy
    obtain ⟨d, hd, rfl⟩ := mem_map.1 (hV.fsub y hy)
    refine mem_map.2 ?_
    rcases mem_middle.1 hd with rfl | hd
    · exact ⟨d.join c f, by simp, rfl⟩
    · rcases mem_middle.1 hd with rfl | hd
      · exact absurd hy hfs
      · exact ⟨d, mem_middle.2 (.inr hd), rfl⟩

lemma Wf.congr {V' : View} (hV : Wf V top bs fs) (hhdr : ∀ f y, y ∈ 0 :: bs.map Blk.addr → f ≠ .fprev → f ≠ .fnext →
    V' f y = V f y) (hlnk : ∀ f y, y ∈ 0 :: fs → V' f y = V f y) : Wf V' top bs fs where
  laid := hV.laid
  size b hb := by
    rw [hhdr .size b.addr (.tail _ (mem_map_of_mem hb)) (by decide) (by decide), hV.size b hb]
  ring := hV.ring.congr (fun y hy => hhdr .next y hy (by decide) (by decide))
    fun y hy => hhdr .prev y hy (by decide) (by decide)
  fring := hV.fring.congr (fun y hy => hlnk .fnext y hy) fun y hy => hlnk .fprev y hy
  fnodup := hV.fnodup
  fsub := hV.fsub

lemma Wf.extend (hV : Wf V top bs fs) (hsh : Shows (addrs bs) S m w h V) (hx : x ∉ 0 :: bs.map Blk.addr) :
    ∃ V0, Wf V0 top bs fs ∧ Shows (insert x (addrs bs)) S m w h V0 := by
  have hold : ∀ f y, y ∈ 0 :: bs.map Blk.addr → (if y = x then h.fld f y else V f y) = V f y :=
    fun f y hy => if_neg (ne_of_mem_of_not_mem hy hx)
  refine ⟨_, hV.congr (fun f y hy _ _ => hold f y hy) (fun f y hy => hold f y ?_), hsh.extend x⟩
  rcases mem_cons.1 hy with rfl | hy
  · exact .head _
  · exact .tail _ (hV.fsub y hy)

lemma Shows.insertAfter {y : ℕ} (H : Shows A S m w h V) (F : Frame A S) (hx : x ∈ A) (hy : y ∈ A) (hxy : x ≠ y)
    (hn : V .next x = 0 ∨ V .next x ∈ A) (hlt : V .next x < 2 ^ 64) : Shows A S m w (h.insertAfter x y)
    ((((V.upd .prev y x).upd .next y (V .next x)).upd .prev (V .next x) y).upd .next x y) := by
  have h1 := H.put F (f := .prev) (.inr hy) (by simp) (F.bound x hx)
  have h2 := h1.put F (f := .next) (.inr hy) (by simp) hlt
  have h3 := h2.put F (f := .prev) hn (by simp) (F.bound y hy)
  have h4 := h3.put F (f := .next) (.inr hx) (by simp) (F.bound y hy)
  have hg1 : (h.put .prev y x).get x .next = V .next x :=
    (h1.get F hx .next).trans (by rw [View.upd_other _ (by decide)])
  have hg2 : ((h.put .prev y x).put .next y (V .next x)).get x .next = V .next x :=
    (h2.get F hx .next).trans (by rw [View.upd_same, update_of_ne hxy, View.upd_other _ (by decide)])
  rw [Heap.insertAfter, set_eq_put (f := .prev) (F.pos y hy), hg1, set_eq_put (F.pos y hy), hg2, setPrev_eq_put, set_eq_put (F.pos x hx)]
  exact h4

/-- Cutting a block in two. -/
lemma Rep.carve {b1 b2 : Blk} (H : Rep S m w top h (l ++ b :: r) fs) (h1 : b1.addr = b.addr)
    (h12 : b1.stop = b2.addr) (h2 : b2.stop = b.stop) (hS2 : Avoids S b2.addr 32) :
    ((h.setBlk b2.addr b2.size b2.free).insertAfter b1.addr b2.addr).bfree b1.addr = b.free ∧
    Rep S m w top (((h.setBlk b2.addr b2.size b2.free).insertAfter b1.addr b2.addr).setBlk b1.addr
      b1.size b1.free) (l ++ b1 :: b2 :: r) fs := by
  obtain ⟨htop, hS, hL, V', hV', hsh'⟩ := H
  have hlaid : Laid 1 (l ++ b1 :: b2 :: r) top := by
    obtain ⟨mid, hl, hb, hr⟩ := laid_append.1 hV'.laid
    exact laid_append.2 ⟨mid, hl, h1 ▸ hb, h12.le, h2 ▸ hr⟩
  have hS' : ∀ d ∈ l ++ b1 :: b2 :: r, Avoids S d.addr 32 := by
    intro d hd
    rcases mem_middle.1 hd with rfl | hd
    · exact h1 ▸ hS b (by simp)
    · rcases mem_middle.1 hd with rfl | hd
      · exact hS2
      · exact hS d (mem_middle.2 (.inr hd))
  have F := hlaid.frame htop hS'
  have hA1 : b1.addr ∈ addrs (l ++ b1 :: b2 :: r) := mem_map_of_mem (by simp)
  have hA2 : b2.addr ∈ addrs (l ++ b1 :: b2 :: r) := mem_map_of_mem (by simp)
  have hlaid' : Laid 1 ((l ++ [b1]) ++ b2 :: r) top := append_cons l b1 (b2 :: r) ▸ hlaid
  have hne : b1.addr ≠ b2.addr := hlaid'.addr_ne (by simp)
  have hmap : (l ++ b :: r).map Blk.addr = (l.map Blk.addr ++ [b1.addr]) ++ r.map Blk.addr := by
    simp [h1]
  have haddrs : addrs (l ++ b1 :: b2 :: r) = insert b2.addr (addrs (l ++ b :: r)) := by
    ext x
    simp only [addrs, map_append, map_cons, h1, Set.mem_ofPred_eq, Set.mem_insert_iff, mem_append, mem_cons]
    tauto
  have hnew : b2.addr ∉ 0 :: (l ++ b :: r).map Blk.addr := by
    have hnd := hlaid'.nodup
    rw [map_append, map_cons, nodup_middle, nodup_cons, ← map_append] at hnd
    rw [mem_cons, not_or]
    exact ⟨F.pos _ hA2, by simpa [h1] using hnd.1⟩
  have F0 := hV'.laid.frame htop hS
  obtain ⟨V, hV, hsh⟩ := hV'.extend hsh' hnew
  rw [← haddrs] at hsh
  have hbA : b1.addr ∈ addrs (l ++ b :: r) := h1 ▸ mem_map_of_mem (by simp)
  obtain ⟨hnA, hnlt⟩ := hV.next_ok F0 hbA
  have hnA' : V .next b1.addr = 0 ∨ V .next b1.addr ∈ addrs (l ++ b1 :: b2 :: r) :=
    hnA.imp_right fun hmem => haddrs ▸ Set.mem_insert_of_mem _ hmem
  have s1 := hsh.setBlk F b2 hA2 (hlaid.word_lt htop (by simp))
  have s2 := s1.insertAfter F hA1 hA2 hne (by simpa using hnA') (by simpa using hnlt)
  have s3 := s2.setBlk F b1 hA1 (hlaid.word_lt htop (by simp))
  have hold : V.upd .size b2.addr b2.word .size b1.addr = b.word := by
    rw [View.upd_same, update_of_ne hne, h1, hV.size b (by simp)]
  refine ⟨?_, htop, hS', hL, _, ⟨hlaid, ?_, ?_, ?_, hV.fnodup, ?_⟩, s3⟩
  · rw [Heap.bfree, s2.get F hA1]
    simp only [View.upd_other, ne_eq, reduceCtorEq, not_false_eq_true, hold, word_flag]
  · have hsize := size_upd (fun d hd => hV.size d (mem_middle.2 (.inr hd)))
      fun d hd => hlaid'.addr_ne (by simp only [mem_append] at hd ⊢; tauto)
    simpa using size_upd hsize fun d hd => hlaid.addr_ne hd
  · have hring := hV.ring
    have hnd := hV.addr_nodup F0
    rw [hmap] at hring hnd hnew
    have hlast : (0 :: (l.map Blk.addr ++ [b1.addr])).getLast? = some b1.addr := by
      rw [← cons_append, getLast?_concat]
    simpa using hring.insert hlast hnd hnew
  · simpa using hV.fring
  · exact fun y hy => haddrs ▸ Set.mem_insert_of_mem _ (hV.fsub y hy)

/-- Putting a block at the end of the list. -/
lemma Rep.append (H : Rep S m w top h bs fs) {top' : ℕ} (hb : top ≤ b.addr) (hb0 : 0 < b.addr)
    (htop' : b.stop ≤ top') (hlt : top' < 2 ^ 64) (hSb : Avoids S b.addr 32) :
    Rep S m w top' { ((((h.setBlk b.addr b.size b.free).set b.addr .prev h.tail).set b.addr .next
      0).setNext h.tail b.addr) with tail := b.addr } (bs ++ [b]) fs := by
  obtain ⟨htop, hS, hL, V', hV', hsh'⟩ := H
  have hlaid : Laid 1 (bs ++ [b]) top' := laid_append.2 ⟨top, hV'.laid, hb, htop'⟩
  have hS' : ∀ d ∈ bs ++ [b], Avoids S d.addr 32 := by
    intro d hd
    rcases mem_append.1 hd with hd | hd
    · exact hS d hd
    · exact List.mem_singleton.1 hd ▸ hSb
  have F := hlaid.frame hlt hS'
  have F0 := hV'.laid.frame htop hS
  have hA : b.addr ∈ addrs (bs ++ [b]) := mem_map_of_mem (by simp)
  have haddrs : addrs (bs ++ [b]) = insert b.addr (addrs bs) := by
    ext x
    simp [addrs, or_comm]
  have hnew : b.addr ∉ 0 :: bs.map Blk.addr := by
    rw [mem_cons, not_or]
    refine ⟨by omega, fun hmem => ?_⟩
    obtain ⟨c, hc, hcb⟩ := mem_map.1 hmem
    have := (hV'.laid.mem hc).2
    unfold Blk.stop at this
    omega
  obtain ⟨V, hV, hsh⟩ := hV'.extend hsh' hnew
  rw [← haddrs] at hsh
  have htail : h.tail = V .prev 0 := hsh.fld .prev 0 (.inr ⟨rfl, by decide, by decide⟩)
  obtain ⟨hlast, hnext⟩ := hV.ring.prev_base
  obtain ⟨hpA, hplt⟩ : (V .prev 0 = 0 ∨ V .prev 0 ∈ addrs (bs ++ [b])) ∧ V .prev 0 < 2 ^ 64 := by
    rcases mem_cons.1 (mem_of_getLast? hlast) with h0 | hp
    · exact ⟨.inl h0, by omega⟩
    · exact ⟨.inr (haddrs ▸ Set.mem_insert_of_mem _ hp), F0.bound _ hp⟩
  have s1 := hsh.setBlk F b hA (hlaid.word_lt hlt (by simp))
  have s2 := s1.put F (f := .prev) (.inr hA) (by simp) hplt
  have s3 := s2.put F (f := .next) (v := 0) (.inr hA) (by simp) (by decide)
  have s4 := s3.put F (f := .next) hpA (by simp) (F.bound _ hA)
  have s5 := s4.put F (f := .prev) (x := 0) (.inl rfl) (by simp) (F.bound _ hA)
  rw [htail, set_eq_put (F.pos _ hA), set_eq_put (F.pos _ hA), setNext_eq_put]
  refine ⟨hlt, hS', hL, _, ⟨hlaid, ?_, ?_, ?_, hV.fnodup, ?_⟩, s5⟩
  · have hsize := size_upd (by simpa using hV.size) fun d hd => hlaid.addr_ne hd
    simpa using hsize
  · have hins := IsRing.insert (r := []) (by simpa using hV.ring) hlast (by simpa using hV.addr_nodup F0) (by simpa using hnew)
    rw [hnext] at hins
    simpa using hins
  · simpa using hV.fring
  · exact fun y hy => haddrs ▸ Set.mem_insert_of_mem _ (hV.fsub y hy)

end
end EmbCC.Libc
