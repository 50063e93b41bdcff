import EmbCC.Lib.Ring
import EmbCC.Libc.Malloc.Code

/-!
# The blocks of a heap

The heap as a list of blocks in address order. `Laid` says that they do not
overlap; two rings through null are the address list and the free list. The
fields of all blocks together are a `View`. As long as blocks stand at least 48
bytes apart, a header and the two links, writing a field of one changes that
entry of the view and nothing else (`Shows.put`).
-/

namespace EmbCC.Libc

open Function Nat Words Ring

lemma u64_of_lt {x : ℕ} (h : x < 2 ^ 64) : u64 x = x := mod_eq_of_lt h

lemma sub64_of_le {a b : ℕ} (hb : b ≤ a) (ha : a < 2 ^ 64) : sub64 a b = a - b := by
  unfold sub64
  omega

lemma andNot_two_pow {k x : ℕ} (hk : k ≤ 64) (hx : x < 2 ^ 64) : andNot x (2 ^ k - 1) = x / 2 ^ k * 2 ^ k := by
  have hpow : 2 ^ k - 1 < 2 ^ 64 := by
    have := Nat.pow_le_pow_right (show 0 < 2 by decide) hk
    omega
  rw [andNot, ← shiftRight_eq_div_pow, ← shiftLeft_eq]
  apply eq_of_testBit_eq
  intro i
  rw [testBit_and, testBit_two_pow_sub_succ hpow, testBit_two_pow_sub_one, testBit_shiftLeft, testBit_shiftRight]
  by_cases hi : i < k
  · simp [hi]
  · rw [Nat.add_sub_cancel' (Nat.not_lt.1 hi)]
    by_cases h64 : i < 64
    · simp [h64, Nat.not_lt.1 hi]
    · have : x.testBit i = false :=
        testBit_lt_two_pow (hx.trans_le (Nat.pow_le_pow_right (by decide) (Nat.not_lt.1 h64)))
      simp [this]

lemma alignUp_eq {n : ℕ} (h : n + 15 < 2 ^ 64) : alignUp n = (n + 15) / 16 * 16 := by
  rw [alignUp, u64_of_lt h]
  exact andNot_two_pow (k := 4) (by decide) h

/-- A block: where its header stands, the bytes of its payload, and whether it is free. Payloads
are whole units of 16 bytes, so that the low bit of the size is there for the flag, and have room
for the two links. -/
@[ext] structure Blk where
  addr : ℕ
  size : ℕ
  free : Bool
  addr_dvd : 16 ∣ addr
  size_dvd : 16 ∣ size
  size_pos : 16 ≤ size

namespace Blk

/-- The end of the payload. -/
def stop (b : Blk) : ℕ := b.addr + 32 + b.size

/-- The `size` word of the header. -/
def word (b : Blk) : ℕ := b.size + if b.free then 1 else 0

/-- The same block, marked free or not. -/
def mark (b : Blk) (f : Bool) : Blk := { b with free := f }

@[simp] lemma mark_addr (b : Blk) (f : Bool) : (b.mark f).addr = b.addr := rfl
@[simp] lemma mark_size (b : Blk) (f : Bool) : (b.mark f).size = b.size := rfl
@[simp] lemma mark_free (b : Blk) (f : Bool) : (b.mark f).free = f := rfl
@[simp] lemma mark_stop (b : Blk) (f : Bool) : (b.mark f).stop = b.stop := rfl

end Blk

/-- The blocks lie between two addresses in the order of the list, and do not overlap. -/
def Laid : ℕ → List Blk → ℕ → Prop
  | lo, [], hi => lo ≤ hi
  | lo, b :: bs, hi => lo ≤ b.addr ∧ Laid b.stop bs hi

section
variable {lo hi lo' hi' : ℕ} {bs l r : List Blk} {b c : Blk}

lemma Laid.le (h : Laid lo bs hi) : lo ≤ hi := by
  induction bs generalizing lo with
  | nil => exact h
  | cons b bs ih =>
    have := ih h.2
    have := h.1
    unfold Blk.stop at *
    omega

lemma Laid.mono (h : Laid lo bs hi) (hlo : lo' ≤ lo) (hhi : hi ≤ hi') : Laid lo' bs hi' := by
  induction bs generalizing lo lo' with
  | nil => exact hlo.trans (Nat.le_trans h hhi)
  | cons b bs ih => exact ⟨hlo.trans h.1, ih h.2 le_rfl⟩

lemma laid_append : Laid lo (l ++ r) hi ↔ ∃ mid, Laid lo l mid ∧ Laid mid r hi := by
  induction l generalizing lo with
  | nil => exact ⟨fun h => ⟨lo, le_rfl, h⟩, fun ⟨mid, hl, hr⟩ => hr.mono hl le_rfl⟩
  | cons b l ih =>
    constructor
    · rintro ⟨hb, h⟩
      obtain ⟨mid, hl, hr⟩ := ih.1 h
      exact ⟨mid, ⟨hb, hl⟩, hr⟩
    · rintro ⟨mid, ⟨hb, hl⟩, hr⟩
      exact ⟨hb, ih.2 ⟨mid, hl, hr⟩⟩

section
variable (h : Laid lo bs hi)
include h

lemma Laid.mem (hb : b ∈ bs) : lo ≤ b.addr ∧ b.stop ≤ hi := by
  induction bs generalizing lo with
  | nil => cases hb
  | cons c bs ih =>
    cases hb with
    | head => exact ⟨h.1, h.2.le⟩
    | tail _ hb =>
      obtain ⟨hlo, hhi⟩ := ih h.2 hb
      have := h.1
      unfold Blk.stop at *
      exact ⟨by omega, hhi⟩

lemma Laid.pairwise : bs.Pairwise fun b c => b.stop ≤ c.addr := by
  induction bs generalizing lo with
  | nil => exact .nil
  | cons b bs ih => exact .cons (fun c hc => (h.2.mem hc).1) (ih h.2)

lemma Laid.apart (hb : b ∈ bs) (hc : c ∈ bs) (hne : b ≠ c) : b.stop ≤ c.addr ∨ c.stop ≤ b.addr := by
  induction bs generalizing lo with
  | nil => cases hb
  | cons d bs ih =>
    cases hb with
    | head =>
      cases hc with
      | head => exact absurd rfl hne
      | tail _ hc => exact .inl (h.2.mem hc).1
    | tail _ hb =>
      cases hc with
      | head => exact .inr (h.2.mem hb).1
      | tail _ hc => exact ih h.2 hb hc

lemma Laid.addr_inj (hb : b ∈ bs) (hc : c ∈ bs) (hbc : b.addr = c.addr) : b = c := by
  by_contra hne
  have := h.apart hb hc hne
  unfold Blk.stop at this
  omega

lemma Laid.nodup : (bs.map Blk.addr).Nodup := by
  rw [List.Nodup, List.pairwise_map]
  refine h.pairwise.imp fun {b c} hbc heq => ?_
  unfold Blk.stop at hbc
  omega

end
end

/-- A value for every field of every block; null stands for the globals. -/
abbrev View := Field → ℕ → ℕ

/-- One entry of a view changed. -/
def View.upd (V : View) (f : Field) (x v : ℕ) : View :=
  Function.update V f (Function.update (V f) x v)

lemma View.upd_apply (V : View) (f g : Field) (x y v : ℕ) : V.upd f x v g y = if g = f ∧ y = x then v else V g y := by
  unfold View.upd
  by_cases hg : g = f
  · subst hg
    rw [update_self, update_apply]
    simp
  · rw [update_of_ne hg, if_neg fun h => hg h.1]

@[simp] lemma View.upd_same (V : View) (f : Field) (x v : ℕ) : V.upd f x v f = Function.update (V f) x v := update_self ..

@[simp] lemma View.upd_other (V : View) {f g : Field} (h : g ≠ f) (x v : ℕ) :
    V.upd f x v g = V g := update_of_ne h ..

namespace Heap
variable {W : Type}

/-- A field of a block; `g_head`, `g_tail` and `g_free` as the links of null. -/
def fld (h : Heap W) (f : Field) (x : ℕ) : ℕ :=
  if x = 0 then
    match f with
    | .next => h.head
    | .prev => h.tail
    | .fnext => h.free
    | _ => 0
  else h.get x f

/-- Writing a field of a block, or a global. -/
def put (h : Heap W) (f : Field) (x v : ℕ) : Heap W :=
  if x = 0 then
    match f with
    | .next => { h with head := v }
    | .prev => { h with tail := v }
    | .fnext => { h with free := v }
    | _ => h
  else h.set x f v

variable {h : Heap W} {x y v : ℕ} {f g : Field}

lemma get_eq_fld (hx : x ≠ 0) : h.get x f = h.fld f x := (if_neg hx).symm

lemma set_eq_put (hx : x ≠ 0) : h.set x f v = h.put f x v := (if_neg hx).symm

lemma setPrev_eq_put : h.setPrev x v = h.put .prev x v := by
  unfold setPrev put
  split <;> simp_all

lemma setNext_eq_put : h.setNext x v = h.put .next x v := by
  unfold setNext put
  split <;> simp_all

lemma setFnext_eq_put : h.setFnext x v = h.put .fnext x v := by
  unfold setFnext put
  split <;> simp_all

lemma setFprev_eq_put : h.setFprev x v = h.put .fprev x v := by
  unfold setFprev put
  split <;> simp_all

lemma get_set_same (hv : v < 2 ^ 64) : (h.set x f v).get x f = v := by
  rw [get, set, readLE_writeLE]
  exact mod_eq_of_lt hv

lemma get_set_other (hfg : f ≠ g) : (h.set x f v).get x g = h.get x g := by
  apply readLE_writeLE_of_apart
  cases f <;> cases g <;> simp [Field.off] at hfg ⊢

lemma Field.off_le (f : Field) : f.off + 8 ≤ 48 := by cases f <;> simp [Field.off]

lemma get_set_apart (hxy : x + 48 ≤ y ∨ y + 48 ≤ x) : (h.set x f v).get y g = h.get y g := by
  have := Field.off_le f
  have := Field.off_le g
  exact readLE_writeLE_of_apart (by omega)

end Heap

/-- The bytes `x`, ..., `x + k - 1` are not in the set. -/
def Avoids (S : Set ℕ) (x k : ℕ) : Prop := ∀ z ∈ S, z < x ∨ x + k ≤ z

/-- Blocks that may be written: they stand apart, and their headers are not among the bytes `S`
that are to be kept. -/
structure Frame (A S : Set ℕ) : Prop where
  pos : ∀ x ∈ A, x ≠ 0
  bound : ∀ x ∈ A, x < 2 ^ 64
  apart : ∀ x ∈ A, ∀ y ∈ A, x ≠ y → x + 48 ≤ y ∨ y + 48 ≤ x
  avoids : ∀ x ∈ A, Avoids S x 32

/-- The entries of a view that the heap holds: those of the blocks, and the globals. -/
def Held (A : Set ℕ) (f : Field) (x : ℕ) : Prop := x ∈ A ∨ x = 0 ∧ f ≠ .size ∧ f ≠ .fprev

/-- The heap has the fields of the view, the bytes `S` as they were, and this operating system. -/
structure Shows {W : Type} (A S : Set ℕ) (m : Mem) (w : W) (h : Heap W) (V : View) : Prop where
  fld : ∀ f x, Held A f x → h.fld f x = V f x
  keep : ∀ z ∈ S, h.mem z = m z
  os : h.os = w

section
variable {W : Type} {A S : Set ℕ} {m : Mem} {w : W} {h : Heap W} {V : View} {f : Field} {x v : ℕ}

/-- Writing one field of a header changes that field and no other. -/
lemma Shows.put (H : Shows A S m w h V) (F : Frame A S) (hx : x = 0 ∨ x ∈ A)
    (hlink : f = .fprev ∨ f = .fnext → x = 0 ∨ Avoids S (x + 32) 16) (hv : v < 2 ^ 64) :
    Shows A S m w (h.put f x v) (V.upd f x v) := by
  by_cases hx0 : x = 0
  · subst hx0
    refine ⟨fun g y hy => ?_, fun z hz => ?_, ?_⟩
    · rw [View.upd_apply, ← H.fld g y hy]
      unfold Heap.fld Heap.put
      rcases eq_or_ne y 0 with rfl | hy0
      · have hg := (hy.resolve_left fun h0 => F.pos 0 h0 rfl).2
        cases f <;> cases g <;> simp_all
      · cases f <;> simp [hy0, Heap.get]
    · rw [← H.keep z hz]
      cases f <;> rfl
    · rw [← H.os]
      cases f <;> rfl
  · have hxA := hx.resolve_left hx0
    rw [← Heap.set_eq_put hx0]
    refine ⟨fun g y hy => ?_, fun z hz => ?_, H.os⟩
    · rw [View.upd_apply, ← H.fld g y hy]
      unfold Heap.fld
      rcases eq_or_ne y 0 with rfl | hy0
      · rw [if_pos rfl, if_pos rfl, if_neg fun h => hx0 h.2.symm]
        rfl
      · have hyA := hy.resolve_right fun h0 => hy0 h0.1
        rw [if_neg hy0, if_neg hy0]
        by_cases hyx : y = x
        · subst hyx
          by_cases hgf : g = f
          · rw [if_pos ⟨hgf, rfl⟩, hgf, Heap.get_set_same hv]
          · rw [if_neg fun h => hgf h.1, Heap.get_set_other (Ne.symm hgf)]
        · rw [if_neg fun h => hyx h.2]
          exact Heap.get_set_apart (F.apart x hxA y hyA (Ne.symm hyx))
    · rw [← H.keep z hz]
      refine writeLE_of_not_mem ?_
      have hhdr := F.avoids x hxA z hz
      have hlnk : f = .fprev ∨ f = .fnext → z < x + 32 ∨ x + 32 + 16 ≤ z :=
        fun hf => (hlink hf).resolve_left hx0 z hz
      cases f <;> simp only [Field.off, reduceCtorEq, or_false, or_true, forall_const] at hlnk ⊢ <;> omega

lemma Shows.mono {B : Set ℕ} (H : Shows A S m w h V) (hBA : B ⊆ A) : Shows B S m w h V :=
  ⟨fun f x hx => H.fld f x (hx.imp_left fun h => hBA h), H.keep, H.os⟩

lemma Shows.extend (H : Shows A S m w h V) (x : ℕ) :
    Shows (insert x A) S m w h fun f y => if y = x then h.fld f y else V f y := by
  refine ⟨fun f y hy => ?_, H.keep, H.os⟩
  split
  · rfl
  · rename_i hyx
    exact H.fld f y (hy.imp_left fun h => h.resolve_left hyx)

end

/-- Where the blocks stand. -/
def addrs (bs : List Blk) : Set ℕ := {x | x ∈ bs.map Blk.addr}

/-- A view in which the blocks `bs` lie below `top`, linked in address order, and the blocks `fs`
are linked in the free list. -/
structure Wf (V : View) (top : ℕ) (bs : List Blk) (fs : List ℕ) : Prop where
  laid : Laid 1 bs top
  size : ∀ b ∈ bs, V .size b.addr = b.word
  ring : IsRing (V .next) (V .prev) 0 (bs.map Blk.addr)
  fring : IsRing (V .fnext) (V .fprev) 0 fs
  fnodup : fs.Nodup
  fsub : ∀ y ∈ fs, y ∈ addrs bs

/-- A heap with these blocks and this free list, in which the bytes `S` are as in `m` and no code
of the allocator has to write them. -/
def Rep {W : Type} (S : Set ℕ) (m : Mem) (w : W) (top : ℕ) (h : Heap W) (bs : List Blk)
    (fs : List ℕ) : Prop :=
  top < 2 ^ 64 ∧ (∀ b ∈ bs, Avoids S b.addr 32) ∧ (∀ y ∈ fs, Avoids S (y + 32) 16) ∧
    ∃ V, Wf V top bs fs ∧ Shows (addrs bs) S m w h V

section
variable {S : Set ℕ} {top : ℕ} {bs : List Blk}

lemma Laid.frame (H : Laid 1 bs top) (htop : top < 2 ^ 64) (hS : ∀ b ∈ bs, Avoids S b.addr 32) : Frame (addrs bs) S where
  pos := by
    rintro x hx rfl
    obtain ⟨b, hb, hb0⟩ := List.mem_map.1 hx
    have := (H.mem hb).1
    omega
  bound := by
    intro x hx
    obtain ⟨b, hb, rfl⟩ := List.mem_map.1 hx
    have := (H.mem hb).2
    unfold Blk.stop at this
    omega
  apart := by
    intro x hx y hy hne
    obtain ⟨b, hb, rfl⟩ := List.mem_map.1 hx
    obtain ⟨c, hc, rfl⟩ := List.mem_map.1 hy
    have := H.apart hb hc fun h => hne (h ▸ rfl)
    have := b.size_pos
    have := c.size_pos
    unfold Blk.stop at *
    omega
  avoids := by
    intro x hx
    obtain ⟨b, hb, rfl⟩ := List.mem_map.1 hx
    exact hS b hb

end
end EmbCC.Libc
