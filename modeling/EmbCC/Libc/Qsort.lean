import EmbCC.Libc.Malloc.Code
import EmbCC.Lib.BinHeap

/-!
# qsort_r

`qsort.c` for a 64-bit target: heapsort on an array in a byte memory. The array is an object, of at
most `PTRDIFF_MAX` bytes, so no address in it wraps; the positions of the children are computed in
`size_t`, and wrap. A `sift` that has not returned after as many rounds as there are elements is
`none`. `qsortR_sorts` says that there is none, and that what comes out is sorted.
-/

namespace EmbCC.Libc.Qsort

open Words BinHeap Function

abbrev Elem := List (BitVec 8)

/-- The exchange of `size` bytes. -/
def swap (m : Mem) (a b : ℕ) : ℕ → Mem
  | 0 => m
  | size + 1 => swap (update (update m a (m b)) b (m a)) (a + 1) (b + 1) size

/-- The arguments that `qsort_r` hands on. The comparison reads the bytes of two elements. -/
structure Args (A : Type) where
  base : ℕ
  size : ℕ
  cmp : Elem → Elem → A → ℤ
  arg : A

namespace Args

section
variable {A : Type} (q : Args A) (n : ℕ)

def addr (i : ℕ) : ℕ := q.base + i * q.size

/-- The bytes of element `i`. -/
def elem (m : Mem) (i : ℕ) : Elem := (List.range q.size).map fun k => m (q.addr i + k)

/-- One of the two tests for a larger child. -/
def larger (m : Mem) (big c : ℕ) : ℕ :=
  if c < n ∧ 0 < q.cmp (q.elem m c) (q.elem m big) q.arg then c else big

def sift : ℕ → ℕ → Mem → Option Mem
  | 0, _, _ => none
  | fuel + 1, root, m =>
    let l := u64 (2 * root + 1)
    let r := u64 (l + 1)
    let big := q.larger n m (q.larger n m root l) r
    if big = root then some m else sift fuel big (swap m (q.addr root) (q.addr big) q.size)

/-- The first loop of `qsort_r`. -/
def heapify : ℕ → Mem → Option Mem
  | 0, m => some m
  | i + 1, m => (q.sift n n i m).bind (heapify i)

/-- The second loop of `qsort_r`. -/
def drain : ℕ → Mem → Option Mem
  | i + 2, m =>
    (q.sift (i + 1) (i + 1) 0 (swap m q.base (q.addr (i + 1)) q.size)).bind (drain (i + 1))
  | _, m => some m

def qsortR (m : Mem) : Option Mem :=
  if n < 2 ∨ q.size = 0 then some m else (q.heapify n (n / 2) m).bind (q.drain n)

/-- The array as a list of its elements. -/
def elems (m : Mem) : List Elem := (List.range n).map (q.elem m)

/-- The order of the comparison. -/
def Le (a b : Elem) : Prop := q.cmp a b q.arg ≤ 0

/-- The comparison is a total preorder. -/
structure Preorders : Prop where
  total : ∀ a b, q.Le a b ∨ q.Le b a
  trans : ∀ a b c, q.Le a b → q.Le b c → q.Le a c

end

variable {A : Type} {q : Args A} {n k i j r b c fuel : ℕ} {m : Mem}

lemma swap_apply (m : Mem) {a b size : ℕ} (h : a + size ≤ b ∨ b + size ≤ a) (z : ℕ) : swap m a b size z = if a ≤ z
    ∧ z < a + size then m (b + (z - a)) else if b ≤ z ∧ z < b + size then m (a + (z - b)) else m z := by
  induction size generalizing m a b with
  | zero => rw [swap, if_neg (by omega), if_neg (by omega)]
  | succ size ih =>
    rw [swap, ih _ (by omega)]
    grind

lemma addr_apart (hij : i ≠ j) : q.addr i + q.size ≤ q.addr j ∨ q.addr j + q.size ≤ q.addr i := by
  simp only [addr, Nat.add_assoc, ← Nat.succ_mul, Nat.add_le_add_iff_left]
  exact (lt_or_gt_of_ne hij).imp (fun h => Nat.mul_le_mul_right _ h) fun h => Nat.mul_le_mul_right _ h

lemma elem_swap (hij : i ≠ j) : q.elem (swap m (q.addr i) (q.addr j) q.size) = q.elem m ∘ Equiv.swap i j := by
  funext x
  refine List.map_congr_left fun k hk => ?_
  have hk := List.mem_range.1 hk
  rw [swap_apply m (addr_apart hij)]
  by_cases hxi : x = i
  · rw [hxi, Equiv.swap_apply_left, if_pos (by omega), Nat.add_sub_cancel_left]
  · have := addr_apart (q := q) hxi
    rw [if_neg (by omega)]
    by_cases hxj : x = j
    · rw [hxj, Equiv.swap_apply_right, if_pos (by omega), Nat.add_sub_cancel_left]
    · have := addr_apart (q := q) hxj
      rw [Equiv.swap_apply_of_ne_of_ne hxi hxj, if_neg (by omega)]

section
variable (P : q.Preorders)
include P

lemma le_refl (a : Elem) : q.Le a a := (P.total a a).elim id id

lemma larger_spec : ∃ x, q.larger n m b c = x ∧ (x = b ∨ x = c ∧ c < n) ∧
    q.Le (q.elem m b) (q.elem m x) ∧ (c < n → q.Le (q.elem m c) (q.elem m x)) := by
  rw [larger]
  split
  · rename_i h
    exact ⟨c, rfl, .inr ⟨rfl, h.1⟩, (P.total _ _).resolve_right (not_le.2 h.2), fun _ => le_refl P _⟩
  · rename_i h
    exact ⟨b, rfl, .inl rfl, le_refl P _, fun hc => not_lt.1 fun hlt => h ⟨hc, hlt⟩⟩

/-- A `sift` fills the hole it starts from. -/
lemma sift_spec (hn : n < 2 ^ 63) (hkr : k ≤ r) (hr : r < n) (hfuel : n ≤ fuel + r) (H : Hole q.Le (q.elem m) k r n) : ∃ m',
    q.sift n fuel r m = some m' ∧ HeapFrom q.Le (q.elem m') k n ∧ Moved n (q.elem m) (q.elem m') := by
  induction fuel generalizing r m with
  | zero => omega
  | succ fuel ih =>
    have hl : u64 (2 * r + 1) = 2 * r + 1 := Nat.mod_eq_of_lt (by omega)
    have hr' : u64 (2 * r + 1 + 1) = 2 * r + 2 := Nat.mod_eq_of_lt (by omega)
    obtain ⟨x, hx, hxc, hbx, hlx⟩ := @larger_spec _ q n r (2 * r + 1) m P
    obtain ⟨y, hy, hyc, hxy, hry⟩ := @larger_spec _ q n x (2 * r + 2) m P
    have hbig : ∀ j, Child r j → j < n → q.Le (q.elem m j) (q.elem m y) := by
      rintro j (rfl | rfl) hj
      · exact P.trans _ _ _ (hlx hj) hxy
      · exact hry hj
    rw [sift, hl, hr', hx, hy]
    split
    · rename_i hyr
      subst hyr
      exact ⟨m, rfl, H.heapFrom hbig, .refl _ _⟩
    · rename_i hyr
      obtain ⟨hchild, hyn⟩ : Child r y ∧ y < n := by
        unfold Child
        omega
      have H' := H.step hkr hchild hyn (P.trans _ _ _ hbx hxy) hbig
      have hswap := elem_swap (q := q) (m := m) (Ne.symm hyr)
      rw [← hswap] at H'
      obtain ⟨m', hm, hheap, hmoved⟩ := ih (by omega) hyn (by omega) H'
      exact ⟨m', hm, hheap, (hswap ▸ moved_swap hr hyn : Moved n (q.elem m) _).trans hmoved⟩

lemma heapify_spec (hn : n < 2 ^ 63) (hi : i ≤ n) (H : HeapFrom q.Le (q.elem m) i n) :
    ∃ m', q.heapify n i m = some m' ∧ HeapFrom q.Le (q.elem m') 0 n ∧ Moved n (q.elem m) (q.elem m') := by
  induction i generalizing m with
  | zero => exact ⟨m, rfl, H, .refl _ _⟩
  | succ i ih =>
    obtain ⟨m1, hm1, H1, hmoved1⟩ := sift_spec P hn le_rfl hi (Nat.le_add_right n i) H.hole
    obtain ⟨m2, hm2, H2, hmoved2⟩ := ih (by omega) H1
    exact ⟨m2, by rw [heapify, hm1, Option.bind_some, hm2], H2, hmoved1.trans hmoved2⟩

/-- The elements from `i` on are in place, and the ones before form a heap. -/
lemma drain_spec (hn : n < 2 ^ 63) (hi : i ≤ n) (H : HeapFrom q.Le (q.elem m) 0 i)
    (hlast : ∀ a b, a < b → i ≤ b → b < n → q.Le (q.elem m a) (q.elem m b)) : ∃ m', q.drain i m = some m'
    ∧ (∀ a b, a < b → b < n → q.Le (q.elem m' a) (q.elem m' b)) ∧ Moved n (q.elem m) (q.elem m') := by
  induction i generalizing m with
  | zero => exact ⟨m, rfl, fun a b hab => hlast a b hab (Nat.zero_le b), .refl _ _⟩
  | succ i ih =>
    cases i with
    | zero => exact ⟨m, rfl, fun a b hab => hlast a b hab (by omega), .refl _ _⟩
    | succ i =>
      have hswap := @elem_swap _ q 0 (i + 1) m (by omega)
      rw [show q.addr 0 = q.base by simp [addr]] at hswap
      have H1 : HeapFrom q.Le (q.elem m ∘ Equiv.swap 0 (i + 1)) 1 (i + 1) := by
        intro a b ha hab hb
        have := hab
        unfold Child at this
        rw [comp_apply, comp_apply, Equiv.swap_apply_of_ne_of_ne (by omega) (by omega),
          Equiv.swap_apply_of_ne_of_ne (by omega) (by omega)]
        exact H a b (Nat.zero_le a) hab (by omega)
      rw [← hswap] at H1
      obtain ⟨m', hm, H', hsift⟩ :=
        sift_spec P (by omega) le_rfl (Nat.succ_pos i) (Nat.le_add_right _ 0) H1.hole
      rw [hswap] at hsift
      have hmoved := (moved_swap (by omega) (by omega)).trans (hsift.mono (Nat.le_succ (i + 1)))
      -- the largest of the heap is now in place, and the later ones still are
      obtain ⟨m'', hm', hsorted, hdrain⟩ := ih (by omega) H' fun a b hab hib hb => by
        rcases Nat.eq_or_lt_of_le hib with rfl | hib
        · obtain ⟨c, hc, hac⟩ := hmoved.exists_lt (i := a) (by omega)
          rw [hsift.eq le_rfl, comp_apply, Equiv.swap_apply_right, hac]
          exact H.le_top (le_refl P) P.trans hc
        · rw [hmoved.eq hib]
          by_cases ha : a < i + 1 + 1
          · obtain ⟨c, hc, hac⟩ := hmoved.exists_lt ha
            rw [hac]
            exact hlast c b (by omega) hib hb
          · rw [hmoved.eq (by omega)]
            exact hlast a b hab hib hb
      refine ⟨m'', ?_, hsorted, (hmoved.mono hi).trans hdrain⟩
      rw [drain, hm, Option.bind_some, hm']

end

lemma sorted_of_lt (h : ∀ a b, a < b → b < n → q.Le (q.elem m a) (q.elem m b)) : (q.elems n m).Pairwise q.Le := by
  refine List.pairwise_map.2 (List.pairwise_lt_range.imp_of_mem fun _ hb hab => ?_)
  exact h _ _ hab (List.mem_range.1 hb)

/-- `qsort_r` returns, and the array then holds its elements in non-decreasing order. -/
theorem qsortR_sorts (P : q.Preorders) (hfit : n * q.size < 2 ^ 63) :
    ∃ m', q.qsortR n m = some m' ∧ (q.elems n m').Perm (q.elems n m) ∧
      (q.elems n m').Pairwise q.Le := by
  rw [qsortR]
  split
  · rename_i hsmall
    refine ⟨m, rfl, .refl _, sorted_of_lt fun a b hab hb => ?_⟩
    have hsize : q.size = 0 := by omega
    rw [elem, elem, hsize]
    exact le_refl P []
  · rename_i hsmall
    have hn : n < 2 ^ 63 := (Nat.le_mul_of_pos_right n (by omega)).trans_lt hfit
    have hleaves : HeapFrom q.Le (q.elem m) (n / 2) n := by
      intro i j hi hij hj
      unfold Child at hij
      omega
    obtain ⟨m₁, hm₁, H₁, hmoved₁⟩ := heapify_spec P hn (Nat.div_le_self n 2) hleaves
    obtain ⟨m₂, hm₂, hsorted, hmoved₂⟩ := drain_spec P hn le_rfl H₁ fun a b _ hb hb' => by omega
    refine ⟨m₂, ?_, (hmoved₁.trans hmoved₂).perm, sorted_of_lt hsorted⟩
    rw [hm₁, Option.bind_some, hm₂]

/-- One-byte elements, compared as numbers. -/
def byBytes : Args Unit where
  base := 100
  size := 1
  cmp a b _ := (a.headD 0).toNat - (b.headD 0).toNat
  arg := ()

lemma byBytes_preorders : byBytes.Preorders where
  total a b := by
    simp only [Le, byBytes]
    omega
  trans a b c := by
    simp only [Le, byBytes]
    omega

theorem qsortR_sorts_bytes : ∃ m', byBytes.qsortR 3 (fun z => 103 - z) = some m' ∧
    (byBytes.elems 3 m').Perm [[3], [2], [1]] ∧ (byBytes.elems 3 m').Pairwise byBytes.Le :=
  qsortR_sorts byBytes_preorders (by decide)

end Args
end EmbCC.Libc.Qsort
