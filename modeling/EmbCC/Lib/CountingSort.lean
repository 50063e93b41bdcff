import Mathlib

/-!
# Sorting by counting

The items with a key are put into one array, key by key and in their order. The number of items of
each key is counted first, so that its sum over the smaller keys is where the items of a key start.
`slice_eq`: from there to where the next key starts are the items of the key.
-/

namespace CountingSort

open List Function
variable {α : Type*} (key : α → Option ℕ)

/-- One more of the key of `b`, one place up. -/
def count (kid : ℕ → ℕ) (b : α) : ℕ → ℕ :=
  match key b with
  | some u => update kid (u + 1) (kid (u + 1) + 1)
  | none => kid

/-- The counts of the items. -/
def counts (l : List α) : ℕ → ℕ := l.foldl (count key) fun _ => 0

/-- Each place takes the one before it. -/
def sums (nk : ℕ) (kid : ℕ → ℕ) : ℕ → ℕ :=
  (List.range nk).foldl (fun kid b => update kid (b + 1) (kid (b + 1) + kid b)) kid

/-- Where the next item of each key goes, and the array. -/
structure Fill (α : Type*) where
  fill : ℕ → ℕ
  kids : ℕ → α

/-- An item goes to the next place of its key. -/
def put (f : Fill α) (b : α) : Fill α :=
  match key b with
  | some u => ⟨update f.fill u (f.fill u + 1), update f.kids (f.fill u) b⟩
  | none => f

/-- The array from `lo` up to `hi`. -/
def slice (kids : ℕ → α) (lo hi : ℕ) : List α := (List.range (hi - lo)).map fun i => kids (lo + i)

/-- The items of one key. -/
def ofKey (u : ℕ) (l : List α) : List α := l.filter (key · = some u)

variable {key} {l : List α} {b : α} {u v : ℕ}

lemma ofKey_append_of_eq (h : key b = some u) : ofKey key u (l ++ [b]) = ofKey key u l ++ [b] := by
  simp [ofKey, h]

lemma ofKey_append_of_ne (h : key b ≠ some u) : ofKey key u (l ++ [b]) = ofKey key u l := by
  simp [ofKey, h]

lemma count_of_none (kid : ℕ → ℕ) (h : key b = none) : count key kid b = kid := by rw [count, h]

lemma put_of_none (f : Fill α) (h : key b = none) : put key f b = f := by rw [put, h]

lemma counts_succ (l : List α) (u : ℕ) : counts key l (u + 1) = (ofKey key u l).length := by
  induction l using reverseRecOn with
  | nil => rfl
  | append_singleton l b ih =>
    rw [counts, foldl_append, ← counts, foldl_cons, foldl_nil]
    cases hb : key b with
    | none => rw [count_of_none _ hb, ofKey_append_of_ne (by simp [hb]), ih]
    | some v =>
      simp only [count, hb]
      by_cases hv : v = u
      · rw [hv] at hb ⊢
        rw [ofKey_append_of_eq hb, length_append, update_self, ih, length_singleton]
      · rw [ofKey_append_of_ne (by simpa [hb] using hv), ← ih, update_of_ne (by omega : u + 1 ≠ v + 1)]

lemma sums_eq (kid : ℕ → ℕ) (nk : ℕ) :
    (∀ u ≤ nk, sums nk kid u = ∑ i ∈ Finset.range (u + 1), kid i) ∧ ∀ u > nk, sums nk kid u = kid u := by
  induction nk with
  | zero =>
    refine ⟨fun u hu => ?_, fun u _ => rfl⟩
    rw [Nat.le_zero.1 hu, Finset.sum_range_one]
    rfl
  | succ nk ih =>
    have hlast : sums (nk + 1) kid = update (sums nk kid) (nk + 1) (sums nk kid (nk + 1) + sums nk kid nk) := by
      rw [sums, range_succ, foldl_append, ← sums]
      rfl
    refine ⟨fun u hu => ?_, fun u hu => ?_⟩
    · rw [hlast]
      rcases hu.eq_or_lt with rfl | hlt
      · rw [update_self, ih.1 nk le_rfl, ih.2 (nk + 1) (Nat.lt_succ_self nk), Finset.sum_range_succ _ (nk + 1), add_comm]
      · rw [update_of_ne hlt.ne, ih.1 u (Nat.lt_succ_iff.1 hlt)]
    · rw [hlast, update_of_ne hu.ne', ih.2 u (by omega)]

variable {nk : ℕ}

lemma sums_counts_succ (hu : u < nk) :
    sums nk (counts key l) (u + 1) = sums nk (counts key l) u + (ofKey key u l).length := by
  rw [(sums_eq _ nk).1 (u + 1) hu, (sums_eq _ nk).1 u hu.le, Finset.sum_range_succ _ (u + 1), counts_succ]

lemma sums_counts_mono (huv : u ≤ v) (hv : v ≤ nk) : sums nk (counts key l) u ≤ sums nk (counts key l) v := by
  rw [(sums_eq _ nk).1 u (huv.trans hv), (sums_eq _ nk).1 v hv]
  exact Finset.sum_le_sum_of_subset (Finset.range_mono (by omega))

/-- The items that were put, key by key from where the key starts. -/
structure Filled (key : α → Option ℕ) (start : ℕ → ℕ) (nk : ℕ) (l : List α) (f : Fill α) : Prop where
  fill : ∀ u < nk, f.fill u = start u + (ofKey key u l).length
  kids : ∀ u < nk, ∀ i c, (ofKey key u l)[i]? = some c → f.kids (start u + i) = c

/-- One element goes to the next free place of its key. -/
lemma Filled.put {start : ℕ → ℕ} {f : Fill α} (h : Filled key start nk l f) (hkey : ∀ u, key b = some u → u < nk)
    (hroom : ∀ u < nk, ∀ v < u, start v + (ofKey key v (l ++ [b])).length ≤ start u) :
    Filled key start nk (l ++ [b]) (put key f b) := by
  cases hb : key b with
  | none =>
    rw [put_of_none _ hb]
    refine ⟨fun u hu => ?_, fun u hu => ?_⟩
    · rw [ofKey_append_of_ne (by simp [hb]), h.fill u hu]
    · rw [ofKey_append_of_ne (by simp [hb])]
      exact h.kids u hu
  | some v =>
    rw [CountingSort.put, hb]
    have hv := hkey v hb
    have hlen : (ofKey key v (l ++ [b])).length = (ofKey key v l).length + 1 := by
      rw [ofKey_append_of_eq hb, length_append, length_singleton]
    refine ⟨fun u hu => ?_, fun u hu i c hc => ?_⟩
    · show update f.fill v (f.fill v + 1) u = _
      by_cases huv : u = v
      · rw [huv, update_self, h.fill v hv, hlen, Nat.add_assoc]
      · rw [update_of_ne huv, h.fill u hu, ofKey_append_of_ne (by simpa [hb] using Ne.symm huv)]
    · show update f.kids (f.fill v) b (start u + i) = c
      by_cases huv : u = v
      · rw [huv] at hc ⊢
        rw [ofKey_append_of_eq hb] at hc
        rcases Nat.lt_or_ge i (ofKey key v l).length with hi | hi
        · rw [getElem?_append_left hi] at hc
          rw [update_of_ne (by rw [h.fill v hv]; omega), h.kids v hv i c hc]
        · obtain ⟨hlt, -⟩ := List.getElem?_eq_some_iff.1 hc
          obtain rfl : i = (ofKey key v l).length := by
            rw [length_append, length_singleton] at hlt
            omega
          rw [h.fill v hv, update_self]
          simpa using hc
      · have hne : key b ≠ some u := by simpa [hb] using Ne.symm huv
        rw [ofKey_append_of_ne hne] at hc
        have hi := (List.getElem?_eq_some_iff.1 hc).1
        refine (update_of_ne ?_ _ _).trans (h.kids u hu i c hc)
        rw [h.fill v hv]
        rcases Nat.lt_or_gt_of_ne huv with hlt | hgt
        · have := hroom v hv u hlt
          rw [ofKey_append_of_ne hne] at this
          omega
        · have := hroom u hu v hgt
          omega

section
variable (hkey : ∀ b ∈ l, ∀ u, key b = some u → u < nk) (d : ℕ → α)
include hkey d

lemma slice_eq (hu : u < nk) : slice (l.foldl (put key) ⟨sums nk (counts key l), d⟩).kids (sums nk (counts key l) u)
      (sums nk (counts key l) (u + 1)) = ofKey key u l := by
  have hfilled : ∀ l', l' <+: l →
      Filled key (sums nk (counts key l)) nk l' (l'.foldl (put key) ⟨sums nk (counts key l), d⟩) := by
    intro l' hl'
    induction l' using reverseRecOn with
    | nil => exact ⟨fun u _ => rfl, fun u _ i c hc => by simp [ofKey] at hc⟩
    | append_singleton l' b ih =>
      rw [foldl_append]
      refine (ih ((prefix_append l' [b]).trans hl')).put (hkey b (hl'.subset (by simp))) fun u hu v hv => ?_
      -- the place that is kept for the items of `v` ends before those of `u`
      have hle := ((hl'.sublist.filter (key · = some v)).length_le : (ofKey key v _).length ≤ _)
      calc _ ≤ sums nk (counts key l) v + (ofKey key v l).length := Nat.add_le_add_left hle _
        _ = sums nk (counts key l) (v + 1) := (sums_counts_succ (hv.trans hu)).symm
        _ ≤ sums nk (counts key l) u := sums_counts_mono hv hu.le
  refine ext_getElem? fun i => ?_
  rw [slice, sums_counts_succ hu, Nat.add_sub_cancel_left, getElem?_map]
  rcases Nat.lt_or_ge i (ofKey key u l).length with hi | hi
  · rw [getElem?_range hi, Option.map_some, getElem?_eq_getElem hi]
    exact congrArg some ((hfilled l (prefix_refl l)).kids u hu i _ (getElem?_eq_getElem hi))
  · rw [getElem?_eq_none (by simpa using hi), getElem?_eq_none hi]
    rfl

lemma slice_of_ge (hu : nk ≤ u) : slice d (sums nk (counts key l) u) (sums nk (counts key l) (u + 1)) = ofKey key u l := by
  have hnone : ofKey key u l = [] := by
    refine List.filter_eq_nil_iff.2 fun b hb hk => ?_
    have := hkey b hb u (of_decide_eq_true hk)
    omega
  have hend : sums nk (counts key l) (u + 1) = 0 := by
    rw [(sums_eq _ nk).2 (u + 1) (by omega), counts_succ, hnone]
    rfl
  rw [hend, hnone, slice, Nat.zero_sub]
  rfl

end
end CountingSort
