import Mathlib

/-!
# Doubly linked rings

A doubly linked list as two functions on its nodes, `next` and `prev`. A ring
passes through a base node that is not a member: the empty ring is the base
alone, and a list ended by null pointers is a ring through null. Linking a node
in (`Ring.insert`) and out (`Ring.remove`) each change two links of each kind,
and a ring reads the links of its nodes only (`Ring.congr`).
-/

namespace Ring

open List Function
variable {α : Type*} {n p n' p' : α → α} {a b q x o : α} {l r c d : List α}

/-- Consecutive nodes are linked both ways. -/
def Linked (n p : α → α) : List α → Prop
  | x :: y :: c => n x = y ∧ p y = x ∧ Linked n p (y :: c)
  | _ => True

/-- The members of the ring through the base `o`, in the order of `next`. -/
def IsRing (n p : α → α) (o : α) (l : List α) : Prop := Linked n p (o :: l ++ [o])

lemma linked_append : Linked n p (c ++ a :: d) ↔ Linked n p (c ++ [a]) ∧ Linked n p (a :: d) := by
  induction c with
  | nil => simp [Linked]
  | cons x c ih =>
    cases c with
    | nil => simp [Linked, and_assoc]
    | cons y c =>
      simp only [cons_append, Linked] at ⊢
      tauto

lemma Linked.congr (h : Linked n p c) (hn : ∀ x ∈ c.dropLast, n' x = n x)
    (hp : ∀ x ∈ c.tail, p' x = p x) : Linked n' p' c := by
  induction c with
  | nil => trivial
  | cons x c ih =>
    cases c with
    | nil => trivial
    | cons y c =>
      obtain ⟨hxy, hyx, hc⟩ := h
      refine ⟨(hn x (.head _)).trans hxy, (hp y (.head _)).trans hyx, ih hc ?_ ?_⟩
      · exact fun z hz => hn z (.tail _ hz)
      · exact fun z hz => hp z (.tail _ hz)

lemma IsRing.congr (h : IsRing n p o l) (hn : ∀ x ∈ o :: l, n' x = n x)
    (hp : ∀ x ∈ o :: l, p' x = p x) : IsRing n' p' o l := by
  refine Linked.congr h (fun x hx => hn x ?_) fun x hx => hp x ?_
  · rwa [dropLast_concat] at hx
  · simp only [cons_append, tail_cons, mem_append, mem_singleton] at hx
    rcases hx with hx | rfl
    · exact .tail _ hx
    · exact .head _

lemma Linked.mem (h : Linked n p c) : (∀ x ∈ c.dropLast, n x ∈ c.tail) ∧ ∀ x ∈ c.tail, p x ∈ c.dropLast := by
  induction c with
  | nil => simp
  | cons x c ih =>
    cases c with
    | nil => simp
    | cons y c =>
      obtain ⟨hxy, hyx, hc⟩ := h
      obtain ⟨hn, hp⟩ := ih hc
      refine ⟨fun z hz => ?_, fun z hz => ?_⟩
      · rcases mem_cons.1 hz with rfl | hz
        · exact hxy ▸ .head _
        · exact .tail _ (hn z hz)
      · rcases mem_cons.1 hz with rfl | hz
        · exact hyx ▸ .head _
        · exact .tail _ (hp z hz)

lemma IsRing.mem (h : IsRing n p o l) (hx : x ∈ o :: l) : n x ∈ o :: l ∧ p x ∈ o :: l := by
  obtain ⟨hn, hp⟩ := Linked.mem h
  rw [dropLast_concat] at hn hp
  have hperm : ∀ y, y ∈ (o :: l ++ [o]).tail ↔ y ∈ o :: l := by simp [or_comm]
  exact ⟨(hperm _).1 (hn x hx), hp x ((hperm x).2 hx)⟩

lemma isRing_append (ha : (o :: l).getLast? = some a) : IsRing n p o (l ++ r) ↔
    ∃ q d, r ++ [o] = q :: d ∧ Linked n p (o :: l) ∧ n a = q ∧ p q = a ∧ Linked n p (q :: d) := by
  obtain ⟨c, hc⟩ := List.getLast?_eq_some_iff.1 ha
  obtain ⟨q, d, hd⟩ : ∃ q d, r ++ [o] = q :: d := by
    cases r with
    | nil => exact ⟨o, [], rfl⟩
    | cons q r => exact ⟨q, r ++ [o], rfl⟩
  have hlist : o :: (l ++ r) ++ [o] = c ++ a :: q :: d := by
    rw [← hd, cons_append, append_assoc, ← cons_append, hc, append_assoc]
    rfl
  rw [IsRing, hlist, linked_append, hc]
  constructor
  · rintro ⟨h1, h2, h3, h4⟩
    exact ⟨q, d, hd, h1, h2, h3, h4⟩
  · rintro ⟨q', d', hd', h1, h2, h3, h4⟩
    obtain ⟨rfl, rfl⟩ := cons.inj (hd.symm.trans hd')
    exact ⟨h1, h2, h3, h4⟩

lemma IsRing.next_eq (h : IsRing n p o (l ++ a :: r)) : n a = r.headD o := by
  have ha : (o :: (l ++ [a])).getLast? = some a := by rw [← cons_append, getLast?_concat]
  rw [append_cons, isRing_append ha] at h
  obtain ⟨q, d, hd, -, rfl, -⟩ := h
  cases r with
  | nil => exact (cons.inj hd).1.symm
  | cons q r => exact (cons.inj hd).1.symm

lemma IsRing.prev_eq (h : IsRing n p o (l ++ a :: r)) : p a = l.getLastD o := by
  have hl : (o :: l).getLast? = some (l.getLastD o) := by rw [getLast?_cons, getLastD_eq_getLast?]
  rw [isRing_append hl] at h
  obtain ⟨q, d, hd, -, -, hpq, -⟩ := h
  obtain ⟨rfl, rfl⟩ := cons.inj hd
  exact hpq

lemma IsRing.next_base (h : IsRing n p o l) : n o = l.headD o := by
  cases l with
  | nil => exact h.1
  | cons x l => exact h.1

lemma IsRing.prev_base (h : IsRing n p o l) : (o :: l).getLast? = some (p o) ∧ n (p o) = o := by
  obtain ⟨a, ha⟩ : ∃ a, (o :: l).getLast? = some a :=
    ⟨_, getLast?_eq_some_getLast (cons_ne_nil o l)⟩
  rw [← append_nil l, isRing_append ha] at h
  obtain ⟨q, d, hd, -, hnq, hpq, -⟩ := h
  obtain ⟨rfl, rfl⟩ := cons.inj hd
  rw [ha, hpq]
  exact ⟨rfl, hnq⟩

lemma cut_nodup (ha : (o :: l).getLast? = some a) (hd : r ++ [o] = q :: d)
    (hnd : (o :: (l ++ r)).Nodup) : a ∉ (o :: l).dropLast ++ r ∧ q ∉ l ++ d := by
  obtain ⟨c, hc⟩ := List.getLast?_eq_some_iff.1 ha
  have hfwd : (c ++ a :: r).Nodup := by rwa [← cons_append, hc, append_assoc] at hnd
  have hback : (l ++ q :: d).Nodup := by
    rw [← hd, ← append_assoc]
    exact (perm_append_singleton o (l ++ r)).nodup_iff.2 hnd
  rw [hc, dropLast_concat]
  exact ⟨(List.nodup_middle.1 hfwd).notMem, (List.nodup_middle.1 hback).notMem⟩

lemma linked_sides (n' p' : α → α) (ha : (o :: l).getLast? = some a) (hd : r ++ [o] = q :: d) (hnd : (o :: (l ++ r)).Nodup)
    (hl : Linked n p (o :: l)) (hr : Linked n p (q :: d)) (hn : ∀ y ∈ o :: (l ++ r), y ≠ a → n' y = n y)
    (hp : ∀ y ∈ o :: (l ++ r), y ≠ q → p' y = p y) : Linked n' p' (o :: l) ∧ Linked n' p' (q :: d) := by
  obtain ⟨haout, hqout⟩ := cut_nodup ha hd hnd
  have hleft : ∀ y ∈ o :: l, y ∈ o :: (l ++ r) := fun y hy => by exact mem_append_left _ hy
  have hright : ∀ y ∈ r, y ∈ o :: (l ++ r) := fun y hy => .tail _ (mem_append_right _ hy)
  have hdrop : (q :: d).dropLast = r := by rw [← hd, dropLast_concat]
  refine ⟨hl.congr (fun y hy => ?_) fun y hy => ?_, hr.congr (fun y hy => ?_) fun y hy => ?_⟩
  · exact hn y (hleft y (mem_of_mem_dropLast hy)) fun hya => haout (mem_append_left _ (hya ▸ hy))
  · exact hp y (hleft y (.tail _ hy)) fun hyq => hqout (mem_append_left _ (hyq ▸ hy))
  · rw [hdrop] at hy
    exact hn y (hright y hy) fun hya => haout (mem_append_right _ (hya ▸ hy))
  · have hmem : y ∈ r ++ [o] := hd ▸ .tail _ hy
    refine hp y ?_ fun hyq => hqout (mem_append_right _ (hyq ▸ hy))
    rcases mem_append.1 hmem with hy | hy
    · exact hright y hy
    · exact mem_singleton.1 hy ▸ .head _

variable [DecidableEq α]

lemma IsRing.insert (h : IsRing n p o (l ++ r)) (ha : (o :: l).getLast? = some a) (hnd : (o :: (l ++ r)).Nodup)
    (hx : x ∉ o :: (l ++ r)) : IsRing (update (update n x (n a)) a x) (update (update p x a) (n a) x) o (l ++ x :: r) := by
  obtain ⟨q, d, hd, hl, rfl, -, hr⟩ := (isRing_append ha).1 h
  have hax : a ∈ o :: (l ++ r) := by exact mem_append_left _ (mem_of_getLast? ha)
  have hqx : n a ∈ o :: (l ++ r) := by
    have hq : n a ∈ r ++ [o] := hd ▸ .head _
    rcases mem_append.1 hq with hq | hq
    · exact .tail _ (mem_append_right _ hq)
    · exact mem_singleton.1 hq ▸ .head _
  have hne : ∀ y ∈ o :: (l ++ r), y ≠ x := fun y hy hyx => hx (hyx ▸ hy)
  obtain ⟨hl', hr'⟩ := linked_sides (update (update n x (n a)) a x) (update (update p x a) (n a) x) ha hd hnd hl hr
    (fun y hy hya => by rw [update_of_ne hya, update_of_ne (hne y hy)])
    (fun y hy hyq => by rw [update_of_ne hyq, update_of_ne (hne y hy)])
  rw [isRing_append ha]
  refine ⟨x, n a :: d, by rw [cons_append, hd], hl', update_self .., ?_, ?_, update_self .., hr'⟩
  · rw [update_of_ne (hne _ hqx).symm, update_self]
  · rw [update_of_ne (hne _ hax).symm, update_self]

lemma IsRing.remove (h : IsRing n p o (l ++ x :: r)) (hnd : (o :: (l ++ x :: r)).Nodup) :
    IsRing (update n (p x) (n x)) (update p (n x) (p x)) o (l ++ r) := by
  obtain ⟨a, ha⟩ : ∃ a, (o :: l).getLast? = some a :=
    ⟨_, getLast?_eq_some_getLast (cons_ne_nil o l)⟩
  obtain ⟨q, d, hd, hl, rfl, hpx, hr⟩ := (isRing_append ha).1 h
  obtain ⟨rfl, rfl⟩ := cons.inj hd
  obtain ⟨q, d, hd⟩ : ∃ q d, r ++ [o] = q :: d := exists_cons_of_ne_nil (by simp)
  rw [append_eq, hd] at hr
  obtain ⟨rfl, -, hr⟩ := hr
  have hnd' : (o :: (l ++ r)).Nodup :=
    hnd.sublist (((sublist_cons_self (n a) r).append_left l).cons_cons o)
  rw [hpx, isRing_append ha]
  obtain ⟨hl', hr'⟩ := linked_sides (update n a (n (n a))) (update p (n (n a)) a) ha hd hnd' hl hr
    (fun _ _ hy => update_of_ne hy _ _) (fun _ _ hy => update_of_ne hy _ _)
  exact ⟨n (n a), d, hd, hl', update_self .., update_self .., hr'⟩

end Ring
