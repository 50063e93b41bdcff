import Mathlib

/-!
# A list in pieces

A list put together from pieces, one for each element of another list: where a piece begins
(`offset`), and where the first element that passes a test is found
(`findIdx_flatten`).
-/

namespace Chunks

open List
variable {β : Type*} {L : List (List β)} {n : ℕ}

/-- Where the piece `n` begins. -/
def offset (L : List (List β)) (n : ℕ) : ℕ := (L.take n).flatten.length

lemma offset_succ {c : List β} (h : L[n]? = some c) : offset L (n + 1) = offset L n + c.length := by
  rw [offset, take_add_one, h, Option.toList_some, flatten_append, length_append]
  simp [offset]

lemma offset_of_length_le (h : L.length ≤ n) : offset L n = L.flatten.length := by
  rw [offset, take_of_length_le h]

lemma flatten_getElem {d : List β} (h : L[n]? = some d) {j : ℕ}
    (hj : j < d.length) : L.flatten[offset L n + j]? = d[j]? := by
  obtain ⟨hn, hd⟩ := List.getElem?_eq_some_iff.1 h
  have hsplit : L = L.take n ++ d :: L.drop (n + 1) := by
    rw [← hd, getElem_cons_drop, take_append_drop]
  have hflat : L.flatten = (L.take n).flatten ++ (d ++ (L.drop (n + 1)).flatten) := by
    conv_lhs => rw [hsplit]
    rw [flatten_append, flatten_cons]
  rw [hflat, offset, getElem?_append_right (by omega), Nat.add_sub_cancel_left, getElem?_append_left hj]

/-- Where only the head of a piece can pass the test, the first element to pass it is the head of the
first piece that has one. -/
lemma findIdx_flatten {p : β → Bool} (h : ∀ c ∈ L, ∀ x ∈ c.tail, p x = false) :
    L.flatten.findIdx? p = (L.findIdx? fun c => c.head?.any p).map (offset L) := by
  induction L with
  | nil => rfl
  | cons c L ih =>
    have hL := ih fun d hd => h d (.tail _ hd)
    have hshift n : offset (c :: L) (n + 1) = offset L n + c.length := by
      simp [offset, Nat.add_comm]
    have hmap : ((L.findIdx? fun c => c.head?.any p).map (offset L)).map (· + c.length) =
        ((L.findIdx? fun c => c.head?.any p).map (· + 1)).map (offset (c :: L)) := by
      rw [Option.map_map, Option.map_map]
      exact congrArg (Option.map · _) (funext fun n => (hshift n).symm)
    rw [flatten_cons, findIdx?_append, hL, hmap, findIdx?_cons]
    cases c with
    | nil => rfl
    | cons x xs =>
      have htail : xs.findIdx? p = none := List.findIdx?_eq_none_iff.2 fun y hy => h _ (.head _) y hy
      rw [findIdx?_cons, htail]
      cases hx : p x <;> simp [hx, offset]

end Chunks
