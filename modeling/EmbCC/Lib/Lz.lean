import Mathlib.Data.List.GetD
import Mathlib.Data.List.TakeDrop

/-!
# Copies out of what was written

The meaning of a dictionary coder of the LZ77 kind: an output grows by single
items and by copies of a stretch that begins `dist` items back. A copy may be
longer than its distance, it then reads items it has itself put. `copyBack_take`
says when a copy carries on a given list.
-/

namespace Lz

open List
variable {α : Type*}

/-- What one code of the coder stands for. -/
inductive Token (α : Type*)
  | lit (c : α)
  | copy (len dist : ℕ)

/-- `len` items from `dist` items back, one after the other; `d` is never read. -/
def copyBack (d : α) (dist : ℕ) : ℕ → List α → List α
  | 0, out => out
  | len + 1, out => copyBack d dist len (out ++ [out.getD (out.length - dist) d])

/-- The tokens take the first output to the second. -/
inductive Expands (d : α) : List α → List (Token α) → List α → Prop
  | nil {out : List α} : Expands d out [] out
  | lit {out res : List α} {ts : List (Token α)} {c : α}
      (h : Expands d (out ++ [c]) ts res) : Expands d out (.lit c :: ts) res
  | copy {out res : List α} {ts : List (Token α)} {len dist : ℕ} (hd : dist ≤ out.length)
      (h : Expands d (copyBack d dist len out) ts res) : Expands d out (.copy len dist :: ts) res

lemma take_concat (p : List α) (d : α) {i : ℕ} (h : i < p.length) : p.take i ++ [p.getD i d] = p.take (i + 1) := by
  rw [getD_eq_getElem _ _ h, take_concat_get' _ _ h]

lemma copyBack_take {p : List α} {d : α} {dist : ℕ} (hpos : 0 < dist) : ∀ {len i : ℕ}, dist ≤ i → i + len ≤ p.length →
    (∀ t < len, p.getD (i - dist + t) d = p.getD (i + t) d) → copyBack d dist len (p.take i) = p.take (i + len) := by
  intro len
  induction len with
  | zero => intro i _ _ _; rfl
  | succ len ih =>
    intro i hi hlen hsame
    have hnext : (p.take i).getD ((p.take i).length - dist) d = p.getD i d := by
      have hl : (p.take i).length = i := length_take_of_le (by omega)
      have h0 : p.getD (i - dist) d = p.getD i d := hsame 0 (by omega)
      rw [hl, ← h0, List.getD_eq_getElem?_getD, List.getD_eq_getElem?_getD, List.getElem?_take_of_lt (by omega)]
    have hstep := ih (show dist ≤ i + 1 by omega) (by omega) fun t ht => by
      have h := hsame (t + 1) (by omega)
      rwa [show i - dist + (t + 1) = i + 1 - dist + t by omega, show i + (t + 1) = i + 1 + t by omega] at h
    rw [copyBack, hnext, take_concat p d (by omega), hstep]
    congr 1
    omega

end Lz
