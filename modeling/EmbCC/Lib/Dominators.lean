import EmbCC.Lib.ParentTree

/-!
# Dominators and semidominators

A point dominates another when it is on every path to it from the root. For a graph whose points are
numbered along a depth-first spanning tree, the semidominator of a point is the smallest one with a
path to it that is above it in between. The immediate dominators are found from the
semidominators: `isIdom_of_semi` where nothing between a point and its semidominator has a smaller one,
and `isIdom_of_least` from the point with the smallest one there else.
-/

namespace Dominators

section
variable {α : Type*}

/-- A path, with its points. -/
inductive Path (E : α → α → Prop) : α → List α → α → Prop
  | nil (a : α) : Path E a [a] a
  | cons {a b c : α} {l : List α} : E a b → Path E b l c → Path E a (a :: l) c

/-- Every path from the root to `b` passes through `s`. -/
def Dom (E : α → α → Prop) (r s b : α) : Prop := ∀ l, Path E r l b → s ∈ l

/-- `d` is the immediate dominator of `b`: it strictly dominates `b`, and whatever does so dominates `d`. -/
structure IsIdom (E : α → α → Prop) (r d b : α) : Prop where
  ne : d ≠ b
  dom : Dom E r d b
  least : ∀ c, c ≠ b → Dom E r c b → Dom E r c d

/-- Some path from the root does not pass through `s`. -/
inductive Avoids (E : α → α → Prop) (r s : α) : α → Prop
  | root : r ≠ s → Avoids E r s r
  | step {a b : α} : Avoids E r s a → E a b → b ≠ s → Avoids E r s b

variable {E : α → α → Prop} {r s b c d a : α} {l : List α}

lemma Path.concat (h : Path E a l b) (he : E b c) : Path E a (l ++ [c]) c := by
  induction h with
  | nil => exact .cons he (.nil c)
  | cons ha _ ih => exact .cons ha (ih he)

lemma Path.avoids (h : Path E a l b) (hs : s ∉ l) (ha : Avoids E r s a) : Avoids E r s b := by
  induction h with
  | nil => exact ha
  | @cons a b c l he hp ih =>
    obtain ⟨-, hl⟩ := not_or.1 (List.mem_cons.not.1 hs)
    refine ih hl (.step ha he ?_)
    rintro rfl
    exact hl (by cases hp <;> exact .head _)

lemma dom_iff : Dom E r s b ↔ ¬ Avoids E r s b := by
  refine ⟨fun h ha => ?_, fun h l hl => ?_⟩
  · suffices hex : ∃ l, Path E r l b ∧ s ∉ l by
      obtain ⟨l, hl, hs⟩ := hex
      exact hs (h l hl)
    clear h
    induction ha with
    | root hr => exact ⟨[r], .nil r, by simpa using hr.symm⟩
    | step _ he hb ih =>
      obtain ⟨l, hl, hs⟩ := ih
      exact ⟨l ++ [_], hl.concat he, by simpa [hs] using hb.symm⟩
  · by_contra hs
    refine h (hl.avoids hs (.root ?_))
    rintro rfl
    exact hs (by cases hl <;> exact .head _)

lemma Dom.refl (E : α → α → Prop) (r b : α) : Dom E r b b := by
  rw [dom_iff]
  rintro (h | ⟨-, -, h⟩)
  · exact h rfl
  · exact h rfl

lemma Avoids.or (h : Avoids E r s b) : Avoids E r d b ∨ Avoids E r s d := by
  induction h with
  | root hr =>
    by_cases hd : r = d
    · exact .inr (hd ▸ .root hr)
    · exact .inl (.root hd)
  | @step a b ha he hb ih =>
    rcases ih with ih | ih
    · by_cases hd : b = d
      · exact .inr (hd ▸ .step ha he hb)
      · exact .inl (.step ih he hd)
    · exact .inr ih

lemma Path.avoids_of_only (h : Path E b l d) (honly : ∀ a, E a s → a = d) (hb : Avoids E r s b) : Avoids E r s d := by
  induction h with
  | nil => exact hb
  | @cons a b c l he _ ih =>
    by_cases hbs : b = s
    · exact honly a (hbs ▸ he) ▸ hb
    · exact ih honly (.step hb he hbs)

lemma Dom.of_edge (h : Dom E r s c) (he : E b c) (hne : c ≠ s) : Dom E r s b := by
  rw [dom_iff] at *
  exact fun ha => h (.step ha he hne)

lemma Dom.trans (h : Dom E r s d) (h' : Dom E r d b) : Dom E r s b := by
  rw [dom_iff] at *
  exact fun ha => ha.or.elim h' h

end

open ParentTree

/-- The points are numbered as a depth-first search comes to them, and `p` are the parents in its tree:
an edge to a higher number goes to a descendant, and the descendants of a point have consecutive
numbers. -/
structure SpanTree (n : ℕ) (E : ℕ → ℕ → Prop) (p : ℕ → ℕ) : Prop where
  down : Down p
  lt : ∀ {u w}, E u w → u < n ∧ w < n
  edge : ∀ {x}, 0 < x → x < n → E (p x) x
  fwd : ∀ {u w}, E u w → u < w → Anc p u w
  convex : ∀ {u x y}, Anc p u x → u ≤ y → y ≤ x → Anc p u y

/-- A path from `x` to `w` that is above `w` in between. -/
inductive Above (E : ℕ → ℕ → Prop) (w : ℕ) : ℕ → Prop
  | edge {x : ℕ} : E x w → Above E w x
  | step {x y : ℕ} : E x y → w < y → Above E w y → Above E w x

/-- The semidominator. -/
structure IsSemi (E : ℕ → ℕ → Prop) (w s : ℕ) : Prop where
  above : Above E w s
  le : ∀ x, Above E w x → s ≤ x

variable {n : ℕ} {E : ℕ → ℕ → Prop} {p : ℕ → ℕ} {s u v w x y z c d : ℕ}

lemma Above.trans (h : Above E y x) (hzy : z < y) (h' : Above E z y) : Above E z x := by
  induction h with
  | edge he => exact .step he hzy h'
  | step he hy _ ih => exact .step he (hzy.trans hy) ih

lemma Above.avoids (h : Above E w x) (hc : c < w) (hx : Avoids E 0 c x) : Avoids E 0 c w := by
  induction h with
  | edge he => exact .step hx he hc.ne'
  | step he hy _ ih => exact ih (.step hx he (hc.trans hy).ne')

section
variable (h : SpanTree n E p)
include h

lemma SpanTree.above_of_anc (hv : v < n) (ha : Anc p y v) (he : E v z) (hz : z < y) : Above E z y := by
  induction ha with
  | refl => exact .edge he
  | @tail b y hvb hby ih =>
    obtain ⟨hb, rfl⟩ := hby
    have hzb : z < b := hz.trans (h.down b hb)
    have hbn : b < n := (Anc.le h.down hvb).trans_lt hv
    exact .step (h.edge hb hbn) hzb (ih hzb)

lemma SpanTree.anc_of_above (ha : Above E w x) (hxw : x < w) : Anc p x w := by
  cases ha with
  | edge he => exact h.fwd he hxw
  | step he hy _ => exact h.convex (h.fwd he (hxw.trans hy)) hxw.le hy.le

lemma SpanTree.semi_lt (hw : 0 < w) (hn : w < n) (hs : IsSemi E w s) : s < w :=
  (hs.le _ (.edge (h.edge hw hn))).trans_lt (h.down w hw)

lemma SpanTree.semi_anc (hw : 0 < w) (hn : w < n) (hs : IsSemi E w s) : Anc p s w :=
  h.anc_of_above hs.above (h.semi_lt hw hn hs)

lemma SpanTree.above_cases (ha : Above E w x) : E x w ∨ ∃ u v, w < u ∧ Anc p u v ∧ E v w ∧ Above E u x := by
  induction ha with
  | edge he => exact .inl he
  | @step x y hxy hwy _ ih =>
    rcases ih with hyw | ⟨u, v, hwu, huv, hvw, huy⟩
    · exact .inr ⟨y, y, hwy, .refl p y, hyw, .edge hxy⟩
    · rcases lt_trichotomy y u with hlt | rfl | hgt
      · exact .inr ⟨y, v, hwy, (h.anc_of_above huy hlt).trans huv, hvw, .edge hxy⟩
      · exact .inr ⟨y, v, hwu, huv, hvw, .edge hxy⟩
      · exact .inr ⟨u, v, hwu, huv, hvw, .step hxy hgt huy⟩

lemma SpanTree.above_of_pred (hwu : w < u) (huv : Anc p u v) (hvw : E v w) (hs : Above E u x) : Above E w x :=
  hs.trans hwu (h.above_of_anc (h.lt hvw).1 huv hvw hwu)

lemma SpanTree.avoids_down (hd : d < x) (hxz : Anc p x z) (hz : z < n) (ha : Avoids E 0 d x) : Avoids E 0 d z := by
  induction z using Nat.strong_induction_on with
  | _ z ih =>
    rcases anc_iff.1 hxz with rfl | ⟨hz0, hxp⟩
    · exact ha
    · have hpz := h.down z hz0
      have hxle := hxz.le h.down
      exact .step (ih _ hpz hxp (hpz.trans hz)) (h.edge hz0 hz) (by omega)

lemma SpanTree.avoids_of_not_anc (hz : z < n) (hd : ¬ Anc p d z) : Avoids E 0 d z := by
  induction z using Nat.strong_induction_on with
  | _ z ih =>
    rcases Nat.eq_zero_or_pos z with rfl | hz0
    · exact .root fun h0 => hd (h0 ▸ .refl p 0)
    · have hpz := h.down z hz0
      exact .step (ih _ hpz (hpz.trans hz) fun ha => hd (.child hz0 ha)) (h.edge hz0 hz) fun hzd => hd (hzd ▸ .refl p z)

lemma SpanTree.anc_of_dom (hz : z < n) (hd : Dom E 0 d z) : Anc p d z := by
  by_contra hn
  exact dom_iff.1 hd (h.avoids_of_not_anc hz hn)

lemma SpanTree.avoids_past (ha : Avoids E 0 d z) (hdz : d < z) :
    ∃ y x, Anc p y z ∧ d < y ∧ x < d ∧ Above E y x ∧ Avoids E 0 d y := by
  induction ha with
  | root => exact absurd hdz (Nat.not_lt_zero d)
  | @step z' z hz' he hne ih =>
    rcases lt_trichotomy z' d with hlt | heq | hgt
    · exact ⟨z, z', .refl p z, hdz, hlt, .edge he, .step hz' he hne⟩
    · exact absurd (heq ▸ hz') (dom_iff.1 (Dom.refl E 0 d))
    · obtain ⟨y, x, hyz', hdy, hxd, habove, hy⟩ := ih hgt
      rcases lt_or_ge z' z with hz | hz
      · exact ⟨y, x, hyz'.trans (h.fwd he hz), hdy, hxd, habove, hy⟩
      · rcases lt_or_ge z y with hzy | hyz
        · exact ⟨z, x, .refl p z, hdz, hxd, h.above_of_pred hzy hyz' he habove, .step hz' he hne⟩
        · exact ⟨y, x, h.convex hyz' hyz hz, hdy, hxd, habove, hy⟩

lemma SpanTree.anc_semi_of_dom (hw : w < n) (hs : IsSemi E w s) (hc : c ≠ w) (hd : Dom E 0 c w) : Anc p c s := by
  by_contra hn
  have hcw : c < w := lt_of_le_of_ne ((h.anc_of_dom hw hd).le h.down) hc
  have hsn : s < n := by
    cases hs.above with
    | edge he => exact (h.lt he).1
    | step he _ _ => exact (h.lt he).1
  exact dom_iff.1 hd (hs.above.avoids hcw (h.avoids_of_not_anc hsn hn))

lemma SpanTree.dom_up (hw : w < n) (hd : Dom E 0 c w) (hx : Anc p x w) (hcx : c ≤ x) : Dom E 0 c x := by
  rcases hcx.eq_or_lt with rfl | hlt
  · exact Dom.refl E 0 c
  · rw [dom_iff] at hd ⊢
    exact fun ha => hd (h.avoids_down hlt hx hw ha)

lemma SpanTree.isIdom_of_semi (hw : 0 < w) (hn : w < n) (hs : IsSemi E w s)
    (hmin : ∀ u, Anc p u w → s < u → ∀ x, Above E u x → s ≤ x) : IsIdom E 0 s w := by
  have hsw := h.semi_lt hw hn hs
  refine ⟨hsw.ne, ?_, fun c hc hd => ?_⟩
  · rw [dom_iff]
    intro ha
    obtain ⟨y, x, hyw, hsy, hxs, habove, -⟩ := h.avoids_past ha hsw
    have := hmin y hyw hsy x habove
    omega
  · exact h.dom_up hn hd (h.semi_anc hw hn hs) ((h.anc_semi_of_dom hn hs hc hd).le h.down)

/-- The vertex of least semidominator on the way gives the dominator. -/
lemma SpanTree.isIdom_of_least (hn : w < n) (hs : IsSemi E w s) {t : ℕ} (hu : Anc p u w) (hsu : s < u) (ht : IsSemi E u t)
    (hmin : ∀ y, Anc p y w → s < y → ∀ x, Above E y x → t ≤ x) (hd : IsIdom E 0 d u) : IsIdom E 0 d w := by
  have huw := hu.le h.down
  have hun : u < n := huw.trans_lt hn
  have hdu : d < u := lt_of_le_of_ne ((h.anc_of_dom hun hd.dom).le h.down) hd.ne
  refine ⟨by omega, ?_, fun c hc hcw => ?_⟩
  · rw [dom_iff]
    intro ha
    obtain ⟨y, x, hyw, hdy, hxd, habove, hy⟩ := h.avoids_past ha (hdu.trans_le huw)
    rcases le_or_gt y u with hyu | huy
    · exact dom_iff.1 hd.dom (h.avoids_down hdy (hyw.of_le h.down hu hyu) hun hy)
    · have htx := hmin y hyw (hsu.trans huy) x habove
      have hdt := (h.anc_semi_of_dom hun ht hd.ne hd.dom).le h.down
      omega
  · have hcs := (h.anc_semi_of_dom hn hs hc hcw).le h.down
    exact hd.least c (by omega) (h.dom_up hn hcw hu (by omega))

end
end Dominators
