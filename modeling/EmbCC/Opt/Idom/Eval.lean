import EmbCC.Opt.Idom.Pass

/-!
# The forest of the linked numbers

The numbers from `m` up are linked to above, each to its parent at first and then, as paths are compressed, to numbers
further up. `Linked` is what holds for one number: its label has the smallest semidominator among
the numbers on the way to its link. `Forest.eval` is the rule for `lt_eval`: it keeps the forest, and returns the number with the
smallest semidominator among those on the way up that are linked.
-/

namespace EmbCC.Opt.Idom

open ParentTree Function List

/-- `x` is linked to `a`. -/
structure Linked (p : ℕ → ℕ) (m : ℕ) (s : Lt) (x a : ℕ) : Prop where
  anc : s.anc x = some a
  lt : a < x
  up : Anc p a x
  near : a < m → ∀ y, Anc p y x → a < y → m ≤ y
  label_anc : Anc p (s.label x) x
  label_gt : a < s.label x
  least : ∀ y, Anc p y x → a < y → s.semi (s.label x) ≤ s.semi y

/-- The numbers from `m` up are linked, and the others are not. -/
structure Forest (p : ℕ → ℕ) (n m : ℕ) (s : Lt) : Prop where
  root : ∀ x < m, s.anc x = none
  label : ∀ x < m, s.label x = x
  link : ∀ x, m ≤ x → x < n → ∃ a, Linked p m s x a

/-- The arrays that `lt_eval` does not write. -/
structure Same (s s' : Lt) : Prop where
  semi : s'.semi = s.semi
  bucket : s'.bucket = s.bucket
  idom : s'.idom = s.idom

lemma Same.refl (s : Lt) : Same s s := ⟨rfl, rfl, rfl⟩

lemma Same.trans {s s' s'' : Lt} (h : Same s s') (h' : Same s' s'') : Same s s'' :=
  ⟨h'.semi.trans h.semi, h'.bucket.trans h.bucket, h'.idom.trans h.idom⟩

variable {p : ℕ → ℕ} {n m a b x y : ℕ} {s s' : Lt}

lemma Linked.ge (h : Linked p m s x a) (hy : Anc p y x) (hay : a < y) : m ≤ y := by
  rcases Nat.lt_or_ge a m with ham | hma
  · exact h.near ham y hy hay
  · exact hma.trans hay.le

lemma Linked.congr (h : Linked p m s x a) (hanc : s'.anc x = s.anc x) (hlabel : s'.label x = s.label x)
    (hsemi : ∀ y, m ≤ y → s'.semi y = s.semi y) : Linked p m s' x a where
  anc := hanc.trans h.anc
  lt := h.lt
  up := h.up
  near := h.near
  label_anc := hlabel ▸ h.label_anc
  label_gt := hlabel ▸ h.label_gt
  least := by
    intro y hy hay
    rw [hlabel, hsemi _ (h.ge h.label_anc h.label_gt), hsemi y (h.ge hy hay)]
    exact h.least y hy hay

lemma Forest.lt_of_root (h : Forest p n m s) (hx : x < n) (hanc : s.anc x = none) : x < m := by
  by_contra hm
  obtain ⟨a, ha⟩ := h.link x (not_lt.1 hm) hx
  exact absurd (hanc.symm.trans ha.anc) (by simp)

lemma ltCompress_same (s : Lt) (x : ℕ) : Same s (ltCompress s x) := by
  rw [ltCompress]
  cases s.anc x with
  | none => exact .refl s
  | some a => exact ⟨rfl, rfl, rfl⟩

lemma ltCompress_of_ne (s : Lt) (hy : y ≠ x) : (ltCompress s x).anc y = s.anc y ∧ (ltCompress s x).label y = s.label y := by
  rw [ltCompress]
  cases s.anc x with
  | none => exact ⟨rfl, rfl⟩
  | some a =>
    refine ⟨update_of_ne hy _ _, ?_⟩
    show (if _ then _ else _ : ℕ → ℕ) y = _
    split
    · exact update_of_ne hy _ _
    · rfl

lemma ltCompress_self (hanc : s.anc x = some a) : (ltCompress s x).anc x = s.anc a ∧
      (ltCompress s x).label x = if s.semi (s.label a) < s.semi (s.label x) then s.label a else s.label x := by
  rw [ltCompress, hanc]
  refine ⟨update_self _ _ _, ?_⟩
  show (if _ then _ else _ : ℕ → ℕ) x = _
  split
  · exact update_self _ _ _
  · rfl

lemma Linked.compress (hp : Down p) (hx : Linked p m s x a) (ha : Linked p m s a b) : Linked p m (ltCompress s x) x b := by
  obtain ⟨hanc, hlabel⟩ := ltCompress_self hx.anc
  have hbx : b < x := ha.lt.trans hx.lt
  refine ⟨hanc.trans ha.anc, hbx, ha.up.trans hx.up, fun hb y hy hby => ?_, ?_, ?_, fun y hy hby => ?_⟩
  · rcases Nat.lt_or_ge a y with hay | hya
    · exact hx.ge hy hay
    · exact ha.near hb y (hy.of_le hp hx.up hya) hby
  · rw [hlabel]
    split
    · exact ha.label_anc.trans hx.up
    · exact hx.label_anc
  · rw [hlabel]
    split
    · exact ha.label_gt
    · exact ha.lt.trans hx.label_gt
  · rw [hlabel, (ltCompress_same s x).semi]
    have hle : s.semi (s.label a) ≤ s.semi y ∨ s.semi (s.label x) ≤ s.semi y := by
      rcases Nat.lt_or_ge a y with hay | hya
      · exact .inr (hx.least y hy hay)
      · exact .inl (ha.least y (hy.of_le hp hx.up hya) hby)
    split <;> omega

lemma Forest.compress (hp : Down p) (h : Forest p n m s) (hx : Linked p m s x a) (ha : Linked p m s a b) :
    Forest p n m (ltCompress s x) := by
  have hmx : m ≤ x := hx.ge (.refl p x) hx.lt
  refine ⟨fun y hy => ?_, fun y hy => ?_, fun y hmy hyn => ?_⟩
  · rw [(ltCompress_of_ne s (hy.trans_le hmx).ne).1]
    exact h.root y hy
  · rw [(ltCompress_of_ne s (hy.trans_le hmx).ne).2]
    exact h.label y hy
  · by_cases hyx : y = x
    · rw [hyx]
      exact ⟨b, hx.compress hp ha⟩
    · obtain ⟨c, hc⟩ := h.link y hmy hyn
      obtain ⟨hanc, hlabel⟩ := ltCompress_of_ne s hyx
      exact ⟨c, hc.congr hanc hlabel fun z _ => congrFun (ltCompress_same s x).semi z⟩

lemma ltChain_append (anc : ℕ → Option ℕ) (k x : ℕ) (stk : List ℕ) : ltChain anc k x stk = ltChain anc k x [] ++ stk := by
  induction k generalizing x stk with
  | zero => rfl
  | succ k ih =>
    rw [ltChain, ltChain]
    cases anc x with
    | none => rfl
    | some a =>
      dsimp only
      split
      · rw [ih a (x :: stk), ih a [x], append_assoc, singleton_append]
      · rfl

/-- What the loops of `lt_eval` leave. -/
structure Compressed (p : ℕ → ℕ) (n m x : ℕ) (s s' : Lt) : Prop where
  forest : Forest p n m s'
  same : Same s s'
  root : ∃ b < m, Linked p m s' x b
  keep : ∀ y > x, s'.anc y = s.anc y

/-- Compressing a path keeps the least semidominator on it. -/
lemma Forest.compressed (hp : Down p) (h : Forest p n m s) {k : ℕ} (hk : x ≤ k) (hm : m ≤ x) (hn : x < n) :
    Compressed p n m x s ((ltChain s.anc k x []).foldl ltCompress s) := by
  induction k generalizing x with
  | zero =>
    obtain ⟨a, ha⟩ := h.link x hm hn
    exact absurd (ha.lt.trans_le hk) (Nat.not_lt_zero a)
  | succ k ih =>
    obtain ⟨a, hx⟩ := h.link x hm hn
    have han : a < n := hx.lt.trans hn
    rw [ltChain, hx.anc]
    dsimp only
    split
    · rename_i hsome
      have hma : m ≤ a := by
        by_contra hlt
        rw [h.root a (not_le.1 hlt)] at hsome
        exact absurd hsome (by simp)
      have ha := ih (by have := hx.lt; omega) hma han
      rw [ltChain_append, foldl_append, foldl_cons, foldl_nil]
      generalize (ltChain s.anc k a []).foldl ltCompress s = s1 at ha
      obtain ⟨b, hb, hab⟩ := ha.root
      obtain ⟨a', hx'⟩ := ha.forest.link x hm hn
      obtain rfl : a = a' := by
        have := hx'.anc
        rw [ha.keep x hx.lt, hx.anc] at this
        exact Option.some.inj this
      refine ⟨ha.forest.compress hp hx' hab, ha.same.trans (ltCompress_same s1 x), ⟨b, hb, hx'.compress hp hab⟩,
        fun y hy => ?_⟩
      rw [(ltCompress_of_ne s1 hy.ne').1, ha.keep y (hx.lt.trans hy)]
    · rename_i hnone
      exact ⟨h, .refl s, ⟨a, h.lt_of_root han (Option.not_isSome_iff_eq_none.1 hnone), hx⟩, fun y _ => rfl⟩

/-- What `lt_eval` leaves and returns. -/
structure Evaluated (p : ℕ → ℕ) (n m v : ℕ) (s : Lt) (r : ℕ × Lt) : Prop where
  forest : Forest p n m r.2
  same : Same s r.2
  of_lt : v < m → r.1 = v
  anc : Anc p r.1 v
  ge : m ≤ v → m ≤ r.1
  least : ∀ y, Anc p y v → m ≤ y → s.semi r.1 ≤ s.semi y

lemma Forest.eval (hp : Down p) (h : Forest p n m s) {v : ℕ} (hv : v < n) : Evaluated p n m v s (ltEval s v) := by
  rw [ltEval]
  rcases Nat.lt_or_ge v m with hvm | hmv
  · rw [h.root v hvm]
    refine ⟨h, .refl s, fun _ => rfl, .refl p v, fun hm => hm, fun y hy hm => ?_⟩
    have := hy.le hp
    omega
  · obtain ⟨a, ha⟩ := h.link v hmv hv
    rw [ha.anc]
    have hc := h.compressed hp (le_refl v) hmv hv
    obtain ⟨b, hb, hvb⟩ := hc.root
    refine ⟨hc.forest, hc.same, fun hlt => absurd hlt (not_lt.2 hmv), hvb.label_anc,
      fun _ => hvb.ge hvb.label_anc hvb.label_gt, fun y hy hm => ?_⟩
    rw [← hc.same.semi]
    exact hvb.least y hy (hb.trans_le hm)

end EmbCC.Opt.Idom
