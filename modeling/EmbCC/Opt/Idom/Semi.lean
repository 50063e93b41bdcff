import EmbCC.Opt.Idom.Eval

/-!
# The semidominators

The main loop of `compute_idom` goes from the highest number down. `Main` is what holds between two turns: the numbers from `m` up have their
semidominators, and each has the value from which its dominator follows (`Settled`) or waits for it
in the bucket of its semidominator. `Main.turn` is the step.
-/

namespace EmbCC.Opt.Idom

open ParentTree Dominators Function List
variable {p : ℕ → ℕ} {n m w v x y : ℕ} {E : ℕ → ℕ → Prop} {s s' s₀ : Lt} {l : List ℕ}

/-- After the predecessors in `l`. -/
structure Preds (p : ℕ → ℕ) (n : ℕ) (E : ℕ → ℕ → Prop) (w : ℕ) (s₀ : Lt) (l : List ℕ) (s : Lt) : Prop where
  forest : Forest p n (w + 1) s
  bucket : s.bucket = s₀.bucket
  idom : s.idom = s₀.idom
  semi : ∀ x ≠ w, s.semi x = s₀.semi x
  above : s.semi w = w ∨ Above E w (s.semi w)
  le_of_lt : ∀ v ∈ l, v < w → s.semi w ≤ v
  le_semi : ∀ v ∈ l, ∀ u, Anc p u v → w < u → s.semi w ≤ s₀.semi u

/-- Between two turns of the main loop, before the turn of `m - 1`. -/
structure Semis (n : ℕ) (E : ℕ → ℕ → Prop) (m : ℕ) (s : Lt) : Prop where
  low : ∀ x < m, s.semi x = x
  high : ∀ x, m ≤ x → x < n → IsSemi E x (s.semi x)

/-- What one predecessor changes: the semidominator of `w` is lowered to the one found. -/
structure Lowered (p : ℕ → ℕ) (n w u : ℕ) (s s' : Lt) : Prop where
  forest : Forest p n (w + 1) s'
  bucket : s'.bucket = s.bucket
  idom : s'.idom = s.idom
  semi : ∀ x ≠ w, s'.semi x = s.semi x
  self : s'.semi w = min (s.semi w) (s.semi u)

lemma ltSemi_lowered {r : ℕ × Lt} (h : Evaluated p n (w + 1) v s r) (hr : ltEval s v = r) :
    Lowered p n w r.1 s (ltSemi w s v) := by
  have hsemi x : r.2.semi x = s.semi x := congrFun h.same.semi x
  rw [ltSemi, hr]
  dsimp only
  split_ifs with hlow
  · rw [hsemi, hsemi] at hlow
    refine ⟨⟨h.forest.root, h.forest.label, fun x hx hn => ?_⟩, h.same.bucket, h.same.idom, fun x hx => ?_, ?_⟩
    · obtain ⟨a, ha⟩ := h.forest.link x hx hn
      exact ⟨a, ha.congr rfl rfl fun y hy => update_of_ne (by omega) _ _⟩
    · exact (update_of_ne hx _ _).trans (hsemi x)
    · rw [min_eq_right hlow.le, ← hsemi]
      exact update_self _ _ _
  · rw [hsemi, hsemi, not_lt] at hlow
    exact ⟨h.forest, h.same.bucket, h.same.idom, fun x _ => hsemi x, by rw [hsemi, min_eq_left hlow]⟩

section
variable (hT : SpanTree n E p) (h0 : Semis n E (w + 1) s₀)
include hT h0

/-- One predecessor of the loop for a semidominator. -/
lemma Preds.step (h : Preds p n E w s₀ l s) (he : E v w) : Preds p n E w s₀ (l ++ [v]) (ltSemi w s v) := by
  obtain ⟨hvn, -⟩ := hT.lt he
  have hev := h.forest.eval hT.down hvn
  have hlow := ltSemi_lowered hev rfl
  generalize ltEval s v = r at hev hlow
  obtain ⟨u, s1⟩ := r
  -- a predecessor below `w` gives itself, and one above it the least on the way to it
  have hlt (hvw : v < w) : s.semi u = v := by
    rw [show u = v from hev.of_lt (by omega), h.semi v hvw.ne]
    exact h0.low v (by omega)
  have hleast y (hy : Anc p y v) (hwy : w < y) : s.semi u ≤ s₀.semi y := by
    rw [← h.semi y hwy.ne']
    exact hev.least y hy hwy
  have habove (hne : v ≠ w) : Above E w (s.semi u) := by
    rcases lt_or_gt_of_ne hne with hvw | hwv
    · rw [hlt hvw]
      exact .edge he
    · have hwu : w < u := hev.ge hwv
      have hun : u < n := (hev.anc.le hT.down).trans_lt hvn
      rw [h.semi u hwu.ne']
      exact hT.above_of_pred hwu hev.anc he (h0.high u hwu hun).above
  refine ⟨hlow.forest, hlow.bucket.trans h.bucket, hlow.idom.trans h.idom,
    fun x hx => (hlow.semi x hx).trans (h.semi x hx), ?_, fun v' hv' hvw => ?_, fun v' hv' y hy hwy => ?_⟩
  · rw [hlow.self]
    rcases min_choice (s.semi w) (s.semi u) with hmin | hmin <;> rw [hmin]
    · exact h.above
    · by_cases hvw : v = w
      · rw [show u = v from hev.of_lt (by omega), hvw]
        exact h.above
      · exact .inr (habove hvw)
  · rw [hlow.self]
    rcases mem_append.1 hv' with hv' | hv'
    · exact (min_le_left _ _).trans (h.le_of_lt v' hv' hvw)
    · rw [mem_singleton.1 hv'] at hvw ⊢
      exact (min_le_right _ _).trans (hlt hvw).le
  · rw [hlow.self]
    rcases mem_append.1 hv' with hv' | hv'
    · exact (min_le_left _ _).trans (h.le_semi v' hv' y hy hwy)
    · rw [mem_singleton.1 hv'] at hy
      exact (min_le_right _ _).trans (hleast y hy hwy)

lemma preds_foldl (hf : Forest p n (w + 1) s₀) (hl : ∀ v ∈ l, E v w) : Preds p n E w s₀ l (l.foldl (ltSemi w) s₀) := by
  induction l using reverseRecOn with
  | nil =>
    exact ⟨hf, rfl, rfl, fun _ _ => rfl, .inl (h0.low w (Nat.lt_succ_self w)), fun v hv => absurd hv not_mem_nil,
      fun v hv => absurd hv not_mem_nil⟩
  | append_singleton l v ih =>
    rw [foldl_append]
    exact (ih fun v hv => hl v (mem_append_left _ hv)).step hT h0 (hl v (by simp))

lemma Preds.isSemi (h : Preds p n E w s₀ l s) (hw : 0 < w)
    (hn : w < n) (hl : ∀ v, E v w → v ∈ l) : IsSemi E w (s.semi w) := by
  have hparent : s.semi w ≤ p w := h.le_of_lt (p w) (hl _ (hT.edge hw hn)) (hT.down w hw)
  have hdown := hT.down w hw
  refine ⟨h.above.resolve_left (by omega), fun x hx => ?_⟩
  rcases hT.above_cases hx with he | ⟨u, v, hwu, huv, he, hxu⟩
  · rcases Nat.lt_or_ge x w with hxw | hwx
    · exact h.le_of_lt x (hl x he) hxw
    · omega
  · have hun : u < n := (huv.le hT.down).trans_lt (hT.lt he).1
    exact (h.le_semi v (hl v he) u huv hwu).trans ((h0.high u hwu hun).le x hxu)

end

/-- The value from which the dominator of `x` follows: its semidominator, where no number on the way has a smaller one, and
else a number on the way with the smallest. -/
structure Settled (p : ℕ → ℕ) (m : ℕ) (semi idom : ℕ → ℕ) (x : ℕ) : Prop where
  linked : ∀ y, Anc p y x → semi x < y → m ≤ y
  value : idom x = semi x ∧ (∀ y, Anc p y x → semi x < y → semi x ≤ semi y) ∨
    Anc p (idom x) x ∧ semi x < idom x ∧ semi (idom x) < semi x ∧
      ∀ y, Anc p y x → semi x < y → semi (idom x) ≤ semi y

lemma Settled.congr {semi semi' idom idom' : ℕ → ℕ} (h : Settled p m semi idom x) (hx : m ≤ x)
    (hsemi : ∀ y, m ≤ y → semi' y = semi y) (hidom : idom' x = idom x) {m' : ℕ} (hm : m' ≤ m) :
    Settled p m' semi' idom' x := by
  refine ⟨fun y hy hlt => hm.trans (h.linked y hy (hsemi x hx ▸ hlt)), ?_⟩
  rw [hidom, hsemi x hx]
  refine h.value.imp (fun ⟨he, hle⟩ => ⟨he, fun y hy hlt => ?_⟩) fun ⟨hanc, hgt, hlt, hle⟩ => ?_
  · rw [hsemi y (h.linked y hy hlt)]
    exact hle y hy hlt
  · rw [hsemi _ (h.linked _ hanc hgt)]
    refine ⟨hanc, hgt, hlt, fun y hy hlt => ?_⟩
    rw [hsemi y (h.linked y hy hlt)]
    exact hle y hy hlt

/-- After `l` of the bucket of the parent of `w`. -/
structure Drained (p : ℕ → ℕ) (n w : ℕ) (s₀ : Lt) (l : List ℕ) (s : Lt) : Prop where
  forest : Forest p n w s
  semi : s.semi = s₀.semi
  bucket : s.bucket = s₀.bucket
  settled : ∀ x ∈ l, Settled p w s.semi s.idom x
  keep : ∀ x, Settled p w s₀.semi s₀.idom x → Settled p w s.semi s.idom x

/-- One vertex of the bucket is given its dominator, or left to the last loop. -/
lemma Drained.step (hT : SpanTree n E p) (hw : 0 < w) (h : Drained p n w s₀ l s) (hwv : w ≤ v) (hvn : v < n)
    (hv : s₀.semi v = p w) : Drained p n w s₀ (l ++ [v]) (ltBucket (p w) s v) := by
  have hev := h.forest.eval hT.down hvn
  rw [ltBucket]
  generalize ltEval s v = r at hev
  obtain ⟨u, s1⟩ := r
  have hsemi : s1.semi = s.semi := hev.same.semi
  have hidom : s1.idom = s.idom := hev.same.idom
  have hsv : s.semi v = p w := by rw [h.semi, hv]
  -- on the way to `v` all are linked, so `u` has the smallest semidominator of them
  have hge y (hy : Anc p y v) (hlt : s.semi v < y) : w ≤ y := by
    by_contra hyw
    have hanc : Anc p y w := hT.convex hy (not_le.1 hyw).le hwv
    have hle := ((hanc.of_ne (not_le.1 hyw).ne).2).le hT.down
    omega
  have hleast y hy hlt : s.semi u ≤ s.semi y := hev.least y hy (hge y hy hlt)
  have hgt : s.semi v < u := hsv ▸ (hT.down w hw).trans_le (hev.ge hwv)
  have hnew : Settled p w s.semi (update s.idom v (if s.semi u < s.semi v then u else p w)) v := by
    refine ⟨hge, ?_⟩
    rw [update_self]
    split
    · rename_i hlt
      exact .inr ⟨hev.anc, hgt, hlt, hleast⟩
    · rename_i hle
      exact .inl ⟨hsv.symm, fun y hy hlt => (not_lt.1 hle).trans (hleast y hy hlt)⟩
  have hkeep {x : ℕ} (hx : Settled p w s.semi s.idom x) :
      Settled p w s.semi (update s.idom v (if s.semi u < s.semi v then u else p w)) x := by
    by_cases hxv : x = v
    · rw [hxv]
      exact hnew
    · refine ⟨hx.linked, ?_⟩
      rw [update_of_ne hxv]
      exact hx.value
  dsimp only
  refine ⟨⟨hev.forest.root, hev.forest.label, fun x hx hn => ?_⟩, hsemi.trans h.semi,
    hev.same.bucket.trans h.bucket, fun x hx => ?_, fun x hx => ?_⟩
  · obtain ⟨a, ha⟩ := hev.forest.link x hx hn
    exact ⟨a, ha.congr rfl rfl fun _ _ => rfl⟩
  · rw [hsemi, hidom]
    rcases mem_append.1 hx with hx | hx
    · exact hkeep (h.settled x hx)
    · rw [mem_singleton.1 hx]
      exact hnew
  · rw [hsemi, hidom]
    exact hkeep (h.keep x hx)

lemma drained_foldl (hT : SpanTree n E p) (hw : 0 < w) (hf : Forest p n w s)
    (hl : ∀ v ∈ l, w ≤ v ∧ v < n ∧ s.semi v = p w) : Drained p n w s l (l.foldl (ltBucket (p w)) s) := by
  induction l using reverseRecOn with
  | nil => exact ⟨hf, rfl, rfl, fun x hx => absurd hx not_mem_nil, fun x hx => hx⟩
  | append_singleton l v ih =>
    rw [foldl_append]
    obtain ⟨hwv, hvn, hv⟩ := hl v (by simp)
    exact (ih fun v hv => hl v (mem_append_left _ hv)).step hT hw hwv hvn hv

lemma Linked.mono {a m' : ℕ} (h : Linked p m s x a) (hm : m' ≤ m) : Linked p m' s x a :=
  { h with near := fun ha y hy hay => hm.trans (h.near (ha.trans_le hm) y hy hay) }

lemma Forest.link_parent (hp : Down p) (h : Forest p n (w + 1) s) (hw : 0 < w) :
    Forest p n w (ltLink (p w) (ltAdd s w) w) := by
  have hself {y : ℕ} (hy : Anc p y w) (hlt : p w < y) : y = w := by
    by_contra hne
    exact absurd ((hy.of_ne hne).2.le hp) (not_le.2 hlt)
  refine ⟨fun x hx => ?_, fun x hx => h.label x (by omega), fun x hx hn => ?_⟩
  · exact (update_of_ne hx.ne _ _).trans (h.root x (by omega))
  · rcases hx.eq_or_lt with rfl | hlt
    · have hlabel : s.label w = w := h.label w (Nat.lt_succ_self w)
      refine ⟨p w, update_self _ _ _, hp w hw, anc_parent hw, fun _ y hy hlt => (hself hy hlt).ge, ?_, ?_, fun y hy hlt => ?_⟩
      · exact hlabel.symm ▸ .refl p w
      · exact hlabel.symm ▸ hp w hw
      · rw [hself hy hlt]
        exact (congrArg s.semi hlabel).le
    · obtain ⟨a, ha⟩ := h.link x hlt hn
      exact ⟨a, (ha.mono (Nat.le_succ w)).congr (update_of_ne hlt.ne' _ _) rfl fun _ _ => rfl⟩

/-- `x` is in the bucket of its semidominator, and its turn to be looked at there is still to come. -/
def Waiting (p : ℕ → ℕ) (m : ℕ) (s : Lt) (x : ℕ) : Prop :=
  x ∈ s.bucket (s.semi x) ∧ ∀ c, Anc p c x → 0 < c → p c = s.semi x → c < m

/-- Between two turns of the main loop: the numbers from `m` up are done. -/
structure Main (p : ℕ → ℕ) (n : ℕ) (E : ℕ → ℕ → Prop) (m : ℕ) (s : Lt) : Prop where
  forest : Forest p n m s
  semis : Semis n E m s
  bucket : ∀ b, ∀ x ∈ s.bucket b, m ≤ x ∧ x < n ∧ s.semi x = b
  pending : ∀ x, m ≤ x → x < n → Settled p m s.semi s.idom x ∨ Waiting p m s x

/-- In the turn of `w`, before the bucket of its parent is looked at. -/
structure Added (p : ℕ → ℕ) (n : ℕ) (E : ℕ → ℕ → Prop) (w : ℕ) (s : Lt) : Prop where
  forest : Forest p n w s
  semis : Semis n E w s
  bucket : ∀ b, ∀ x ∈ s.bucket b, w ≤ x ∧ x < n ∧ s.semi x = b
  pending : ∀ x, w ≤ x → x < n → Settled p w s.semi s.idom x ∨
    x ∈ s.bucket (s.semi x) ∧ (s.semi x ≠ p w → Waiting p w s x)

lemma mem_ltAdd {b : ℕ} : x ∈ (ltAdd s w).bucket b ↔ x = w ∧ s.semi w = b ∨ x ∈ s.bucket b := by
  show x ∈ update s.bucket (s.semi w) (w :: s.bucket (s.semi w)) b ↔ _
  by_cases hb : s.semi w = b
  · subst hb
    simp
  · rw [update_of_ne (Ne.symm hb)]
    simp [hb]

/-- The vertex with its semidominator is put in a bucket and linked. -/
lemma Main.added (hT : SpanTree n E p) (h : Main p n E (w + 1) s₀) (hpreds : Preds p n E w s₀ l s) (hw : 0 < w) (hn : w < n)
    (hsemi : IsSemi E w (s.semi w)) : Added p n E w (ltLink (p w) (ltAdd s w) w) := by
  have hsame {x : ℕ} (hx : w < x) : s.semi x = s₀.semi x := hpreds.semi x hx.ne'
  refine ⟨hpreds.forest.link_parent hT.down hw, ⟨fun x hx => ?_, fun x hx hxn => ?_⟩, fun b x hx => ?_, fun x hx hxn => ?_⟩
  · exact (hpreds.semi x hx.ne).trans (h.semis.low x (by omega))
  · rcases hx.eq_or_lt with rfl | hlt
    · exact hsemi
    · exact (hsame hlt).symm ▸ h.semis.high x hlt hxn
  · rcases mem_ltAdd.1 hx with ⟨rfl, hb⟩ | hx
    · exact ⟨le_rfl, hn, hb⟩
    · rw [hpreds.bucket] at hx
      obtain ⟨hlt, hxn, hxb⟩ := h.bucket b x hx
      exact ⟨Nat.le_of_succ_le hlt, hxn, (hsame hlt).trans hxb⟩
  · show Settled p w s.semi s.idom x ∨ x ∈ (ltAdd s w).bucket (s.semi x) ∧
      (s.semi x ≠ p w → x ∈ (ltAdd s w).bucket (s.semi x) ∧ ∀ c, Anc p c x → 0 < c → p c = s.semi x → c < w)
    rcases hx.eq_or_lt with rfl | hlt
    · have hmem : w ∈ (ltAdd s w).bucket (s.semi w) := mem_ltAdd.2 (.inl ⟨rfl, rfl⟩)
      refine .inr ⟨hmem, fun hne => ⟨hmem, fun c hc _ hpc => lt_of_le_of_ne (hc.le hT.down) ?_⟩⟩
      rintro rfl
      exact hne hpc.symm
    · rcases h.pending x hlt hxn with hset | ⟨hmem, hchild⟩
      · exact .inl (hset.congr hlt (fun y hy => hsame hy) (by rw [hpreds.idom]) (Nat.le_succ w))
      · rw [← hsame hlt] at hmem hchild
        rw [← hpreds.bucket] at hmem
        have hmem' : x ∈ (ltAdd s w).bucket (s.semi x) := mem_ltAdd.2 (.inr hmem)
        refine .inr ⟨hmem', fun hne => ⟨hmem', fun c hc hc0 hpc => ?_⟩⟩
        have hcw : c ≠ w := fun hcw => hne (hcw ▸ hpc.symm)
        have := hchild c hc hc0 hpc
        omega

lemma Added.drain (hT : SpanTree n E p) (h : Added p n E w s) (hw : 0 < w) :
    Main p n E w (ltEmpty (p w) ((s.bucket (p w)).foldl (ltBucket (p w)) s)) := by
  have hdrain := drained_foldl hT hw h.forest fun v hv => h.bucket (p w) v hv
  generalize (s.bucket (p w)).foldl (ltBucket (p w)) s = s' at hdrain
  have hsemi : (ltEmpty (p w) s').semi = s.semi := hdrain.semi
  have hbucket {b : ℕ} (hb : b ≠ p w) : (ltEmpty (p w) s').bucket b = s.bucket b := by
    rw [← hdrain.bucket]
    exact update_of_ne hb _ _
  refine ⟨⟨hdrain.forest.root, hdrain.forest.label, fun x hx hxn => ?_⟩, ⟨hsemi ▸ h.semis.low, hsemi ▸ h.semis.high⟩,
    fun b x hx => ?_, fun x hx hxn => ?_⟩
  · obtain ⟨a, ha⟩ := hdrain.forest.link x hx hxn
    exact ⟨a, ha.congr rfl rfl fun _ _ => rfl⟩
  · by_cases hb : b = p w
    · rw [hb, show (ltEmpty (p w) s').bucket (p w) = [] from update_self _ _ _] at hx
      exact absurd hx not_mem_nil
    · rw [hbucket hb] at hx
      exact hsemi ▸ h.bucket b x hx
  · rcases h.pending x hx hxn with hset | ⟨hmem, hwait⟩
    · exact .inl (hdrain.keep x hset)
    · by_cases hb : s.semi x = p w
      · exact .inl (hdrain.settled x (hb ▸ hmem))
      · refine .inr ⟨?_, ?_⟩
        · rw [hsemi, hbucket hb]
          exact hmem
        · rw [hsemi]
          exact (hwait hb).2

lemma Main.turn (hT : SpanTree n E p) (h : Main p n E (w + 1) s) (hw : 0 < w) (hn : w < n)
    (hl : ∀ v, v ∈ l ↔ E v w) : Main p n E w (ltDrain (p w) (l.foldl (ltSemi w) s) w) := by
  have hpreds := preds_foldl hT h.semis h.forest fun v hv => (hl v).1 hv
  have hsemi := hpreds.isSemi hT h.semis hw hn fun v hv => (hl v).2 hv
  exact (h.added hT hpreds hw hn hsemi).drain hT hw

lemma main_init (hn : n ≤ m) : Main p n E m ltInit where
  forest := ⟨fun _ _ => rfl, fun _ _ => rfl, fun _ hx hxn => absurd (hn.trans hx) (not_le.2 hxn)⟩
  semis := ⟨fun _ _ => rfl, fun _ hx hxn => absurd (hn.trans hx) (not_le.2 hxn)⟩
  bucket := fun _ _ hx => absurd hx not_mem_nil
  pending := fun _ hx hxn => absurd (hn.trans hx) (not_le.2 hxn)

lemma Main.settled (hT : SpanTree n E p) (h : Main p n E 1 s) (hx : 0 < x) (hxn : x < n) : Settled p 1 s.semi s.idom x := by
  refine (h.pending x hx hxn).resolve_right fun ⟨_, hchild⟩ => ?_
  have hs := h.semis.high x hx hxn
  obtain ⟨c, hc, hc0, hpc⟩ := (hT.semi_anc hx hxn hs).exists_child (hT.semi_lt hx hxn hs).ne
  exact absurd (hchild c hc hc0 hpc) (by omega)

end EmbCC.Opt.Idom
