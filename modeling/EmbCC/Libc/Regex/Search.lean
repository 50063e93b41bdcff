import EmbCC.Libc.Regex.Language

/-!
# The matcher finds every end

`Ends` is what a chain of frames still has to match. `Searches` is what a call of `match`
or `next` does to the state: it finds only ends there are, and unless it stops early all
of them up to the best. The rules below follow how the code puts searches together
(`orElse`, `tick`, the loops), and `search_spec` is the induction over the calls.
-/

namespace EmbCC.Libc.Regex
variable {m : Text}

/-- The chain of frames can go from `i` to the end `j`. -/
def Ends (m : Text) : List Frame → ℕ → ℕ → Prop
  | [], i, j => i = j
  | .seq kids :: k, i, j => ∃ p, MatchesCat m kids i p ∧ Ends m k p j
  | .group _ _ :: k, i, j => Ends m k i j
  | .rep min max kid idx start :: k, i, j =>
    ¬(i = start ∧ min < idx + 1) ∧ ∃ p, RepFrom (Matches m kid) min max (idx + 1) i p ∧ Ends m k p j

/-- No back-reference in a frame, and room for the iteration that is under way. -/
def Frame.Ok : Frame → Prop
  | .seq kids => noBrefs kids
  | .group _ _ => True
  | .rep _ max kid idx _ => kid.noBref ∧ below idx max

/-- What a search for the ends `T` does: from the state `st`, the result `r`. -/
structure Searches (m : Text) (T : ℕ → Prop) (st : State) (r : Bool × State) : Prop where
  quiet : r.1 = false → r.2.spent = st.spent
  sound : r.2.found = true → (st.found = true ∧ r.2.bestEnd = st.bestEnd) ∨ T r.2.bestEnd
  keep : st.found = true → r.2.found = true ∧ st.bestEnd ≤ r.2.bestEnd
  all : r.1 = false → ∀ j, T j → r.2.found = true ∧ j ≤ r.2.bestEnd
  stop : r.1 = true → st.spent = false → r.2.spent = false →
    r.2.found = true ∧ (m.firstOnly = true ∨ m.hi ≤ r.2.bestEnd)

namespace Searches
variable {T T1 T2 : ℕ → Prop} {st : State} {r : Bool × State}

lemma congr (h : Searches m T1 st r) (hT : ∀ j, T2 j ↔ T1 j) : Searches m T2 st r where
  quiet := h.quiet
  sound hf := (h.sound hf).imp_right (hT _).2
  keep := h.keep
  all hr j hj := h.all hr j ((hT j).1 hj)
  stop := h.stop

lemma none (hT : ∀ j, ¬T j) (st : State) : Searches m T st (false, st) where
  quiet _ := rfl
  sound hf := .inl ⟨hf, rfl⟩
  keep hf := ⟨hf, le_rfl⟩
  all _ j hj := absurd hj (hT j)
  stop h := by cases h

lemma giveUp (T : ℕ → Prop) (st : State) (n : ℕ) :
    Searches m T st (true, { st with steps := n, spent := true }) where
  quiet h := by cases h
  sound hf := .inl ⟨hf, rfl⟩
  keep hf := ⟨hf, le_rfl⟩
  all h := by cases h
  stop _ _ h := by cases h

lemma orElse {f : State → Bool × State} (h1 : Searches m T1 st r) (h2 : ∀ st', Searches m T2 st' (f st'))
    (hT : ∀ j, T j ↔ T1 j ∨ T2 j) : Searches m T st (Regex.orElse r f) := by
  rw [Regex.orElse]
  split_ifs with hr
  · exact { quiet := h1.quiet
            sound := fun hf => (h1.sound hf).imp_right fun h => (hT _).2 (.inl h)
            keep := h1.keep
            all := fun h => by rw [hr] at h; cases h
            stop := h1.stop }
  · have hr : r.1 = false := by simpa using hr
    have h2 := h2 r.2
    refine ⟨fun h => (h2.quiet h).trans (h1.quiet hr), fun hf => ?_, fun hf => ?_, fun h j hj => ?_,
      fun h hs => h2.stop h ((h1.quiet hr).trans hs)⟩
    · rcases h2.sound hf with ⟨hf1, heq⟩ | hT2
      · rw [heq]
        exact (h1.sound hf1).imp_right fun h => (hT _).2 (.inl h)
      · exact .inr ((hT _).2 (.inr hT2))
    · obtain ⟨hf1, hle⟩ := h1.keep hf
      obtain ⟨hf2, hle'⟩ := h2.keep hf1
      exact ⟨hf2, hle.trans hle'⟩
    · rcases (hT j).1 hj with hj | hj
      · obtain ⟨hf1, hle⟩ := h1.all hr j hj
        obtain ⟨hf2, hle'⟩ := h2.keep hf1
        exact ⟨hf2, hle.trans hle'⟩
      · exact h2.all h j hj

lemma tick {f : State → Bool × State} (h : ∀ st', Searches m T st' (f st')) (st : State) :
    Searches m T st (Regex.tick st f) := by
  rw [Regex.tick]
  split_ifs
  · exact giveUp T st (st.steps + 1)
  · have h := h { st with steps := st.steps + 1 }
    exact ⟨h.quiet, h.sound, h.keep, h.all, h.stop⟩

lemma tryAll {α : Type} {f : α → State → Bool × State} {S : α → ℕ → Prop} {as : List α}
    (h : ∀ a ∈ as, ∀ st, Searches m (S a) st (f a st)) (st : State) :
    Searches m (fun j => ∃ a ∈ as, S a j) st (Regex.tryAll (as.map f) st) := by
  induction as generalizing st with
  | nil => exact none (by simp) st
  | cons a as ih =>
    exact orElse (h a List.mem_cons_self st) (fun st' => ih (fun b hb => h b (List.mem_cons_of_mem a hb)) st') (by simp)

lemma giveBack {min : ℕ} {f : ℕ → State → Bool × State} {S : ℕ → ℕ → Prop} (h : ∀ c st, Searches m (S c) st (f c st))
    (run : ℕ) (st : State) : Searches m (fun j => ∃ c, min ≤ c ∧ c ≤ run ∧ S c j) st (Regex.giveBack min f run st) := by
  induction run generalizing st with
  | zero =>
    rw [Regex.giveBack]
    split_ifs with hlt
    · exact none (fun j ⟨c, h1, h2, _⟩ => by omega) st
    · have hrest st' : Searches m (fun _ => False) st' (Regex.tick st' fun st => (false, st)) :=
        tick (none fun _ h => h) st'
      refine orElse (h 0 st) hrest fun j => ?_
      simp only [or_false, Nat.le_zero]
      exact ⟨fun ⟨c, _, hc, hS⟩ => hc ▸ hS, fun hS => ⟨0, by omega, rfl, hS⟩⟩
  | succ run ih =>
    rw [Regex.giveBack]
    split_ifs with hlt
    · exact none (fun j ⟨c, h1, h2, _⟩ => by omega) st
    · refine orElse (h (run + 1) st) (fun st' => tick ih st') fun j => ?_
      constructor
      · rintro ⟨c, h1, h2, hS⟩
        rcases h2.eq_or_lt with rfl | h2
        · exact .inl hS
        · exact .inr ⟨c, h1, by omega, hS⟩
      · rintro (hS | ⟨c, h1, h2, hS⟩)
        · exact ⟨run + 1, by omega, le_rfl, hS⟩
        · exact ⟨c, h1, by omega, hS⟩

lemma ite {p : Prop} [Decidable p] (h : p → Searches m T1 st r) (hT : ∀ j, T j ↔ p ∧ T1 j) :
    Searches m T st (if p then r else (false, st)) := by
  split_ifs with hp
  · exact (h hp).congr fun j => (hT j).trans (and_iff_right hp)
  · exact none (fun j hj => hp ((hT j).1 hj).1) st

lemma done (i : ℕ) (st : State) : Searches m (fun j => i = j) st (Regex.done m i st) := by
  have hstop : (m.firstOnly || i == m.hi) = true → m.firstOnly = true ∨ i = m.hi := by simp
  rw [Regex.done]
  split_ifs with hnew
  · have hbest : st.found = true → st.bestEnd ≤ i := fun hf => by simp [hf] at hnew; omega
    exact { quiet := fun _ => rfl
            sound := fun _ => .inr rfl
            keep := fun hf => ⟨rfl, hbest hf⟩
            all := fun _ j hj => ⟨rfl, hj.ge⟩
            stop := fun h _ _ => ⟨rfl, (hstop h).imp_right Eq.ge⟩ }
  · obtain ⟨hf, hle⟩ : st.found = true ∧ i ≤ st.bestEnd := by simpa using hnew
    exact { quiet := fun _ => rfl
            sound := fun _ => .inl ⟨hf, rfl⟩
            keep := fun _ => ⟨hf, le_rfl⟩
            all := fun _ j hj => ⟨hf, hj ▸ hle⟩
            stop := fun h _ _ => ⟨hf, (hstop h).imp_right fun heq => heq.ge.trans hle⟩ }

lemma cap {c c' : ℕ → Span} (h : Searches m T { st with cap := c } r) :
    Searches m T st (r.1, { r.2 with cap := c' }) := ⟨h.quiet, h.sound, h.keep, h.all, h.stop⟩

end Searches

/-- What a call of `match` searches for. -/
def EndsVia (m : Text) (n : Node) (i : ℕ) (k : List Frame) (j : ℕ) : Prop :=
  ∃ p, Matches m n i p ∧ Ends m k p j

/-- A call of `next` searches for the ends of its chain. -/
def NextSpec (m : Text) (fuel : ℕ) : Prop :=
  ∀ k i st, (∀ f ∈ k, f.Ok) → Searches m (Ends m k i) st (next m fuel k i st)

/-- A call of `match` searches for the ends of its chain after its node. -/
def MatchSpec (m : Text) (fuel : ℕ) : Prop :=
  ∀ n i k st, n.noBref → (∀ f ∈ k, f.Ok) →
    Searches m (EndsVia m n i k) st (matchNode m fuel n i k st)

section
variable {fuel j : ℕ} {k : List Frame} {i : ℕ} {kids : List Node}

lemma repFrom_ends {min : ℕ} {max : Option ℕ} {count : ℕ} (kid : Node) (hmax : ∀ x ∈ max, count ≤ x)
    (j : ℕ) : (∃ p, RepFrom (Matches m kid) min max count i p ∧ Ends m k p j) ↔
      (below count max ∧ EndsVia m kid i (.rep min max kid count i :: k) j) ∨ (min ≤ count ∧ Ends m k i j) := by
  simp only [repFrom_step hmax, EndsVia, Ends]
  constructor
  · rintro ⟨p, ⟨hbelow, q, hq, hskip, hrep⟩ | ⟨hmin, rfl⟩, hends⟩
    · exact .inl ⟨hbelow, q, hq, hskip, p, hrep, hends⟩
    · exact .inr ⟨hmin, hends⟩
  · rintro (⟨hbelow, q, hq, hskip, p, hrep, hends⟩ | ⟨hmin, hends⟩)
    · exact ⟨p, .inl ⟨hbelow, q, hq, hskip, hrep⟩, hends⟩
    · exact ⟨i, .inr ⟨hmin, rfl⟩, hends⟩

lemma ends_seq {kid : Node} : (∃ p, MatchesCat m (kid :: kids) i p ∧ Ends m k p j) ↔ EndsVia m kid i (.seq kids :: k) j := by
  constructor
  · rintro ⟨p, ⟨q, hq, hp⟩, h⟩
    exact ⟨q, hq, p, hp, h⟩
  · rintro ⟨q, hq, p, hp, h⟩
    exact ⟨p, ⟨q, hq, hp⟩, h⟩

/-- The step of the induction on fuel, for the continuation. -/
lemma nextSpec_succ (hnext : NextSpec m fuel) (hmatch : MatchSpec m fuel) : NextSpec m (fuel + 1) := by
  rintro (_ | ⟨f, k⟩) i st hk
  · rw [next]
    exact (Searches.done i st).congr fun j => by rw [Ends]
  obtain ⟨hf, hrest⟩ := List.forall_mem_cons.1 hk
  cases f with
  | seq kids =>
    cases kids with
    | nil => exact (hnext k i st hrest).congr fun j => by simp [Ends, MatchesCat]
    | cons kid kids =>
      have hf : kid.noBref ∧ noBrefs kids := by simpa [Frame.Ok, noBrefs] using hf
      refine (hmatch kid i (.seq kids :: k) st hf.1 (List.forall_mem_cons.2 ⟨hf.2, hrest⟩)).congr fun j => ?_
      exact ends_seq
  | group g gstart => exact (hnext k i _ hrest).cap.congr fun j => by rw [Ends]
  | rep min max kid idx start =>
    rw [next]
    obtain ⟨hkid, hroom⟩ := hf
    by_cases hskip : i = start ∧ idx + 1 > min
    · rw [if_pos hskip]
      exact .none (fun j h => by rw [Ends] at h; exact h.1 hskip) st
    · rw [if_neg hskip]
      refine .orElse (.ite (fun hbelow => hmatch kid i _ st hkid ?_) fun j => Iff.rfl)
        (fun st' => .ite (fun _ => hnext k i st' hrest) fun j => Iff.rfl) fun j => ?_
      · exact List.forall_mem_cons.2 ⟨⟨hkid, hbelow⟩, hrest⟩
      · rw [Ends, and_iff_right hskip, repFrom_ends kid (below_iff.1 hroom)]

lemma endsVia_ite {n : Node} {b : Bool} {p : ℕ} (hn : ∀ q, Matches m n i q ↔ b ∧ q = p) (j : ℕ) :
    EndsVia m n i k j ↔ b ∧ Ends m k p j := by
  simp only [EndsVia, hn]
  constructor
  · rintro ⟨q, ⟨hb, rfl⟩, h⟩
    exact ⟨hb, h⟩
  · rintro ⟨hb, h⟩
    exact ⟨p, ⟨hb, rfl⟩, h⟩

lemma mem_noBrefs (h : noBrefs kids) : ∀ kid ∈ kids, kid.noBref := by
  induction kids with
  | nil => simp
  | cons kid kids ih =>
    have h : kid.noBref ∧ noBrefs kids := by simpa [noBrefs] using h
    exact List.forall_mem_cons.2 ⟨h.1, ih h.2⟩

lemma matchesAlt_iff : MatchesAlt m kids i j ↔ ∃ kid ∈ kids, Matches m kid i j := by
  induction kids with
  | nil => simp [MatchesAlt]
  | cons kid kids ih => simp [MatchesAlt, ih]

/-- The step of the induction on fuel, for the matcher, one case per node. -/
lemma matchSpec_succ (hnext : NextSpec m fuel) (hmatch : MatchSpec m fuel) : MatchSpec m (fuel + 1) := by
  intro n i k st hn hk
  refine Searches.tick (fun st => ?_) st
  have hanchor (hn : n.isAnchor) : Searches m (EndsVia m n i k) st
      (if anchorOk m n i then next m fuel k i st else (false, st)) :=
    .ite (fun _ => hnext k i st hk) (endsVia_ite fun q => by rw [matches_anchor hn, eq_comm (a := q)])
  have hchar (hn : n.isOne) : Searches m (EndsVia m n i k) st (if one m n i then next m fuel k (i + 1) st else (false, st)) :=
    .ite (fun _ => hnext k (i + 1) st hk) (endsVia_ite fun q => matches_one hn i q)
  cases n with
  | empty => exact (hnext k i st hk).congr fun j => by simp [EndsVia, Matches]
  | char c => exact hchar rfl
  | any => exact hchar rfl
  | set bits neg => exact hchar rfl
  | group num kid =>
    refine (hmatch kid i _ st (by simpa [Node.noBref] using hn) ?_).congr fun j => ?_
    · exact List.forall_mem_cons.2 ⟨trivial, hk⟩
    · simp only [EndsVia, Matches, Ends]
  | bref num => simp [Node.noBref] at hn
  | cat kids =>
    cases kids with
    | nil => exact (hnext k i st hk).congr fun j => by simp [EndsVia, Matches, MatchesCat]
    | cons kid kids =>
      have hn : kid.noBref ∧ noBrefs kids := by simpa [Node.noBref, noBrefs] using hn
      refine (hmatch kid i (.seq kids :: k) st hn.1 (List.forall_mem_cons.2 ⟨hn.2, hk⟩)).congr fun j => ?_
      exact (exists_congr fun p => by rw [Matches]).trans ends_seq
  | alt kids =>
    refine (Searches.tryAll (fun kid hkid st => hmatch kid i k st (mem_noBrefs hn kid hkid) hk) st).congr fun j => ?_
    simp only [EndsVia, Matches, matchesAlt_iff]
    constructor
    · rintro ⟨p, ⟨kid, hkid, hp⟩, h⟩
      exact ⟨kid, hkid, p, hp, h⟩
    · rintro ⟨kid, hkid, p, hp, h⟩
      exact ⟨p, ⟨kid, hkid, hp⟩, h⟩
  | rep min max kid =>
    by_cases hone : kid.isOne = true
    · simp only [if_pos hone]
      refine (Searches.giveBack (fun c st => hnext k (i + c) st hk) _ st).congr fun j => ?_
      simp only [EndsVia, Matches, repFrom_one hone]
      constructor
      · rintro ⟨p, ⟨c, h1, h2, hp⟩, h⟩
        exact ⟨c, h1, h2, hp ▸ h⟩
      · rintro ⟨c, h1, h2, h⟩
        exact ⟨i + c, ⟨c, h1, h2, rfl⟩, h⟩
    · simp only [if_neg hone]
      have hroom : max ≠ some 0 ↔ below 0 max := by cases max <;> simp [below, Nat.pos_iff_ne_zero]
      refine .orElse (.ite (fun hmax => hmatch kid i _ st hn ?_) fun j => Iff.rfl)
        (fun st' => .ite (fun _ => hnext k i st' hk) fun j => Iff.rfl) fun j => ?_
      · exact List.forall_mem_cons.2 ⟨⟨hn, hroom.1 hmax⟩, hk⟩
      · rw [EndsVia, hroom, ← Nat.le_zero, ← repFrom_ends kid (fun x _ => Nat.zero_le x)]
        simp only [Matches]
  | _ => exact hanchor rfl

lemma search_spec (m : Text) (fuel : ℕ) : NextSpec m fuel ∧ MatchSpec m fuel := by
  induction fuel with
  | zero =>
    refine ⟨fun k i st _ => ?_, fun n i k st _ _ => ?_⟩
    · rw [next]
      exact .giveUp _ st st.steps
    · rw [matchNode]
      exact .giveUp _ st st.steps
  | succ fuel ih => exact ⟨nextSpec_succ ih.1 ih.2, matchSpec_succ ih.1 ih.2⟩

end
end EmbCC.Libc.Regex
