import EmbCC.Libc.Regex.Search
import EmbCC.Libc.Regex.Depth

/-!
# regexec finds the leftmost longest match

`attempt_spec` is what one start position gives, and `searchFrom_spec` what the loop over
them gives: the first that matches, with the longest end. An offset is reported as an
`int`, so a call is exact just where the match it reports ends below `2 ^ 31`
(`regexec_exact_iff`).
-/

namespace EmbCC.Libc.Regex

open List
variable {m : Text} {i j : ℕ} {pg : Prog}

lemma iter_bounds {R : ℕ → ℕ → Prop} {hi : ℕ} (hR : ∀ i j, i ≤ hi → R i j → i ≤ j ∧ j ≤ hi) {c : ℕ}
    (hi' : i ≤ hi) (h : iter R c i j) : i ≤ j ∧ j ≤ hi := by
  induction c generalizing i with
  | zero => rw [iter] at h; omega
  | succ c ih =>
    obtain ⟨p, hp, hrest⟩ := h
    have h1 := hR i p hi' hp
    have h2 := ih h1.2 hrest
    omega

mutual

lemma matches_bounds : ∀ (n : Node) (i j : ℕ), i ≤ m.hi → Matches m n i j → i ≤ j ∧ j ≤ m.hi
  | .char _, i, j, hi, h | .any, i, j, hi, h | .set _ _, i, j, hi, h => by
    rw [Matches] at h
    omega
  | .bol, i, j, hi, h | .eol, i, j, hi, h | .wordb, i, j, hi, h | .nwordb, i, j, hi, h
  | .wbeg, i, j, hi, h | .wend, i, j, hi, h | .bufbeg, i, j, hi, h | .bufend, i, j, hi, h => by
    rw [Matches] at h
    have := h.1
    omega
  | .empty, i, j, hi, h => by
    rw [Matches] at h
    omega
  | .bref _, _, _, _, h => by rw [Matches] at h; cases h
  | .group _ kid, i, j, hi, h => by
    rw [Matches] at h
    exact matches_bounds kid i j hi h
  | .cat kids, i, j, hi, h => by
    rw [Matches] at h
    exact matchesCat_bounds kids i j hi h
  | .alt kids, i, j, hi, h => by
    rw [Matches] at h
    exact matchesAlt_bounds kids i j hi h
  | .rep _ _ kid, i, j, hi, h => by
    rw [Matches] at h
    obtain ⟨c, hc, -⟩ := h
    exact iter_bounds (matches_bounds kid) hi hc

lemma matchesCat_bounds : ∀ (kids : List Node) (i j : ℕ), i ≤ m.hi → MatchesCat m kids i j → i ≤ j ∧ j ≤ m.hi
  | [], i, j, hi, h => by
    rw [MatchesCat] at h
    omega
  | kid :: kids, i, j, hi, h => by
    rw [MatchesCat] at h
    obtain ⟨p, hp, hrest⟩ := h
    have h1 := matches_bounds kid i p hi hp
    have h2 := matchesCat_bounds kids p j h1.2 hrest
    omega

lemma matchesAlt_bounds : ∀ (kids : List Node) (i j : ℕ), i ≤ m.hi → MatchesAlt m kids i j → i ≤ j ∧ j ≤ m.hi
  | [], _, _, _, h => by rw [MatchesAlt] at h; cases h
  | kid :: kids, i, j, hi, h => by
    rw [MatchesAlt] at h
    rcases h with h | h
    · exact matches_bounds kid i j hi h
    · exact matchesAlt_bounds kids i j hi h

end

/-- The tree of a compiled pattern: branches, each a sequence. -/
def Prog.Built (pg : Prog) : Prop := ∃ branches : List (List Node), pg.root = .alt (branches.map .cat)

lemma anchored_matches (hpg : pg.Built) (ha : pg.anchored) (hnl : m.newline = pg.newline)
    (h : Matches m pg.root i j) : i = m.lo ∨ i = 0 := by
  obtain ⟨branches, hroot⟩ := hpg
  simp only [Prog.anchored, hroot, Node.kids] at ha
  rw [hroot, Matches, matchesAlt_iff] at h
  match branches with
  | [] => simp at h
  | _ :: _ :: _ => simp at ha
  | [kids] =>
    obtain ⟨b, hb, h⟩ := h
    obtain rfl : b = .cat kids := by simpa using hb
    rw [Matches] at h
    match kids with
    | [] => simp at ha
    | kid :: kids =>
      obtain ⟨p, hp, -⟩ := h
      cases kid with
      | bufbeg => exact .inl hp.2
      | bol =>
        rw [Matches, hnl] at hp
        have ha : pg.newline = false := by simpa using ha
        simp only [ha] at hp
        rcases hp.2 with h | h
        · exact .inr h.1
        · simp at h
      | _ => simp at ha

/-- The state after trying `start`. -/
abbrev attempt (m : Text) (n : Node) (start : ℕ) : State := (matchNode m callDepth n start [] {}).2

section
variable {n : Node} (hn : n.noBref) {start j : ℕ}

include hn

lemma attempt_searches : Searches m (Matches m n start) {} (matchNode m callDepth n start [] {}) :=
  ((search_spec m callDepth).2 n start [] {} hn (by simp)).congr fun j => by simp [EndsVia, Ends]

lemma attempt_sound (hf : (attempt m n start).found = true) : Matches m n start (attempt m n start).bestEnd :=
  ((attempt_searches hn).sound hf).resolve_left fun h => by cases h.1

lemma attempt_found (hs : (attempt m n start).spent = false) (h : Matches m n start j) :
    (attempt m n start).found = true := by
  cases hr : (matchNode m callDepth n start [] {}).1 with
  | false => exact ((attempt_searches hn).all hr j h).1
  | true => exact ((attempt_searches hn).stop hr rfl hs).1

lemma attempt_longest (hs : (attempt m n start).spent = false) (hall : m.firstOnly = false)
    (hstart : start ≤ m.hi) (h : Matches m n start j) : j ≤ (attempt m n start).bestEnd := by
  cases hr : (matchNode m callDepth n start [] {}).1 with
  | false => exact ((attempt_searches hn).all hr j h).2
  | true =>
    obtain ⟨-, hfirst | hend⟩ := (attempt_searches hn).stop hr rfl hs
    · rw [hall] at hfirst
      cases hfirst
    · exact (matches_bounds n start j hstart h).2.trans hend

end

/-- The tree matches between two positions of the string. -/
def MatchAt (m : Text) (n : Node) (i j : ℕ) : Prop := m.lo ≤ i ∧ i ≤ j ∧ j ≤ m.hi ∧ Matches m n i j

/-- The search from a start on: the first start that matches, with its longest match, or none. -/
lemma searchFrom_spec (hpg : pg.Built) (hn : pg.root.noBref) (hnl : m.newline = pg.newline) (nmatch : ℕ) {start : ℕ}
    (hstart : m.lo ≤ start) (hbefore : ∀ i j, MatchAt m pg.root i j → start ≤ i) {len : ℕ} (hlen : start + len = m.hi + 1) :
    match searchFrom m pg nmatch (range' start len) with
    | .ok report => ∃ i, (∃ j, MatchAt m pg.root i j) ∧ (∀ i' j, MatchAt m pg.root i' j → i ≤ i') ∧
        (attempt m pg.root i).spent = false ∧ (attempt m pg.root i).found = true ∧
        (0 < nmatch → report.head? = some (regoff i, regoff (attempt m pg.root i).bestEnd))
    | .error e => e = regEspace ∨ e = regNomatch ∧ ∀ i j, ¬MatchAt m pg.root i j := by
  induction len generalizing start with
  | zero =>
    refine .inr ⟨rfl, fun i j h => ?_⟩
    have := hbefore i j h
    obtain ⟨-, h1, h2, -⟩ := h
    omega
  | succ len ih =>
    rw [range'_succ, searchFrom]
    by_cases hspent : (attempt m pg.root start).spent = true
    · simp only [if_pos hspent]
      exact .inl trivial
    have hs : (attempt m pg.root start).spent = false := by simpa using hspent
    by_cases hfound : (attempt m pg.root start).found = true
    · have hm := attempt_sound hn hfound
      have hb := matches_bounds pg.root start _ (by omega) hm
      simp only [if_neg hspent, if_pos hfound]
      refine ⟨start, ⟨_, hstart, hb.1, hb.2, hm⟩, hbefore, hs, hfound, fun hpos => ?_⟩
      obtain ⟨k, rfl⟩ := Nat.exists_eq_succ_of_ne_zero hpos.ne'
      have h0 : regoff 0 = 0 := rfl
      simp [range_succ_eq_map, h0]
    have hlater : ∀ i j, MatchAt m pg.root i j → start + 1 ≤ i := fun i j h => by
      have hi := hbefore i j h
      rcases hi.eq_or_lt with rfl | hi
      · exact absurd (attempt_found hn hs h.2.2.2) hfound
      · exact hi
    by_cases ha : pg.anchored = true
    · simp only [if_neg hspent, if_neg hfound, if_pos ha]
      refine .inr ⟨trivial, fun i j h => ?_⟩
      have := hlater i j h
      rcases anchored_matches hpg ha hnl h.2.2.2 with h | h <;> omega
    · simp only [if_neg hspent, if_neg hfound, if_neg ha]
      exact ih (by omega) hlater (by omega)

/-- `i` is the least place where a match starts, and `j` the last place where one that starts there ends. -/
def LeftmostLongest (m : Text) (n : Node) (i j : ℕ) : Prop :=
  IsLeast {i | ∃ j, MatchAt m n i j} i ∧ IsGreatest {j | MatchAt m n i j} j

/-- The call succeeds where there is a match, and reports the leftmost longest, with `off` of its offsets. -/
def Reports (off : ℕ → ℤ) (pg : Prog) (s : List UInt8) (nmatch : ℕ) (range : Option (ℕ × ℕ))
    (notbol noteol : Bool) : Prop :=
  let m := pg.text s (pg.reported nmatch) range notbol noteol
  ((∃ report, regexec pg s nmatch range notbol noteol = .ok report) ↔ ∃ i j, MatchAt m pg.root i j) ∧
    ∀ report, regexec pg s nmatch range notbol noteol = .ok report → 0 < pg.reported nmatch →
      ∃ i j : ℕ, report.head? = some (off i, off j) ∧ LeftmostLongest m pg.root i j

/-- The call did what it is for: the offsets it reports are the offsets. -/
abbrev Exact := Reports Nat.cast

lemma regoff_eq_iff : regoff i = i ↔ i < 2 ^ 31 := by
  constructor
  · intro h
    have hlt : Int.bmod i 4294967296 < 2147483648 := Int.bmod_lt (by decide)
    have heq : Int.bmod i 4294967296 = i := h
    omega
  · intro h
    apply Int.bmod_eq_of_le_mul_two <;> omega

section
variable (hpg : pg.Built) (hn : pg.root.noBref) {s : List UInt8} {nmatch : ℕ} {range : Option (ℕ × ℕ)}
  {notbol noteol : Bool} (hspace : regexec pg s nmatch range notbol noteol ≠ .error regEspace)
include hpg hn hspace

/-- Every call is right but for the cast of what it reports. -/
lemma regexec_report : Reports regoff pg s nmatch range notbol noteol := by
  have hfirst : 0 < pg.reported nmatch → (pg.text s (pg.reported nmatch) range notbol noteol).firstOnly = false := fun h => by
    simp [Prog.text, h.ne']
  have hnl : (pg.text s (pg.reported nmatch) range notbol noteol).newline = pg.newline := rfl
  simp only [Reports, LeftmostLongest]
  rw [regexec] at *
  generalize pg.text s (pg.reported nmatch) range notbol noteol = m at *
  by_cases hrange : m.lo ≤ m.hi
  · have hspec := searchFrom_spec hpg hn hnl (pg.reported nmatch) (le_refl m.lo) (fun i j h => h.1)
      (show m.lo + (m.hi + 1 - m.lo) = m.hi + 1 by omega)
    cases hres : searchFrom m pg (pg.reported nmatch) (range' m.lo (m.hi + 1 - m.lo)) with
    | error e =>
      rw [hres] at hspec hspace
      rcases hspec with rfl | ⟨-, hnone⟩
      · exact absurd rfl hspace
      · simp [hnone]
    | ok report =>
      rw [hres] at hspec
      obtain ⟨i, ⟨j, hj⟩, hleast, hs, hfound, hhead⟩ := hspec
      refine ⟨⟨fun _ => ⟨i, j, hj⟩, fun _ => ⟨report, rfl⟩⟩, fun report' heq hpos => ?_⟩
      obtain rfl : report = report' := by simpa using heq
      have hm := attempt_sound hn hfound
      have hb := matches_bounds pg.root i _ (hj.2.1.trans hj.2.2.1) hm
      exact ⟨i, _, hhead hpos, ⟨⟨j, hj⟩, fun i' ⟨j', hj'⟩ => hleast i' j' hj'⟩,
        ⟨hj.1, hb.1, hb.2, hm⟩, fun j' hj' => attempt_longest hn hs (hfirst hpos) (hj.2.1.trans hj.2.2.1) hj'.2.2.2⟩
  · have hnone : ∀ i j, ¬MatchAt m pg.root i j := fun i j ⟨h1, h2, h3, _⟩ => by omega
    simp [show m.hi + 1 - m.lo = 0 by omega, searchFrom, hnone]

omit hpg hn hspace in
/-- The report with offsets cut to an `int` is exact when the match ends below `2 ^ 31`. -/
lemma Reports.exact_iff (hrep : Reports regoff pg s nmatch range notbol noteol) :
    Exact pg s nmatch range notbol noteol ↔ (0 < pg.reported nmatch → ∀ i j,
      LeftmostLongest (pg.text s (pg.reported nmatch) range notbol noteol) pg.root i j → j < 2 ^ 31) := by
  obtain ⟨hok, hreport⟩ := hrep
  constructor
  · intro h hpos i j hij
    obtain ⟨report, hrep⟩ := hok.2 ⟨i, j, hij.2.1⟩
    obtain ⟨i1, j1, hhead, hi1, hj1⟩ := hreport report hrep hpos
    obtain ⟨i2, j2, hhead2, hi2, hj2⟩ := h.2 report hrep hpos
    obtain rfl := hij.1.unique hi1
    obtain rfl := hij.1.unique hi2
    obtain rfl := hij.2.unique hj1
    obtain rfl := hij.2.unique hj2
    rw [hhead, Option.some_inj, Prod.mk.injEq] at hhead2
    exact regoff_eq_iff.1 hhead2.2
  · intro h
    refine ⟨hok, fun report hrep hpos => ?_⟩
    obtain ⟨i, j, hhead, hij⟩ := hreport report hrep hpos
    have hj : j < 2 ^ 31 := h hpos i j hij
    have hle : i ≤ j := hij.2.1.2.1
    rw [regoff_eq_iff.2 hj, regoff_eq_iff.2 (hle.trans_lt hj)] at hhead
    exact ⟨i, j, hhead, hij⟩

/-- A call is exact just where it reports nothing or the match it has to report ends below `2 ^ 31`. -/
theorem regexec_exact_iff : Exact pg s nmatch range notbol noteol ↔
    (0 < pg.reported nmatch → ∀ i j,
      LeftmostLongest (pg.text s (pg.reported nmatch) range notbol noteol) pg.root i j → j < 2 ^ 31) :=
  (regexec_report hpg hn hspace).exact_iff

end

/-- The end of the string, in the syntax of `regcomp` a backslash and an apostrophe. -/
def endPattern : Prog := { root := .alt [.cat [.bufend]] }

section
variable (N : ℕ)

/-- A call for `endPattern` in a string of `N` bytes. -/
abbrev endText : Text := endPattern.text (replicate N 1) 1 none false false

lemma strlen_replicate : strlen (replicate N 1) = N := by simp [strlen]

lemma endText_matchAt {i j : ℕ} : MatchAt (endText N) endPattern.root i j ↔ i = N ∧ j = N := by
  have hlo : (endText N).lo = 0 := rfl
  have hhi : (endText N).hi = N := strlen_replicate N
  simp only [MatchAt, endPattern, Matches, MatchesAlt, MatchesCat, hlo, hhi, or_false]
  constructor
  · rintro ⟨-, -, -, p, ⟨rfl, rfl⟩, rfl⟩
    exact ⟨rfl, rfl⟩
  · rintro ⟨rfl, rfl⟩
    exact ⟨Nat.zero_le _, le_rfl, le_rfl, _, ⟨rfl, rfl⟩, rfl⟩

lemma tick_eq {st : State} (h : st.steps < stepLimit) (f : State → Bool × State) :
    tick st f = f { st with steps := st.steps + 1 } := if_neg (Nat.not_lt.2 h)

lemma endPattern_spent (m : Text) (start : ℕ) : (attempt m endPattern.root start).spent = false := by
  obtain ⟨c, hc⟩ : ∃ c, callDepth = c + 5 := ⟨3 * stepLimit - 2, by decide⟩
  rw [attempt, hc, endPattern, matchNode, tick_eq (by decide)]
  simp only [tryAll, map_cons, map_nil, foldr_cons, foldr_nil]
  rw [matchNode, tick_eq (by decide)]
  simp only
  rw [matchNode, tick_eq (by decide)]
  simp only [next]
  by_cases h : anchorOk m .bufend start = true
  · rw [if_pos h, done, orElse]
    split_ifs <;> rfl
  · rw [if_neg h, orElse, if_neg (by decide)]

lemma searchFrom_ne_espace {m : Text} {pg : Prog} (nmatch : ℕ) (hs : ∀ start, (attempt m pg.root start).spent = false)
    (starts : List ℕ) : searchFrom m pg nmatch starts ≠ .error regEspace := by
  have hne : regNomatch ≠ regEspace := by decide
  induction starts with
  | nil => exact fun h => hne (Except.error.inj h)
  | cons start rest ih =>
    rw [searchFrom]
    simp only [hs start, Bool.false_eq_true, if_false]
    split_ifs
    · simp
    · exact fun h => hne (Except.error.inj h)
    · exact ih

lemma endPattern_ne_espace : regexec endPattern (replicate N 1) 1 none false false ≠ .error regEspace :=
  searchFrom_ne_espace 1 (endPattern_spent (endText N)) _

lemma endPattern_reports : Reports regoff endPattern (replicate N 1) 1 none false false :=
  regexec_report ⟨[[.bufend]], rfl⟩ rfl (endPattern_ne_espace N)

lemma endPattern_report : ∃ report, regexec endPattern (replicate N 1) 1 none false false = .ok report ∧
    report.head? = some (regoff N, regoff N) := by
  have hspec := endPattern_reports N
  obtain ⟨report, hok⟩ := hspec.1.2 ⟨N, N, (endText_matchAt N).2 ⟨rfl, rfl⟩⟩
  obtain ⟨i, j, hhead, -, hj, -⟩ := hspec.2 report hok Nat.one_pos
  obtain ⟨rfl, rfl⟩ := (endText_matchAt N).1 hj
  exact ⟨report, hok, hhead⟩

lemma endText_longest {i j : ℕ} : LeftmostLongest (endText N) endPattern.root i j ↔ i = N ∧ j = N := by
  constructor
  · intro h
    exact (endText_matchAt N).1 h.2.1
  · rintro ⟨rfl, rfl⟩
    simp [LeftmostLongest, endText_matchAt, IsLeast, IsGreatest, lowerBounds, upperBounds]

end

theorem regexec_exact_iff_short : Exact endPattern (replicate 5 1) 1 none false false :=
  (regexec_exact_iff ⟨[[.bufend]], rfl⟩ rfl (endPattern_ne_espace 5)).2 fun _ i j h => by
    rw [((endText_longest 5).1 h).2]
    decide

theorem regexec_offset_wraps : (∃ report,
    regexec endPattern (replicate (2 ^ 31) 1) 1 none false false = .ok report ∧
      report.head? = some (-2147483648, -2147483648)) ∧
    ¬Exact endPattern (replicate (2 ^ 31) 1) 1 none false false := by
  have hlong := (endText_longest (2 ^ 31)).2 ⟨rfl, rfl⟩
  refine ⟨endPattern_report (2 ^ 31), fun h => ?_⟩
  exact absurd ((endPattern_reports _).exact_iff.1 h Nat.one_pos _ _ hlong) (by decide)

end EmbCC.Libc.Regex
