import EmbCC.Link.Merge

/-!
# The stages of a merge

What each stage of `merge_group` gives the next one. The pieces of an input are
its bytes in order (`pieces_cut`); what stands for a string has its bytes and
stands for itself (`dedup_spec`); a string lies in its outermost container at an
aligned place (`tails_inside`); the containers are placed apart, at aligned
places (`place_spec`).
-/

namespace EmbCC.Link

open Nat Option List Words Probe Function Prod

/-- The pieces are the bytes in order, each with what it spans. -/
def Cut (es : ℕ) : Bytes → List Mstr → Prop
  | d, [] => d = []
  | d, x :: xs => 0 < x.bytes.length ∧ x.bytes.length ≤ x.span ∧ x.span ≤ d.length ∧
      x.bytes = d.take x.bytes.length ∧ es ∣ x.span ∧ Cut es (d.drop x.span) xs

section
variable {es align k pos : ℕ} {d : Bytes}

lemma le_of_dvd_length (hdvd : es ∣ d.length) (hd : d ≠ []) : es ≤ d.length :=
  le_of_dvd (length_pos_of_ne_nil hd) hdvd

lemma strLen_le (hes : 0 < es) (hdvd : es ∣ d.length) (hd : d ≠ []) (hk : d.length ≤ k) :
    es ∣ strLen es k d ∧ 0 < strLen es k d ∧ strLen es k d ≤ d.length := by
  induction k generalizing d with
  | zero => exact absurd (eq_nil_of_length_eq_zero (by omega)) hd
  | succ k ih =>
    have hle := le_of_dvd_length hdvd hd
    rw [strLen]
    split
    · exact ⟨dvd_rfl, hes, hle⟩
    · rename_i hgo
      have hlen : (d.drop es).length = d.length - es := length_drop
      have hne : d.drop es ≠ [] := fun h => by
        rw [h, length_nil] at hlen
        omega
      obtain ⟨h1, -, h3⟩ := ih (hlen ▸ Nat.dvd_sub hdvd dvd_rfl) hne (by omega)
      exact ⟨(Nat.dvd_add_self_left).2 h1, by omega, by omega⟩

lemma padLen_le (hdvd : es ∣ d.length) : es ∣ padLen es align k pos d ∧ padLen es align k pos d ≤ d.length := by
  induction k generalizing d pos with
  | zero => exact ⟨dvd_zero _, Nat.zero_le _⟩
  | succ k ih =>
    rw [padLen]
    split_ifs with hgo
    · have hle := le_of_dvd_length hdvd hgo.1
      have hlen : (d.drop es).length = d.length - es := length_drop
      obtain ⟨h1, h2⟩ := @ih (pos + es) (d.drop es) (hlen ▸ Nat.dvd_sub hdvd dvd_rfl)
      exact ⟨(Nat.dvd_add_self_left).2 h1, by omega⟩
    · exact ⟨dvd_zero _, Nat.zero_le _⟩

/-- The pieces cut the data. -/
lemma pieces_cut (hes : 0 < es) {strings : Bool} (hdvd : es ∣ d.length) (hk : d.length ≤ k) :
    Cut es d (pieces es align strings k pos d) := by
  induction k generalizing d pos with
  | zero => exact eq_nil_of_length_eq_zero (by omega)
  | succ k ih =>
    rw [pieces]
    split
    · assumption
    rename_i hd
    have hlen : es ∣ (if strings then strLen es d.length d else es) ∧ 0 < (if strings then strLen es d.length d else es) ∧
        (if strings then strLen es d.length d else es) ≤ d.length := by
      split
      · exact strLen_le hes hdvd hd le_rfl
      · exact ⟨dvd_rfl, hes, le_of_dvd_length hdvd hd⟩
    dsimp only
    generalize (if strings then strLen es d.length d else es) = len at hlen
    obtain ⟨hlen, hpos, hle⟩ := hlen
    have hspan : ∀ span, span = (if strings ∧ es < align then
        len + padLen es align d.length (pos + len) (d.drop len) else len) →
        es ∣ span ∧ len ≤ span ∧ span ≤ d.length := fun span hspan => by
      have hdrop : (d.drop len).length = d.length - len := length_drop
      obtain ⟨h1, h2⟩ := @padLen_le es align d.length (pos + len) (d.drop len) (hdrop ▸ Nat.dvd_sub hdvd hlen)
      rw [hspan]
      split
      · exact ⟨dvd_add hlen h1, by omega, by omega⟩
      · exact ⟨hlen, le_rfl, hle⟩
    have hspan := hspan _ rfl
    generalize (if strings ∧ es < align then
      len + padLen es align d.length (pos + len) (d.drop len) else len) = span at hspan
    obtain ⟨h1, h2, h3⟩ := hspan
    have htake : (d.take len).length = len := length_take_of_le hle
    have hdrop : (d.drop span).length = d.length - span := length_drop
    refine ⟨htake.symm ▸ hpos, htake.symm ▸ h2, h3, by rw [htake], h1, ?_⟩
    exact ih (hdrop ▸ Nat.dvd_sub hdvd h1) (show (d.drop span).length ≤ k by omega)

/-- A string ends at its first zero character. -/
def Terminated (es : ℕ) (b : Bytes) : Prop :=
  isZero es (b.drop (b.length - es)) = true ∧ ∀ j, es ∣ j → j + es < b.length → isZero es (b.drop j) = false

lemma isZero_take {j n : ℕ} (h : j + es ≤ n) : isZero es ((d.take n).drop j) = isZero es (d.drop j) := by
  rw [isZero, isZero, drop_take, take_take, Nat.min_eq_left (by omega)]

lemma strLen_terminated (hes : 0 < es) (hdvd : es ∣ d.length) (hd : d ≠ []) (hk : d.length ≤ k)
    (hz : isZero es (d.drop (d.length - es)) = true) : isZero es (d.drop (strLen es k d - es)) = true ∧
      ∀ j, es ∣ j → j + es < strLen es k d → isZero es (d.drop j) = false := by
  induction k generalizing d with
  | zero => exact absurd (eq_nil_of_length_eq_zero (by omega)) hd
  | succ k ih =>
    have hle := le_of_dvd_length hdvd hd
    rw [strLen]
    split
    · rename_i hstop
      refine ⟨?_, fun j _ hj => by omega⟩
      rw [Nat.sub_self, drop_zero]
      rcases hstop with hstop | hstop
      · exact hstop
      · rwa [show d.length - es = 0 by omega, drop_zero] at hz
    · rename_i hgo
      push Not at hgo
      have hlen : (d.drop es).length = d.length - es := length_drop
      have hne : d.drop es ≠ [] := fun h => by
        rw [h, length_nil] at hlen
        omega
      have hdvd' : es ∣ (d.drop es).length := hlen ▸ Nat.dvd_sub hdvd dvd_rfl
      have hle' := le_of_dvd_length hdvd' hne
      obtain ⟨hdvdL, hposL, -⟩ := strLen_le hes hdvd' hne (show _ ≤ k by omega)
      have hleL := le_of_dvd hposL hdvdL
      obtain ⟨hend, hfirst⟩ := ih hdvd' hne (by omega) (by rwa [drop_drop, hlen, show es + (d.length - es - es) =
        d.length - es by omega])
      refine ⟨?_, fun j hj hlt => ?_⟩
      · rwa [drop_drop, Nat.add_sub_cancel' hleL, ← Nat.add_sub_cancel_left es (strLen es k _)] at hend
      · obtain rfl | hj0 := Nat.eq_zero_or_pos j
        · simpa using hgo.1
        · have hesj := le_of_dvd hj0 hj
          have := hfirst (j - es) (Nat.dvd_sub hj dvd_rfl) (by omega)
          rwa [drop_drop, Nat.add_sub_cancel' hesj] at this

/-- In terminated data every string ends at its terminator. -/
lemma pieces_terminated (hes : 0 < es) (hdvd : es ∣ d.length) (hk : d.length ≤ k)
    (hz : isZero es (d.drop (d.length - es)) = true) : ∀ x ∈ pieces es align true k pos d, Terminated es x.bytes := by
  induction k generalizing d pos with
  | zero => exact fun x hx => by cases hx
  | succ k ih =>
    have hcut := @pieces_cut es align (k + 1) pos d hes true hdvd hk
    rw [pieces] at hcut ⊢
    split at hcut
    · rename_i hd
      simp [hd]
    rename_i hd
    rw [if_neg hd]
    obtain ⟨hpos, hbytes, hspan, -, hdvd', -⟩ := hcut
    have hpos := hpos.trans_le hbytes
    refine forall_mem_cons.2 ⟨?_, ?_⟩
    · obtain ⟨hdvdL, hposL, hleL⟩ := strLen_le hes hdvd hd le_rfl
      obtain ⟨hend, hfirst⟩ := strLen_terminated hes hdvd hd le_rfl hz
      have hesL := le_of_dvd hposL hdvdL
      rw [if_pos rfl, Terminated, length_take_of_le hleL]
      exact ⟨by rwa [isZero_take (by omega)], fun j hj hlt => by rw [isZero_take (by omega), hfirst j hj hlt]⟩
    · dsimp only at hpos hspan hdvd' ⊢
      generalize (if true = true ∧ es < align then _ else _ : ℕ) = span at hpos hspan hdvd' ⊢
      have hlen : (d.drop span).length = d.length - span := length_drop
      have hrest : es ∣ (d.drop span).length := hlen ▸ Nat.dvd_sub hdvd hdvd'
      refine ih hrest (by omega) ?_
      by_cases hne : d.drop span = []
      · simp [hne, isZero]
      · have hle := le_of_dvd_length hrest hne
        rwa [drop_drop, hlen, show span + (d.length - span - es) = d.length - es by omega]

end

/-- What the pieces span. -/
def spans (xs : List Mstr) : ℕ := (xs.map Mstr.span).sum

@[simp] lemma spans_nil : spans [] = 0 := rfl

@[simp] lemma spans_cons (x : Mstr) (xs : List Mstr) : spans (x :: xs) = x.span + spans xs := by
  simp [spans]

variable {es al n k cap : ℕ} {d : Bytes} {ts : List Tail}

lemma Cut.spans_eq {xs : List Mstr} (h : Cut es d xs) : spans xs = d.length := by
  induction xs generalizing d with
  | nil =>
    obtain rfl : d = [] := h
    rfl
  | cons x xs ih =>
    obtain ⟨-, -, hle, -, -, h⟩ := h
    have := ih h
    rw [length_drop] at this
    rw [spans_cons]
    omega

lemma Cut.piece {l r : List Mstr} {x : Mstr} (h : Cut es d (l ++ x :: r)) : 0 < x.bytes.length ∧ x.bytes.length ≤ x.span
    ∧ spans l + x.span ≤ d.length ∧ es ∣ spans l ∧ ∀ i < x.bytes.length, x.bytes[i]? = d[spans l + i]? := by
  induction l generalizing d with
  | nil =>
    obtain ⟨hpos, hle, hspan, hbytes, -⟩ := h
    refine ⟨hpos, hle, by simpa using hspan, dvd_zero _, fun i hi => ?_⟩
    rw [hbytes, getElem?_take_of_lt (by rwa [hbytes, length_take_of_le] ; omega)]
    simp
  | cons y l ih =>
    obtain ⟨-, -, hspan, -, hdvd, h⟩ := h
    obtain ⟨hpos, hle, hlen, hdvd', hbytes⟩ := ih h
    rw [length_drop] at hlen
    rw [spans_cons]
    refine ⟨hpos, hle, by omega, dvd_add hdvd hdvd', fun i hi => ?_⟩
    rw [hbytes i hi, getElem?_drop, Nat.add_assoc]

lemma lt_hashCap (hcap : 0 < cap) (hk : n < cap + k) : n < hashCap n k cap := by
  induction k generalizing cap with
  | zero => exact hk
  | succ k ih =>
    rw [hashCap]
    split
    · exact ih (by omega) (by omega)
    · omega

/-- What a hash table of numbers below `k` keeps: each number stands in one slot at most. -/
structure Table (cap k : ℕ) (ht : ℕ → Option ℕ) : Prop where
  lt : ∀ s < cap, ∀ j, ht s = some j → j < k
  inj : ∀ s < cap, ∀ s' < cap, ∀ j, ht s = some j → ht s' = some j → s = s'

lemma Table.insert {s : ℕ} {ht : ℕ → Option ℕ} (H : Table cap k ht) : Table cap (k + 1) (update ht s (some k)) where
  lt t ht' j hj := by
    by_cases hts : t = s
    · rw [hts, update_self, some.injEq] at hj
      omega
    · rw [update_of_ne hts] at hj
      exact (H.lt t ht' j hj).trans (lt_succ_self k)
  inj t ht' t' ht'' j hj hj' := by
    by_cases hts : t = s
    · by_cases hts' : t' = s
      · rw [hts, hts']
      · rw [hts, update_self, some.injEq] at hj
        rw [update_of_ne hts'] at hj'
        have := H.lt t' ht'' j hj'
        omega
    · rw [update_of_ne hts] at hj
      by_cases hts' : t' = s
      · rw [hts', update_self, some.injEq] at hj'
        have := H.lt t ht' j hj
        omega
      · rw [update_of_ne hts'] at hj'
        exact H.inj t ht' t' ht'' j hj hj'

/-- The hash table finds for each piece the first one of equal bytes. -/
lemma dedup_spec {v done rest : List Bytes} {cap k : ℕ} {ht : ℕ → Option ℕ} (hv : v = done ++ rest) (hk : done.length = k)
    (hcap : v.length < cap) (H : Table cap k ht) : ∃ reps, dedup v cap rest k ht = some reps ∧ reps.length = rest.length
    ∧ ∀ (i : ℕ) (x : Bytes) (r : ℕ), rest[i]? = some x → reps[i]? = some r → v[r]? = some x
    ∧ ((∃ s < cap, ht s = some r) ∨ k ≤ r ∧ reps[r - k]? = some r) := by
  induction rest generalizing done k ht with
  | nil => exact ⟨[], rfl, rfl, by simp⟩
  | cons x rest ih =>
    have hlen : v.length = k + (rest.length + 1) := by rw [hv, length_append, hk, length_cons]
    obtain ⟨e, he, hempty⟩ := exists_empty H.lt H.inj (by omega)
    obtain ⟨hh, hprobe⟩ := Option.isSome_iff_exists.1
      (@probe_isSome ℕ ht (fun j => v.getD j [] = x) cap _ e (mod_lt (mergeHash x) (by omega)) he hempty)
    obtain ⟨hhcap, hsame⟩ := probe_spec (mod_lt (mergeHash x) (by omega)) hprobe
    have hv' : v = (done ++ [x]) ++ rest := by rw [hv, append_assoc, singleton_append]
    have hk' : (done ++ [x]).length = k + 1 := by rw [length_append, hk]; rfl
    rw [dedup, hprobe, bind_some]
    cases hj : ht hh with
    | some j =>
      obtain ⟨reps, hreps, hlen', hall⟩ := ih hv' hk' ⟨fun s hs j hj => (H.lt s hs j hj).trans (by omega), H.inj⟩
      refine ⟨j :: reps, by simp [hreps], by simp [hlen'], fun i y r hy hr => ?_⟩
      cases i with
      | zero =>
        simp only [getElem?_cons_zero, some.injEq] at hy hr
        subst hy hr
        have hjlt := H.lt hh hhcap j hj
        have heq := of_decide_eq_true (hsame j hj)
        rw [getD_eq_getElem?_getD] at heq
        refine ⟨?_, .inl ⟨hh, hhcap, hj⟩⟩
        rw [getElem?_eq_getElem (by omega), getD_some] at heq
        rw [getElem?_eq_getElem (by omega), heq]
      | succ i =>
        obtain ⟨hvr, hin⟩ := hall i y r hy hr
        refine ⟨hvr, hin.imp_right fun ⟨hle, hself⟩ => ⟨by omega, ?_⟩⟩
        rwa [show r - k = r - (k + 1) + 1 by omega, getElem?_cons_succ]
    | none =>
      obtain ⟨reps, hreps, hlen', hall⟩ := ih hv' hk' (H.insert (s := hh))
      refine ⟨k :: reps, by simp [hreps], by simp [hlen'], fun i y r hy hr => ?_⟩
      have hself : (k :: reps)[k - k]? = some k := by rw [Nat.sub_self]; rfl
      cases i with
      | zero =>
        simp only [getElem?_cons_zero, some.injEq] at hy hr
        subst hy hr
        refine ⟨?_, .inr ⟨le_rfl, hself⟩⟩
        rw [hv, getElem?_append_right (by omega), hk, Nat.sub_self]
        rfl
      | succ i =>
        obtain ⟨hvr, ⟨s, hs, hsr⟩ | ⟨hle, hself'⟩⟩ := hall i y r hy hr
        · by_cases hshh : s = hh
          · rw [hshh, update_self, some.injEq] at hsr
            subst hsr
            exact ⟨hvr, .inr ⟨le_rfl, hself⟩⟩
          · rw [update_of_ne hshh] at hsr
            exact ⟨hvr, .inl ⟨s, hs, hsr⟩⟩
        · refine ⟨hvr, .inr ⟨by omega, ?_⟩⟩
          rwa [show r - k = r - (k + 1) + 1 by omega, getElem?_cons_succ]

lemma dedup_total (v : List Bytes) : ∃ reps, dedup v (hashCap v.length v.length 16) v 0 (fun _ => none) = some reps ∧
      reps.length = v.length ∧ ∀ (i : ℕ) (x : Bytes) (r : ℕ), v[i]? = some x → reps[i]? = some r →
        v[r]? = some x ∧ reps[r]? = some r := by
  obtain ⟨reps, hreps, hlen, hall⟩ := @dedup_spec v [] v (hashCap v.length v.length 16) 0
    (fun _ => none) rfl rfl (lt_hashCap (by decide) (by omega)) ⟨by simp, by simp⟩
  refine ⟨reps, hreps, hlen, fun i x r hx hr => ?_⟩
  obtain ⟨hvr, ⟨s, -, hs⟩ | ⟨-, hself⟩⟩ := hall i x r hx hr
  · cases hs
  · exact ⟨hvr, hself⟩

/-- The container found ends with the string. -/
lemma container_spec {x : Bytes} {d r : ℕ} (h : container al x n ts = some (d, r)) :
    ∃ i t, d = n + i ∧ ts[i]? = some t ∧ x.length ≤ t.str.bytes.length ∧ t.str.bytes.drop (t.str.bytes.length - x.length) = x ∧
      r = t.rel + (t.str.bytes.length - x.length) ∧ al ∣ r := by
  induction ts generalizing n with
  | nil => cases h
  | cons t ts ih =>
    rw [container] at h
    split at h
    · cases h
    rename_i hends
    rw [not_or, Nat.not_lt, not_not] at hends
    dsimp only at h
    split_ifs at h with hal
    · cases h
      exact ⟨0, t, rfl, rfl, hends.1, hends.2, rfl, dvd_of_mod_eq_zero hal⟩
    · obtain ⟨i, t', hd, ht', hrest⟩ := ih h
      exact ⟨i + 1, t', by omega, ht', hrest⟩

lemma tails_str (tail : Bool) (al : ℕ) (us : List Ustr) : (tails tail al us).map Tail.str = us := by
  induction us with
  | nil => rfl
  | cons x us ih =>
    rw [tails]
    split <;> rw [map_cons, ih]

/-- The first string lies in its outermost container, at an aligned place. -/
def Inside (al : ℕ) : List Tail → Prop
  | [] => True
  | t :: ts => ∃ c ∈ t :: ts, c.up = none ∧ (∀ k > ts.length, outermost k (t :: ts) = some c) ∧
      (t.up = none → c = t) ∧ al ∣ t.rel ∧ t.rel ≤ c.str.bytes.length ∧
      c.str.bytes.drop t.rel = t.str.bytes

lemma inside_self {x : Ustr} : Inside al (⟨x, none, 0⟩ :: ts) := by
  refine ⟨_, .head _, rfl, fun k hk => ?_, fun _ => rfl, dvd_zero _, Nat.zero_le _, rfl⟩
  obtain ⟨k, rfl⟩ := Nat.exists_eq_add_of_lt hk
  rfl

/-- Every string is inside the one it was put on. -/
lemma tails_inside (tail : Bool) (al : ℕ) (us : List Ustr) (n : ℕ) : Inside al ((tails tail al us).drop n) := by
  induction us generalizing n with
  | nil => simp [tails, Inside]
  | cons x us ih =>
    cases n with
    | succ n =>
      have : (tails tail al (x :: us)).drop (n + 1) = (tails tail al us).drop n := by
        rw [tails]
        split <;> rfl
      exact this ▸ ih n
    | zero =>
      rw [drop_zero, tails]
      split
      · rename_i d r hfound
        split at hfound
        · obtain ⟨i, t, rfl, ht, -, hends, rfl, hal⟩ := container_spec hfound
          have ht : (tails tail al us)[i]? = some t := by
            rw [getElem?_take] at ht
            split at ht
            · exact ht
            · cases ht
          obtain ⟨hi, hti⟩ := List.getElem?_eq_some_iff.1 ht
          have hdrop : (tails tail al us).drop (0 + i) = t :: (tails tail al us).drop (i + 1) := by
            rw [Nat.zero_add, drop_eq_getElem_cons hi, hti]
          have hin := ih (0 + i)
          rw [hdrop] at hin
          obtain ⟨c, hc, hup, hout, -, -, hrel, hbytes⟩ := hin
          have hlen := congrArg length hbytes
          rw [length_drop] at hlen
          refine ⟨c, .tail _ ?_, hup, fun k hk => ?_, by simp, hal, by dsimp only; omega, ?_⟩
          · rw [← hdrop] at hc
            exact mem_of_mem_drop hc
          · obtain ⟨k, rfl⟩ := exists_eq_succ_of_ne_zero (show k ≠ 0 by omega)
            rw [outermost]
            dsimp only
            rw [hdrop]
            refine hout k ?_
            have : ((tails tail al us).drop (i + 1)).length = (tails tail al us).length - (i + 1) :=
              length_drop
            omega
          · dsimp only
            rw [← drop_drop, hbytes, hends]
        · cases hfound
      · exact inside_self

lemma le_alignTo (hal : 0 < al) (n : ℕ) : n ≤ (n + al - 1) / al * al := by
  have := lt_div_mul_add (a := n + al - 1) hal
  omega

lemma place_fst (al size : ℕ) (ss : List Ustr) : (place al size ss).map fst = ss := by
  induction ss generalizing size with
  | nil => rfl
  | cons s ss ih => rw [place, map_cons, ih]

lemma le_placedSize (hal : 0 < al) (size : ℕ) (ss : List Ustr) : size ≤ placedSize al size ss := by
  induction ss generalizing size with
  | nil => exact le_rfl
  | cons s ss ih =>
    have := le_alignTo hal size
    exact (this.trans (Nat.le_add_right _ _)).trans (ih _)

lemma foldl_place_lt (hal : 0 < al) {size z : ℕ} (hz : z < size) (ss : List Ustr) (out : Mem) :
    (place al size ss).foldl (fun out s => memcpyAt out s.2 s.1.bytes) out z = out z := by
  induction ss generalizing size out with
  | nil => rfl
  | cons s ss ih =>
    have hle := le_alignTo hal size
    rw [place, foldl_cons, ih (by omega), memcpyAt, if_neg (by omega)]

/-- The strings placed are in the output, aligned. -/
lemma place_spec (hal : 0 < al) (size : ℕ) (ss : List Ustr) (out : Mem) {s : Ustr} {nw : ℕ}
    (h : (s, nw) ∈ place al size ss) : al ∣ nw ∧ nw + s.bytes.length ≤ placedSize al size ss ∧ ∀ i < s.bytes.length,
    s.bytes[i]? = some ((place al size ss).foldl (fun out s => memcpyAt out s.2 s.1.bytes) out (nw + i)) := by
  induction ss generalizing size out with
  | nil => cases h
  | cons x ss ih =>
    rw [place, placedSize]
    rcases List.mem_cons.1 h with heq | h
    · obtain ⟨rfl, rfl⟩ := mk.inj heq
      refine ⟨Nat.dvd_mul_left _ _, le_placedSize hal _ _, fun i hi => ?_⟩
      rw [foldl_cons, foldl_place_lt hal (by omega), memcpyAt, if_pos ⟨Nat.le_add_right _ _, Nat.add_lt_add_left hi _⟩,
        Nat.add_sub_cancel_left, getD_eq_getElem?_getD, getElem?_eq_getElem hi, getD_some]
    · obtain ⟨h1, h2, h3⟩ := ih _ (memcpyAt out ((size + al - 1) / al * al) x.bytes) h
      exact ⟨h1, h2, h3⟩

end EmbCC.Link
