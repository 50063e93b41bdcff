import EmbCC.Link.MergeParts

/-!
# Where the bytes of a merge went

After `merge_group`, `merge_map` takes every offset inside a string or entry to
an offset of the merged section with the same bytes up to its end, and starts to
multiples of what placed things are aligned to (`mergeGroup_maps`). That is a
multiple of the group's alignment when the alignment is larger than a character
or entry or divides it, and otherwise there is a group in which an aligned start
is moved to one that is not (`mergeGroup_maps_iff`).
-/

namespace EmbCC.Link

open List Nat Words Prod

section
variable {al : ℕ} {tail : Bool} {us ord : List Ustr}

/-- Every string kept has a place. -/
lemma placeOf_spec (hnd : (ord.map Ustr.rep).Nodup) {s : Ustr} (hs : s ∈ ord) :
    ∃ nw, placeOf (place al 0 ord) s.rep = some nw ∧ (s, nw) ∈ place al 0 ord := by
  have hmem : s ∈ (place al 0 ord).map fst := by rwa [place_fst]
  obtain ⟨⟨s', nw⟩, hin, rfl⟩ := mem_map.1 hmem
  obtain ⟨y, hy⟩ := Option.isSome_iff_exists.1 (List.find?_isSome.2 ⟨_, hin, by simp⟩ :
    ((place al 0 ord).find? fun x => x.1.rep = s'.rep).isSome)
  have hrep := find?_some hy
  have hyin := mem_of_find?_eq_some hy
  have hyord : y.1 ∈ ord := by
    rw [← place_fst al 0 ord]
    exact mem_map_of_mem hyin
  have heq : y.1 = s' := inj_on_of_nodup_map hnd hyord hs (of_decide_eq_true hrep)
  exact ⟨y.2, by rw [placeOf, hy]; rfl, heq ▸ hyin⟩

lemma newPlaces_lookup (placed : List (Ustr × ℕ)) {l r : List Tail} {t : Tail} (h : ∀ y ∈ l, y.str.rep ≠ t.str.rep) :
    (newPlaces placed (l ++ t :: r)).lookup t.str.rep = (newPlaces placed (t :: r)).lookup t.str.rep := by
  induction l with
  | nil => rfl
  | cons y l ih =>
    rw [cons_append, newPlaces, lookup_cons, ih fun z hz => h z (.tail _ hz)]
    have hne : (t.str.rep == y.str.rep) = false := beq_false_of_ne (h y (.head _)).symm
    rw [hne]

/-! ## New places -/

/-- Every string has a place whose bytes are its own. -/
lemma newPlaces_spec (hal : 0 < al) (hnd : (us.map Ustr.rep).Nodup) (hord : ord.Perm
    (((tails tail al us).filter fun t => t.up.isNone).map Tail.str)) {s : Ustr} (hs : s ∈ us) : ∃ w,
    (newPlaces (place al 0 ord) (tails tail al us)).lookup s.rep = some (some w) ∧ al ∣ w
    ∧ w + s.bytes.length ≤ placedSize al 0 ord ∧ ∀ i < s.bytes.length,
    s.bytes[i]? = some (mergedData (place al 0 ord) (w + i)) := by
  have hstr := tails_str tail al us
  have hsub : ((tails tail al us).filter fun t => t.up.isNone).map Tail.str |>.Sublist us := by
    conv_rhs => rw [← hstr]
    exact filter_sublist.map _
  have hndord : (ord.map Ustr.rep).Nodup := ((hord.map _).nodup_iff).2 ((hsub.map _).nodup hnd)
  have hmem : s ∈ (tails tail al us).map Tail.str := hstr.symm ▸ hs
  obtain ⟨t, ht, rfl⟩ := mem_map.1 hmem
  obtain ⟨l, r, hlr⟩ := append_of_mem ht
  have hin := tails_inside tail al us l.length
  rw [hlr, drop_left] at hin
  obtain ⟨c, hc, hup, hout, hself, hrel, hle, hbytes⟩ := hin
  have hcord : c.str ∈ ord := by
    refine hord.mem_iff.2 (mem_map_of_mem (List.mem_filter.2 ⟨?_, by rw [hup]; rfl⟩))
    rw [hlr]
    exact mem_append_right _ hc
  obtain ⟨nw, hplace, hplaced⟩ := @placeOf_spec al ord hndord c.str hcord
  obtain ⟨hdvd, hsize, hdata⟩ := place_spec hal 0 ord (fun _ => 0) hplaced
  have hlen := congrArg length hbytes
  rw [length_drop] at hlen
  refine ⟨nw + t.rel, ?_, dvd_add hdvd hrel, by omega, fun i hi => ?_⟩
  · have hne : ∀ y ∈ l, y.str.rep ≠ t.str.rep := fun y hy heq => by
      have hndts : ((tails tail al us).map fun t => t.str.rep).Nodup := by
        rw [← hstr, List.map_map] at hnd
        exact hnd
      rw [hlr, map_append, map_cons, nodup_append] at hndts
      exact hndts.2.2 _ (mem_map_of_mem hy) _ (.head _) heq
    rw [hlr, newPlaces_lookup _ hne, newPlaces, lookup_cons, beq_self_eq_true]
    cases htup : t.up with
    | none =>
      obtain rfl := hself htup
      rw [hplace, show c.rel = 0 by omega]
      rfl
    | some d => rw [hout _ (lt_succ_self _), Option.bind_some, hplace]; rfl
  · rw [← hbytes, getElem?_drop, hdata _ (by omega), add_assoc]
    rfl

end

variable {es size off align k i : ℕ} {vr : List (Mstr × ℕ)} {x : Mstr} {m : Member}

/-- The binary search ends at the piece that holds the offset. -/
lemma mapLoop_spec {mp : List Mpiece} {lo hi : ℕ} {p : Mpiece} (hp : mp[i]? = some p)
    (hin : p.old ≤ off ∧ off < p.old + p.len) (hbefore : ∀ j < i, ∀ q, mp[j]? = some q → q.old + q.len ≤ off)
    (hafter : ∀ j, i < j → ∀ q, mp[j]? = some q → off < q.old) (hlo : lo ≤ i) (hhi : i < hi)
    (hlen : hi ≤ mp.length) (hk : hi ≤ lo + k) : mapLoop mp off k lo hi = some p := by
  induction k generalizing lo hi with
  | zero => omega
  | succ k ih =>
    rw [mapLoop, if_pos (by omega)]
    dsimp only
    have hm : (lo + (hi - 1)) / 2 < mp.length := by omega
    have hget := getElem?_eq_getElem hm
    generalize hmid : (lo + (hi - 1)) / 2 = m at *
    rw [hget]
    dsimp only
    rcases lt_trichotomy m i with hlt | rfl | hgt
    · have := hbefore m hlt _ hget
      rw [if_neg (by omega), if_pos this]
      exact ih (by omega) hhi hlen (by omega)
    · obtain rfl := Option.mem_unique hp hget
      rw [if_neg (by omega), if_neg (by omega)]
    · rw [if_pos (hafter m hgt _ hget)]
      exact ih hlo hgt (by omega) (by omega)

lemma spans_append (l r : List Mstr) : spans (l ++ r) = spans l + spans r := by simp [spans]

/-! ## Maps of the members -/

lemma spans_take_le (xs : List Mstr) {j : ℕ} (h : j ≤ k) : spans (xs.take j) ≤ spans (xs.take k) := by
  obtain ⟨n, rfl⟩ := Nat.exists_eq_add_of_le h
  rw [take_add, spans_append]
  exact le_add_right _ _

lemma pieceMap_getElem (nw : List (ℕ × Option ℕ)) (off : ℕ) (vr : List (Mstr × ℕ)) (j : ℕ) :
    (pieceMap nw off vr)[j]? = (vr[j]?).map fun x =>
      ⟨off + spans ((vr.map fst).take j), x.1.span, (nw.lookup x.2).join⟩ := by
  induction vr generalizing off j with
  | nil => rfl
  | cons x vr ih =>
    cases j with
    | zero => rfl
    | succ j =>
      rw [pieceMap, getElem?_cons_succ, getElem?_cons_succ, ih, map_cons, take_succ_cons, spans_cons, add_assoc]

lemma pieceMap_length (nw : List (ℕ × Option ℕ)) (off : ℕ) (vr : List (Mstr × ℕ)) :
    (pieceMap nw off vr).length = vr.length := by
  induction vr generalizing off with
  | nil => rfl
  | cons x vr ih => rw [pieceMap, length_cons, ih, length_cons]

/-- An offset in a piece is mapped to the same offset in the piece's new place. -/
lemma mergeMap_pieceMap {nw : List (ℕ × Option ℕ)} {l r : List (Mstr × ℕ)} {x : Mstr × ℕ} {w o : ℕ}
    (hw : nw.lookup x.2 = some (some w)) (ho : spans (l.map fst) ≤ o) (ho' : o < spans (l.map fst) + x.1.span) : mergeMap
    (pieceMap nw 0 (l ++ x :: r)) o = some (w + (o - spans (l.map fst))) := by
  have hget := pieceMap_getElem nw 0 (l ++ x :: r)
  have htake : ((l ++ x :: r).map fst).take l.length = l.map fst := by
    rw [map_append, ← length_map fst, take_left]
  have htake' : spans (((l ++ x :: r).map fst).take (l.length + 1)) = spans (l.map fst) + x.1.span := by
    rw [take_add_one, htake, getElem?_map, getElem?_append_right le_rfl, Nat.sub_self, spans_append]
    simp
  have hfound : (pieceMap nw 0 (l ++ x :: r))[l.length]? = some ⟨spans (l.map fst), x.1.span, some w⟩ := by
    rw [hget, getElem?_append_right le_rfl, Nat.sub_self, htake, Nat.zero_add]
    simp [hw]
  rw [mergeMap, mapLoop_spec hfound ⟨ho, ho'⟩ ?_ ?_ (zero_le _) ?_ le_rfl (by omega)]
  · rfl
  · intro j hj q hq
    rw [hget, zero_add] at hq
    obtain ⟨y, hy, rfl⟩ := Option.map_eq_some_iff.1 hq
    have hle := spans_take_le ((l ++ x :: r).map fst) (show j + 1 ≤ l.length from hj)
    rw [htake, take_add_one, getElem?_map, hy, spans_append] at hle
    simp only [Option.map_some, Option.toList_some, spans_cons] at hle
    dsimp only
    omega
  · intro j hj q hq
    rw [hget, zero_add] at hq
    obtain ⟨y, -, rfl⟩ := Option.map_eq_some_iff.1 hq
    have hle := spans_take_le ((l ++ x :: r).map fst) (show l.length + 1 ≤ j from hj)
    dsimp only
    omega
  · rw [pieceMap_length, length_append, length_cons]
    omega

lemma takeSpan_eq {A B : List (Mstr × ℕ)} (hsize : off + spans (A.map fst) = size)
    (hpos : ∀ x ∈ A, 0 < x.1.span) : takeSpan size off (A ++ B) = (A, B) := by
  induction A generalizing off with
  | nil =>
    obtain rfl : off = size := hsize
    cases B with
    | nil => rfl
    | cons y B => rw [nil_append, takeSpan, if_neg (lt_irrefl _)]
  | cons x A ih =>
    rw [map_cons, spans_cons] at hsize
    have hx := hpos x (.head _)
    rw [cons_append, takeSpan, if_pos (by omega), ih (by omega) fun y hy => hpos y (.tail _ hy)]

lemma Cut.span_pos {d : Bytes} {xs : List Mstr} (h : Cut es d xs) (hx : x ∈ xs) : 0 < x.span := by
  obtain ⟨l, r, rfl⟩ := append_of_mem hx
  obtain ⟨h1, h2, -⟩ := h.piece
  omega

/-- The map of a member is made of its own pieces. -/
lemma memberMaps_spec {cut : Member → List Mstr} (nw : List (ℕ × Option ℕ)) {ms : List Member}
    (hcut : ∀ m ∈ ms, Cut es m.data (cut m)) (hvr : vr.map fst = ms.flatMap cut) (hm : ms[i]? = some m) :
    ∃ A, (∀ x ∈ A, x ∈ vr) ∧ A.map fst = cut m ∧ (memberMaps nw ms vr)[i]? = some (pieceMap nw 0 A) := by
  induction ms generalizing vr i with
  | nil => cases hm
  | cons m0 ms ih =>
    rw [flatMap_cons, map_eq_append_iff] at hvr
    obtain ⟨A, B, rfl, hA, hB⟩ := hvr
    have hcut0 := hcut m0 (.head _)
    have htake : takeSpan m0.data.length 0 (A ++ B) = (A, B) :=
      takeSpan_eq (by rw [hA, hcut0.spans_eq, zero_add]) fun x hx => hcut0.span_pos (hA ▸ mem_map_of_mem hx)
    rw [memberMaps, htake]
    cases i with
    | zero =>
      cases hm
      exact ⟨A, fun x hx => mem_append_left _ hx, hA, rfl⟩
    | succ i =>
      obtain ⟨A', hsub, hA', hmap⟩ := ih (fun m hm => hcut m (.tail _ hm)) hB hm
      exact ⟨A', fun x hx => mem_append_right _ (hsub x hx), hA', hmap⟩

/-- The strings that stand for themselves. -/
def reps (vr : List (Mstr × ℕ)) : List Ustr :=
  vr.zipIdx.filterMap fun x => if x.1.2 = x.2 then some ⟨x.1.1.bytes, x.2⟩ else none

lemma mem_reps {r : ℕ} (h : vr[r]? = some (x, r)) : ⟨x.bytes, r⟩ ∈ reps vr := by
  refine List.mem_filterMap.2 ⟨((x, r), r), ?_, if_pos rfl⟩
  rw [mem_zipIdx_iff_getElem?]
  exact h

lemma reps_nodup (vr : List (Mstr × ℕ)) : ((reps vr).map Ustr.rep).Nodup := by
  have heq : ∀ l : List ((Mstr × ℕ) × ℕ),
      (l.filterMap fun x => if x.1.2 = x.2 then some (⟨x.1.1.bytes, x.2⟩ : Ustr) else none).map Ustr.rep =
        (l.filter fun x => x.1.2 = x.2).map snd := by
    intro l
    induction l with
    | nil => rfl
    | cons x l ih =>
      by_cases hx : x.1.2 = x.2
      · simp [hx, ih]
      · simp [hx, ih]
  rw [reps, heq]
  refine (filter_sublist.map snd).nodup ?_
  rw [zipIdx_map_snd]
  exact nodup_range'

lemma Group.al_pos (g : Group) : 0 < g.al := by
  have := g.es_pos
  unfold Group.al
  split <;> omega

lemma Group.cut_cut (g : Group) (hm : m ∈ g.members) : Cut g.es m.data (g.cut m) :=
  pieces_cut g.es_pos (g.whole m hm) le_rfl

/-- The pieces of a group of strings are its strings, each up to its terminator. -/
lemma Group.cut_terminated (g : Group) (hs : g.strings = true) (hm : m ∈ g.members) :
    ∀ x ∈ g.cut m, Terminated g.es x.bytes := by
  rw [Group.cut, hs]
  exact pieces_terminated g.es_pos (g.whole m hm) le_rfl (g.terminated hs m hm)

/-- Every offset of every member goes to the same byte of the merged section. -/
lemma mergeGroup_maps (g : Group) :
    ∃ r, mergeGroup g = some r ∧ ∀ (i : ℕ) m, g.members[i]? = some m →
      ∃ mp, r.maps[i]? = some mp ∧ ∀ l x tl, g.cut m = l ++ x :: tl →
        ∃ w, g.al ∣ w ∧ w + x.bytes.length ≤ r.size ∧
          (∀ i < x.bytes.length, x.bytes[i]? = some (r.data (w + i))) ∧
          ∀ o, spans l ≤ o → o < spans l + x.span → mergeMap mp o = some (w + (o - spans l)) := by
  obtain ⟨rs, hrs, hlen, hrep⟩ := dedup_total ((g.members.flatMap g.cut).map Mstr.bytes)
  rw [length_map] at hrs hlen
  generalize hv : g.members.flatMap g.cut = v at hrs hlen hrep
  have hfst : (v.zip rs).map fst = v := map_fst_zip (by omega)
  refine ⟨g.layOut (v.zip rs), by rw [mergeGroup, hv, hrs]; rfl, fun i m hm => ?_⟩
  rw [Group.layOut]
  have hus : ∀ us, us = (if g.strings then
      (reps (v.zip rs)).insertionSort fun a b => mergeRcmp g.es a.bytes b.bytes ≠ .gt
      else reps (v.zip rs)) → us.Perm (reps (v.zip rs)) := fun us hus => by
    rw [hus]
    split
    · exact perm_insertionSort _ _
    · exact .rfl
  rw [show (v.zip rs).zipIdx.filterMap (fun x => if x.1.2 = x.2 then
    some (⟨x.1.1.bytes, x.2⟩ : Ustr) else none) = reps (v.zip rs) from rfl]
  have hperm := hus _ rfl
  generalize (if g.strings then
    (reps (v.zip rs)).insertionSort fun a b => mergeRcmp g.es a.bytes b.bytes ≠ .gt
    else reps (v.zip rs)) = us at hperm
  have hord := perm_insertionSort (fun a b => a.rep ≤ b.rep)
    (((tails g.strings g.al us).filter fun t => t.up.isNone).map Tail.str)
  generalize (((tails g.strings g.al us).filter fun t => t.up.isNone).map Tail.str).insertionSort
    (fun a b => a.rep ≤ b.rep) = ord at hord
  obtain ⟨A, hsub, hA, hmap⟩ := memberMaps_spec (newPlaces (place g.al 0 ord) (tails g.strings g.al us))
    (fun m hm => g.cut_cut hm) (hfst.trans hv.symm) hm
  refine ⟨_, hmap, fun l x tl hl => ?_⟩
  rw [← hA, map_eq_append_iff] at hl
  obtain ⟨lA, rA, rfl, rfl, hr⟩ := hl
  obtain ⟨⟨x, r⟩, rA, rfl, rfl, rfl⟩ := List.map_eq_cons_iff.1 hr
  obtain ⟨k, hk⟩ := List.mem_iff_getElem?.1 (hsub (x, r) (by simp))
  obtain ⟨hvk, hrk⟩ := List.getElem?_zip_eq_some.1 hk
  obtain ⟨hvr, hrr⟩ := hrep k x.bytes r (by rw [getElem?_map, hvk]; rfl) hrk
  rw [getElem?_map] at hvr
  obtain ⟨y, hy, hyx⟩ := Option.map_eq_some_iff.1 hvr
  have hmem : (⟨x.bytes, r⟩ : Ustr) ∈ us := by
    rw [hperm.mem_iff, ← hyx]
    exact mem_reps (List.getElem?_zip_eq_some.2 ⟨hy, hrr⟩)
  have hnd : (us.map Ustr.rep).Nodup := ((hperm.map _).nodup_iff).2 (reps_nodup _)
  obtain ⟨w, hlookup, hdvd, hsize, hdata⟩ := newPlaces_spec g.al_pos hnd hord hmem
  exact ⟨w, hdvd, hsize, hdata, fun o ho ho' => mergeMap_pieceMap hlookup ho ho'⟩

/-! ## Alignment -/

/-- A string or entry of an input, where it starts and how long it is. -/
def Group.HasPiece (g : Group) (m : Member) (a len : ℕ) : Prop :=
  ∃ l x tl, g.cut m = l ++ x :: tl ∧ a = spans l ∧ len = x.bytes.length

/-- An offset is mapped to one with the same bytes for the next `n`. -/
def SameBytes (r : Merged) (mp : List Mpiece) (d : Bytes) (o n : ℕ) : Prop :=
  ∃ o', mergeMap mp o = some o' ∧ o' + n ≤ r.size ∧ ∀ k < n, d[o + k]? = some (r.data (o' + k))

/-- After the merge, every offset inside a string or entry is mapped to one with the same bytes up
to its end, and a start that is a multiple of the group's alignment to such a multiple. -/
def MapsRight (g : Group) : Prop :=
  ∃ r, mergeGroup g = some r ∧ ∀ (i : ℕ) m, g.members[i]? = some m → ∃ mp, r.maps[i]? = some mp ∧
    ∀ a len, g.HasPiece m a len →
      (∀ o, a ≤ o → o < a + len → SameBytes r mp m.data o (a + len - o)) ∧
      (g.align ∣ a → ∃ a', mergeMap mp a = some a' ∧ g.align ∣ a')

lemma mapsRight_of_dvd {g : Group} (h : g.align ∣ g.al) : MapsRight g := by
  obtain ⟨r, hr, hall⟩ := mergeGroup_maps g
  refine ⟨r, hr, fun i m hm => ?_⟩
  obtain ⟨mp, hmp, hpieces⟩ := hall i m hm
  refine ⟨mp, hmp, ?_⟩
  rintro a - ⟨l, x, tl, hcut, rfl, rfl⟩
  have hc := g.cut_cut (mem_of_getElem? hm)
  rw [hcut] at hc
  obtain ⟨hpos, hle, -, -, hbytes⟩ := hc.piece
  obtain ⟨w, hdvd, hsize, hdata, hmap⟩ := hpieces l x tl hcut
  refine ⟨fun o ho ho' => ⟨w + (o - spans l), hmap o ho (by omega), by omega, fun k hk => ?_⟩, fun _ => ?_⟩
  · have := hbytes (o - spans l + k) (by omega)
    rw [hdata _ (by omega), show spans l + (o - spans l + k) = o + k by omega] at this
    rw [← this, add_assoc]
  · exact ⟨w + (spans l - spans l), hmap _ le_rfl (by omega), by
      rw [Nat.sub_self, Nat.add_zero]; exact h.trans hdvd⟩

/-- Two inputs of one entry each. -/
def twoEntries (es align : ℕ) (hes : 0 < es) (halign : 0 < align) : Group where
  es := es
  strings := false
  members := [⟨replicate es 0, align⟩, ⟨replicate es 1, align⟩]
  es_pos := hes
  align_pos := by simp [halign]
  whole := by simp
  terminated h := by cases h

lemma twoEntries_align (hes : 0 < es) (halign : 0 < align) : (twoEntries es align hes halign).align = align := by
  simp [Group.align, twoEntries]

lemma pieces_one (hes : 0 < es) (v : BitVec 8) :
    pieces es align false (replicate es v).length 0 (replicate es v) = [⟨replicate es v, es⟩] := by
  obtain ⟨n, rfl⟩ := exists_eq_succ_of_ne_zero hes.ne'
  rw [length_replicate, pieces, if_neg (by simp)]
  simp only [Bool.false_eq_true, if_false, false_and]
  rw [take_of_length_le (by simp), drop_of_length_le (by simp)]
  cases n with
  | zero => rfl
  | succ n => rw [pieces, if_pos rfl]

lemma layOut_size (g : Group) (vr : List (Mstr × ℕ)) : ∃ ord : List Ustr, (g.layOut vr).size = placedSize g.al 0 ord
    ∧ ord.length ≤ vr.length ∧ ∀ s ∈ ord, ∃ x ∈ vr, s.bytes = x.1.bytes := by
  have hreps : (reps vr).length ≤ vr.length ∧ ∀ s ∈ reps vr, ∃ x ∈ vr, s.bytes = x.1.bytes := by
    refine ⟨(length_filterMap_le _ _).trans (by simp), fun s hs => ?_⟩
    obtain ⟨x, hx, hsx⟩ := List.mem_filterMap.1 hs
    split at hsx
    · cases hsx
      exact ⟨x.1, fst_mem_of_mem_zipIdx hx, rfl⟩
    · cases hsx
  refine ⟨_, rfl, ?_, fun s hs => ?_⟩
  · rw [length_insertionSort, length_map]
    refine (length_filter_le _ _).trans ?_
    rw [← length_map Tail.str, tails_str]
    split
    · rw [length_insertionSort]
      exact hreps.1
    · exact hreps.1
  · rw [mem_insertionSort, mem_map] at hs
    obtain ⟨t, ht, rfl⟩ := hs
    have hmem := mem_map_of_mem (f := Tail.str) (mem_of_mem_filter ht)
    rw [tails_str] at hmem
    split at hmem
    · exact hreps.2 _ ((mem_insertionSort _).1 hmem)
    · exact hreps.2 _ hmem

lemma placedSize_of_length {al : ℕ} {ss : List Ustr} (hal : 0 < al) (hsize : al ∣ size)
    (h : ∀ s ∈ ss, s.bytes.length = al) : placedSize al size ss = size + ss.length * al := by
  induction ss generalizing size with
  | nil => simp [placedSize]
  | cons s ss ih =>
    obtain ⟨q, rfl⟩ := hsize
    have hround : (al * q + al - 1) / al * al = al * q := by
      rw [Nat.add_sub_assoc hal, Nat.mul_add_div hal, Nat.div_eq_of_lt (by omega), Nat.add_zero, mul_comm]
    rw [placedSize, hround, h s (.head _), ih (dvd_add (Dvd.intro q rfl) dvd_rfl) fun s hs => h s (.tail _ hs), length_cons]
    ring

lemma twoEntries_cut (hes : 0 < es) (halign : 0 < align) (v : BitVec 8) :
    (twoEntries es align hes halign).cut ⟨replicate es v, align⟩ = [⟨replicate es v, es⟩] :=
  pieces_one hes v

lemma twoEntries_size (hes : 0 < es) (halign : 0 < align) (hle : align ≤ es)
    {r : Merged} (hr : mergeGroup (twoEntries es align hes halign) = some r) : r.size ≤ 2 * es := by
  obtain ⟨rs, -, rfl⟩ := Option.map_eq_some_iff.1 hr
  have hv : (twoEntries es align hes halign).members.flatMap (twoEntries es align hes halign).cut =
      [⟨replicate es 0, es⟩, ⟨replicate es 1, es⟩] := by
    rw [show (twoEntries es align hes halign).members = [⟨replicate es 0, align⟩, ⟨replicate es 1, align⟩] from rfl,
      flatMap_cons, flatMap_cons, twoEntries_cut, twoEntries_cut]
    rfl
  have hal : (twoEntries es align hes halign).al = es := by
    rw [Group.al, twoEntries_align]
    exact if_neg (by show ¬ es < align; omega)
  rw [hv]
  obtain ⟨ord, hsize, hlen, hbytes⟩ := layOut_size (twoEntries es align hes halign)
    (zip [⟨replicate es 0, es⟩, ⟨replicate es 1, es⟩] rs)
  rw [hsize, hal, placedSize_of_length hes (dvd_zero _) fun s hs => ?_, zero_add]
  · refine mul_le_mul_right es (hlen.trans ?_)
    rw [length_zip]
    exact min_le_left _ _
  · obtain ⟨x, hx, hsx⟩ := hbytes s hs
    have hmem := (of_mem_zip hx).1
    simp only [mem_cons, not_mem_nil, or_false] at hmem
    rw [hsx]
    rcases hmem with h | h <;> rw [h, length_replicate]

lemma twoEntries_mapsRight (hes : 0 < es) (halign : 0 < align) (hle : align ≤ es)
    (h : MapsRight (twoEntries es align hes halign)) : align ∣ es := by
  obtain ⟨r, hr, hall⟩ := mergeGroup_maps (twoEntries es align hes halign)
  obtain ⟨r', hr', hright⟩ := h
  obtain rfl := Option.mem_unique hr hr'
  have hsize := twoEntries_size hes halign hle hr
  have hgo : ∀ (i : ℕ) v, (twoEntries es align hes halign).members[i]? = some ⟨replicate es v, align⟩ →
      ∃ w, (w = 0 ∨ w = es) ∧ align ∣ w ∧ r.data w = v := fun i v hm => by
    obtain ⟨mp, hmp, hpieces⟩ := hall i _ hm
    obtain ⟨mp', hmp', hpieces'⟩ := hright i _ hm
    obtain rfl := Option.mem_unique hmp hmp'
    obtain ⟨w, hdvd, hw, hdata, hmap⟩ := hpieces [] _ [] (twoEntries_cut hes halign v)
    obtain ⟨-, hal⟩ := hpieces' 0 es ⟨[], _, [], twoEntries_cut hes halign v, rfl, by simp⟩
    rw [twoEntries_align] at hal
    obtain ⟨a', ha', halign'⟩ := hal (dvd_zero _)
    obtain rfl := Option.some.inj ((hmap 0 le_rfl (by simpa using hes)).symm.trans ha')
    refine ⟨w, ?_, by simpa using halign', ?_⟩
    · rw [Group.al, twoEntries_align, if_neg (by show ¬ es < align; omega)] at hdvd
      rw [length_replicate] at hw
      obtain ⟨q, rfl⟩ := hdvd
      have hq : q < 2 := by
        by_contra hq
        have := mul_le_mul_left es (show 2 ≤ q by omega)
        change es * q + es ≤ _ at hw
        omega
      interval_cases q
      · exact .inl (mul_zero _)
      · exact .inr (mul_one _)
    · have := hdata 0 (by simpa using hes)
      rw [getElem?_replicate_of_lt hes, Option.some.injEq, add_zero] at this
      exact this.symm
  obtain ⟨w0, hw0, hal0, hdata0⟩ := hgo 0 0 rfl
  obtain ⟨w1, hw1, hal1, hdata1⟩ := hgo 1 1 rfl
  have hne : w0 ≠ w1 := fun h => by
    rw [h, hdata1] at hdata0
    exact absurd hdata0 (by decide)
  rcases hw0 with rfl | rfl
  · rcases hw1 with rfl | rfl
    · exact absurd rfl hne
    · exact hal1
  · exact hal0

/-- For which sizes of characters and entries, and which alignments, the merge is right whatever is
merged. -/
theorem mergeGroup_maps_iff {es align : ℕ} (hes : 0 < es) (halign : 0 < align) :
    (∀ g : Group, g.es = es → g.align = align → MapsRight g) ↔ es < align ∨ align ∣ es := by
  constructor
  · intro h
    by_cases hlt : es < align
    · exact .inl hlt
    · exact .inr (twoEntries_mapsRight hes halign (by omega) (h _ rfl (twoEntries_align hes halign)))
  · rintro h g rfl rfl
    refine mapsRight_of_dvd ?_
    unfold Group.al
    split
    · exact dvd_rfl
    · exact h.resolve_left (by omega)

/-- Strings of bytes, and words at multiples of four. -/
theorem mergeGroup_maps_bytes : (∀ g : Group, g.es = 1 → g.align = 4 → MapsRight g) ∧
    ∀ g : Group, g.es = 4 → g.align = 4 → MapsRight g :=
  ⟨(mergeGroup_maps_iff (by decide) (by decide)).2 (.inl (by decide)),
    (mergeGroup_maps_iff (by decide) (by decide)).2 (.inr (by decide))⟩

/-- Entries of 12 bytes at an alignment of 8: the third is at 24, and is moved to 12. -/
def twelve : Group where
  es := 12
  strings := false
  members := [⟨replicate 24 0 ++ replicate 12 1, 8⟩]
  es_pos := by decide
  align_pos := by decide
  whole := by decide
  terminated h := by cases h

theorem mergeGroup_misaligned : ¬ MapsRight twelve := by
  rintro ⟨r, hr, hright⟩
  obtain ⟨mp, hmp, hpieces⟩ := hright 0 _ rfl
  have hpiece : twelve.HasPiece ⟨replicate 24 0 ++ replicate 12 1, 8⟩ 24 12 :=
    ⟨[⟨replicate 12 0, 12⟩, ⟨replicate 12 0, 12⟩], ⟨replicate 12 1, 12⟩, [], rfl, rfl, rfl⟩
  obtain ⟨a', ha', hal⟩ := (hpieces 24 12 hpiece).2 (by decide)
  have hwhere : ((mergeGroup twelve).bind fun r => (r.maps[0]?).bind fun mp => mergeMap mp 24) = some 12 := by
    decide +kernel
  rw [hr, Option.bind_some, hmp, Option.bind_some, ha', Option.some.injEq] at hwhere
  subst hwhere
  exact absurd hal (by decide)

end EmbCC.Link
