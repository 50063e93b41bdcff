import EmbCC.Arch.Graph.Slots

/-!
# Merging slots

One turn of `rg_merge`'s loop exchanges `small` for `big` in a neighbour (`Slots.turn`): an entry
or a bit is renamed, or dropped when `big` is named already. A dropped list entry is replaced by
the last one, whose reverse has to be told (`Backs.moved`). The whole loop is then the exchange
in every neighbour of `small` (`Slots.turns`).
-/

namespace EmbCC.Arch.Graph

open List BitRow Function Option Prod
open Finset (mem_erase mem_insert)

/-! ## Rows and lists without a neighbour -/

/-- The neighbours with `x` gone from those of `a`. -/
def unlink (adj : ℕ → Finset ℕ) (a x : ℕ) : ℕ → Finset ℕ := update adj a ((adj a).erase x)

variable {adj : ℕ → Finset ℕ} {a j x : ℕ}

lemma mem_unlink {c d : ℕ} : d ∈ unlink adj a x c ↔ d ∈ adj c ∧ ¬(c = a ∧ d = x) := by
  unfold unlink
  by_cases hca : c = a
  · subst hca
    simp [and_comm]
  · simp [hca]

lemma Sym.unlink {L : Finset ℕ} (h : Sym L adj) (hx : x ∉ L) (a : ℕ) : Sym L (unlink adj a x) where
  symm c hc d hd hmem := by
    rw [mem_unlink] at hmem ⊢
    exact ⟨h.symm c hc d hd hmem.1, fun hcx => hx (hcx.2 ▸ hc)⟩
  irrefl c hc hmem := h.irrefl c hc (mem_unlink.1 hmem).1

lemma mem_set_of_nodup {l : List ℕ} {e : ℕ} (hnd : l.Nodup) (he : l[j]? = some e) (b : ℕ) :
    b ∈ l.set j x ↔ b = x ∨ b ∈ l ∧ b ≠ e := by
  obtain ⟨hlt, rfl⟩ := List.getElem?_eq_some_iff.1 he
  simp only [mem_iff_getElem, length_set, getElem_set]
  constructor
  · rintro ⟨i, hi, rfl⟩
    by_cases hji : j = i
    · exact .inl (if_pos hji)
    · rw [if_neg hji]
      exact .inr ⟨⟨i, hi, rfl⟩, fun heq => hji (hnd.getElem_inj_iff.1 heq).symm⟩
  · rintro (rfl | ⟨⟨i, hi, rfl⟩, hne⟩)
    · exact ⟨j, hlt, if_pos rfl⟩
    · exact ⟨i, hi, if_neg fun hji => hne (by simp only [hji])⟩

lemma names_set {l : List RgEnt} {j : ℕ} {e x : RgEnt} (hnd : (l.map (·.v)).Nodup)
    (he : l[j]? = some e) (hx : x.v ∉ l.map (·.v)) : ((l.set j x).map (·.v)).Nodup ∧
      ∀ b, b ∈ (l.set j x).map (·.v) ↔ b = x.v ∨ b ∈ l.map (·.v) ∧ b ≠ e.v := by
  rw [map_set]
  exact ⟨hnd.set hx, mem_set_of_nodup hnd (by rw [getElem?_map, he]; rfl)⟩

lemma entry_eq {g : RaGraph} {l : List RgEnt} {e : RgEnt} (hs : g.store a = .list l)
    (he : l[j]? = some e) (f : RgEnt → RgEnt) : g.entry a j f = some (g.keep a (.list (l.set j (f e)))) := by
  have hlt := (List.getElem?_eq_some_iff.1 he).1
  have hj : (0 : ℤ) ≤ j ∧ (j : ℤ) < l.length := ⟨by omega, by omega⟩
  unfold RaGraph.entry
  rw [hs]
  simp only [if_pos hj, Int.toNat_natCast, modify_eq_set_getElem?, he]
  rfl

section
variable {g : RaGraph} {L : Finset ℕ} {adj : ℕ → Finset ℕ} {big small v : ℕ}

lemma unlink_self (adj : ℕ → Finset ℕ) (v x : ℕ) : unlink adj v x v = (adj v).erase x :=
  update_self _ _ _

lemma unlink_of_ne {c x : ℕ} (hc : c ≠ v) : unlink adj v x c = adj c := update_of_ne hc _ _

section
variable (h : Slots g.store L adj) (hbig : big ∈ L)
include h hbig

/-- A turn of the merge on a neighbour that keeps a row: the bit moves from one name to the other.
-/
lemma Slots.rename_row (hsmall : small ∉ L) (hne : v ≠ big) (hno' : v ∉ adj big) (hhas : ¬rgSlotHas g big v = true) {w : Row}
    (hs : g.store v = .row w) (hw : Holds (.row w) (adj v)) (r hint : ℤ) :
    ∃ st, rgRename big small (g, r) (v, hint) = some ({ g with store := st }, r + 1) ∧
      Slots st L (link (unlink adj v small) v big) := by
  have hstb : (g.keep v (.row (set (clear w small) big))).store big = g.store big :=
    update_of_ne hne.symm _ _
  obtain ⟨sb, k, hput, hholds, hl⟩ := @rgPut_spec (g.keep v (.row (set (clear w small) big))) big v _
    (hstb ▸ h.holds big hbig) hno' (-1)
  rw [hstb] at hl
  obtain ⟨st, hst⟩ : ∃ st, st = update (update g.store v (.row (set (clear w small) big))) big sb :=
    ⟨_, rfl⟩
  have hb' : st big = sb := by rw [hst, update_self]
  have hv' : st v = .row (set (clear w small) big) := by rw [hst, update_of_ne hne, update_self]
  have hnl : ¬IsList (st v) := by
    rw [hv']
    exact not_isList_row _
  refine ⟨st, ?_, slots_linked (i := 0) (h.toSym.unlink hsmall v) hne
    (fun c hc hcv _ => unlink_of_ne hcv ▸ h.holds c hc) h.backs (fun c hcv hcb => ?_) ?_ ?_
    (fun hl' => (hnl hl').elim) (hb'.symm ▸ gains_put hl) (fun hl' => (hnl hl').elim) fun _ => rfl⟩
  · simp only [rgRename, if_neg hhas, hs, hput, hst]
    rfl
  · rw [hst, update_of_ne hcb, update_of_ne hcv]
  · rw [hv', unlink_self]
    intro b
    simp only [has_set, has_clear, Bool.or_eq_true, Bool.and_eq_true, hw b, decide_eq_true_iff,
      Bool.not_eq_true', decide_eq_false_iff_not, mem_insert, mem_erase]
    tauto
  · rw [hb', unlink_of_ne hne.symm]
    exact hholds

/-- A turn of the merge on a neighbour that keeps a list: its entry is given the other name. -/
lemma Slots.rename_list (hsmall : small ∉ L) (hne : v ≠ big) (hin : small ∈ adj v) (hno : big ∉ adj v) (hno' : v ∉ adj big)
    (hhas : ¬rgSlotHas g big v = true) {l : List RgEnt} (hs : g.store v = .list l)
    (hw : Holds (.list l) (adj v)) (r hint : ℤ) :
    ∃ st, rgRename big small (g, r) (v, hint) = some ({ g with store := st }, r + 1) ∧
      Slots st L (link (unlink adj v small) v big) := by
  obtain ⟨hlen, hnd, hmem⟩ := hw
  obtain ⟨j, e, hfind, he, rfl⟩ := rgFind_spec hs ((hmem small).2 hin) hint
  have hlt := (List.getElem?_eq_some_iff.1 he).1
  obtain ⟨l1, hl1⟩ : ∃ l1, l1 = l.set j ⟨big, e.back⟩ := ⟨_, rfl⟩
  have hstb : (g.keep v (.list l1)).store big = g.store big := update_of_ne hne.symm _ _
  obtain ⟨sb, k, hput, hholds, hl⟩ := @rgPut_spec (g.keep v (.list l1)) big v _ (hstb ▸ h.holds big hbig) hno' j
  rw [hstb] at hl
  have hent : g.entry v j (fun e => { e with v := big }) = some (g.keep v (.list l1)) :=
    hl1 ▸ entry_eq hs he _
  have hs2 : ((g.keep v (.list l1)).keep big sb).store v = .list l1 :=
    (update_of_ne hne _ _).trans (update_self _ _ _)
  have he2 : l1[j]? = some ⟨big, e.back⟩ := hl1 ▸ getElem?_set_self hlt
  have hset : l1.set j ⟨big, k⟩ = l.set j ⟨big, k⟩ := hl1 ▸ set_set _
  have hent2 : ((g.keep v (.list l1)).keep big sb).entry v j (fun e => { e with back := k }) =
      some (((g.keep v (.list l1)).keep big sb).keep v (.list (l.set j ⟨big, k⟩))) :=
    hset ▸ entry_eq hs2 he2 _
  obtain ⟨st, hst⟩ : ∃ st, st = update (update (update g.store v (.list l1)) big sb) v (.list (l.set j ⟨big, k⟩)) := ⟨_, rfl⟩
  have hb' : st big = sb := by rw [hst, update_of_ne hne.symm, update_self]
  have hv' : st v = .list (l.set j ⟨big, k⟩) := by rw [hst, update_self]
  obtain ⟨hnd', hmem'⟩ := @names_set l j e ⟨big, k⟩ hnd he fun hb => hno ((hmem big).1 hb)
  refine ⟨st, ?_, slots_linked (h.toSym.unlink hsmall v) hne (fun c hc hcv _ => unlink_of_ne hcv ▸ h.holds c hc) h.backs
    (fun c hcv hcb => ?_) ?_ ?_ (hs.symm ▸ hv'.symm ▸ gains_set he hsmall ⟨big, k⟩) (hb'.symm ▸ gains_put hl)
    (fun _ => rfl) fun hlist => ?_⟩
  · simp only [rgRename, if_neg hhas, hs, hfind, hent, bind_eq_bind, bind_some, hput, hent2, hst]
    rfl
  · rw [hst, update_of_ne hcv, update_of_ne hcb, update_of_ne hcv]
  · rw [hv', unlink_self]
    refine ⟨by rwa [length_set], hnd', fun b => ?_⟩
    rw [hmem', hmem, mem_insert, mem_erase, and_comm]
  · rw [hb', unlink_of_ne hne.symm]
    exact hholds
  · obtain ⟨l', hs', -, -, hk⟩ := hl (hb' ▸ hlist)
    rw [hk, hs', Store.nb]

lemma Slots.rename (hv : v ∈ L) (hsmall : small ∉ L) (hne : v ≠ big) (hin : small ∈ adj v) (hno : big ∉ adj v) (r hint : ℤ) :
    ∃ st, rgRename big small (g, r) (v, hint) = some ({ g with store := st }, r + 1) ∧
      Slots st L (link (unlink adj v small) v big) := by
  have hno' : v ∉ adj big := fun hmem => hno (h.symm big hbig v hv hmem)
  have hhas : ¬rgSlotHas g big v = true := fun hhas => hno' ((h.has_iff hbig hv).1 hhas)
  have hw := h.holds v hv
  match hs : g.store v with
  | .row w => exact h.rename_row hbig hsmall hne hno' hhas hs (hs ▸ hw) r hint
  | .list l => exact h.rename_list hbig hsmall hne hin hno hno' hhas hs (hs ▸ hw) r hint
  | .freed => exact (hs ▸ hw : Holds .freed (adj v)).elim

end
end

section
variable {g : RaGraph} {L : Finset ℕ} {adj : ℕ → Finset ℕ} {a x : ℕ}
variable {l : List RgEnt} {A : Finset ℕ} {m e : RgEnt}

lemma rgDrop_list (hs : g.store a = .list (l ++ [m])) (k : ℤ) : rgDrop g a x k =
      if k = l.length then some (g.keep a (.list l)) else
      ((g.keep a (.list l)).entry a k fun _ => m).bind fun g => match g.store m.v with
        | .row _ => some g
        | _ => g.entry m.v m.back fun e => { e with back := k } := by
  have hlen : ((l ++ [m]).length : ℤ) - 1 = l.length := by simp
  simp only [rgDrop, hs, getLast?_concat, hlen, dropLast_concat] <;> rfl

/-! ## Dropping a neighbour -/

lemma Slots.drop_row (h : Slots g.store L adj) (ha : a ∈ L) (hx : x ∉ L) {w : Row}
    (hs : g.store a = .row w) (k : ℤ) : ∃ st, rgDrop g a x k = some { g with store := st } ∧
      Slots st L (unlink adj a x) := by
  have hw : Holds (.row w) (adj a) := hs ▸ h.holds a ha
  refine ⟨update g.store a (.row (clear w x)), ?_, h.toSym.unlink hx a, fun c hc => ?_, ?_⟩
  · simp only [rgDrop, hs]
    rfl
  · by_cases hca : c = a
    · subst hca
      rw [update_self, unlink_self]
      intro b
      rw [has_clear, Bool.and_eq_true, hw b, mem_erase, and_comm]
      simp
    · rw [update_of_ne hca, unlink_of_ne hca]
      exact h.holds c hc
  · have hnl : ∀ c, IsList (update g.store a (.row (clear w x)) c) → c ≠ a := by
      rintro c hl rfl
      rw [update_self] at hl
      exact not_isList_row _ hl
    refine h.backs.renumber (fun _ i => i) (fun d _ hl => ?_) (fun c _ i e he _ _ => ?_) fun c _ hl d _ i m he => ?_
    · rwa [update_of_ne (hnl d hl)] at hl
    · have hc := hnl c (isList_of_nb he)
      rw [Ent, update_of_ne hc] at he
      exact ⟨i, e, he, rfl, rfl, fun m hm => hm⟩
    · rwa [Ent, update_of_ne (hnl c hl)]

/-- Taking the last entry off a list takes nothing else with it. -/
lemma Slots.drop_last (h : Slots g.store L adj) (ha : a ∈ L) (hx : m.v ∉ L) (hs : g.store a = .list (l ++ [m])) :
    Slots (update g.store a (.list l)) L (unlink adj a m.v) := by
  obtain ⟨hlen, hnd, hmem⟩ : Holds (.list (l ++ [m])) (adj a) := hs ▸ h.holds a ha
  rw [map_append, map_singleton] at hnd hmem
  rw [length_append, length_singleton] at hlen
  have hnotin : m.v ∉ l.map (·.v) := fun hm =>
    (nodup_append.1 hnd).2.2 _ hm _ (mem_singleton_self _) rfl
  refine ⟨h.toSym.unlink hx a, fun c hc => ?_, ?_⟩
  · by_cases hca : c = a
    · subst hca
      rw [update_self, unlink_self]
      refine ⟨by omega, (nodup_append.1 hnd).1, fun b => ?_⟩
      rw [mem_erase, ← hmem, mem_append, mem_singleton]
      refine ⟨fun hb => ⟨fun heq => hnotin (heq ▸ hb), .inl hb⟩, fun ⟨hne, hb⟩ => ?_⟩
      exact hb.resolve_right hne
    · rw [update_of_ne hca, unlink_of_ne hca]
      exact h.holds c hc
  · have hstay : ∀ c, c ≠ a → update g.store a (.list l) c = g.store c :=
      fun c hc => update_of_ne hc _ _
    refine h.backs.renumber (fun _ i => i) (fun d _ hl => ?_) (fun c _ i e he _ _ => ?_) fun c _ hl d hd i k he => ?_
    · by_cases hda : d = a
      · exact hda ▸ ⟨_, hs⟩
      · rwa [hstay d hda] at hl
    · refine ⟨i, e, ?_, rfl, rfl, fun m hm => hm⟩
      by_cases hca : c = a
      · subst hca
        rw [Ent, update_self] at he
        rw [Ent, hs]
        exact (getElem?_append_left (List.getElem?_eq_some_iff.1 he).1).trans he
      · rwa [Ent, hstay c hca] at he
    · by_cases hca : c = a
      · subst hca
        rw [Ent, hs, Store.nb, getElem?_append] at he
        rw [Ent, update_self]
        split at he
        · exact he
        · have hv : m = ⟨d, k⟩ := by
            have := mem_of_getElem? he
            exact (mem_singleton.1 this).symm
          exact (hx (hv ▸ hd)).elim
      · rwa [Ent, hstay c hca]

/-! ## Telling the partner its new place -/

section
variable {st st' : ℕ → Store} {l : List RgEnt} {m e : RgEnt} {j : ℕ}

/-- What dropping entry `j` does to the slot of the last entry: nothing when it has no list,
otherwise that entry's reverse now leads to `j`. -/
def Told (st st' : ℕ → Store) (a last j : ℕ) (m : RgEnt) : Prop :=
  (IsList (st m.v) → ∃ (lm : List RgEnt) (b : ℕ), st m.v = .list lm ∧ m.back = b ∧
    lm[b]? = some ⟨a, last⟩ ∧ st' m.v = .list (lm.set b ⟨a, j⟩)) ∧
  (¬IsList (st m.v) → st' m.v = st m.v)

section
variable (h : Backs st L) (ha : a ∈ L) (hs : st a = .list (l ++ [m]))
include h ha hs

lemma Backs.only {c i : ℕ} (hc : c ∈ L) (hent : Ent st c i ⟨a, l.length⟩) : m = ⟨c, i⟩ := by
  obtain ⟨n, hn, hrev⟩ := h c hc i _ hent ha ⟨_, hs⟩
  obtain rfl : l.length = n := by simpa using hn
  rw [Ent, hs] at hrev
  exact Option.some.inj (getElem?_concat_length.symm.trans hrev)

lemma Backs.ent_moved (htold : Told st st' a l.length j m) (hother : ∀ c, c ≠ a → c ≠ m.v → st' c = st c) {c : ℕ}
    (hc : c ∈ L) (hca : c ≠ a) (i : ℕ) (e' : RgEnt) : Ent st' c i e' ↔
      Ent st c i e' ∧ e' ≠ ⟨a, l.length⟩ ∨ Ent st c i ⟨a, l.length⟩ ∧ e' = ⟨a, j⟩ := by
  by_cases hfix : st' c = st c ∧ ¬Ent st c i ⟨a, l.length⟩
  · have hne : Ent st c i e' → e' ≠ ⟨a, l.length⟩ := fun he' heq => hfix.2 (heq ▸ he')
    rw [Ent, hfix.1]
    exact ⟨fun he' => .inl ⟨he', hne he'⟩, fun h' => h'.elim And.left fun h' => (hfix.2 h'.1).elim⟩
  obtain ⟨rfl, hl⟩ : c = m.v ∧ IsList (st c) := by
    by_contra hno
    refine hfix ⟨?_, fun hent => hno ⟨?_, isList_of_nb hent⟩⟩
    · by_cases hcm : c = m.v
      · rw [hcm]
        exact htold.2 fun hl => hno ⟨hcm, hcm ▸ hl⟩
      · exact hother c hca hcm
    · rw [h.only ha hs hc hent]
  obtain ⟨lm, b, hslm, hmb, hlm, hst'⟩ := htold.1 hl
  have hlt := (List.getElem?_eq_some_iff.1 hlm).1
  rw [Ent, Ent, Ent, hst', hslm]
  by_cases hib : i = b
  · subst hib
    rw [Store.nb, Store.nb, getElem?_set_self hlt, hlm]
    simp only [Option.some.injEq]
    tauto
  · rw [Store.nb, Store.nb, getElem?_set_ne (Ne.symm hib)]
    have hne : ¬lm[i]? = some ⟨a, l.length⟩ := by
      intro hent
      have hm : m = ⟨m.v, i⟩ := h.only ha hs hc (by rw [Ent, hslm]; exact hent)
      have hbi : m.back = i := congrArg RgEnt.back hm
      omega
    refine ⟨fun he' => .inl ⟨he', fun heq => hne (heq ▸ he')⟩, fun h' => ?_⟩
    exact h'.elim And.left fun h' => (hne h'.1).elim

/-- Where the last entry fills the hole, its partner is told the new place. -/
lemma Backs.moved (hirrefl : ∀ i e, Ent st a i e → e.v ≠ a) (he : l[j]? = some e) (hx : e.v ∉ L)
    (ha' : st' a = .list (l.set j m)) (htold : Told st st' a l.length j m)
    (hother : ∀ c, c ≠ a → c ≠ m.v → st' c = st c) : Backs st' L := by
  have hlt := (List.getElem?_eq_some_iff.1 he).1
  have hentm : Ent st a l.length m := by
    rw [Ent, hs]
    exact getElem?_concat_length
  have hfar := fun c hc hca => @Backs.ent_moved L a st st' l m j h ha hs htold hother c hc hca
  let π : ℕ → ℕ → ℕ := fun c i => if c = a ∧ i = l.length then j else i
  have hπ : ∀ c i, ¬(c = a ∧ i = l.length) → π c i = i := fun c i hno => if_neg hno
  have hπa : π a l.length = j := if_pos ⟨rfl, rfl⟩
  refine h.renumber π (fun d hd hl => ?_) (fun c hc i' e' he' _ _ => ?_) fun c hc hl d hd i n hent => ?_
  · by_cases hda : d = a
    · exact hda ▸ ⟨_, hs⟩
    by_cases hdm : d = m.v
    · subst hdm
      by_contra hno
      exact hno (htold.2 hno ▸ hl)
    · exact hother d hda hdm ▸ hl
  · by_cases hca : c = a
    · subst hca
      rw [Ent, ha', Store.nb] at he'
      by_cases hji : j = i'
      · subst hji
        obtain rfl := Option.some.inj ((getElem?_set_self hlt).symm.trans he')
        exact ⟨l.length, m, hentm, hπa.symm, rfl, fun n hn => by rw [hn, hπ _ _ fun hc => hirrefl _ _ hentm hc.1]⟩
      · rw [getElem?_set_ne hji] at he'
        have hi' := (List.getElem?_eq_some_iff.1 he').1
        have hold : Ent st c i' e' := by
          rw [Ent, hs]
          exact (getElem?_append_left hi').trans he'
        exact ⟨i', e', hold, by rw [hπ _ _ fun hc => by omega], rfl,
          fun n hn => by rw [hn, hπ _ _ fun hc => hirrefl _ _ hold hc.1]⟩
    · rcases (hfar c hc hca i' e').1 he' with ⟨hold, hne⟩ | ⟨hold, rfl⟩
      · refine ⟨i', e', hold, by rw [hπ _ _ fun h => hca h.1], rfl, fun n hn => ?_⟩
        rw [hπ, hn]
        rintro ⟨hv, rfl⟩
        exact hne (by cases e'; simp_all)
      · refine ⟨i', _, hold, by rw [hπ _ _ fun h => hca h.1], rfl, fun n hn => ?_⟩
        obtain rfl : l.length = n := by simpa using hn
        exact congrArg Nat.cast hπa.symm
  · by_cases hca : c = a
    · subst hca
      have hdc : d ≠ c := hirrefl _ _ hent
      rw [hπ d n fun h => hdc h.1, Ent, ha', Store.nb]
      rw [Ent, hs, Store.nb, getElem?_append] at hent
      split_ifs at hent with hi
      · rw [hπ c i fun h => by omega, getElem?_set_ne, hent]
        rintro rfl
        obtain rfl := Option.some.inj (he.symm.trans hent)
        exact hx hd
      · have hmd : m = ⟨d, n⟩ := (mem_singleton.1 (mem_of_getElem? hent)).symm
        have hi : i = l.length := by
          have := (List.getElem?_eq_some_iff.1 hent).1
          rw [length_singleton] at this
          omega
        rw [hi, hπa, getElem?_set_self hlt, hmd]
    · rw [hπ c i fun h => hca h.1, hfar c hc hca]
      by_cases hlast : d = a ∧ n = l.length
      · obtain ⟨rfl, rfl⟩ := hlast
        exact .inr ⟨hent, by rw [hπa]⟩
      · rw [hπ d n hlast]
        refine .inl ⟨hent, fun heq => hlast ?_⟩
        simpa using heq

end
end

lemma Slots.ent_mem {st : ℕ → Store} (h : Slots st L adj) {c i : ℕ} (hc : c ∈ L) (he : Ent st c i e) : e.v ∈ adj c := by
  obtain ⟨l, hl⟩ := isList_of_nb he
  rw [Ent, hl] at he
  exact ((hl ▸ h.holds c hc : Holds (.list l) (adj c)).2.2 e.v).1 (mem_map.2 ⟨e, mem_of_getElem? he, rfl⟩)

lemma holds_back {b : ℕ} (h : Holds (.list l) A)
    (he : l[b]? = some e) (k : ℤ) : Holds (.list (l.set b { e with back := k })) A := by
  have hnames : (l.set b { e with back := k }).map (·.v) = l.map (·.v) := by
    obtain ⟨hlt, rfl⟩ := List.getElem?_eq_some_iff.1 he
    have hlt' : b < (l.map (·.v)).length := by simpa using hlt
    have hb : l[b].v = (l.map (·.v))[b] := (getElem_map _).symm
    rw [map_set, hb, set_getElem_self]
  obtain ⟨hlen, hnd, hmem⟩ := h
  rw [Holds, hnames, length_set]
  exact ⟨hlen, hnd, hmem⟩

lemma holds_moved {j : ℕ} (h : Holds (.list (l ++ [m])) A) (he : l[j]? = some e) :
    Holds (.list (l.set j m)) (A.erase e.v) := by
  obtain ⟨hlen, hnd, hmem⟩ := h
  rw [map_append, map_singleton] at hnd hmem
  rw [length_append, length_singleton] at hlen
  obtain ⟨hndl, -, hdisj⟩ := nodup_append.1 hnd
  have hm : m.v ∉ l.map (·.v) := fun hm => hdisj _ hm _ (mem_singleton_self _) rfl
  have hne : m.v ≠ e.v := fun heq => hm (heq ▸ mem_map.2 ⟨e, mem_of_getElem? he, rfl⟩)
  obtain ⟨hnd', hmem'⟩ := names_set hndl he hm
  refine ⟨by rw [length_set]; omega, hnd', fun b => ?_⟩
  rw [hmem', mem_erase, ← hmem, mem_append, mem_singleton]
  constructor
  · rintro (rfl | ⟨hb, hbe⟩)
    · exact ⟨hne, .inr rfl⟩
    · exact ⟨hbe, .inl hb⟩
  · rintro ⟨hbe, hb | rfl⟩
    · exact .inr ⟨hb, hbe⟩
    · exact .inl rfl

/-- `rg_drop` of an entry that is not the last moves the last one into its place. -/
lemma Slots.drop_inner (h : Slots g.store L adj) (ha : a ∈ L)
    {j : ℕ} (hs : g.store a = .list (l ++ [m])) (he : l[j]? = some e) (hx : e.v ∉ L)
    (hm : m.v ∈ L) (x : ℕ) : ∃ st, rgDrop g a x j = some { g with store := st } ∧
      Slots st L (unlink adj a e.v) := by
  have hlt := (List.getElem?_eq_some_iff.1 he).1
  have hirrefl : ∀ i e, Ent g.store a i e → e.v ≠ a := by
    intro i e he heq
    have hmem := h.ent_mem ha he
    rw [heq] at hmem
    exact h.irrefl a ha hmem
  have hentm : Ent g.store a l.length m := by
    rw [Ent, hs]
    exact getElem?_concat_length
  have hma : m.v ≠ a := hirrefl _ _ hentm
  have hholds : Holds (.list (l.set j m)) ((adj a).erase e.v) := holds_moved (hs ▸ h.holds a ha) he
  obtain ⟨g1, hg1⟩ : ∃ g1, g1 = g.keep a (.list (l.set j m)) := ⟨_, rfl⟩
  have hkeep : (g.keep a (.list l)).entry a j (fun _ => m) = some g1 := by
    have hs1 : (g.keep a (.list l)).store a = .list l := update_self _ _ _
    rw [entry_eq hs1 he, hg1]
    simp only [RaGraph.keep, update_idem]
  have hst : ∀ c, c ≠ a → g1.store c = g.store c := fun c hc => hg1 ▸ update_of_ne hc _ _
  have hsta : g1.store a = .list (l.set j m) := hg1 ▸ update_self _ _ _
  have hne : ¬(j : ℤ) = l.length := by omega
  rw [rgDrop_list hs, if_neg hne, hkeep, bind_some]
  cases hsm : g1.store m.v with
  | row w =>
    have hnl : ¬IsList (g.store m.v) := hst m.v hma ▸ hsm ▸ not_isList_row w
    refine ⟨g1.store, by rw [hg1]; rfl, h.toSym.unlink hx a, fun c hc => ?_, ?_⟩
    · by_cases hca : c = a
      · subst hca
        rwa [hsta, unlink_self]
      · rw [hst c hca, unlink_of_ne hca]
        exact h.holds c hc
    · exact h.backs.moved ha hs hirrefl he hx hsta ⟨fun hl => (hnl hl).elim, fun _ => hst m.v hma⟩ fun c hca _ => hst c hca
  | list lm =>
    have hslm : g.store m.v = .list lm := (hst m.v hma).symm.trans hsm
    obtain ⟨b, hb, hrev⟩ := h.backs a ha _ m hentm hm ⟨lm, hslm⟩
    have hlmb : lm[b]? = some ⟨a, l.length⟩ := by rwa [Ent, hslm] at hrev
    simp only [hb, entry_eq hsm hlmb]
    have htoldm : (g1.keep m.v (.list (lm.set b ⟨a, j⟩))).store m.v = .list (lm.set b ⟨a, j⟩) :=
      update_self _ _ _
    have hfar : ∀ c, c ≠ m.v → (g1.keep m.v (.list (lm.set b ⟨a, j⟩))).store c = g1.store c :=
      fun c hc => update_of_ne hc _ _
    refine ⟨(g1.keep m.v (.list (lm.set b ⟨a, j⟩))).store, by rw [hg1]; rfl, h.toSym.unlink hx a, fun c hc => ?_, ?_⟩
    · by_cases hcm : c = m.v
      · subst hcm
        rw [htoldm, unlink_of_ne hma]
        exact holds_back (hslm ▸ h.holds m.v hm) hlmb j
      by_cases hca : c = a
      · subst hca
        rwa [hfar c hcm, hsta, unlink_self]
      · rw [hfar c hcm, hst c hca, unlink_of_ne hca]
        exact h.holds c hc
    · exact h.backs.moved ha hs hirrefl he hx ((hfar a hma.symm).trans hsta)
        ⟨fun _ => ⟨lm, b, hslm, hb, hlmb, htoldm⟩, fun hno => (hno ⟨lm, hslm⟩).elim⟩
        fun c hca hcm => (hfar c hcm).trans (hst c hca)
  | freed => exact (hsm ▸ hst m.v hma ▸ h.holds m.v hm : Holds .freed (adj m.v)).elim

/-- `rg_drop` takes one neighbour out of a list, whatever its place. -/
lemma Slots.drop (h : Slots g.store L adj) (ha : a ∈ L) (hx : x ∉ L) (hin : x ∈ adj a)
    (hsub : adj a ⊆ insert x L) (hint : ℤ) :
    ∃ st, rgDrop g a x (rgFind g a x hint) = some { g with store := st } ∧
      Slots st L (unlink adj a x) := by
  have hw := h.holds a ha
  match hs : g.store a with
  | .row w => exact h.drop_row ha hx hs _
  | .freed => exact (hs ▸ hw : Holds .freed (adj a)).elim
  | .list l =>
    rw [hs] at hw
    obtain ⟨j, e, hfind, he, rfl⟩ := rgFind_spec hs ((hw.2.2 x).2 hin) hint
    rw [hfind]
    have hne : l ≠ [] := by
      rintro rfl
      simp at he
    obtain ⟨l', m, rfl⟩ : ∃ l' m, l = l' ++ [m] := ⟨_, _, (dropLast_append_getLast hne).symm⟩
    by_cases hj : j = l'.length
    · obtain rfl : m = e := by simpa [hj] using he
      refine ⟨_, ?_, h.drop_last ha hx hs⟩
      rw [rgDrop_list hs, if_pos (congrArg Nat.cast hj)]
      rfl
    · have hlt : j < l'.length := by
        have := (List.getElem?_eq_some_iff.1 he).1
        rw [length_append, length_singleton] at this
        omega
      rw [getElem?_append_left hlt] at he
      have hmx : m.v ≠ e.v := by
        have hnd := hw.2.1
        rw [map_append, map_singleton] at hnd
        exact ((nodup_append.1 hnd).2.2 _ (mem_map.2 ⟨e, mem_of_getElem? he, rfl⟩) _ (mem_singleton_self _)).symm
      have hm : m.v ∈ L := by
        have hmem : m.v ∈ adj a := (hw.2.2 m.v).1 (by simp)
        exact (mem_insert.1 (hsub hmem)).resolve_left hmx
      exact h.drop_inner ha hs he hx hm e.v

end

/-! ## The merge loop -/

/-- The neighbours with `big` for `small` in those of `v`. -/
def exchange (small big : ℕ) (adj : ℕ → Finset ℕ) (v : ℕ) : ℕ → Finset ℕ :=
  link (unlink adj v small) v big

lemma mem_exchange {small big v : ℕ} {adj : ℕ → Finset ℕ} (hne : v ≠ big) (c d : ℕ) : d ∈ exchange small big adj v c ↔
      d ∈ adj c ∧ ¬(c = v ∧ d = small) ∨ c = v ∧ d = big ∨ c = big ∧ d = v := by
  rw [exchange, mem_link hne, mem_unlink]

lemma mem_exchanges {small big : ℕ} {vs : List ℕ} (hbig : big ∉ vs) (adj : ℕ → Finset ℕ) (c d : ℕ) :
    d ∈ vs.foldl (exchange small big) adj c ↔ d ∈ adj c ∧ ¬(c ∈ vs ∧ d = small) ∨ c ∈ vs ∧ d = big ∨ c = big ∧ d ∈ vs := by
  induction vs generalizing adj with
  | nil => simp
  | cons v vs ih =>
    obtain ⟨hvb, hbig⟩ := ne_and_not_mem_of_not_mem_cons hbig
    rw [foldl_cons, ih hbig, mem_exchange hvb.symm]
    simp only [mem_cons]
    grind only

/-- Every slot in play but `big` has an owner, whose degree is the number of its neighbours. -/
def Degs (g : RaGraph) (L : Finset ℕ) (big : ℕ) (adj : ℕ → Finset ℕ) : Prop :=
  ∀ a ∈ L, a ≠ big → ∃ u : ℕ, g.owner a = u ∧ g.deg u = (adj a).card

section
variable {g : RaGraph} {L : Finset ℕ} {adj : ℕ → Finset ℕ} {big small v : ℕ}

lemma card_exchange_self (hin : small ∈ adj v) (hno : big ∉ adj v) (hne : v ≠ big) :
    (exchange small big adj v v).card = (adj v).card := by
  have hno' : big ∉ (adj v).erase small := fun hmem => hno (Finset.mem_of_mem_erase hmem)
  rw [exchange, link_left hne, unlink_self, Finset.card_insert_of_notMem hno', Finset.card_erase_add_one hin]

lemma exchange_of_ne {c : ℕ} (hcv : c ≠ v) (hcb : c ≠ big) : exchange small big adj v c = adj c := by
  rw [exchange, link, update_of_ne hcb, update_of_ne hcv, unlink_of_ne hcv]

/-- What one turn of the merge loop does to the lists, the rows and the degrees. -/
lemma Slots.turn (h : Slots g.store L adj) (hbig : big ∈ L) (hv : v ∈ L) (hsmall : small ∉ L)
    (hne : v ≠ big) (hin : small ∈ adj v) (hsub : adj v ⊆ insert small L)
    (hinj : ∀ a ∈ L, ∀ b ∈ L, g.owner a = g.owner b → a = b) (hdeg : Degs g L big adj) (r hint : ℤ) :
    ∃ st deg r', rgRename big small (g, r) (v, hint) = some ({ g with store := st, deg := deg }, r') ∧
      Slots st L (exchange small big adj v) ∧
      Degs { g with store := st, deg := deg } L big (exchange small big adj v) ∧
      r' - (exchange small big adj v big).card = r - (adj big).card := by
  by_cases hboth : big ∈ adj v
  swap
  · have hno' : v ∉ adj big := fun hmem => hboth (h.symm big hbig v hv hmem)
    obtain ⟨st, hst, hslots⟩ := h.rename hbig hv hsmall hne hin hboth r hint
    refine ⟨st, g.deg, r + 1, hst, hslots, fun a ha hab => ?_, ?_⟩
    · obtain ⟨u, hu, hdu⟩ := hdeg a ha hab
      refine ⟨u, hu, hdu.trans ?_⟩
      by_cases hav : a = v
      · rw [hav, card_exchange_self hin hboth hne]
      · rw [exchange_of_ne hav hab]
    · rw [exchange, link_right, unlink_of_ne hne.symm, Finset.card_insert_of_notMem hno']
      push_cast
      ring
  · have hvb : v ∈ adj big := h.symm v hv big hbig hboth
    have hhas : rgSlotHas g big v = true := (h.has_iff hbig hv).2 hvb
    have hsb : big ≠ small := fun heq => hsmall (heq ▸ hbig)
    obtain ⟨st, hst, hslots⟩ := h.drop hv hsmall hin hsub hint
    obtain ⟨u, hu, hdu⟩ := hdeg v hv hne
    have hexch : exchange small big adj v = unlink adj v small :=
      link_of_mem (mem_unlink.2 ⟨hboth, fun hc => hsb hc.2⟩) (mem_unlink.2 ⟨hvb, fun hc => hne hc.1.symm⟩)
    have hu0 : 0 ≤ g.owner v := by omega
    have hut : (g.owner v).toNat = u := by omega
    refine ⟨st, update g.deg u (g.deg u - 1), r, ?_, hexch ▸ hslots, fun a ha hab => ?_, ?_⟩
    · simp only [rgRename, if_pos hhas, hst, bind_eq_bind, bind_some, if_pos hu0, hut]
    · obtain ⟨u', hu', hdu'⟩ := hdeg a ha hab
      refine ⟨u', hu', ?_⟩
      by_cases hav : a = v
      · subst hav
        obtain rfl : u = u' := by exact_mod_cast hu.symm.trans hu'
        have hpos : 0 < (adj a).card := Finset.card_pos.2 ⟨small, hin⟩
        show update g.deg u (g.deg u - 1) u = _
        rw [update_self, hexch, unlink_self, Finset.card_erase_of_mem hin, hdu]
        omega
      · have hne' : u' ≠ u := fun heq => hav (hinj a ha v hv (by rw [hu', hu, heq]))
        show update g.deg u (g.deg u - 1) u' = _
        rw [update_of_ne hne', exchange_of_ne hav hab, hdu']
    · rw [hexch, unlink_of_ne hne.symm]

/-- What the whole merge loop does, by induction over the neighbours left. -/
lemma Slots.turns (hbig : big ∈ L) (hsmall : small ∉ L) (vs : List (ℕ × ℤ)) :
    ∀ (g : RaGraph) (adj : ℕ → Finset ℕ) (r : ℤ), Slots g.store L adj →
      (∀ a ∈ L, adj a ⊆ insert small L) → (vs.map fst).Nodup →
      (∀ v ∈ vs.map fst, v ∈ L ∧ v ≠ big ∧ small ∈ adj v) →
      (∀ a ∈ L, ∀ b ∈ L, g.owner a = g.owner b → a = b) → Degs g L big adj →
    ∃ st deg r', vs.foldlM (rgRename big small) (g, r) = some ({ g with store := st, deg := deg }, r') ∧
      Slots st L ((vs.map fst).foldl (exchange small big) adj) ∧
      Degs { g with store := st, deg := deg } L big
        ((vs.map fst).foldl (exchange small big) adj) ∧
      r' - ((vs.map fst).foldl (exchange small big) adj big).card = r - (adj big).card := by
  induction vs with
  | nil =>
    intro g adj r h _ _ _ _ hdeg
    exact ⟨g.store, g.deg, r, rfl, h, hdeg, rfl⟩
  | cons p vs ih =>
    intro g adj r h hsub hnd hvs hinj hdeg
    obtain ⟨v, hint⟩ := p
    obtain ⟨hvv, hnd⟩ := List.nodup_cons.1 hnd
    obtain ⟨hv, hne, hin⟩ := hvs v mem_cons_self
    have hmem := @mem_exchange small big v adj hne
    obtain ⟨st, deg, r1, hst, hslots, hdegs, hr⟩ :=
      h.turn hbig hv hsmall hne hin (hsub v hv) hinj hdeg r hint
    have hsub' : ∀ a ∈ L, exchange small big adj v a ⊆ insert small L := by
      intro a ha d hd
      rcases (hmem a d).1 hd with ⟨hd, -⟩ | ⟨-, rfl⟩ | ⟨-, rfl⟩
      · exact hsub a ha hd
      · exact Finset.mem_insert_of_mem hbig
      · exact Finset.mem_insert_of_mem hv
    have hvs' : ∀ w ∈ vs.map fst, w ∈ L ∧ w ≠ big ∧ small ∈ exchange small big adj v w := by
      intro w hw
      obtain ⟨hwL, hwb, hws⟩ := hvs w (mem_cons_of_mem _ hw)
      exact ⟨hwL, hwb, (hmem w small).2 (.inl ⟨hws, fun hc => hvv (hc.1 ▸ hw)⟩)⟩
    obtain ⟨st', deg', r', hst', hslots', hdegs', hr'⟩ := ih { g with store := st, deg := deg }
      (exchange small big adj v) r1 hslots hsub' hnd hvs' hinj hdegs
    refine ⟨st', deg', r', ?_, hslots', hdegs', hr'.trans hr⟩
    rw [foldlM_cons, hst]
    exact hst'

end
end EmbCC.Arch.Graph
