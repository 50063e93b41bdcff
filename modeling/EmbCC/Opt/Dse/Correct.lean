import EmbCC.Opt.Dse.Doomed

/-!
# Dead stores are not seen

`passDse_unseen`: along every run, whatever a dead store writes is written again in the block before
it could be read (`Overwritten`), and the code without the dead stores comes to the same points with
the same registers, with the same bytes wherever an instruction could read, and at the end of every
block with the same memory. An access has to stay in its objects, as in C.

A call of a function that reads and writes no memory must have no struct among its arguments. The
pass takes it to read nothing, but the bytes of the struct are copied for it (`passDse_byValue`).
-/

namespace EmbCC.Opt

open List Ir Trace

namespace Dse

/-! ## Stores that are never read -/

section
variable {W R : Type} {E : Env W} {T : Target} {M : Memory T.ptrw E}
  (B : Bytewise M (quietCall T) R) (fn : Func)

/-- From the point on, the byte is stored to again in block `b`, by a store that stays, before an
instruction that could read it; an instruction that faults ends the run. -/
inductive Overwritten (b x : ℕ) : ℕ → St W → Prop
  | now {pc : ℕ} {s : St W} {i : Ins} : InBlock fn b pc → fn.ins[pc]? = some i →
      pc ∉ dead T fn → i.op = .store ∨ i.op = .stvar →
      (∀ vs, (valueOpnds i).mapM s.temps = some vs →
        x ∉ reads T.ptrw M.bytes (quietCall T) i vs ∧ x ∈ stored T.ptrw B.part i vs) →
      Overwritten b x pc s
  | later {pc : ℕ} {s : St W} {i : Ins} : InBlock fn b pc → fn.ins[pc]? = some i →
      (∀ vs, (valueOpnds i).mapM s.temps = some vs →
        x ∉ reads T.ptrw M.bytes (quietCall T) i vs) →
      (∀ o pc' s', step fn.prog E (some (pc, s)) = some (o, some (pc', s')) → pc' = pc + 1) →
      (∀ o s', step fn.prog E (some (pc, s)) = some (o, some (pc + 1, s')) →
        Overwritten b x (pc + 1) s') →
      Overwritten b x pc s

variable {B fn} {b pc pc' x : ℕ} {s s' s₀ : St W} {i : Ins} {o : Option Event}

lemma eq_label_of_control (hc : i.op.isControl) (hend : endsBlock i.op = false) : i.op = .label := by
  revert hc hend
  cases i.op <;> simp [Op.isControl, endsBlock]

include B in
lemma step_next (hi : fn.ins[pc]? = some i) (hend : endsBlock i.op = false)
    (hx : ∀ vs, (valueOpnds i).mapM s.temps = some vs → x ∉ reads T.ptrw M.bytes (quietCall T) i vs)
    (h : step fn.prog E (some (pc, s)) = some (o, some (pc', s'))) :
    pc' = pc + 1 ∧ ∀ t, t ∉ tempDefs i → s'.temps t = s.temps t := by
  by_cases hc : i.op.isControl
  · rw [step_label (prog_code hi) (eq_label_of_control hc hend)] at h
    obtain ⟨-, rfl, rfl⟩ : _ ∧ pc + 1 = pc' ∧ s = s' := by simpa using h
    exact ⟨rfl, fun _ _ => rfl⟩
  · simp only [step, prog_code hi, hc] at h
    obtain ⟨vs, hvs, ⟨rs, world, -, -, rfl, rfl⟩ | ⟨world, he, -⟩⟩ := seqStep_inv h
    · exact ⟨rfl, fun t ht => after_temps_of_not_mem ht _ _⟩
    · exact absurd (B.effect_throws he ▸ Set.mem_univ x) (hx vs hvs)

variable (M fn s₀) in
/-- What the pass relies on. -/
structure Relies : Prop where
  pos : 0 < T.ptrw
  le : T.ptrw ≤ 8
  width : ∀ i ∈ fn.ins, i.op = .add ∨ i.op = .sub → i.w = T.ptrw → T.ptrw = 4 ∨ T.ptrw = 8
  first : WrittenFirst fn
  off : ∀ i ∈ fn.ins, i.memoff = 0
  entry : Entry fn s₀
  meets : ∀ pc s i vs, Reaches (step fn.prog E) (some (0, s₀)) (some (pc, s)) →
    fn.ins[pc]? = some i → (valueOpnds i).mapM s.temps = some vs → Meets M fn i vs

variable (H : Relies M fn s₀)
include H

lemma turn_at (hr : Reaches (step fn.prog E) (some (0, s₀)) (some (pc, s)))
    (hb : InBlock fn b pc) (hi : fn.ins[pc]? = some i) (h : Doomed B fn b pc s x) :
    (∀ vs, (valueOpnds i).mapM s.temps = some vs → x ∉ reads T.ptrw M.bytes (quietCall T) i vs) ∧
    endsBlock i.op = false ∧
    ((pc ∉ dead T fn ∧ i.vol = false ∧ (i.op = .store ∨ i.op = .stvar) ∧
      ∀ vs, (valueOpnds i).mapM s.temps = some vs → x ∈ stored T.ptrw B.part i vs) ∨
    pc + 1 < bbEnd fn b ∧ ∀ s' : St W, (∀ t, t ∉ tempDefs i → s'.temps t = s.temps t) → Doomed B fn b (pc + 1) s' x) := by
  obtain ⟨hflow, -, hheld⟩ := held_reaches H.first H.entry _ hr pc s rfl
  exact h.turn H.pos H.width H.first H.le hflow hheld hb hi (H.off i (mem_of_getElem? hi))
    fun vs hvs => H.meets pc s i vs hr hi hvs

lemma overwritten_of_doomed (hr : Reaches (step fn.prog E) (some (0, s₀)) (some (pc, s)))
    (hb : InBlock fn b pc) (h : Doomed B fn b pc s x) : Overwritten B fn b x pc s := by
  induction hk : bbEnd fn b - pc generalizing pc s with
  | zero =>
    have := hb.2
    omega
  | succ k ih =>
    obtain ⟨i, hi⟩ : ∃ i, fn.ins[pc]? = some i := ⟨_, getElem?_eq_getElem hb.lt⟩
    obtain ⟨hread, hend, ⟨hdead, -, hop, hst⟩ | ⟨hn, hnext⟩⟩ := turn_at H hr hb hi h
    · exact .now hb hi hdead hop fun vs hvs => ⟨hread vs hvs, hst vs hvs⟩
    · refine .later hb hi hread (fun o pc' s' hs => (step_next (B := B) hi hend hread hs).1) fun o s' hs => ?_
      have hkeep := (step_next (B := B) hi hend hread hs).2
      exact ih (hr.tail ⟨o, hs⟩) ⟨hb.1.trans (Nat.le_succ _), hn⟩ (hnext s' hkeep) (by omega)

omit H

/-! ## The code without them -/

variable (T fn) in
/-- The code with holes where the dead stores were. -/
def holed : Prog := ⟨code T fn, fn.jt, fn.eh⟩

lemma store_of_dead (hi : fn.ins[pc]? = some i) (h : pc ∈ dead T fn) : i.vol = false ∧ (i.op = .store ∨ i.op = .stvar) := by
  obtain ⟨b, hb⟩ := exists_inBlock (getElem?_lt hi)
  obtain ⟨e, he, -⟩ := dead_cases hb hi h
  obtain ⟨hvol, hop⟩ := keyed_cases he
  exact ⟨hvol, hop.imp (·.1) (·.1)⟩

lemma holed_labelAt (l : ℤ) : (holed T fn).labelAt l = fn.prog.labelAt l := by
  refine labelAt_congr (ext_getElem? fun n => ?_)
  simp only [holed, Func.prog, getElem?_map]
  cases hi : fn.ins[n]? with
  | none =>
    have hnone : (code T fn)[n]? = none := by rw [code, getElem?_mapIdx, hi]; rfl
    rw [hnone]
    rfl
  | some i =>
    rw [code_getElem hi]
    by_cases hd : n ∈ dead T fn
    · rw [if_pos hd]
      rcases (store_of_dead hi hd).2 with hop | hop <;> simp [isLabel, hop]
    · rw [if_neg hd]
      rfl

lemma holed_step (hi : fn.ins[pc]? = some i) (hd : pc ∉ dead T fn) :
    step (holed T fn) E (some (pc, s)) = step fn.prog E (some (pc, s)) :=
  step_congr (prog_code hi) (by rw [holed, code_getElem hi, if_neg hd]) (fun _ => rfl) rfl
    (fun l _ => holed_labelAt l) fun l _ => holed_labelAt l

/-- The worlds of the two runs: the bytes in which they differ are doomed. -/
def Close (B : Bytewise M (quietCall T) R) (fn : Func) (pc : ℕ) (s : St W) (world' : W) : Prop :=
  B.rest world' = B.rest s.world ∧
    ∀ x, M.get world' x ≠ M.get s.world x → ∃ b, InBlock fn b pc ∧ Doomed B fn b pc s x

lemma close_next {world' : W} (hrest : B.rest world' = B.rest s'.world)
    (h : ∀ x, M.get world' x ≠ M.get s'.world x → ∃ b, pc + 1 < bbEnd fn b ∧ InBlock fn b pc ∧
      Doomed B fn b (pc + 1) s' x) : Close B fn (pc + 1) s' world' := by
  refine ⟨hrest, fun x hne => ?_⟩
  obtain ⟨b, hn, hb, hd⟩ := h x hne
  exact ⟨b, ⟨hb.1.trans (Nat.le_succ _), hn⟩, hd⟩

section
variable {world' : W}
include H

section
variable (hr : Reaches (step fn.prog E) (some (0, s₀)) (some (pc, s))) (hi : fn.ins[pc]? = some i)
include hr hi

lemma Close.reads (h : Close B fn pc s world') {vs : List Val} (hvs : (valueOpnds i).mapM s.temps = some vs) :
    ∀ x ∈ Ir.reads T.ptrw M.bytes (quietCall T) i vs, M.get world' x = M.get s.world x := by
  intro x hx
  by_contra hne
  obtain ⟨b, hb, hd⟩ := h.2 x hne
  exact (turn_at H hr hb hi hd).1 vs hvs hx

lemma Close.eq_of_endsBlock (h : Close B fn pc s world') (hend : endsBlock i.op) : world' = s.world := by
  refine B.ext (funext fun x => ?_) h.1
  by_contra hne
  obtain ⟨b, hb, hd⟩ := h.2 x hne
  rw [(turn_at H hr hb hi hd).2.1] at hend
  cases hend

/-- A store that was removed changes no byte that is read. -/
lemma close_dead (hd : pc ∈ dead T fn) (h : Close B fn pc s world')
    (hs : step fn.prog E (some (pc, s)) = some (o, some (pc', s'))) : pc' = pc + 1 ∧ { s with world := world' } = { s' with world := world' } ∧
      Close B fn (pc + 1) s' world' := by
  obtain ⟨hvol, hop⟩ := store_of_dead hi hd
  have hc : i.op.isControl = false := by rcases hop with hop | hop <;> rw [hop] <;> rfl
  have hdefs : tempDefs i = [] := by rcases hop with hop | hop <;> simp [tempDefs, hop, writesTemp]
  obtain ⟨hflow, -, hheld⟩ := held_reaches H.first H.entry _ hr pc s rfl
  simp only [step, prog_code hi, hc] at hs
  obtain ⟨vs, hvs, ⟨rs, world, he, -, rfl, rfl⟩ | ⟨world, he, -⟩⟩ := seqStep_inv hs
  · have hafter : s.after i rs world = { s with world := world } := by
      have hla : i.op ≠ .labeladdr := by rcases hop with hop | hop <;> simp [hop]
      simp [St.after, hdefs, setTemps, hla]
    have hsem := he
    rw [effect_store hop] at hsem
    obtain ⟨hrest, hkeep⟩ := B.store hop hvol hsem
    refine ⟨rfl, by rw [hafter], ?_⟩
    rw [hafter]
    have hnext : ∀ x, M.get world' x ≠ M.get world x → ∃ b, pc + 1 < bbEnd fn b ∧
        InBlock fn b pc ∧ Doomed B fn b (pc + 1) { s with world := world } x := by
      intro x hne
      by_cases hx : x ∈ stored T.ptrw B.part i vs
      · obtain ⟨b, hb⟩ := exists_inBlock (getElem?_lt hi)
        obtain ⟨-, -, l, hl, -⟩ := dead_cases hb hi hd
        have hn : pc + 1 < bbEnd fn b := lt_bbEnd_of_mem hb hl
        exact ⟨b, hn, hb, doomed_of_dead H.pos H.width H.first hflow hheld hb hi
          (H.off i (mem_of_getElem? hi)) hd hvs (H.meets pc s i vs hr hi hvs) hx fun _ _ => rfl⟩
      · rw [hkeep x hx] at hne
        obtain ⟨b, hb, hdoom⟩ := h.2 x hne
        obtain ⟨-, -, ⟨hlive, -⟩ | ⟨hn, hnext⟩⟩ := turn_at H hr hb hi hdoom
        · exact absurd hd hlive
        · exact ⟨b, hn, hb, hnext _ fun _ _ => rfl⟩
    exact close_next (h.1.trans hrest.symm) hnext
  · have hread : Ir.reads T.ptrw M.bytes (quietCall T) i vs = ∅ := by
      rcases hop with hop | hop <;> simp [Ir.reads, hop]
    exact absurd (hread ▸ B.effect_throws he ▸ Set.mem_univ 0) (Set.notMem_empty 0)

/-- Any other instruction does the same in both memories. -/
lemma close_kept (hd : pc ∉ dead T fn) (h : Close B fn pc s world')
    (hs : step fn.prog E (some (pc, s)) = some (o, some (pc', s'))) :
    ∃ world1, step (holed T fn) E (some (pc, { s with world := world' })) =
      some (o, some (pc', { s' with world := world1 })) ∧ Close B fn pc' s' world1 := by
  rw [holed_step hi hd]
  have hsame : world' = s.world → ∃ world1, step fn.prog E (some (pc, { s with world := world' })) =
      some (o, some (pc', { s' with world := world1 })) ∧ Close B fn pc' s' world1 := by
    rintro rfl
    exact ⟨s'.world, hs, rfl, fun x hne => absurd rfl hne⟩
  by_cases hend : endsBlock i.op
  · exact hsame (h.eq_of_endsBlock H hr hi hend)
  have hend : endsBlock i.op = false := by simpa using hend
  by_cases hc : i.op.isControl
  · have hop := eq_label_of_control hc hend
    rw [step_label (prog_code hi) hop] at hs
    obtain ⟨rfl, rfl, rfl⟩ : none = o ∧ pc + 1 = pc' ∧ s = s' := by simpa using hs
    refine ⟨world', step_label (prog_code hi) hop, close_next h.1 fun x hne => ?_⟩
    obtain ⟨b, hb, hdoom⟩ := h.2 x hne
    obtain ⟨-, -, ⟨-, -, hst, -⟩ | ⟨hn, hnext⟩⟩ := turn_at H hr hb hi hdoom
    · simp [hop] at hst
    · exact ⟨b, hn, hb, hnext s fun _ _ => rfl⟩
  · have hc : i.op.isControl = false := by simpa using hc
    have hs' := hs
    simp only [step, prog_code hi, hc] at hs'
    obtain ⟨vs, hvs, ⟨rs, world, he, rfl, rfl, rfl⟩ | ⟨world, he, -⟩⟩ := seqStep_inv hs'
    · have halike := B.effect_alike h.1 (h.reads H hr hi hvs)
      rw [he] at halike
      cases he' : effect E i vs world' with
      | throw world1 => rw [he'] at halike; exact halike.elim
      | fault => rw [he'] at halike; exact halike.elim
      | ok rs' world1 =>
        rw [he'] at halike
        obtain ⟨rfl, hrest, hbytes⟩ := halike
        refine ⟨world1, step_exec (prog_code hi) hc hvs he', close_next hrest fun x hne => ?_⟩
        obtain ⟨hold, hold'⟩ := (hbytes x).resolve_left hne
        have hdiff : M.get world' x ≠ M.get s.world x := hold ▸ hold' ▸ hne
        obtain ⟨b, hb, hdoom⟩ := h.2 x hdiff
        obtain ⟨-, -, ⟨-, hvol, hop, hst⟩ | ⟨hn, hnext⟩⟩ := turn_at H hr hb hi hdoom
        · rw [effect_store hop] at he he'
          exact absurd (B.replaced hop hvol he he' x (hst vs hvs)) hne
        · exact ⟨b, hn, hb, hnext _ fun t ht => after_temps_of_not_mem ht _ _⟩
    · refine hsame (B.ext (funext fun x => ?_) h.1)
      refine h.reads H hr hi hvs x ?_
      rw [B.effect_throws he]
      exact Set.mem_univ x

end

/-- The two runs stay side by side. -/
lemma close_reaches : ∀ c, Reaches (step fn.prog E) (some (0, s₀)) c → ∀ pc s, c = some (pc, s) →
    ∃ world', Reaches (step (holed T fn) E) (some (0, s₀))
      (some (pc, { s with world := world' })) ∧ Close B fn pc s world' := by
  refine reaches_invariant (I := fun pc s => ∃ world', Reaches (step (holed T fn) E) (some (0, s₀))
    (some (pc, { s with world := world' })) ∧ Close B fn pc s world') ?_ ?_
  · exact ⟨s₀.world, .refl, rfl, fun x hne => absurd rfl hne⟩
  · rintro pc pc' s s' i o hr ⟨world', hto, hclose⟩ hi hs
    by_cases hd : pc ∈ dead T fn
    · obtain ⟨rfl, hst, hclose'⟩ := close_dead H hr hi hd hclose hs
      refine ⟨world', ?_, hclose'⟩
      rw [← hst]
      refine hto.tail ⟨none, step_hole ?_⟩
      rw [holed, code_getElem hi, if_pos hd]
    · obtain ⟨world1, hstep, hclose'⟩ := close_kept H hr hi hd hclose hs
      exact ⟨world1, hto.tail ⟨o, hstep⟩, hclose'⟩

end
end

/-- What a dead store writes is written again before it could be read, and the code without the dead
stores runs the same: at every point it has the same registers, the bytes that the next instruction
could read, if that is no dead store, are the same, and at the end of a block so is the world. The
condition is on the accesses and calls that execute. -/
theorem passDse_unseen {W R : Type} {E : Env W} (T : Target) (M : Memory T.ptrw E)
    (B : Bytewise M (quietCall T) R) (fn : Func) (s₀ : St W) (hp : 0 < T.ptrw) (hp8 : T.ptrw ≤ 8)
    (hw : ∀ i ∈ fn.ins, i.op = .add ∨ i.op = .sub → i.w = T.ptrw → T.ptrw = 4 ∨ T.ptrw = 8)
    (hwf : WrittenFirst fn) (hoff : ∀ i ∈ fn.ins, i.memoff = 0) (hs₀ : Entry fn s₀)
    (hmeets : ∀ pc s i vs, Reaches (step fn.prog E) (some (0, s₀)) (some (pc, s)) →
      fn.ins[pc]? = some i → (valueOpnds i).mapM s.temps = some vs → Meets M fn i vs) :
    ∀ pc s i, Reaches (step fn.prog E) (some (0, s₀)) (some (pc, s)) → fn.ins[pc]? = some i →
      (∃ b, InBlock fn b pc ∧ (pc ∈ dead T fn → (i.op = .store ∨ i.op = .stvar) ∧
        ∀ vs rs world, (valueOpnds i).mapM s.temps = some vs →
          effect E i vs s.world = .ok rs world → ∀ x ∈ stored T.ptrw B.part i vs,
            Overwritten B fn b x (pc + 1) (s.after i rs world))) ∧
      ∃ world', Reaches (step (passDse T fn).prog E) (some (0, s₀))
          (some (newpos (code T fn) pc, { s with world := world' })) ∧
        B.rest world' = B.rest s.world ∧
        (∀ vs, (valueOpnds i).mapM s.temps = some vs →
          ∀ x ∈ reads T.ptrw M.bytes (quietCall T) i vs, M.get world' x = M.get s.world x) ∧
        (endsBlock i.op → world' = s.world) := by
  intro pc s i hr hi
  have H : Relies M fn s₀ := ⟨hp, hp8, hw, hwf, hoff, hs₀, hmeets⟩
  obtain ⟨b, hb⟩ := exists_inBlock (getElem?_lt hi)
  refine ⟨⟨b, hb, fun hd => ?_⟩, ?_⟩
  · obtain ⟨-, hop⟩ := store_of_dead hi hd
    refine ⟨hop, fun vs rs world hvs he x hx => ?_⟩
    have hc : i.op.isControl = false := by rcases hop with hop | hop <;> rw [hop] <;> rfl
    obtain ⟨-, -, l, hl, -⟩ := dead_cases hb hi hd
    obtain ⟨hflow, -, hheld⟩ := held_reaches hwf hs₀ _ hr pc s rfl
    have hdoom : Doomed B fn b (pc + 1) (s.after i rs world) x :=
      doomed_of_dead hp hw hwf hflow hheld hb hi (hoff i (mem_of_getElem? hi)) hd hvs
        (hmeets pc s i vs hr hi hvs) hx fun t ht => after_temps_of_not_mem ht _ _
    exact overwritten_of_doomed H (hr.tail ⟨_, step_exec (prog_code hi) hc hvs he⟩)
      ⟨hb.1.trans (Nat.le_succ _), lt_bbEnd_of_mem hb hl⟩ hdoom
  · obtain ⟨world', hto, hclose⟩ := close_reaches H _ hr pc s rfl
    exact ⟨world', compact_reaches (holed T fn) hto, hclose.1, fun vs hvs => hclose.reads H hr hi hvs,
      hclose.eq_of_endsBlock H hr hi⟩

/-- The memory of bytes, byte by byte. -/
def byteBytewise (quiet : Ins → Bool) : Bytewise byteMemory quiet Unit where
  rest _ := ()
  part _ _ := ∅
  part_subset _ _ := Set.empty_subset _
  ext h _ := h
  alike := by
    intro i vs m m' _ hreads
    by_cases hg : i.op = .gaddr
    · simp only [byteSem, hg, if_true]
      exact ⟨rfl, sameChange_refl _ rfl⟩
    by_cases hl : i.op = .load ∧ i.size = 1 ∧ i.memoff = 0
    · obtain ⟨hop, hsz, hoff⟩ := hl
      match vs with
      | [a] =>
        have hbyte : m' (a.toNat % 2 ^ 64) = m (a.toNat % 2 ^ 64) :=
          hreads _ (by simp [reads, footprint, hop, hsz, hoff, bytesAt_one])
        simp only [byteSem, hop, hsz, hoff, reduceCtorEq, if_false, and_self, if_true]
        exact ⟨by rw [hbyte], sameChange_refl _ rfl⟩
      | [] | _ :: _ :: _ =>
        simp only [byteSem, hop, hsz, hoff, reduceCtorEq, if_false, and_self, if_true]
        trivial
    by_cases hs : i.op = .store ∧ i.size = 1 ∧ i.memoff = 0
    · obtain ⟨hop, hsz, hoff⟩ := hs
      match vs with
      | [a, v] =>
        simp only [byteSem, hop, hsz, hoff, reduceCtorEq, if_false, and_self, if_true, false_and]
        refine ⟨rfl, rfl, fun x => ?_⟩
        by_cases hx : x = a.toNat % 2 ^ 64
        · subst hx
          exact .inl (by simp [byteMemory])
        · exact .inr ⟨Function.update_of_ne hx _ _, Function.update_of_ne hx _ _⟩
      | [] | [_] | _ :: _ :: _ :: _ =>
        simp only [byteSem, hop, hsz, hoff, reduceCtorEq, if_false, and_self, if_true, false_and]
        trivial
    · simp only [byteSem, hg, hl, hs, if_false]
      trivial
  store := by
    intro i vs rs m m' hop _ he
    refine ⟨rfl, fun x hx => ?_⟩
    rcases byteSem_cases he with ⟨hop', -⟩ | ⟨a, hop', -⟩ | ⟨a, v, hop', hsz, hoff, rfl, -, rfl⟩
    · simp [hop'] at hop
    · simp [hop'] at hop
    · refine Function.update_of_ne (fun hxa => hx ?_) _ _
      simp [stored, hop', hsz, hoff, bytesAt_one, hxa]
  replaced := by
    intro i vs rs rs' m m' m₁ m₁' hop _ he he' x hx
    rcases byteSem_cases he with ⟨hop', -⟩ | ⟨a, hop', -⟩ | ⟨a, v, hop', hsz, hoff, rfl, -, rfl⟩
    · simp [hop'] at hop
    · simp [hop'] at hop
    · obtain rfl : x = a.toNat % 2 ^ 64 := by
        simpa [stored, hop', hsz, hoff, bytesAt_one] using hx
      have he' : byteSem i [a, v] m' = .ok rs' m₁' := he'
      rcases byteSem_cases he' with ⟨hop', -⟩ | ⟨b, hop', -⟩ | ⟨b, w, -, -, -, hvs, -, rfl⟩
      · simp [hop'] at hop
      · simp [hop'] at hop
      · obtain ⟨rfl, rfl⟩ : a = b ∧ v = w := by simpa using hvs
        simp [byteMemory]
  throws := by
    intro i vs m m' he
    have he : byteSem i vs m = .throw m' := he
    unfold byteSem at he
    split at he
    · cases he
    · split at he
      · split at he <;> cases he
      · split at he
        · split at he <;> cases he
        · cases he

/-- A byte is written twice. -/
def twice : Func where
  ins := [{ op := .gaddr, dst := 0, w := 8, sym := 0 },
    { op := .const, dst := 1, w := 4, imm := 1 },
    { op := .store, a := 0, b := 1, size := 1 },
    { op := .const, dst := 2, w := 4, imm := 2 },
    { op := .store, a := 0, b := 2, size := 1 },
    { op := .ret }]
  nvregs := 3

/-- A target with 64-bit pointers, where nothing is known of a function. -/
def plainTarget : Target := { ptrw := 8, attrs := fun _ => ⟨false, false⟩ }

def zeroBytes : St (ℕ → BitVec 8) := ⟨fun _ => none, [], fun _ => 0⟩

/-- The first store is dead, and its byte is overwritten. -/
theorem passDse_unseen_twice : 2 ∈ dead plainTarget twice ∧
    ∃ s, Reaches (step twice.prog ⟨byteSem, fun _ => 0⟩) (some (0, zeroBytes)) (some (3, s)) ∧
      Overwritten (T := plainTarget) (byteBytewise (quietCall plainTarget)) twice 0 0 3 s := by
  have hdead : 2 ∈ dead plainTarget twice := by decide
  have hwf : WrittenFirst twice := writtenFirst_of_straight (by decide) (by decide)
  have hentry : Entry twice zeroBytes := ⟨fun _ _ => rfl, rfl⟩
  have hin : InObjects byteMemory twice 0 (bytesAt 8 0 1) := by
    rw [bytesAt_one]
    refine ⟨fun r hr => ?_, fun v h0 hv => absurd hv (not_lt.2 h0)⟩
    obtain rfl := (based_obj rfl (.inl rfl)).1 hr
    simp [byteMemory]
  have hmeets : ∀ pc s i vs, Reaches (step twice.prog ⟨byteSem, fun _ => 0⟩) (some (0, zeroBytes)) (some (pc, s)) →
      twice.ins[pc]? = some i → (valueOpnds i).mapM s.temps = some vs → Meets (T := plainTarget) byteMemory twice i vs := by
    intro pc s i vs hr hi hvs
    have hops : ∀ i ∈ twice.ins, (i.op ≠ .load ∧ i.op ≠ .memcpy ∧ i.op ≠ .call) ∧
        (i.op = .store → i.a = 0 ∧ i.size = 1) := by decide
    obtain ⟨⟨hload, hcpy, hcall⟩, hstore⟩ := hops i (mem_of_getElem? hi)
    refine ⟨fun hop u hu => ?_, fun hop => absurd hop hcpy, fun hop => absurd hop hcall⟩
    have hop := hop.resolve_left hload
    obtain ⟨ha, hsize⟩ := hstore hop
    have hopnds : valueOpnds i = [i.a, i.b] := by simp [valueOpnds, eachRead, hop]
    obtain ⟨u', y, hu', -, rfl⟩ := mapM_temps_two (hopnds ▸ hvs)
    obtain rfl : u' = u := by simpa using hu
    have hwritten : ¬ Unwritten twice 0 pc := hwf pc i hi 0 (by simp [hopnds, ha])
    obtain ⟨-, -, hheld⟩ := held_reaches hwf hentry _ hr pc s rfl
    have haddr := (objAddr_at (M := byteMemory) hheld (by decide) hwritten rfl (ha ▸ hu')).1 rfl
    rw [ha, hsize, haddr]
    exact hin
  refine ⟨hdead, ?_⟩
  have hreach : Reaches (step twice.prog ⟨byteSem, fun _ => 0⟩) (some (0, zeroBytes)) (some (2, _)) :=
    .of_after 2 rfl
  obtain ⟨⟨b, hb, hover⟩, -⟩ := passDse_unseen plainTarget byteMemory (byteBytewise (quietCall plainTarget)) twice zeroBytes
    (by decide) (by decide) (by decide) hwf (by decide) hentry hmeets 2 _ _ hreach rfl
  obtain rfl : b = 0 := hb.unique ⟨by decide, by decide⟩
  exact ⟨_, hreach.tail ⟨_, rfl⟩, (hover hdead).2 _ _ _ rfl rfl 0 (by
    simp [stored, bytesAt, plainTarget])⟩

/-- `struct S id(struct S p) { return p; }`: what it returns is the address of its parameter, and it
loads nothing. -/
def idUnit : IrUnit where
  funcs := [⟨some 0, { ins := [{ op := .addr, dst := 1, a := 0, w := 8 },
    { op := .ret, a := 1, w := 8 }], nparams := 1, nvars := 1, nvregs := 2 }⟩]
  info _ := {}

/-- The flags `infer_attrs` leaves on `id`. -/
def idTarget : Target := { ptrw := 8, attrs := inferAttrs idUnit fun _ => ⟨false, false⟩ }

/-- `g = 1; q = id(g); g = 2; return q;`, where the call gives the address of its result. -/
def byValue : Func where
  ins := [{ op := .gaddr, dst := 0, w := 8, sym := 0 },
    { op := .const, dst := 1, w := 4, imm := 1 },
    { op := .store, a := 0, b := 1, size := 1 },
    { op := .call, dst := 2, w := 8, ptr := some 0, args := [0],
      abi := { args := [{ isStruct := true, size := 1 }], retsize := 1 } },
    { op := .const, dst := 3, w := 4, imm := 2 },
    { op := .store, a := 0, b := 3, size := 1 },
    { op := .load, dst := 4, a := 2, size := 1, w := 4 },
    { op := .ret, a := 4, w := 4 }]
  nvregs := 5

/-- The memory of bytes, with a call that returns the byte it is given: at address 15 is the room
for the result. -/
def idSem (i : Ins) (vs : List Val) (m : ℕ → BitVec 8) : Effect (ℕ → BitVec 8) :=
  match i.op, vs with
  | .call, [a] => .ok [15] (Function.update m 15 (m (a.toNat % 2 ^ 64)))
  | _, _ => byteSem i vs m

/-- The store before the call is deleted, and the call reads what it stored. -/
theorem passDse_byValue : WrittenFirst byValue ∧ idTarget.attrs 0 = ⟨true, true⟩ ∧
    dead idTarget byValue = [2] ∧
    (run (step byValue.prog ⟨idSem, fun _ => 0⟩) 8 (some (0, zeroBytes))).getLast? = some (.ret (some 1)) ∧
    (run (step (passDse idTarget byValue).prog ⟨idSem, fun _ => 0⟩) 7 (some (0, zeroBytes))).getLast? =
      some (.ret (some 0)) :=
  ⟨writtenFirst_of_straight (by decide) (by decide), by decide, by decide, by decide, by decide⟩

end Dse
end EmbCC.Opt
