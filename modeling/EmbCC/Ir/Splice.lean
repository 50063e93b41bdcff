import EmbCC.Lib.Chunks
import EmbCC.Ir.Straight

/-!
# Pieces of code in place of instructions

A pass that puts a piece of code in place of each instruction moves the labels along
(`labelAt_pieces`), and an instruction it leaves alone does what it did, from the place it has
moved to (`step_moved`). The integer operations of a piece run as `execSeq` says, and nothing
is seen of them (`silent_execSeq`).
-/

namespace EmbCC.Ir

open List Trace Relation Function Prod

/-- What is seen of a run without its integer operations; of a division that traps, not which half of
the result was asked for. -/
def Event.outer : Event → Option Event
  | .exec i vs => if isCore i then none else some (.exec i vs)
  | .fault i vs => some (.fault (if isCore i then { i with op := .div, dst := -1 } else i) vs)
  | e => some e

/-- The code `is` stands at `p`. -/
def CodeAt (P : Prog) (p : ℕ) (is : List Ins) : Prop :=
  ∀ k i, is[k]? = some i → P.code[p + k]? = some (some i)

variable {L : List (List Ins)}

lemma codeAt_flatten {n : ℕ} {is : List Ins} (h : L[n]? = some is)
    (jt : List (List ℤ)) (eh : List ℤ) : CodeAt ⟨L.flatten.map some, jt, eh⟩ (Chunks.offset L n) is := by
  intro k i hk
  have hlt := getElem?_lt hk
  simp only [getElem?_map, Chunks.flatten_getElem h hlt, hk, Option.map_some]

lemma labelAt_pieces {fn : Func} {l : ℤ} (hhead : L.map (fun is => is.head?.any fun i => isLabel l (some i)) =
      fn.ins.map fun i => isLabel l (some i))
    (htail : ∀ is ∈ L, ∀ i ∈ is.tail, i.op ≠ .label) (jt : List (List ℤ)) (eh : List ℤ) :
    Prog.labelAt ⟨L.flatten.map some, jt, eh⟩ l = (fn.prog.labelAt l).map (Chunks.offset L) := by
  have hmap {α : Type} p (as : List α) : as.findIdx? p = (as.map p).findIdx? id := by
    rw [findIdx?_map]
    rfl
  have hp : ∀ is ∈ L, ∀ i ∈ is.tail, isLabel l (some i) = false := by
    intro is his i hi
    simp [isLabel, htail is his i hi]
  rw [Prog.labelAt, Prog.labelAt, Func.prog, findIdx?_map, findIdx?_map]
  refine (Chunks.findIdx_flatten hp).trans ?_
  rw [hmap, hhead, ← hmap]
  rfl

section
variable {W : Type} {E : Env W} {P Q : Prog} {i : Ins} {pc : ℕ} {s s' : St W}
variable {is : List Ins} {temps : ℤ → Option Val} {p : ℕ}

lemma setTemps_agree {temps' : ℤ → Option Val} {t : ℤ} (h : temps' t = temps t) (ds : List ℤ)
    (vs : List Val) : setTemps temps' ds vs t = setTemps temps ds vs t := by
  induction ds generalizing temps temps' vs with
  | nil => simpa [setTemps] using h
  | cons d ds ih =>
    cases vs with
    | nil => simpa [setTemps] using h
    | cons v vs =>
      refine ih ?_ vs
      unfold setTemp
      split
      · exact h
      · by_cases ht : t = d
        · rw [ht, update_self, update_self]
        · rw [update_of_ne ht, update_of_ne ht, h]

/-- What an instruction that was moved leaves: the registers that agreed agree, those it does not write
are as they were, and the rest is the same. -/
inductive Moved (f : ℕ → ℕ) (i : Ins) (s s' : St W) : Cfg W → Cfg W → Prop
  | ended : Moved f i s s' none none
  | goes {pc : ℕ} {t t' : St W} : (∀ x, s'.temps x = s.temps x → t'.temps x = t.temps x) →
      (∀ x ∉ tempDefs i, t'.temps x = s'.temps x) → t'.taken = t.taken → t'.world = t.world →
      Moved f i s s' (some (pc, t)) (some (f pc, t'))

section
variable {f : ℕ → ℕ} (hlab : ∀ l, Q.labelAt l = (P.labelAt l).map f) (htaken : s'.taken = s.taken)
  (hops : ∀ t ∈ valueOpnds i, s'.temps t = s.temps t) {o : Option Event} {c : Cfg W}
include hlab htaken

lemma goto_moved (hworld : s'.world = s.world) {l : ℤ} (h : P.goto l s = some (o, c)) :
    ∃ d, Q.goto l s' = some (o, d) ∧ Moved f i s s' c d := by
  unfold Prog.goto at h ⊢
  rw [hlab]
  cases hl : P.labelAt l with
  | none =>
    rw [hl] at h
    cases h
    exact ⟨none, rfl, .ended⟩
  | some n =>
    rw [hl] at h
    cases h
    exact ⟨_, rfl, .goes (fun _ h => h) (fun _ _ => rfl) htaken hworld⟩

lemma branch_moved (hworld : s'.world = s.world) (hnext : f (pc + 1) = f pc + 1) {v : Option Val} (h : (match v with
      | some v => if brTaken i v then P.goto i.label s else some (none, some (pc + 1, s))
      | none => some (some .unset, none)) = some (o, c)) :
    ∃ d, (match v with
      | some v => if brTaken i v then Q.goto i.label s' else some (none, some (f pc + 1, s'))
      | none => some (some .unset, none)) = some (o, d) ∧ Moved f i s s' c d := by
  cases v with
  | none =>
    cases h
    exact ⟨none, rfl, .ended⟩
  | some v =>
    dsimp only at h ⊢
    split_ifs at h ⊢ with ht
    · exact goto_moved hlab htaken hworld h
    · cases h
      rw [← hnext]
      exact ⟨_, rfl, .goes (fun _ h => h) (fun _ _ => rfl) htaken hworld⟩

lemma jump_moved (hworld : s'.world = s.world) {l : Option ℤ} (h : (match l with
      | some l => P.goto l s
      | none => some (some .unset, none)) = some (o, c)) :
    ∃ d, (match l with
      | some l => Q.goto l s'
      | none => some (some .unset, none)) = some (o, d) ∧ Moved f i s s' c d := by
  cases l with
  | none =>
    cases h
    exact ⟨none, rfl, .ended⟩
  | some l => exact goto_moved hlab htaken hworld h

include hops

/-- A control instruction in its new place. -/
lemma ctlStep_moved (hctl : i.op.isControl) (hworld : s'.world = s.world) (hnext : f (pc + 1) = f pc + 1)
    (hjt : Q.jt = P.jt) (h : ctlStep P E i pc s = some (o, c)) :
    ∃ d, ctlStep Q E i (f pc) s' = some (o, d) ∧ Moved f i s s' c d := by
  have hread (hr : valueOpnds i = [i.a]) : s'.temps i.a = s.temps i.a := hops _ (by simp [hr])
  have hend {e : Event} (h : some (some e, none) = some (o, c)) :
      ∃ d, (some (some e, none) : Option (Option Event × Cfg W)) = some (o, d) ∧ Moved f i s s' c d := by
    cases h
    exact ⟨none, rfl, .ended⟩
  unfold ctlStep at h
  split at h
  case h_1 hop =>
    cases h
    refine ⟨some (f pc + 1, s'), by simp only [ctlStep, hop], ?_⟩
    rw [← hnext]
    exact .goes (fun _ h => h) (fun _ _ => rfl) htaken hworld
  case h_2 hop =>
    simp only [ctlStep, hop]
    exact goto_moved hlab htaken hworld h
  case h_3 hop =>
    simp only [ctlStep, hop]
    by_cases ha : i.a < 0
    · rw [if_pos ha] at h ⊢
      exact hend h
    · rw [if_neg ha] at h ⊢
      rw [hread (by simp [valueOpnds, eachRead, hop]; omega)]
      cases hv : s.temps i.a <;> rw [hv] at h <;> exact hend h
  case h_4 hop =>
    simp only [ctlStep, hop]
    exact hend h
  case h_5 hop =>
    simp only [ctlStep, hop, hread (by simp [valueOpnds, eachRead, hop])]
    exact branch_moved hlab htaken hworld hnext h
  case h_6 hop =>
    simp only [ctlStep, hop, hread (by simp [valueOpnds, eachRead, hop])]
    exact branch_moved hlab htaken hworld hnext h
  case h_7 hop =>
    have hsw : switchTarget Q i = switchTarget P i := by
      unfold switchTarget
      rw [hjt]
    simp only [ctlStep, hop, hread (by simp [valueOpnds, eachRead, hop]), hsw]
    exact jump_moved hlab htaken hworld h
  case h_8 h1 h2 h3 h4 h5 h6 h7 =>
    have hop : i.op = .igoto := by cases hi : i.op <;> simp_all [Op.isControl]
    simp only [ctlStep, hread (by simp [valueOpnds, eachRead, hop]), htaken]
    exact jump_moved hlab htaken hworld h

/-- Any other instruction in its new place. -/
lemma seqStep_moved (hworld : s'.world = s.world) (hnext : f (pc + 1) = f pc + 1) (heh : Q.eh = P.eh)
    (h : seqStep P E i pc s = some (o, c)) : ∃ d, seqStep Q E i (f pc) s' = some (o, d) ∧ Moved f i s s' c d := by
  unfold seqStep at h ⊢
  rw [mapM_temps_congr hops, hworld, heh]
  cases hvs : (valueOpnds i).mapM s.temps with
  | none =>
    rw [hvs] at h
    cases h
    exact ⟨none, rfl, .ended⟩
  | some vs =>
    rw [hvs] at h
    dsimp only at h ⊢
    cases he : effect E i vs s.world with
    | ok rs world =>
      rw [he] at h
      cases h
      refine ⟨some (f pc + 1, s'.after i rs world), rfl, ?_⟩
      rw [← hnext]
      refine .goes (fun x hx => setTemps_agree hx _ _) (fun x hx => ?_) ?_ rfl
      · exact after_temps_of_not_mem hx rs world
      · simp only [St.after, htaken]
    | fault =>
      rw [he] at h
      cases h
      exact ⟨none, rfl, .ended⟩
    | throw world =>
      rw [he] at h
      cases h
      refine ⟨_, rfl, ?_⟩
      split_ifs with hr
      · exact .ended
      · cases hl : P.eh[i.ehRegion - 1]? with
        | none => exact .ended
        | some l =>
          simp only [Option.bind_some, hlab]
          cases P.labelAt l with
          | none => exact .ended
          | some n => exact .goes (fun _ h => h) (fun _ _ => rfl) htaken rfl

lemma step_moved (hworld : s'.world = s.world) (hnext : f (pc + 1) = f pc + 1) (hjt : Q.jt = P.jt) (heh : Q.eh = P.eh)
    (hi : P.code[pc]? = some (some i)) (hj : Q.code[f pc]? = some (some i)) (h : step P E (some (pc, s)) = some (o, c)) : ∃ d,
    step Q E (some (f pc, s')) = some (o, d) ∧ Moved f i s s' c d := by
  simp only [step, hi] at h
  simp only [step, hj]
  split_ifs at h ⊢ with hctl
  · exact ctlStep_moved hlab htaken hops hctl hworld hnext hjt h
  · exact seqStep_moved hlab htaken hops hworld hnext heh h

end

lemma silent_execSeq (hat : CodeAt Q p is) (h : execSeq s.temps is = some temps) :
    ReflTransGen (Silent (viewed Event.outer (step Q E))) (some (p, s)) (some (p + is.length, { s with temps })) := by
  induction is generalizing p s with
  | nil =>
    cases h
    exact .refl
  | cons i is ih =>
    obtain ⟨temps1, h1, h2⟩ := Option.bind_eq_some_iff.1 h
    have hi : Q.code[p]? = some (some i) := hat 0 i rfl
    obtain ⟨vs, hs⟩ := step_execIns hi h1
    have hcore : isCore i := by
      by_contra hn
      simp [execIns, hn] at h1
    have hsilent : Silent (viewed Event.outer (step Q E)) (some (p, s))
        (some (p + 1, { s with temps := temps1 })) := by
      rw [Silent, viewed_of_step _ hs]
      simp [Event.outer, hcore]
    have hrest := ih (s := { s with temps := temps1 })
      (fun k j hk => by rw [Nat.add_assoc, Nat.add_comm 1 k]; exact hat (k + 1) j hk) h2
    rw [length_cons, Nat.add_comm is.length, ← Nat.add_assoc]
    exact .head hsilent hrest

lemma follows_execSeq (hat : CodeAt Q p is) (hne : is ≠ []) (h : execSeq s.temps is = some temps) :
    Follows (viewed Event.outer (step Q E)) (some (p, s)) none (some (p + is.length, { s with temps })) := by
  rcases reflTransGen_iff_eq_or_transGen.1 (silent_execSeq hat h) with heq | htrans
  · have hpos := length_pos_of_ne_nil hne
    have := (mk.inj (Option.some.inj heq)).1
    omega
  · exact .silent htrans

end
end EmbCC.Ir
