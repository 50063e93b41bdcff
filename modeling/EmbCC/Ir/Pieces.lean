import EmbCC.Ir.Splice

/-!
# Integer operations in other words

A pass that puts pieces of integer operations in place of some integer operations, each with the same
result, keeps the rest of the run (`pieces_preserve`). The pieces may use new registers. Whether one
has the same result is asked only at the points the run comes to, so it may depend on
what the registers hold there.
-/

namespace EmbCC.Ir

open Option List Trace Relation
open Event (outer)
variable {W : Type} {E : Env W} {fn : Func} {L : List (List Ins)}

/-- The registers below `nv` hold the same, and the rest is the same. -/
structure SameBelow (nv : ℕ) (s s' : St W) : Prop where
  temps : ∀ t < (nv : ℤ), s'.temps t = s.temps t
  taken : s'.taken = s.taken
  world : s'.world = s.world

/-- The piece leaves in the registers below `nv` what the instruction leaves there. Nothing is asked
where the instruction reads a register that was never written. -/
def Restates (nv : ℕ) (temps : ℤ → Option Val) (i : Ins) (is : List Ins) : Prop :=
  ∀ vs, (valueOpnds i).mapM temps = some vs → ∃ v, evalCore i vs = some v ∧
    ∀ temps', (∀ t < (nv : ℤ), temps' t = temps t) → ∃ out, execSeq temps' is = some out ∧
      ∀ t < (nv : ℤ), out t = setTemp temps i.dst v t

/-- The pieces of a function: instructions, and integer operations in place of one. -/
structure Pieces (fn : Func) (L : List (List Ins)) : Prop where
  length : L.length = fn.ins.length
  range : ∀ i ∈ fn.ins, ∀ t ∈ valueOpnds i, t < fn.nvregs
  piece : ∀ (n : ℕ) (i : Ins) (is : List Ins), fn.ins[n]? = some i → L[n]? = some is →
    is = [i] ∨ isCore i ∧ is ≠ [] ∧ ∀ j ∈ is, isCore j

lemma isLabel_core {i : Ins} (h : isCore i) (l : ℤ) : isLabel l (some i) = false := by
  have hop : i.op ≠ .label := by
    intro hop
    simp [isCore, hop] at h
  simp [isLabel, hop]

/-- The code of the pieces. -/
def piecesProg (fn : Func) (L : List (List Ins)) : Prog := ⟨L.flatten.map some, fn.jt, fn.eh⟩

namespace Pieces
variable (hL : Pieces fn L)
include hL

lemma exists_piece {n : ℕ} {i : Ins} (hi : fn.ins[n]? = some i) : ∃ is, L[n]? = some is := by
  have hlt := getElem?_lt hi
  exact ⟨_, getElem?_eq_getElem (by rw [hL.length]; exact hlt)⟩

lemma labelAt (l : ℤ) : (piecesProg fn L).labelAt l = (fn.prog.labelAt l).map (Chunks.offset L) := by
  refine labelAt_pieces (ext_getElem? fun n => ?_) (fun is his j hj => ?_) _ _
  · rw [getElem?_map, getElem?_map]
    cases hi : fn.ins[n]? with
    | none =>
      have hlen := List.getElem?_eq_none_iff.1 hi
      rw [getElem?_eq_none (by rw [hL.length]; exact hlen)]
      rfl
    | some i =>
      obtain ⟨is, his⟩ := hL.exists_piece hi
      rw [his, map_some, map_some]
      rcases hL.piece n i is hi his with rfl | ⟨hcore, hne, hcores⟩
      · rfl
      · obtain ⟨j, js, rfl⟩ := exists_cons_of_ne_nil hne
        rw [isLabel_core hcore, head?_cons, any_some, isLabel_core (hcores j (.head _))]
  · obtain ⟨n, hn⟩ := getElem?_of_mem his
    have hlt := getElem?_lt hn
    rw [hL.length] at hlt
    rcases hL.piece n _ is (getElem?_eq_getElem hlt) hn with rfl | ⟨-, -, hcores⟩
    · cases hj
    · intro hop
      have := hcores j (mem_of_mem_tail hj)
      simp [isCore, hop] at this

end Pieces

/-- A point of the run before the pass and one of the run after it. -/
inductive Beside (nv : ℕ) (L : List (List Ins)) : Cfg W → Cfg W → Prop
  | ended : Beside nv L none none
  | here {pc : ℕ} {s s' : St W} : SameBelow nv s s' →
      Beside nv L (some (pc, s)) (some (Chunks.offset L pc, s'))

section
variable (hL : Pieces fn L) {pc : ℕ} {i : Ins} {is : List Ins} {s s' : St W} {o : Option Event}
  {c : Cfg W} (hs : SameBelow fn.nvregs s s')
include hL hs

lemma beside_moved (hi : fn.ins[pc]? = some i) (hget : L[pc]? = some [i]) (h : step fn.prog E (some (pc, s)) = some (o, c)) :
    ∃ d, step (piecesProg fn L) E (some (Chunks.offset L pc, s')) = some (o, d) ∧ Beside fn.nvregs L c d := by
  obtain ⟨d, hd, hmoved⟩ := step_moved hL.labelAt hs.taken
    (fun t ht => hs.temps t (hL.range i (mem_of_getElem? hi) t ht)) hs.world
    (Chunks.offset_succ hget) rfl rfl (prog_code hi) (codeAt_flatten hget _ _ 0 i rfl) h
  refine ⟨d, hd, ?_⟩
  cases hmoved with
  | ended => exact .ended
  | goes hagree _ htaken hworld =>
    exact .here ⟨fun x hx => hagree x (hs.temps x hx), htaken, hworld⟩

omit hL in
lemma beside_restated (hi : fn.ins[pc]? = some i) (hget : L[pc]? = some is) (hcore : isCore i) (hne : is ≠ [])
    (hres : Restates fn.nvregs s.temps i is) (h : step fn.prog E (some (pc, s)) = some (o, c)) : o = some .unset ∧ c = none
    ∨ o.bind outer = none ∧ ∃ d, Follows (viewed outer (step (piecesProg fn L) E)) (some (Chunks.offset L pc, s')) none d
    ∧ Beside fn.nvregs L c d := by
  obtain ⟨hctl, hlab⟩ := isControl_core hcore
  cases hvs : (valueOpnds i).mapM s.temps with
  | none =>
    simp only [step, prog_code hi, hctl, Bool.false_eq_true, if_false, seqStep, hvs] at h
    cases h
    exact .inl ⟨rfl, rfl⟩
  | some vs =>
    obtain ⟨v, hv, hpiece⟩ := hres vs hvs
    obtain ⟨out, hout, hbelow⟩ := hpiece s'.temps hs.temps
    have hexec : execIns s.temps i = some (setTemp s.temps i.dst v) := by
      simp [execIns, hcore, hvs, hv]
    obtain ⟨vs', hstep⟩ := step_execIns (E := E) (prog_code hi) hexec
    obtain ⟨rfl, rfl⟩ := Prod.mk.inj (mem_unique hstep h)
    refine .inr ⟨by simp [outer, hcore], _, follows_execSeq (codeAt_flatten hget _ _) hne hout, ?_⟩
    rw [← Chunks.offset_succ hget]
    exact .here ⟨fun t ht => hbelow t ht, hs.taken, hs.world⟩

end

section
variable (hL : Pieces fn L) {s0 : St W}
  (hres : ∀ pc s i is, Reaches (step fn.prog E) (some (0, s0)) (some (pc, s)) → fn.ins[pc]? = some i →
    L[pc]? = some is → is = [i] ∨ Restates fn.nvregs s.temps i is)
include hL hres

/-- One step of the old code is the piece that replaces it, or a read of an unset register. -/
lemma beside_step {pc : ℕ} {s : St W} {d : Cfg W} {o : Option Event} {c : Cfg W}
    (hreach : Reaches (step fn.prog E) (some (0, s0)) (some (pc, s))) (hcd : Beside fn.nvregs L (some (pc, s)) d)
    (h : step fn.prog E (some (pc, s)) = some (o, c)) : o = some .unset ∧ c = none ∨ ∃ d', Follows
    (viewed outer (step (piecesProg fn L) E)) d (o.bind outer) d' ∧ Beside fn.nvregs L c d' := by
  cases hcd with
  | @here _ _ s' hs =>
    cases hi : fn.ins[pc]? with
    | none =>
      have hlen : L.length ≤ pc := by
        rw [hL.length]
        exact List.getElem?_eq_none_iff.1 hi
      have hend : (piecesProg fn L).code[Chunks.offset L pc]? = none :=
        getElem?_eq_none (by rw [piecesProg, length_map, Chunks.offset_of_length_le hlen])
      have hlost : step fn.prog E (some (pc, s)) = some (some .lost, none) := by
        simp [step, Func.prog, hi]
      have hlost' : step (piecesProg fn L) E (some (Chunks.offset L pc, s')) = some (some .lost, none) := by
        simp [step, hend]
      obtain ⟨rfl, rfl⟩ := Prod.mk.inj (mem_unique hlost h)
      exact .inr ⟨none, .of_step (viewed_of_step _ hlost'), .ended⟩
    | some i =>
      obtain ⟨is, hget⟩ := hL.exists_piece hi
      have hplain (heq : is = [i]) := beside_moved hL hs hi (heq ▸ hget) h
      rcases hL.piece pc i is hi hget with heq | ⟨hcore, hne, -⟩
      · obtain ⟨d', hd', hrel⟩ := hplain heq
        exact .inr ⟨d', .of_step (viewed_of_step _ hd'), hrel⟩
      · rcases hres pc s i is hreach hi hget with heq | hrest
        · obtain ⟨d', hd', hrel⟩ := hplain heq
          exact .inr ⟨d', .of_step (viewed_of_step _ hd'), hrel⟩
        · rcases beside_restated hs hi hget hcore hne hrest h with hun | ⟨ho, d', hf, hrel⟩
          · exact .inl hun
          · exact .inr ⟨d', by rwa [ho], hrel⟩

/-- The run rule: code whose instructions are replaced by pieces shows the same. -/
lemma pieces_preserve : (∀ pc s, Reaches (step fn.prog E) (some (0, s0)) (some (pc, s)) →
      ∃ s', Reaches (step (piecesProg fn L) E) (some (0, s0)) (some (Chunks.offset L pc, s')) ∧ SameBelow fn.nvregs s s') ∧
    Refines Event.Wild (viewed outer (step fn.prog E)) (some (0, s0))
      (viewed outer (step (piecesProg fn L) E)) (some (0, s0)) := by
  have hstart : Beside fn.nvregs L (some (0, s0)) (some (0, s0)) :=
    show Beside fn.nvregs L (some (0, s0)) (some (Chunks.offset L 0, s0)) from
      .here ⟨fun _ _ => rfl, rfl, rfl⟩
  constructor
  · have hrun c (hreach : Reaches (step fn.prog E) (some (0, s0)) c) pc s (hc : c = some (pc, s)) : ∃ d, Reaches
        (viewed outer (step (piecesProg fn L) E)) (some (0, s0)) d ∧ Beside fn.nvregs L c d := by
      induction hreach generalizing pc s with
      | refl => exact ⟨_, .refl, hstart⟩
      | @tail b c hb hbc ih =>
        obtain ⟨o, ho⟩ := hbc
        cases b with
        | none => cases ho
        | some p =>
          obtain ⟨d, hd, hrel⟩ := ih p.1 p.2 rfl
          rcases beside_step hL hres hb hrel ho with ⟨-, rfl⟩ | ⟨d', hf, hrel'⟩
          · cases hc
          · exact ⟨d', hd.trans hf.reaches, hrel'⟩
    intro pc s hreach
    obtain ⟨d, hd, hrel⟩ := hrun _ hreach pc s rfl
    cases hrel with
    | here hs => exact ⟨_, hd.of_viewed, hs⟩
  · have hmatch : ∀ c d, (Reaches (step fn.prog E) (some (0, s0)) c ∧ Beside fn.nvregs L c d) →
        Match Event.Wild (viewed outer (step fn.prog E)) (viewed outer (step (piecesProg fn L) E))
          (fun c d => Reaches (step fn.prog E) (some (0, s0)) c ∧ Beside fn.nvregs L c d) c d := by
      rintro c d ⟨hreach, hcd⟩
      cases c with
      | none =>
        cases hcd
        exact .halt .refl .refl rfl rfl
      | some p =>
        obtain ⟨⟨o, c'⟩, hstep⟩ := Option.isSome_iff_exists.1 (step_isSome fn.prog E p.1 p.2)
        rcases beside_step hL hres hreach hcd hstep with ⟨rfl, rfl⟩ | ⟨d', hf, hrel⟩
        · exact .wild .refl (viewed_of_step _ hstep) rfl
        · exact .of_follows (viewed_of_step _ hstep) hf ⟨hreach.tail ⟨o, hstep⟩, hrel⟩
    exact refines_of_match hmatch ⟨.refl, hstart⟩

end
end EmbCC.Ir
