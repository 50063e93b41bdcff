import EmbCC.Ir.Ints
import EmbCC.Ir.Straight
import EmbCC.Opt.DivMagic.Pass

/-!
# What the emitted code leaves in the registers

`Holds` says that the code a buffer gained since it was `e₀`, run on the registers
`temps₀`, leaves a value in a register and the registers below `e₀.nv` alone.
`Gives` is the rule for the routines that emit: the register they return holds the
value, and what was held before still is. `dmConst_gives` and `dmOp_gives` are the
two it is built from.
-/

namespace EmbCC.Opt.DivMagic

open Ir Function

section
variable {temps₀ : ℤ → Option Val} {e₀ : Buf}

/-- The code since `e₀` was run and left these registers. -/
structure Ran (temps₀ : ℤ → Option Val) (e₀ e : Buf) (temps : ℤ → Option Val) : Prop where
  exec : ∃ code, e.nb = e₀.nb ++ code ∧ execSeq temps₀ code = some temps
  le : e₀.nv ≤ e.nv
  keep : ∀ t < (e₀.nv : ℤ), temps t = temps₀ t

lemma Ran.refl (temps₀ : ℤ → Option Val) (e₀ : Buf) : Ran temps₀ e₀ e₀ temps₀ :=
  ⟨⟨[], by simp, rfl⟩, le_rfl, fun _ _ => rfl⟩

lemma Ran.unique {e : Buf} {t1 t2 : ℤ → Option Val} (h1 : Ran temps₀ e₀ e t1) (h2 : Ran temps₀ e₀ e t2) : t1 = t2 := by
  obtain ⟨c1, hc1, hx1⟩ := h1.exec
  obtain ⟨c2, hc2, hx2⟩ := h2.exec
  obtain rfl : c1 = c2 := List.append_cancel_left (hc1.symm.trans hc2)
  exact Option.some.inj (hx1.symm.trans hx2)

variable {k w : ℕ} {temps : ℤ → Option Val} {i : Ins} {sg : Bool}

lemma Ran.push {e : Buf} (h : Ran temps₀ e₀ e temps) {v : Val} (hi : execIns temps i = some (setTemp temps e.nv v)) :
    Ran temps₀ e₀ ⟨e.nb ++ [i], e.nv + 1⟩ (update temps e.nv (some v)) := by
  obtain ⟨code, hcode, hx⟩ := h.exec
  have hle := h.le
  have hset : setTemp temps e.nv v = update temps e.nv (some v) := if_neg (by omega)
  refine ⟨⟨code ++ [i], by simp [hcode], ?_⟩, by simp; omega, fun t ht => ?_⟩
  · rw [execSeq_append, hx, Option.bind_some, execSeq_singleton, hi, hset]
  · rw [update_of_ne (by omega), h.keep t ht]

/-- The register `t` holds `v`. -/
def Holds (temps₀ : ℤ → Option Val) (e₀ e : Buf) (t : ℤ) (v : BitVec 64) : Prop :=
  ∃ temps, Ran temps₀ e₀ e temps ∧ t < e.nv ∧ temps t = some (ofLong v)

/-- A routine that emits returns a register with `v`, and keeps what is held. -/
structure Gives (temps₀ : ℤ → Option Val) (e₀ e : Buf) (r : ℤ × Buf) (v : BitVec 64) : Prop where
  holds : Holds temps₀ e₀ r.2 r.1 v
  keeps : ∀ {t u}, Holds temps₀ e₀ e t u → Holds temps₀ e₀ r.2 t u

variable {e : Buf} {a b : ℤ} {A B R : BitVec 64}

lemma Holds.both (ha : Holds temps₀ e₀ e a A) (hb : Holds temps₀ e₀ e b B) :
    ∃ temps, Ran temps₀ e₀ e temps ∧ temps a = some (ofLong A) ∧ temps b = some (ofLong B) := by
  obtain ⟨temps, hran, -, ha⟩ := ha
  obtain ⟨temps', hran', -, hb⟩ := hb
  obtain rfl := hran.unique hran'
  exact ⟨temps, hran, ha, hb⟩

lemma Gives.of_holds (h : Holds temps₀ e₀ e a A) : Gives temps₀ e₀ e (a, e) A := ⟨h, id⟩

lemma Gives.trans {r s : ℤ × Buf} (h1 : Gives temps₀ e₀ e r A) (h2 : Gives temps₀ e₀ r.2 s R) : Gives temps₀ e₀ e s R :=
  ⟨h2.holds, fun h => h2.keeps (h1.keeps h)⟩

lemma Gives.push (h : Ran temps₀ e₀ e temps) (hi : execIns temps i = some (setTemp temps e.nv (ofLong R))) :
    Gives temps₀ e₀ e (e.nv, ⟨e.nb ++ [i], e.nv + 1⟩) R := by
  refine ⟨⟨_, h.push hi, by simp, by simp⟩, ?_⟩
  rintro t u ⟨temps', h', ht, hu⟩
  obtain rfl := h.unique h'
  refine ⟨_, h.push hi, by simp; omega, ?_⟩
  rw [update_of_ne (by omega), hu]

lemma dmConst_gives (h : Holds temps₀ e₀ e a A) (v : ℤ) (w : ℕ) :
    Gives temps₀ e₀ e (dmConst e v w) (norm (BitVec.ofInt 64 v) w) := by
  obtain ⟨temps, hran, -⟩ := h
  exact .push hran (by simp [execIns, isCore, valueOpnds, eachRead, evalCore])

/-- The operations the lowerings take two registers for. -/
def isBinary : Op → Bool
  | .add | .sub | .mul | .and | .or | .shl | .shr | .mulh | .cmp => true
  | _ => false

lemma execIns_binary (hop : isBinary i.op) (hw : i.w = 4 ∨ i.w = 8) (hflt : i.flt = false) (himm : i.immB = false)
    (ha : temps i.a = some (ofLong A)) (hb : temps i.b = some (ofLong B)) (hR : foldBin i.op A B i.w i.sign i.pred = some R) :
    execIns temps i = some (setTemp temps i.dst (ofLong R)) := by
  cases ho : i.op <;> rw [ho] at hop hR <;> first | exact absurd hop (by decide) |
    (rcases hw with hw | hw <;> rw [hw] at hR <;>
      simp [execIns, isCore, valueOpnds, eachRead, evalCore, ho, hw, hflt, himm, ha, hb, hR])

section
variable (ha : Holds temps₀ e₀ e a A)
include ha

lemma dmOp_gives (hb : Holds temps₀ e₀ e b B) {o : Op} (ho : isBinary o) (hw : w = 4 ∨ w = 8) {size : ℕ}
    (hR : foldBin o A B w sg .eq = some R) : Gives temps₀ e₀ e (dmOp e o a b w sg size) R := by
  obtain ⟨temps, hran, ha, hb⟩ := ha.both hb
  exact .push hran (execIns_binary ho hw rfl rfl ha hb hR)

lemma dmOpC_gives {o : Op} (ho : isBinary o) (hw : w = 4 ∨ w = 8) {v : ℤ}
    (hR : foldBin o A (norm (BitVec.ofInt 64 v) w) w sg .eq = some R) : Gives temps₀ e₀ e (dmOpC e o a v w sg) R := by
  have hc := dmConst_gives ha v w
  exact hc.trans (dmOp_gives (hc.keeps ha) hc.holds ho hw hR)

lemma ext_gives (sg : Bool) : Gives temps₀ e₀ e (dmOp e .ext a (-1) 8 sg 4) (foldExt A 4 sg 8) := by
  obtain ⟨temps, hran, -, ha⟩ := ha
  exact .push hran (by simp [execIns, isCore, valueOpnds, eachRead, evalCore, ha])

lemma add_gives (hb : Holds temps₀ e₀ e b B) (sg : Bool) :
    Gives temps₀ e₀ e (dmOp e .add a b 4 sg 0) (word (s32 A + s32 B)) :=
  dmOp_gives ha hb rfl (.inl rfl) (foldBin_add4 ..)

lemma sub_gives (hb : Holds temps₀ e₀ e b B) (sg : Bool) :
    Gives temps₀ e₀ e (dmOp e .sub a b 4 sg 0) (word (s32 A - s32 B)) :=
  dmOp_gives ha hb rfl (.inl rfl) (foldBin_sub4 ..)

lemma shru_gives (hk : k < 32) : Gives temps₀ e₀ e (dmOpC e .shr a k 4 false) (word (u32 A / 2 ^ k : ℕ)) := by
  refine dmOpC_gives ha rfl (.inl rfl) ?_
  rw [norm_ofInt, foldBin_shru4, u32_word_of_lt (by omega), Nat.mod_eq_of_lt hk]

lemma shrs_gives (hk : k < 32) : Gives temps₀ e₀ e (dmOpC e .shr a k 4 true) (word (s32 A / 2 ^ k)) := by
  refine dmOpC_gives ha rfl (.inl rfl) ?_
  rw [norm_ofInt, foldBin_shrs4, u32_word_of_lt (by omega), Nat.mod_eq_of_lt hk]

end
end
/-- A loop that emits code for each instruction emits the pieces in order. -/
lemma foldlM_pieces {f : Buf → Ins → Option Buf} {R : Ins → List Ins → Prop} {nv : ℕ} {l : List Ins} {e : Buf}
    (hf : ∀ i ∈ l, ∀ e, nv ≤ e.nv → ∃ e' code, f e i = some e' ∧ e'.nb = e.nb ++ code ∧ nv ≤ e'.nv ∧ R i code)
    (he : nv ≤ e.nv) : ∃ e' cs, l.foldlM f e = some e' ∧ e'.nb = e.nb ++ cs.flatten ∧ List.Forall₂ R l cs := by
  induction l generalizing e with
  | nil => exact ⟨e, [], rfl, by simp, .nil⟩
  | cons i l ih =>
    obtain ⟨e₁, code, hi, hnb, hle, hR⟩ := hf i (.head _) e he
    obtain ⟨e', cs, hl, hnb', hall⟩ := ih (fun j hj => hf j (.tail _ hj)) hle
    refine ⟨e', code :: cs, ?_, by rw [hnb', hnb, List.flatten_cons, List.append_assoc], .cons hR hall⟩
    rw [List.foldlM_cons, hi]
    exact hl

end EmbCC.Opt.DivMagic
