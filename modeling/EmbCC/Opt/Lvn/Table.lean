import EmbCC.Opt.Lvn.Pass

/-!
# What the value table holds

One turn of the walk, said once (`lvnTurn_cases`), and what it makes of the
table: every entry comes from an instruction above it in the same
straight-line code (`entry_source`), so a register that an instruction is made
a copy of has been written on every path to it.
-/

namespace EmbCC.Opt

open List Ir Scan

/-- Two instructions of one key agree on what the key leaves out. -/
structure KeyAgree (i j : Ins) : Prop where
  cmp : i.op = .cmp → i.immB = j.immB ∧ (i.immB → i.imm = j.imm)
  bits : i.op = .bswap ∨ i.op = .clz ∨ i.op = .ctz ∨ i.op = .popcnt → i.w = j.w
  sym : i.op = .gaddr ∨ i.op = .faddr → i.sym = j.sym

variable {i j : Ins} {memver : ℕ} {k : Vn}

section
variable (h : vnKey i memver = some k)
include h

lemma vnKey_op : k.op = i.op := by
  unfold vnKey at h
  split at h
  · cases h
  · split at h <;> (try split at h) <;> first | cases h; rfl | cases h

lemma vnKey_width : i.w ≠ 16 := by
  intro hw
  rw [vnKey, if_pos hw] at h
  cases h

lemma isValue_of_vnKey : isValue i.op ∨ isRead i.op := by
  unfold vnKey at h
  split at h
  · cases h
  · split at h <;> simp_all [isValue, isRead]

lemma vnKey_vol (hr : isRead i.op) : i.vol = false ∧ k.memver = memver := by
  unfold vnKey at h
  split at h
  · cases h
  · cases hop : i.op <;> simp_all [isRead]
    all_goals
      obtain ⟨-, rfl⟩ := h
      rfl

lemma vnKey_read (hr : isRead i.op) : k.a = i.a ∧ k.size = i.size := by
  unfold vnKey at h
  split at h
  · cases h
  · cases hop : i.op <;> simp_all [isRead]
    all_goals
      obtain ⟨-, rfl⟩ := h
      exact ⟨rfl, rfl⟩

end

lemma vnKey_zero (i : Ins) (memver : ℕ) :
    vnKey i 0 = (vnKey i memver).map fun k => { k with memver := 0 } := by
  unfold vnKey
  split
  · rfl
  · split <;> (try split) <;> rfl

/-- The form `ir.h` gives an instruction before the backend: a register or none where a register
is, an immediate only where the operation has one, and no displacement. -/
structure PlainIns (i : Ins) : Prop where
  reg : -1 ≤ i.b
  imm : i.op = .mulh ∨ i.op = .mulw → i.immB = false
  memoff : i.memoff = 0

lemma binKey_eq (hi : -1 ≤ i.b) (hj : -1 ≤ j.b) {o : Op}
    (h : (if i.immB then some { op := o, flt := i.flt, a := i.a, b := -2, imm := i.imm, w := i.w, sign := i.sign }
      else some { op := o, flt := i.flt, a := i.a, b := i.b, w := i.w, sign := i.sign } : Option Vn) =
      if j.immB then some { op := o, flt := j.flt, a := j.a, b := -2, imm := j.imm, w := j.w, sign := j.sign }
      else some { op := o, flt := j.flt, a := j.a, b := j.b, w := j.w, sign := j.sign }) :
    i.immB = j.immB ∧ i.flt = j.flt ∧ i.a = j.a ∧ i.w = j.w ∧ i.sign = j.sign ∧
      if i.immB then i.imm = j.imm else i.b = j.b := by
  cases hbi : i.immB <;> cases hbj : j.immB <;> rw [hbi, hbj] at h <;>
    simp only [Bool.false_eq_true, if_true, if_false, Option.some.injEq, Vn.mk.injEq] at h ⊢ <;>
    first | tauto | omega

lemma meaning_eq (hi : vnKey i memver = some k) (hj : vnKey j memver = some k) (hk : KeyAgree i j) (pi : PlainIns i)
    (pj : PlainIns j) : meaning i = meaning j := by
  have hop : j.op = i.op := (vnKey_op hj).symm.trans (vnKey_op hi)
  have hij := hi.trans hj.symm
  have hw : i.w ≠ 16 := vnKey_width hi
  have hw' : j.w ≠ 16 := vnKey_width hj
  obtain ⟨hcmp, hbits, hsym⟩ := hk
  obtain ⟨hreg, himm, hoff⟩ := pi
  obtain ⟨hreg', himm', hoff'⟩ := pj
  rw [hop] at himm'
  rw [vnKey, vnKey, if_neg hw, if_neg hw', hop] at hij
  rw [vnKey, if_neg hw] at hi
  cases h : i.op <;> rw [h] at hij hi hop hcmp hbits hsym himm himm' <;> try cases hi
  all_goals simp only [meaning, hop]
  case add | sub | mul | div | mod | and | or | xor | shl | shr =>
    obtain ⟨h1, h2, h3, h4, h5, h6⟩ := binKey_eq hreg hreg' hij
    cases hb : j.immB <;> rw [h1, hb] at h6 <;> simp_all
  case mulh | mulw => simp_all
  case cmp =>
    obtain ⟨h1, h2⟩ := hcmp rfl
    cases hb : j.immB <;> rw [h1, hb] at h2 <;> simp_all
  case ldvar | load => cases hv : i.vol <;> cases hv' : j.vol <;> simp_all
  all_goals simp_all

lemma mem_key_of_valueOpnds (h : vnKey i memver = some k)
    (hp : PlainIns i) {t : ℤ} (ht : t ∈ valueOpnds i) : t = k.a ∨ t = k.b := by
  obtain ⟨-, himm, -⟩ := hp
  have hw : i.w ≠ 16 := vnKey_width h
  rw [vnKey, if_neg hw] at h
  cases hop : i.op <;> rw [hop] at h himm <;> try cases h
  all_goals simp only [valueOpnds, eachRead, hop] at ht
  case add | sub | mul | div | mod | and | or | xor | shl | shr | mulh | mulw =>
    cases hb : i.immB <;> rw [hb] at h <;> cases h <;> simp_all
  case cmp => cases hb : i.immB <;> simp_all
  case ldvar | load =>
    cases hv : i.vol with
    | true =>
      rw [hv] at h
      cases h
    | false =>
      rw [hv] at h
      cases h
      simp_all
  all_goals simp_all

section
variable (ptrw : ℕ) (fn : Func) (st : LvnSt) (i : Ins) (tab : List VnEnt)

@[simp] lemma lvnEnd_fst : (lvnEnd ptrw fn st i tab).1 = i := by
  unfold lvnEnd
  split
  · split <;> rfl
  · rfl

@[simp] lemma lvnEnd_done : (lvnEnd ptrw fn st i tab).2.done = st.done ++ [i] := by
  unfold lvnEnd
  split
  · split <;> rfl
  · rfl

lemma lvnEnd_memver_le : st.memver ≤ (lvnEnd ptrw fn st i tab).2.memver := by
  unfold lvnEnd
  split
  · split
    · exact le_rfl
    · exact Nat.le_succ _
  · exact le_rfl

variable {ptrw fn st i tab} {e : VnEnt}

lemma lvnEnd_subset (h : e ∈ (lvnEnd ptrw fn st i tab).2.tab) : e ∈ tab := by
  unfold lvnEnd at h
  split at h
  · split at h
    · rename_i tab' htab
      obtain ⟨w, -, rfl⟩ := Option.map_eq_some_iff.1 htab
      exact (List.mem_filter.1 h).1
    · exact h
  · exact h

/-- The instruction does not write what the access of a key reads. -/
def Apart (ptrw : ℕ) (fn : Func) (st : LvnSt) (i : Ins) (k : Vn) : Prop :=
  writesMemory i.op = false ∨ ∃ w, lvnAccess (st.code fn) (computeDefs fn) ptrw i = some w ∧
    accOverlap ptrw w (k.access (st.code fn) (computeDefs fn) ptrw) (slotsTaken fn) fn.nvars = false

lemma lvnEnd_read (h : e ∈ (lvnEnd ptrw fn st i tab).2.tab) (hr : isRead e.k.op) (hle : e.k.memver ≤ st.memver)
    (hver : e.k.memver = (lvnEnd ptrw fn st i tab).2.memver) : e.k.memver = st.memver ∧ Apart ptrw fn st i e.k := by
  unfold lvnEnd at h hver
  split at h
  · rename_i hw
    rw [if_pos hw] at hver
    split at h
    · rename_i tab' htab
      rw [htab] at hver
      obtain ⟨w, hacc, rfl⟩ := Option.map_eq_some_iff.1 htab
      obtain ⟨-, hkeep⟩ := List.mem_filter.1 h
      simp only [hr, hver, true_and, decide_eq_true_eq] at hkeep
      exact ⟨hver, .inr ⟨w, hacc, eq_false_of_ne_true hkeep⟩⟩
    · rename_i hnone
      rw [hnone] at hver
      dsimp only at hver
      omega
  · rename_i hw
    rw [if_neg hw] at hver
    exact ⟨hver, .inl (by simpa using hw)⟩

lemma lvnTurn_cases (ptrw : ℕ) (fn : Func) (st : LvnSt) (i : Ins) :
    (i.op = .label ∧ lvnTurn ptrw fn st i = (i, ⟨st.done ++ [i], st.memver, []⟩)) ∨
    (i.op ≠ .label ∧ lvnTurn ptrw fn st i = lvnEnd ptrw fn st i (lvnKilled st.tab i)) ∨
    (∃ e ∈ st.tab, i.op ≠ .label ∧ 0 ≤ i.dst ∧ vnKey i st.memver = some e.k ∧ e.result ≠ i.dst ∧
      lvnTurn ptrw fn st i = lvnEnd ptrw fn st (vnToMov i e.result) (lvnKilled st.tab (vnToMov i e.result))) ∨
    ∃ k, i.op ≠ .label ∧ 0 ≤ i.dst ∧ vnKey i st.memver = some k ∧
      lvnTurn ptrw fn st i = lvnEnd ptrw fn st i (⟨k, i.dst⟩ :: vnKill st.tab i.dst) := by
  unfold lvnTurn
  split
  · rename_i hop
    exact .inl ⟨hop, rfl⟩
  · rename_i hop
    split
    · exact .inr (.inl ⟨hop, rfl⟩)
    · rename_i k hk
      split at hk
      · rename_i hdst
        split
        · rename_i hit hfind
          obtain ⟨e, he, rfl⟩ := Option.map_eq_some_iff.1 hfind
          obtain rfl : e.k = k := by simpa using find?_some he
          split_ifs with hne
          · exact .inr (.inr (.inl ⟨e, mem_of_find?_eq_some he, hop, hdst, hk, hne, rfl⟩))
          · exact .inr (.inl ⟨hop, rfl⟩)
        · exact .inr (.inr (.inr ⟨k, hop, hdst, hk, rfl⟩))
      · cases hk

@[simp] lemma vnToMov_a (hit : ℤ) : (vnToMov i hit).a = hit := rfl

@[simp] lemma vnToMov_op (hit : ℤ) : (vnToMov i hit).op = .mov := rfl

@[simp] lemma vnToMov_dst (hit : ℤ) : (vnToMov i hit).dst = i.dst := by
  simp only [vnToMov]
  split
  · split <;> rfl
  · rfl

lemma lvnKilled_mov (h0 : 0 ≤ i.dst) (hit : ℤ) : lvnKilled tab (vnToMov i hit) = vnKill tab i.dst := by
  have hdst : defTarget (vnToMov i hit) = i.dst := by simp [defTarget, writesTemp]
  rw [lvnKilled, hdst, vnToMov_op, if_neg (by decide), if_pos h0]

lemma op_of_vnKey {memver : ℕ} {k : Vn} (h : vnKey i memver = some k) : i.op ≠ .landing ∧ writesTemp i.op := by
  have hv := isValue_of_vnKey h
  revert hv
  cases i.op <;> simp [isValue, isRead, writesTemp]

lemma tempDefs_of_vnKey {memver : ℕ} {k : Vn} (h : vnKey i memver = some k) : tempDefs i = [i.dst] := by
  rw [tempDefs, if_neg (op_of_vnKey h).1, if_pos (.inl (op_of_vnKey h).2)]

lemma writesMemory_of_vnKey {memver : ℕ} {k : Vn} (h : vnKey i memver = some k) : writesMemory i.op = false := by
  have hv := isValue_of_vnKey h
  revert hv
  cases i.op <;> simp [isValue, isRead, writesMemory]

lemma mem_vnKill {v : ℤ} (h : e ∈ vnKill tab v) : e ∈ tab ∧ e.k.a ≠ v ∧ e.k.b ≠ v ∧ e.result ≠ v := by
  simpa [vnKill] using h

/-- An entry that the instruction leaves as it is: it writes none of its registers. -/
def Spared (i : Ins) (e : VnEnt) : Prop :=
  i.op ≠ .asm ∧ i.op ≠ .landing ∧ ∀ t ∈ tempDefs i, 0 ≤ t → e.k.a ≠ t ∧ e.k.b ≠ t ∧ e.result ≠ t

lemma mem_lvnKilled (h : e ∈ lvnKilled tab i) : e ∈ tab ∧ Spared i e := by
  unfold lvnKilled at h
  split at h
  · cases h
  · rename_i hop
    push Not at hop
    have hdef : ∀ t ∈ tempDefs i, t = defTarget i := fun t => tempDefs_eq_defTarget hop.2
    split at h
    · obtain ⟨he, hk⟩ := mem_vnKill h
      exact ⟨he, hop.1, hop.2, fun t ht _ => hdef t ht ▸ hk⟩
    · rename_i hneg
      exact ⟨h, hop.1, hop.2, fun t ht h0 => absurd (hdef t ht ▸ h0) hneg⟩

lemma mem_turn (h : e ∈ (lvnTurn ptrw fn st i).2.tab) : i.op ≠ .label ∧
    ((e ∈ st.tab ∧ Spared i e) ∨ (0 ≤ i.dst ∧ vnKey i st.memver = some e.k ∧ e.result = i.dst)) := by
  have hkeyed {k} (hk : vnKey i st.memver = some k) (he : e ∈ vnKill st.tab i.dst) : e ∈ st.tab ∧ Spared i e := by
    obtain ⟨hmem, hne⟩ := mem_vnKill he
    have hv := isValue_of_vnKey hk
    refine ⟨hmem, fun hop => ?_, fun hop => ?_, fun t ht _ => ?_⟩
    · simp [hop, isValue, isRead] at hv
    · simp [hop, isValue, isRead] at hv
    · rw [tempDefs_of_vnKey hk, mem_singleton] at ht
      exact ht ▸ hne
  rcases lvnTurn_cases ptrw fn st i with ⟨-, ht⟩ | ⟨hop, ht⟩ | ⟨e', -, hop, h0, hk, -, ht⟩ |
    ⟨k, hop, h0, hk, ht⟩ <;> rw [ht] at h
  · cases h
  · exact ⟨hop, .inl (mem_lvnKilled (lvnEnd_subset h))⟩
  · have he := lvnEnd_subset h
    rw [lvnKilled_mov h0] at he
    exact ⟨hop, .inl (hkeyed hk he)⟩
  · rcases List.mem_cons.1 (lvnEnd_subset h) with rfl | he
    · exact ⟨hop, .inr ⟨h0, hk, rfl⟩⟩
    · exact ⟨hop, .inl (hkeyed hk he)⟩

lemma read_turn (h : e ∈ (lvnTurn ptrw fn st i).2.tab) (hr : isRead e.k.op) (hle : e.k.memver ≤ st.memver)
    (hver : e.k.memver = (lvnTurn ptrw fn st i).2.memver) : e.k.memver = st.memver ∧ Apart ptrw fn st i e.k := by
  rcases lvnTurn_cases ptrw fn st i with ⟨-, ht⟩ | ⟨-, ht⟩ | ⟨e', -, -, -, hk, -, ht⟩ | ⟨k, -, -, -, ht⟩ <;> rw [ht] at h hver
  · cases h
  · exact lvnEnd_read h hr hle hver
  · exact ⟨(lvnEnd_read h hr hle hver).1, .inl (writesMemory_of_vnKey hk)⟩
  · exact lvnEnd_read h hr hle hver

lemma turn_done (ptrw : ℕ) (fn : Func) (st : LvnSt) (i : Ins) :
    (lvnTurn ptrw fn st i).2.done = st.done ++ [(lvnTurn ptrw fn st i).1] := by
  rcases lvnTurn_cases ptrw fn st i with ⟨-, ht⟩ | ⟨-, ht⟩ | ⟨e', -, -, -, -, -, ht⟩ | ⟨k, -, -, -, ht⟩ <;> simp [ht]

lemma turn_memver_le (ptrw : ℕ) (fn : Func) (st : LvnSt) (i : Ins) : st.memver ≤ (lvnTurn ptrw fn st i).2.memver := by
  rcases lvnTurn_cases ptrw fn st i with ⟨-, ht⟩ | ⟨-, ht⟩ | ⟨e', -, -, -, -, -, ht⟩ | ⟨k, -, -, -, ht⟩ <;> rw [ht]
  · exact lvnEnd_memver_le _ _ _ _ _
  · exact lvnEnd_memver_le _ _ _ _ _
  · exact lvnEnd_memver_le _ _ _ _ _

end

section
variable {ptrw : ℕ} {fn : Func} {n : ℕ} {i : Ins} {e : VnEnt}

lemma lvnAt_succ (h : fn.ins[n]? = some i) : lvnAt ptrw fn (n + 1) = (lvnTurn ptrw fn (lvnAt ptrw fn n) i).2 :=
  stateAt_succ _ _ h

lemma passLvn_getElem (h : fn.ins[n]? = some i) :
    (passLvn ptrw fn).ins[n]? = some (lvnTurn ptrw fn (lvnAt ptrw fn n) i).1 := by
  rw [passLvn, scan_getElem, h]
  rfl

@[simp] lemma passLvn_length (ptrw : ℕ) (fn : Func) : (passLvn ptrw fn).ins.length = fn.ins.length := length_scan _ _ _

lemma lvnAt_done (hn : n ≤ fn.ins.length) : (lvnAt ptrw fn n).done = (passLvn ptrw fn).ins.take n := by
  induction n with
  | zero => rfl
  | succ n ih =>
    obtain ⟨i, hi⟩ : ∃ i, fn.ins[n]? = some i := ⟨_, getElem?_eq_getElem hn⟩
    rw [lvnAt_succ hi, turn_done, ih (by omega), take_add_one, passLvn_getElem hi]
    rfl

lemma passLvn_cases (h : fn.ins[n]? = some i) : (passLvn ptrw fn).ins[n]? = some i ∨
    ∃ e ∈ (lvnAt ptrw fn n).tab, 0 ≤ i.dst ∧ i.op ≠ .label ∧ vnKey i (lvnAt ptrw fn n).memver = some e.k ∧ e.result ≠ i.dst ∧
      (passLvn ptrw fn).ins[n]? = some (vnToMov i e.result) := by
  rw [passLvn_getElem h]
  rcases lvnTurn_cases ptrw fn (lvnAt ptrw fn n) i with ⟨-, ht⟩ | ⟨-, ht⟩ | ⟨e, he, hop, h0, hk, hne, ht⟩ | ⟨k, -, -, -, ht⟩
  · exact .inl (by rw [ht])
  · exact .inl (by rw [ht, lvnEnd_fst])
  · exact .inr ⟨e, he, h0, hop, hk, hne, by rw [ht, lvnEnd_fst]⟩
  · exact .inl (by rw [ht, lvnEnd_fst])

/-- The entry is of the instruction at `m`, from which control comes straight down to `n`. -/
structure Source (fn : Func) (memver n : ℕ) (e : VnEnt) (m : ℕ) (j : Ins) : Prop where
  lt : m < n
  ins : fn.ins[m]? = some j
  dst : 0 ≤ j.dst
  result : j.dst = e.result
  key : ∃ v ≤ memver, vnKey j v = some e.k
  line : ∀ k i, m < k → k < n → fn.ins[k]? = some i → i.op ≠ .label

lemma entry_source (hn : n ≤ fn.ins.length) (he : e ∈ (lvnAt ptrw fn n).tab) :
    ∃ m j, Source fn (lvnAt ptrw fn n).memver n e m j := by
  induction n with
  | zero => cases he
  | succ n ih =>
    obtain ⟨i, hi⟩ : ∃ i, fn.ins[n]? = some i := ⟨_, getElem?_eq_getElem hn⟩
    have hver := turn_memver_le ptrw fn (lvnAt ptrw fn n) i
    rw [lvnAt_succ hi] at he ⊢
    obtain ⟨hop, ⟨hmem, -⟩ | ⟨h0, hk, hres⟩⟩ := mem_turn he
    · obtain ⟨m, j, hs⟩ := ih (by omega) hmem
      obtain ⟨v, hv, hkey⟩ := hs.key
      refine ⟨m, j, by have := hs.lt; omega, hs.ins, hs.dst, hs.result, ⟨v, hv.trans hver, hkey⟩, fun k i' hk hkn hi' => ?_⟩
      rcases Nat.lt_succ_iff_lt_or_eq.1 hkn with hlt | rfl
      · exact hs.line k i' hk hlt hi'
      · rw [hi] at hi'
        exact Option.some.inj hi' ▸ hop
    · exact ⟨n, i, by omega, hi, h0, hres.symm, ⟨_, hver, hk⟩, fun k i' hk hkn _ => by omega⟩

end
end EmbCC.Opt
