import EmbCC.Opt.Access
import EmbCC.Opt.Lvn.Table

/-!
# Addresses of the copied code

The walks of the alias analysis go through the code as the pass has rewritten
it so far. `Link` is one step of `mem_access`'s walk there, and
`shifted_exec` says that it is true where the address is computed.
-/

namespace EmbCC.Opt

open List Ir Trace

/-- What the pass relies on: the forms of `ir.h`, a key that says what is computed, a result that
is none of the operands, and registers that are written before they are read. -/
structure LvnOk (fn : Func) : Prop where
  plain : ∀ i ∈ fn.ins, PlainIns i
  agree : ∀ i ∈ fn.ins, ∀ j ∈ fn.ins, vnKey i 0 ≠ none → vnKey i 0 = vnKey j 0 → KeyAgree i j
  fresh : ∀ i ∈ fn.ins, vnKey i 0 ≠ none → i.dst ∉ valueOpnds i
  written : WrittenFirst fn

section
variable {ptrw : ℕ} {fn : Func} {n m : ℕ} {i j : Ins} {e : VnEnt}
variable {memver : ℕ} {k : Vn}

lemma vnKey_zero_ne (h : vnKey i memver = some k) : vnKey i 0 ≠ none := by
  rw [vnKey_zero i memver, h]
  simp

lemma LvnOk.same_meaning (hok : LvnOk fn) {u v : ℕ} (hi : i ∈ fn.ins) (hj : j ∈ fn.ins)
    (hki : vnKey i u = some k) (hkj : vnKey j v = some k) : meaning i = meaning j := by
  have hi0 : vnKey i 0 = some { k with memver := 0 } := by rw [vnKey_zero i u, hki]; rfl
  have hj0 : vnKey j 0 = some { k with memver := 0 } := by rw [vnKey_zero j v, hkj]; rfl
  exact meaning_eq hi0 hj0 (hok.agree i hi j hj (vnKey_zero_ne hki) (hi0.trans hj0.symm)) (hok.plain i hi) (hok.plain j hj)

lemma Source.written (h : Source fn memver n e m j) (hi : fn.ins[n]? = some i)
    (hop : i.op ≠ .label) : ¬ Unwritten fn e.result n := by
  intro hu
  have hlen : n < fn.ins.length := getElem?_lt hi
  refine hu.not_mem_tempDefs h.lt (fun k hk hkn => ?_) h.ins ?_
  · rcases Nat.lt_or_eq_of_le hkn with hlt | rfl
    · exact ⟨_, getElem?_eq_getElem (hlt.trans hlen), h.line k _ hk hlt (getElem?_eq_getElem (hlt.trans hlen))⟩
    · exact ⟨i, hi, hop⟩
  · obtain ⟨v, -, hkey⟩ := h.key
    rw [tempDefs_of_vnKey hkey, h.result]
    exact .head _

lemma mem_countedDefs_of_vnKey (h : vnKey i memver = some k) (h0 : 0 ≤ i.dst) : i.dst ∈ countedDefs fn i := by
  have hop := op_of_vnKey h
  have hdef : defTarget i = i.dst := if_pos (.inr (.inl hop.2))
  rw [countedDefs, if_neg hop.1, hdef, if_neg (by omega)]
  exact .head _

lemma code_getElem {pc : ℕ} (hn : pc ≤ fn.ins.length) {i' : Ins} (h : ((lvnAt ptrw fn pc).code fn).ins[m]? = some i') : ∃ i,
    fn.ins[m]? = some i ∧ (i' = i ∨ ∃ e ∈ (lvnAt ptrw fn m).tab, 0 ≤ i.dst ∧ i.op ≠ .label ∧ vnKey i
    (lvnAt ptrw fn m).memver = some e.k ∧ e.result ≠ i.dst ∧ i' = vnToMov i e.result) := by
  simp only [LvnSt.code, lvnAt_done hn] at h
  have hlen : ((passLvn ptrw fn).ins.take pc).length = pc := by simp [hn]
  rcases Nat.lt_or_ge m pc with hm | hm
  · rw [getElem?_append_left (by omega), getElem?_take_of_lt hm] at h
    obtain ⟨i, hi⟩ : ∃ i, fn.ins[m]? = some i := ⟨_, getElem?_eq_getElem (hm.trans_le hn)⟩
    refine ⟨i, hi, ?_⟩
    rcases @passLvn_cases ptrw fn m i hi with h' | ⟨e, he, h0, hop, hk, hne, h'⟩
    · exact .inl (Option.mem_unique h h')
    · exact .inr ⟨e, he, h0, hop, hk, hne, Option.mem_unique h h'⟩
  · rw [getElem?_append_right (by omega), hlen, getElem?_drop, Nat.add_sub_cancel' hm] at h
    exact ⟨i', h, .inl rfl⟩

lemma copied_code (hok : LvnOk fn) (hn : n ≤ fn.ins.length) : Copied fn ((lvnAt ptrw fn n).code fn).ins := by
  intro m i' hi'
  obtain ⟨i, hi, rfl | ⟨e, he, -, -, hk, -, rfl⟩⟩ := code_getElem hn hi'
  · exact ⟨i', hi, .inl rfl⟩
  · refine ⟨i, hi, .inr ⟨rfl, isValue_of_vnKey hk, fun j hj => ?_⟩⟩
    obtain ⟨m', j', hs⟩ := entry_source (getElem?_lt hi).le he
    obtain ⟨v, -, hkey⟩ := hs.key
    obtain ⟨k, hk', -, -, -, huniq⟩ := soleDef_spec (hs.result ▸ hj)
    obtain rfl := huniq _ _ hs.ins (mem_countedDefs_of_vnKey hkey hs.dst)
    obtain rfl := Option.mem_unique hk' hs.ins
    exact hok.same_meaning (mem_of_getElem? hs.ins) (mem_of_getElem? hi) hkey hk

end

/-- What the instruction at `n` computes is the register `x` and `c` more: a step of `mem_access`'s
walk in the code that the pass rewrites. -/
inductive Link (ptrw : ℕ) (fn : Func) (n : ℕ) (i : Ins) : ℤ → BitVec 64 → Prop
  | mov : i.op = .mov → Link ptrw fn n i i.a 0
  | imm : i.op = .add ∨ i.op = .sub → i.flt = false → i.w = ptrw → i.immB = true →
      Link ptrw fn n i i.a (if i.op = .sub then -i.imm else i.imm)
  | right {c : BitVec 64} : i.op = .add ∨ i.op = .sub → i.flt = false → i.w = ptrw →
      i.immB = false → addrConst fn (computeDefs fn) i.b i.w = some c →
      Link ptrw fn n i i.a (if i.op = .sub then -c else c)
  | left {c : BitVec 64} : i.op = .add → i.flt = false → i.w = ptrw → i.immB = false →
      addrConst fn (computeDefs fn) i.a i.w = some c → Link ptrw fn n i i.b c
  | copy {e : VnEnt} : e ∈ (lvnAt ptrw fn n).tab → vnKey i (lvnAt ptrw fn n).memver = some e.k →
      0 ≤ i.dst → i.op ≠ .label → e.result ≠ i.dst → Link ptrw fn n i e.result 0

section
variable {W : Type} {E : Env W} {ptrw : ℕ} {fn : Func} {n : ℕ} {i : Ins} {x t : ℤ} {c : BitVec 64}

lemma addrConst_copied {ins : List Ins} {v : ℤ} {w : ℕ} (hc : Copied fn ins)
    (h : addrConst { fn with ins := ins } (computeDefs fn) v w = some c) :
    addrConst fn (computeDefs fn) v w = some c := by
  obtain ⟨hone, k, hk, hop, hrest⟩ := addrConst_eq_some.1 h
  obtain ⟨h0, -, hcnt, -⟩ := oneValue_iff.1 hone
  obtain ⟨i, hi, rfl | ⟨hmov, -⟩⟩ := soleDef_of_insOf hc h0 hcnt hk
  · exact addrConst_eq_some.2 ⟨hone, k, by rw [insOf_eq_soleDef h0 hcnt, hi], hop, hrest⟩
  · rw [hop] at hmov
    cases hmov

lemma Link.tempDefs (h : Link ptrw fn n i x c) : tempDefs i = [i.dst] := by
  cases h with
  | mov hop => simp [Ir.tempDefs, hop, writesTemp]
  | imm hop | right hop => rcases hop with hop | hop <;> simp [Ir.tempDefs, hop, writesTemp]
  | left hop => simp [Ir.tempDefs, hop, writesTemp]
  | copy _ hk => exact tempDefs_of_vnKey hk

lemma soleAt_of_soleDef (ht : t < fn.nvregs) (hi : fn.ins[n]? = some i) (hd : soleDef fn t = some i) : SoleAt fn t n := by
  obtain ⟨m, -, hmem, h0, hp, huniq⟩ := soleDef_spec hd
  obtain rfl := huniq n i hi hmem
  exact ⟨not_lt.2 (hp ht), fun k j hj hjt => huniq k j hj (mem_countedDefs h0 ht hjt)⟩

lemma Link.dst_eq (h : Link ptrw fn n i x c) (hd : soleDef fn t = some i) : t = i.dst := by
  obtain ⟨m, -, hmem, -, -⟩ := soleDef_spec hd
  have htd := h.tempDefs
  unfold Ir.tempDefs at htd
  unfold countedDefs at hmem
  split at htd
  · simp at htd
  · rename_i hop
    rw [if_neg hop] at hmem
    split at htd
    · rename_i hw
      have hdef : defTarget i = i.dst := if_pos (.inr hw)
      rw [hdef] at hmem
      split at hmem
      · cases hmem
      · exact List.mem_singleton.1 hmem
    · cases htd

/-- What the walk passes in the code so far is a link of the function. -/
lemma link_of_baseStep (hok : LvnOk fn) {pc : ℕ} (hn : pc ≤ fn.ins.length) {i' : Ins} (ht : oneValue fn (computeDefs fn) t)
    (hi' : (computeDefs fn).insOf ((lvnAt ptrw fn pc).code fn) t = some i')
    (hs : baseStep ((lvnAt ptrw fn pc).code fn) (computeDefs fn) ptrw i' = some (x, c)) :
    ∃ n i, fn.ins[n]? = some i ∧ soleDef fn t = some i ∧ Link ptrw fn n i x c := by
  obtain ⟨h0, -, hcnt, -⟩ := oneValue_iff.1 ht
  unfold Defs.insOf at hi'
  split at hi'
  · cases hi'
  · rename_i hneg
    obtain ⟨i, hi, hcase⟩ := code_getElem hn hi'
    have hd : soleDef fn t = some i := by
      simp only [soleDef]
      rw [if_neg (by omega), hi]
    refine ⟨_, i, hi, hd, ?_⟩
    rcases hcase with rfl | ⟨e, he, hdst, hop, hk, hne, rfl⟩
    · have hcopy := @copied_code ptrw fn pc hok hn
      cases adds_of_baseStep hs with
      | mov hop => exact .mov hop
      | imm hop hflt hw himm => exact .imm hop hflt hw himm
      | right hop hflt hw himm hc => exact .right hop hflt hw himm (addrConst_copied hcopy hc)
      | left hop hflt hw himm hc => exact .left hop hflt hw himm (addrConst_copied hcopy hc)
    · obtain ⟨rfl, rfl⟩ : e.result = x ∧ 0 = c := by simpa [baseStep] using hs
      exact .copy he hk hdst hop hne

lemma Link.written (hok : LvnOk fn) (hi : fn.ins[n]? = some i) (h : Link ptrw fn n i x c) : ¬ Unwritten fn x n := by
  cases h with
  | mov hop => exact hok.written n i hi _ (by simp [valueOpnds, eachRead, hop])
  | imm hop _ _ himm =>
    exact hok.written n i hi _ (by rcases hop with hop | hop <;> simp [valueOpnds, eachRead, hop, himm])
  | right hop _ _ himm =>
    exact hok.written n i hi _ (by rcases hop with hop | hop <;> simp [valueOpnds, eachRead, hop, himm])
  | left hop _ _ himm => exact hok.written n i hi _ (by simp [valueOpnds, eachRead, hop, himm])
  | copy he _ _ hop _ =>
    obtain ⟨m, j, hs⟩ := entry_source (getElem?_lt hi).le he
    exact hs.written hi hop

end
end EmbCC.Opt
