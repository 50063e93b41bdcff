import EmbCC.Ir.Machine

/-!
# Memory, as far as the optimizer relies on it

The machine leaves memory to its environment. `Memory` says what the passes
that reuse values assume of one: memory is bytes, an access touches the bytes
of its address or of its frame slot, different objects are different bytes,
and an operation whose result `ir.h` describes by its operands and its fields
(`meaning`) has no other input.
-/

namespace EmbCC.Ir

/-- `writes_memory`: a load cached from before such an operation is stale. -/
def writesMemory : Op → Bool
  | .store | .stvar | .call | .memcpy | .memzero | .xchg | .xadd | .cmpxchg | .armw | .cas
  | .cas16 | .asm | .vaStart | .vstore | .fence => true
  | _ => false

/-- A result that depends on the operands alone. -/
def isValue : Op → Bool
  | .const | .add | .sub | .mul | .div | .mod | .and | .or | .xor | .shl | .shr | .mulh | .mulw
  | .cmp | .neg | .bnot | .sqrt | .ext | .bswap | .clz | .ctz | .popcnt | .addr | .gaddr | .faddr
  | .straddr => true
  | _ => false

/-- A read of memory. -/
def isRead : Op → Bool
  | .ldvar | .load => true
  | _ => false

/-- What an instruction computes: the fields that `ir.h` gives its operation, and no others. -/
def meaning (i : Ins) : Ins :=
  match i.op with
  | .const => { op := i.op, imm := i.imm, w := i.w, flt := i.flt }
  | .add | .sub | .mul | .div | .mod | .and | .or | .xor | .shl | .shr =>
    if i.immB then { op := i.op, a := i.a, immB := true, imm := i.imm, w := i.w, sign := i.sign,
                     flt := i.flt }
    else { op := i.op, a := i.a, b := i.b, w := i.w, sign := i.sign, flt := i.flt }
  | .cmp =>
    if i.immB then { op := i.op, a := i.a, immB := true, imm := i.imm, w := i.w, sign := i.sign,
                     flt := i.flt, pred := i.pred }
    else { op := i.op, a := i.a, b := i.b, w := i.w, sign := i.sign, flt := i.flt, pred := i.pred }
  | .mulh | .mulw => { op := i.op, a := i.a, b := i.b, w := i.w, sign := i.sign, flt := i.flt }
  | .neg | .bnot | .sqrt => { op := i.op, a := i.a, w := i.w, flt := i.flt }
  | .ext => { op := i.op, a := i.a, w := i.w, size := i.size, sign := i.sign, flt := i.flt }
  | .bswap | .clz | .ctz | .popcnt =>
    { op := i.op, a := i.a, w := i.w, size := i.size, flt := i.flt }
  | .addr => { op := i.op, a := i.a }
  | .gaddr | .faddr => { op := i.op, sym := i.sym }
  | .straddr => { op := i.op, label := i.label }
  | .ldvar | .load =>
    { op := i.op, a := i.a, w := i.w, size := i.size, sign := i.sign, flt := i.flt, vol := i.vol,
      memoff := i.memoff }
  | _ => i

/-- An object of the C program. -/
inductive Obj
  | global (sym : ℕ)
  | slot (v : ℤ)
deriving DecidableEq, Repr

/-- The addresses of the `size` bytes from `v` on, at the pointer width. -/
def bytesAt (ptrw : ℕ) (v : Val) (size : ℕ) : Set ℕ :=
  {x | ∃ k < size, x = (v.toNat + k) % 2 ^ (8 * ptrw)}

/-- The bytes an access touches, where `bytes` are those of each object. -/
def footprint (ptrw : ℕ) (bytes : Obj → Set ℕ) (i : Ins) (vs : List Val) : Set ℕ :=
  match i.op, vs with
  | .ldvar, _ => bytes (.slot i.a)
  | .stvar, _ => bytes (.slot i.dst)
  | .load, v :: _ | .store, v :: _ => bytesAt ptrw (v + BitVec.ofInt 128 i.memoff) i.size
  | _, _ => Set.univ

/-- An environment with a memory. -/
structure Memory {W : Type} (ptrw : ℕ) (E : Env W) where
  get : W → ℕ → BitVec 8
  bytes : Obj → Set ℕ
  addr : Obj → Val
  apart : ∀ {r r' : Obj}, r ≠ r' → Disjoint (bytes r) (bytes r')
  sem_meaning : ∀ {i : Ins}, isValue i.op ∨ isRead i.op → E.sem i = E.sem (meaning i)
  /-- Computing changes nothing and needs nothing of the world. -/
  value : ∀ {i : Ins} {vs rs : List Val} {world world' : W}, isValue i.op →
    E.sem i vs world = .ok rs world' →
    ∃ r, rs = [r] ∧ ∀ world'', E.sem i vs world'' = .ok [r] world''
  gaddr : ∀ {i : Ins} {vs : List Val} {r : Val} {world world' : W}, i.op = .gaddr →
    E.sem i vs world = .ok [r] world' → r = addr (.global i.sym)
  slotAddr : ∀ {i : Ins} {vs : List Val} {r : Val} {world world' : W}, i.op = .addr →
    E.sem i vs world = .ok [r] world' → r = addr (.slot i.a)
  /-- A read changes nothing and depends on the bytes it reads. -/
  read : ∀ {i : Ins} {vs rs : List Val} {world world' : W}, isRead i.op → i.vol = false →
    E.sem i vs world = .ok rs world' →
    ∃ r, rs = [r] ∧ ∀ world'', (∀ x ∈ footprint ptrw bytes i vs, get world'' x = get world x) →
      E.sem i vs world'' = .ok [r] world''
  /-- A store writes the bytes it stores to. -/
  write : ∀ {i : Ins} {vs rs : List Val} {world world' : W}, i.op = .store ∨ i.op = .stvar →
    E.sem i vs world = .ok rs world' →
    ∀ x, x ∉ footprint ptrw bytes i vs → get world' x = get world x
  keep : ∀ {i : Ins} {vs rs : List Val} {world world' : W}, writesMemory i.op = false →
    E.sem i vs world = .ok rs world' → get world' = get world

@[simp] lemma meaning_op (i : Ins) : (meaning i).op = i.op := by
  unfold meaning
  split <;> try rfl
  all_goals split <;> rfl

lemma isCore_meaning (i : Ins) : isCore (meaning i) = isCore i := by
  unfold isCore
  rw [meaning_op]
  split
  · rfl
  · rfl
  all_goals
    rename_i hop
    simp only [meaning, hop]
    try split
    all_goals rfl

/-- The operations `fold_bin` evaluates. -/
def isBin : Op → Bool
  | .add | .sub | .mul | .div | .mod | .and | .or | .xor | .shl | .shr | .mulh | .mulw
  | .cmp => true
  | _ => false

variable {i : Ins} {vs : List Val}

lemma evalCore_imm (h : isBin i.op) (x : Val) :
    evalCore i [x] = (foldBin i.op (toLong x) i.imm i.w i.sign i.pred).map ofLong := by
  unfold evalCore
  split <;> simp_all [isBin]

lemma evalCore_bin (h : isBin i.op) (x y : Val) (vs : List Val) : evalCore i (x :: y :: vs) =
      (foldBin i.op (toLong x) (toLong y) i.w i.sign i.pred).map ofLong := by
  unfold evalCore
  split <;> simp_all [isBin]

lemma evalCore_meaning (hc : isCore i)
    (hlen : vs.length = (valueOpnds i).length) : evalCore (meaning i) vs = evalCore i vs := by
  by_cases hb : isBin i.op
  · have hb' : isBin (meaning i).op := meaning_op i ▸ hb
    have hfold : ∀ x y, foldBin (meaning i).op x y (meaning i).w (meaning i).sign (meaning i).pred =
        foldBin i.op x y i.w i.sign i.pred := by
      intro x y
      cases hi : i.immB <;> cases hop : i.op <;> first | simp [isBin] at hb; done | simp [meaning, hop, hi] <;> rfl
    rcases vs with _ | ⟨x, _ | ⟨y, vs⟩⟩
    · cases hi : i.immB <;> cases hop : i.op <;> simp_all [isBin, valueOpnds, eachRead]
    · have himm : (meaning i).imm = i.imm := by
        cases hi : i.immB <;> cases hop : i.op <;> simp_all [isBin, meaning, valueOpnds, eachRead]
      rw [evalCore_imm hb', evalCore_imm hb, hfold, himm]
    · rw [evalCore_bin hb', evalCore_bin hb, hfold]
  · cases hop : i.op
    case const => simp [evalCore, meaning, hop]
    case mov => simp [meaning, hop]
    case neg => cases vs <;> simp [evalCore, meaning, hop, foldBin]
    case bnot => cases vs <;> simp [evalCore, meaning, hop, foldBin]
    case ext => cases vs <;> simp [evalCore, meaning, hop]
    all_goals simp [isCore, isBin, hop] at hc hb

lemma valueOpnds_meaning (i : Ins) : valueOpnds (meaning i) = valueOpnds i := by
  unfold valueOpnds eachRead
  rw [meaning_op]
  cases hop : i.op <;> simp only [meaning, hop] <;> cases hb : i.immB <;> simp_all

section
variable {W : Type} {E : Env W} {ptrw : ℕ} {i j : Ins} {vs rs : List Val} {world world' : W}

lemma isValue_not_labeladdr (h : isValue i.op ∨ isRead i.op) : i.op ≠ .labeladdr := by
  intro hop
  simp [hop, isValue, isRead] at h

lemma effect_meaning (M : Memory ptrw E) (h : isValue i.op ∨ isRead i.op)
    (hlen : vs.length = (valueOpnds i).length) : effect E (meaning i) vs world = effect E i vs world := by
  have hop := isValue_not_labeladdr h
  rw [effect, effect, meaning_op, if_neg hop, if_neg hop, isCore_meaning]
  split_ifs with hc
  · rw [evalCore_meaning hc hlen]
  · rw [M.sem_meaning h]

lemma effect_value (M : Memory ptrw E) (h : isValue i.op) (he : effect E i vs world = .ok rs world') :
    ∃ r, rs = [r] ∧ ∀ world'', effect E i vs world'' = .ok [r] world'' := by
  have hop := isValue_not_labeladdr (.inl h)
  simp only [effect, if_neg hop] at he ⊢
  split_ifs at he with hc
  · split at he
    · rename_i v hv
      obtain ⟨rfl, rfl⟩ : [v] = rs ∧ world = world' := by simpa using he
      exact ⟨v, rfl, fun world'' => if_pos hc⟩
    · cases he
  · obtain ⟨r, rfl, hr⟩ := M.value h he
    exact ⟨r, rfl, fun world'' => by rw [if_neg hc, hr]⟩

lemma effect_sem (hc : isCore i = false) (hop : i.op ≠ .labeladdr) : effect E i vs world = E.sem i vs world := by
  rw [effect, if_neg hop, hc, if_neg (by simp)]

lemma isCore_of_isRead (h : isRead i.op) : isCore i = false := by
  cases hop : i.op <;> simp_all [isRead, isCore]

lemma effect_read (M : Memory ptrw E) (h : isRead i.op) (hvol : i.vol = false) (he : effect E i vs world = .ok rs world') :
    ∃ r, rs = [r] ∧ ∀ world'', (∀ x ∈ footprint ptrw M.bytes i vs, M.get world'' x = M.get world x) →
    effect E i vs world'' = .ok [r] world'' := by
  have hop := isValue_not_labeladdr (.inr h)
  rw [effect_sem (isCore_of_isRead h) hop] at he
  obtain ⟨r, rfl, hr⟩ := M.read h hvol he
  exact ⟨r, rfl, fun world'' hb => by
    rw [effect_sem (isCore_of_isRead h) hop]
    exact hr world'' hb⟩

lemma effect_store (h : i.op = .store ∨ i.op = .stvar) : effect E i vs world = E.sem i vs world := by
  rcases h with h | h <;> exact effect_sem (by simp [isCore, h]) (by simp [h])

lemma effect_keep (M : Memory ptrw E) (h : writesMemory i.op = false)
    (he : effect E i vs world = .ok rs world') : M.get world' = M.get world := by
  unfold effect at he
  split at he
  · obtain ⟨-, rfl⟩ : _ ∧ world = world' := by simpa using he
    rfl
  · split at he
    · split at he
      · obtain ⟨-, rfl⟩ : _ ∧ world = world' := by simpa using he
        rfl
      · cases he
    · exact M.keep h he

end
end EmbCC.Ir
