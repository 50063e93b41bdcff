import EmbCC.Ir.Memory

/-!
# Memory, byte by byte

What a pass that deletes stores assumes beyond `Memory`: which bytes an instruction could read
(`reads`), and that it does the same in two worlds that agree on those bytes, in every byte that
it changes (`Bytewise`).

A call of a function that is known to touch no memory of its caller (`quiet`) still reads
something: an argument that is a struct is given as its address, and its bytes are copied when the
call is made.
-/

namespace EmbCC.Ir

/-- The bytes of the arguments that are passed by value from memory. -/
def structBytes (ptrw : ℕ) (i : Ins) (vs : List Val) : Set ℕ :=
  {x | ∃ (k : ℕ) (v : Val) (a : ArgAbi), vs[k]? = some v ∧ i.abi.args[k]? = some a ∧
    a.isStruct = true ∧ x ∈ bytesAt ptrw v a.size}

/-- The bytes an instruction could read. What follows a return could read any. -/
def reads (ptrw : ℕ) (bytes : Obj → Set ℕ) (quiet : Ins → Bool) (i : Ins) (vs : List Val) :
    Set ℕ :=
  match i.op with
  | .load | .ldvar => footprint ptrw bytes i vs
  | .memcpy =>
    match vs with
    | [_, v] => bytesAt ptrw v i.size
    | _ => Set.univ
  | .call => if quiet i then structBytes ptrw i vs else Set.univ
  | .asm | .vaStart | .fence | .xchg | .xadd | .cmpxchg | .armw | .cas | .cas16 | .vload | .ret
  | .ud2 => Set.univ
  | _ => ∅

/-- The bytes a store stores to; `part` are those of a frame slot that an access of a size
reaches. -/
def stored (ptrw : ℕ) (part : ℤ → ℕ → Set ℕ) (i : Ins) (vs : List Val) : Set ℕ :=
  match i.op, vs with
  | .store, v :: _ => bytesAt ptrw (v + BitVec.ofInt 128 i.memoff) i.size
  | .stvar, _ => part i.dst i.size
  | _, _ => ∅

/-- The worlds after one instruction in two worlds: what is not bytes is the same, and a byte is the
same unless neither changed it. -/
def SameChange {W R : Type} (get : W → ℕ → BitVec 8) (rest : W → R) (w w' w₁ w₁' : W) : Prop :=
  rest w₁' = rest w₁ ∧ ∀ x, get w₁' x = get w₁ x ∨ get w₁ x = get w x ∧ get w₁' x = get w' x

/-- The effects of one instruction in two worlds. -/
def SameEffect {W R : Type} (get : W → ℕ → BitVec 8) (rest : W → R) (w w' : W) :
    Effect W → Effect W → Prop
  | .ok rs w₁, .ok rs' w₁' => rs' = rs ∧ SameChange get rest w w' w₁ w₁'
  | .throw w₁, .throw w₁' => SameChange get rest w w' w₁ w₁'
  | .fault, .fault => True
  | _, _ => False

/-- A memory whose instructions read the bytes they could read and no others. -/
structure Bytewise {W : Type} {E : Env W} {ptrw : ℕ} (M : Memory ptrw E) (quiet : Ins → Bool)
    (R : Type) where
  rest : W → R
  part : ℤ → ℕ → Set ℕ
  part_subset : ∀ v n, part v n ⊆ M.bytes (.slot v)
  ext : ∀ {w w' : W}, M.get w' = M.get w → rest w' = rest w → w' = w
  alike : ∀ {i : Ins} {vs : List Val} {w w' : W}, rest w' = rest w →
    (∀ x ∈ reads ptrw M.bytes quiet i vs, M.get w' x = M.get w x) →
    SameEffect M.get rest w w' (E.sem i vs w) (E.sem i vs w')
  /-- A store changes the bytes it stores to, and nothing else. -/
  store : ∀ {i : Ins} {vs rs : List Val} {w w₁ : W}, i.op = .store ∨ i.op = .stvar →
    i.vol = false → E.sem i vs w = .ok rs w₁ →
    rest w₁ = rest w ∧ ∀ x, x ∉ stored ptrw part i vs → M.get w₁ x = M.get w x
  /-- What it leaves there is what it stores. -/
  replaced : ∀ {i : Ins} {vs rs rs' : List Val} {w w' w₁ w₁' : W}, i.op = .store ∨ i.op = .stvar →
    i.vol = false → E.sem i vs w = .ok rs w₁ → E.sem i vs w' = .ok rs' w₁' →
    ∀ x ∈ stored ptrw part i vs, M.get w₁' x = M.get w₁ x
  /-- An instruction that throws could have read anything. -/
  throws : ∀ {i : Ins} {vs : List Val} {w w₁ : W}, E.sem i vs w = .throw w₁ →
    reads ptrw M.bytes quiet i vs = Set.univ

section
variable {W : Type} {E : Env W} {ptrw : ℕ} {M : Memory ptrw E} {quiet : Ins → Bool} {R : Type}
  {i : Ins} {vs rs rs' : List Val} {w w' w₁ w₁' : W}

lemma sameChange_refl (get : W → ℕ → BitVec 8) {rest : W → R} (h : rest w' = rest w) :
    SameChange get rest w w' w w' := ⟨h, fun _ => .inr ⟨rfl, rfl⟩⟩

variable (B : Bytewise M quiet R)

lemma Bytewise.effect_alike (hr : B.rest w' = B.rest w) (h : ∀ x ∈ reads ptrw M.bytes quiet i vs, M.get w' x = M.get w x) :
    SameEffect M.get B.rest w w' (effect E i vs w) (effect E i vs w') := by
  unfold effect
  split
  · exact ⟨rfl, sameChange_refl M.get hr⟩
  · split
    · cases evalCore i vs with
      | some v => exact ⟨rfl, sameChange_refl M.get hr⟩
      | none => trivial
    · exact B.alike hr h

include B in
lemma Bytewise.effect_throws (h : effect E i vs w = .throw w₁) : reads ptrw M.bytes quiet i vs = Set.univ := by
  unfold effect at h
  split at h
  · cases h
  · split at h
    · split at h <;> cases h
    · exact B.throws h

end
end EmbCC.Ir
