import Mathlib

/-!
# The trees of `tsearch`

`search.c` keeps its keys in an AVL tree. From the empty tree on, every call of
`tsearch`, `tfind` and `tdelete` answers as on a set of keys, and leaves a search
tree whose heights are right and balanced (`tree_runs`).

A node is known by its key. The order of two keys is the sign of what `cmp`
returns.
-/

namespace EmbCC.Libc.Tsearch
variable {α : Type*}

/-- `struct node`, or `NULL`. -/
inductive Node (α : Type*)
  | null
  | node (key : α) (l r : Node α) (h : ℕ)

namespace Node

def height : Node α → ℕ
  | null => 0
  | node _ _ _ h => h

/-- `fix`, of a node with this key and these children. -/
def fix (key : α) (l r : Node α) : Node α :=
  node key l r ((if l.height > r.height then l.height else r.height) + 1)

/-- `rotate(n, 0)`. -/
def rotateLeft : Node α → Node α
  | node k a (node k' b c _) _ => fix k' (fix k a b) c
  | n => n

/-- `rotate(n, 1)`. -/
def rotateRight : Node α → Node α
  | node k (node k' a b _) c _ => fix k' a (fix k b c)
  | n => n

def left : Node α → Node α
  | null => null
  | node _ l _ _ => l

def right : Node α → Node α
  | null => null
  | node _ _ r _ => r

/-- `rebalance`, of a node with this key and these children. -/
def rebalance (key : α) (l r : Node α) : Node α :=
  if l.height > r.height + 1 then
    rotateRight (fix key (if l.left.height < l.right.height then rotateLeft l else l) r)
  else if r.height > l.height + 1 then
    rotateLeft (fix key l (if r.right.height < r.left.height then rotateRight r else r))
  else fix key l r

variable (cmp : α → α → Ordering)

/-- `insert`, with what `*found` points to; `room` says whether there is memory for a node. -/
def insert (room : Bool) (key : α) : Node α → Node α × Option α
  | null => if room then (node key null null 1, some key) else (null, none)
  | node k l r h =>
    match cmp key k with
    | .eq => (node k l r h, some k)
    | .lt => (rebalance k (l.insert room key).1 r, (l.insert room key).2)
    | .gt => (rebalance k l (r.insert room key).1, (r.insert room key).2)

def tfind (key : α) : Node α → Option α
  | null => none
  | node k l r _ =>
    match cmp key k with
    | .eq => some k
    | .lt => l.tfind key
    | .gt => r.tfind key

/-- `pop_min`, of a node with this key and these children: the least key and the rest. -/
def popMin (k : α) : Node α → Node α → α × Node α
  | null, r => (k, r)
  | node k' l' r' _, r => ((popMin k' l' r').1, rebalance k (popMin k' l' r').2 r)

/-- The children of a deleted node, as one tree. -/
def merge : Node α → Node α → Node α
  | null, r => r
  | l, null => l
  | l, node k' l' r' _ => rebalance (popMin k' l' r').1 l (popMin k' l' r').2

/-- `del`; `some` is `*done`, with the key of `*parent`. -/
def del (key : α) (up : Option α) : Node α → Node α × Option (Option α)
  | null => (null, none)
  | node k l r h =>
    match cmp key k with
    | .eq => (merge l r, some up)
    | .lt =>
      let p := l.del key (some k)
      (if p.2.isSome then rebalance k p.1 r else node k p.1 r h, p.2)
    | .gt =>
      let p := r.del key (some k)
      (if p.2.isSome then rebalance k l p.1 else node k l p.1 h, p.2)

/-! ## Shape -/

/-- Every stored height is right, and the heights of two children differ by at most one. -/
def Avl : Node α → Prop
  | null => True
  | node _ l r h => h = max l.height r.height + 1 ∧ l.height ≤ r.height + 1 ∧
      r.height ≤ l.height + 1 ∧ l.Avl ∧ r.Avl

/-- The keys in order. -/
def keys : Node α → List α
  | null => []
  | node k l r _ => l.keys ++ k :: r.keys

variable {k : α} {l r : Node α}

@[simp] lemma keys_rotateLeft (n : Node α) : n.rotateLeft.keys = n.keys := by
  unfold rotateLeft
  split <;> simp [fix, keys]

@[simp] lemma keys_rotateRight (n : Node α) : n.rotateRight.keys = n.keys := by
  unfold rotateRight
  split <;> simp [fix, keys]

@[simp] lemma keys_rebalance : (rebalance k l r).keys = l.keys ++ k :: r.keys := by
  unfold rebalance
  split_ifs <;> simp [fix, keys]

/-- What `rebalance` makes of two trees whose heights differ by at most two. -/
lemma avl_rebalance (k : α) (hl : l.Avl) (hr : r.Avl) (hlr : l.height ≤ r.height + 2)
    (hrl : r.height ≤ l.height + 2) : (rebalance k l r).Avl ∧ (rebalance k l r).height ≤ max l.height r.height + 1 ∧
      max l.height r.height ≤ (rebalance k l r).height ∧
      (l.height ≤ r.height + 1 → r.height ≤ l.height + 1 → (rebalance k l r).height = max l.height r.height + 1) := by
  rw [rebalance]
  by_cases h : l.height > r.height + 1
  · rw [if_pos h]
    rcases l with _ | ⟨kl, a, _ | ⟨kb, c, d, hb⟩, hl'⟩
    · simp [height] at h
    all_goals grind [Avl, fix, height, rotateLeft, rotateRight, left, right]
  by_cases h' : r.height > l.height + 1
  · rw [if_pos h']
    rcases r with _ | ⟨kr, _ | ⟨ka, c, d, ha⟩, b, hr'⟩
    · simp [height] at h'
    all_goals grind [Avl, fix, height, rotateLeft, rotateRight, left, right]
  · rw [if_neg h']
    grind [Avl, fix, height]

/-- A balanced tree, lower than another by at most `a` and higher by at most `b`. -/
def Near (t : Node α) (a b : ℕ) (t' : Node α) : Prop :=
  t'.Avl ∧ t.height ≤ t'.height + a ∧ t'.height ≤ t.height + b

variable {cmp} {room : Bool} {key : α} {h : ℕ} {t : Node α}

lemma avl_insert (ht : t.Avl) : t.Near 0 1 (t.insert cmp room key).1 := by
  induction t with
  | null => cases room <;> simp [Near, insert, Avl, height]
  | node k l r h ihl ihr =>
    obtain ⟨rfl, hlr, hrl, hl, hr⟩ := ht
    obtain ⟨hl', hle, hlt⟩ := ihl hl
    obtain ⟨hr', hre, hrt⟩ := ihr hr
    rw [insert]
    split
    · exact ⟨⟨rfl, hlr, hrl, hl, hr⟩, le_rfl, Nat.le_succ _⟩
    · have := avl_rebalance k hl' hr (by omega) (by omega)
      grind [height, Near]
    · have := avl_rebalance k hl hr' (by omega) (by omega)
      grind [height, Near]

lemma avl_popMin (ht : (node k l r h).Avl) : (node k l r h).Near 1 0 (popMin k l r).2 := by
  induction l generalizing k r h with
  | null => grind [popMin, Avl, height, Near]
  | node k' l' r' h' ih =>
    obtain ⟨rfl, hlr, hrl, hl, hr⟩ := ht
    obtain ⟨hp, hle, hge⟩ := ih hl
    have := avl_rebalance k hp hr (by grind [height]) (by grind [height])
    grind [popMin, height, Near]

lemma avl_merge (ht : (node k l r h).Avl) : (node k l r h).Near 1 0 (merge l r) := by
  obtain ⟨rfl, hlr, hrl, hl, hr⟩ := ht
  unfold merge
  split
  · grind [height, Near]
  · grind [height, Near]
  · next k' l' r' h' _ =>
    obtain ⟨hp, hle, hge⟩ := avl_popMin hr
    have := avl_rebalance (popMin k' l' r').1 hl hp (by grind [height]) (by grind [height])
    grind [height, Near]

lemma avl_del {up : Option α} (ht : t.Avl) : t.Near 1 0 (t.del cmp key up).1 ∧
    ((t.del cmp key up).2 = none → (t.del cmp key up).1 = t) := by
  induction t generalizing up with
  | null => simp [del, Avl, height, Near]
  | node k l r h ihl ihr =>
    have hmerge := avl_merge ht
    obtain ⟨rfl, hlr, hrl, hl, hr⟩ := id ht
    obtain ⟨⟨hl', hle, hlt⟩, hln⟩ := @ihl (some k) hl
    obtain ⟨⟨hr', hre, hrt⟩, hrn⟩ := @ihr (some k) hr
    rw [del]
    split
    · exact ⟨hmerge, by simp⟩
    · have := avl_rebalance k hl' hr (by omega) (by omega)
      rcases hd : (l.del cmp key (some k)).2 with _ | u
      · simp [hd, hln hd, Near, ht]
      · grind [height, Near]
    · have := avl_rebalance k hl hr' (by omega) (by omega)
      rcases hd : (r.del cmp key (some k)).2 with _ | u
      · simp [hd, hrn hd, Near, ht]
      · grind [height, Near]

/-- The least number of keys at a height is a Fibonacci number. -/
lemma fib_height_le (ht : t.Avl) : (t.height + 2).fib ≤ t.keys.length + 1 := by
  induction t with
  | null => exact le_rfl
  | node k l r h ihl ihr =>
    obtain ⟨rfl, hlr, hrl, hl, hr⟩ := ht
    have hfib (n : ℕ) : (n + 3).fib = (n + 1).fib + (n + 2).fib := Nat.fib_add_two
    have hmono := Nat.fib_mono (show max l.height r.height + 1 ≤ min l.height r.height + 2 by omega)
    rcases le_total l.height r.height with h | h <;> grind [height, keys]

/-! ## Keys -/

open Std List

lemma keys_popMin : (popMin k l r).1 :: (popMin k l r).2.keys = l.keys ++ k :: r.keys := by
  induction l generalizing k r with
  | null => rfl
  | node k' l' r' h ih => simp [popMin, keys, ← ih]

lemma keys_merge : (merge l r).keys = l.keys ++ r.keys := by
  unfold merge
  split <;> simp [keys, keys_popMin]

variable (cmp) in
/-- The keys of a search tree are in order. -/
def Sorted (ks : List α) : Prop := ks.Pairwise fun a b => cmp a b = .lt

variable (cmp key) in
/-- The key of a set that is equal to a key, if there is one. -/
def Looks (M : Set α) (mid : Option α) : Prop :=
  (∀ x ∈ mid, x ∈ M ∧ cmp key x = .eq) ∧ (mid = none → ∀ x ∈ M, cmp key x ≠ .eq)

def keySet (t : Node α) : Set α := {x | x ∈ t.keys}

variable [TransCmp cmp]

lemma sorted_middle {L R : List α} : Sorted cmp (L ++ k :: R) ↔ Sorted cmp L ∧ Sorted cmp R ∧
    (∀ x ∈ L, cmp x k = .lt) ∧ ∀ y ∈ R, cmp k y = .lt := by
  have htrans : ∀ x y, cmp x k = .lt → cmp k y = .lt → cmp x y = .lt := fun _ _ => TransCmp.lt_trans
  simp only [Sorted, pairwise_append, pairwise_cons, mem_cons]
  grind

variable (cmp) in
lemma cmp_laws : (∀ x y z, cmp x y = .lt → cmp y z = .lt → cmp x z = .lt) ∧ (∀ x y, cmp x y = .gt ↔ cmp y x = .lt)
    ∧ (∀ x y, cmp x y = .eq → cmp y x = .eq) ∧ (∀ x, cmp x x = .eq) ∧ ∀ x y z, cmp x y = .eq → cmp x z = cmp y z :=
  ⟨fun _ _ _ => TransCmp.lt_trans, fun _ _ => OrientedCmp.gt_iff_lt, fun _ _ => OrientedCmp.eq_symm,
    fun _ => ReflCmp.compare_self, fun _ _ _ => TransCmp.congr_left⟩

lemma tfind_looks (hs : Sorted cmp t.keys) : Looks cmp key t.keySet (t.tfind cmp key) := by
  obtain ⟨htrans, hsymm, -⟩ := cmp_laws cmp
  induction t with
  | null => simp [Looks, keySet, keys, tfind]
  | node k l r h ihl ihr =>
    obtain ⟨hl, hr, hL, hR⟩ := sorted_middle.1 hs
    grind [Looks, keySet, keys, tfind]

lemma insert_keys (hs : Sorted cmp t.keys) : Sorted cmp (t.insert cmp room key).1.keys ∧
    (t.insert cmp room key).2 = (t.tfind cmp key).or (if room then some key else none) ∧
    (∀ x ∈ (t.insert cmp room key).2, cmp key x = .eq) ∧
    ∀ x, x ∈ (t.insert cmp room key).1.keys ↔ x ∈ t.keys ∨ x ∈ (t.insert cmp room key).2 := by
  obtain ⟨htrans, hsymm, hrev, hself, hcongr⟩ := cmp_laws cmp
  induction t with
  | null => cases room <;> simp [insert, keys, Sorted, tfind, hself, eq_comm]
  | node k l r h ihl ihr =>
    obtain ⟨hl, hr, hL, hR⟩ := sorted_middle.1 hs
    grind [insert, tfind, keys, keys_rebalance, sorted_middle]

lemma del_keys {up : Option α} (hs : Sorted cmp t.keys) : Sorted cmp (t.del cmp key up).1.keys ∧
    (t.del cmp key up).2.isSome = (t.tfind cmp key).isSome ∧
    ∀ x, x ∈ (t.del cmp key up).1.keys ↔ x ∈ t.keys ∧ cmp key x ≠ .eq := by
  obtain ⟨htrans, hsymm, hrev, -, hcongr⟩ := cmp_laws cmp
  induction t generalizing up with
  | null => simp [del, keys, tfind, Sorted]
  | node k l r h ihl ihr =>
    obtain ⟨hl, hr, hL, hR⟩ := sorted_middle.1 hs
    have hlr : Sorted cmp (l.keys ++ r.keys) := hs.sublist (by simp [keys])
    grind [del, tfind, keys, keys_rebalance, keys_merge, sorted_middle]

end Node

/-! ## Calls -/

open Node

/-- A call; `room` says whether there is memory for a node. -/
inductive Call (α : Type*)
  | tsearch (room : Bool) (key : α)
  | tfind (key : α)
  | tdelete (key : α)

variable (cmp : α → α → Ordering)

/-- The answer of a call and the tree after it. `tdelete` answers with the parent of the node, or
`some none`, the address of the root. -/
def Call.apply : Call α → Node α → Option (Option α) × Node α
  | .tsearch room key, t => ((t.insert cmp room key).2.map some, (t.insert cmp room key).1)
  | .tfind key, t => ((t.tfind cmp key).map some, t)
  | .tdelete key, t => ((t.del cmp key none).2, (t.del cmp key none).1)

/-- What a call answers on a set of keys, where `mid` is the one equal to its key, and the set
after it. -/
def Call.OnSet (M : Set α) (ans : Option (Option α)) (M' : Set α) : Call α → Prop
  | .tsearch room key => ∃ mid, Looks cmp key M mid ∧ ∃ found,
      found = mid.or (if room then some key else none) ∧ ans = found.map some ∧
        M' = M ∪ {x | x ∈ found}
  | .tfind key => ∃ mid, Looks cmp key M mid ∧ ans = mid.map some ∧ M' = M
  | .tdelete key => ∃ mid, Looks cmp key M mid ∧ ans.isSome = mid.isSome ∧
      M' = {x ∈ M | cmp key x ≠ .eq}

/-- A search tree, balanced and with right heights. -/
def Good (t : Node α) : Prop := t.Avl ∧ Sorted cmp t.keys

/-- The tree after a sequence of calls. -/
def tree (calls : List (Call α)) : Node α :=
  calls.foldl (fun t c => (c.apply cmp t).2) null

variable {cmp} [Std.TransCmp cmp]

lemma Good.apply {t : Node α} (ht : Good cmp t) (c : Call α) : Good cmp (c.apply cmp t).2 ∧
    c.OnSet cmp t.keySet (c.apply cmp t).1 (c.apply cmp t).2.keySet := by
  obtain ⟨havl, hs⟩ := ht
  cases c with
  | tsearch room key =>
    obtain ⟨hs', hf, -, hmem⟩ := @insert_keys _ _ room key t _ hs
    exact ⟨⟨(avl_insert havl).1, hs'⟩, _, tfind_looks hs, _, hf, rfl, Set.ext hmem⟩
  | tfind key => exact ⟨⟨havl, hs⟩, _, tfind_looks hs, rfl, rfl⟩
  | tdelete key =>
    obtain ⟨hs', hd, hmem⟩ := @del_keys _ _ key t _ none hs
    exact ⟨⟨(avl_del havl).1.1, hs'⟩, _, tfind_looks hs, hd, Set.ext hmem⟩

lemma good_tree (calls : List (Call α)) : Good cmp (tree cmp calls) :=
  List.foldlRecOn calls _ ⟨trivial, .nil⟩ fun _ h c _ => (Good.apply h c).1

/-- After any sequence of calls the tree is a balanced search tree with right heights, and the
next call answers as on the set of its keys. -/
theorem tree_runs (calls : List (Call α)) : Good cmp (tree cmp calls) ∧ ∀ c : Call α,
    c.OnSet cmp (tree cmp calls).keySet (c.apply cmp (tree cmp calls)).1
      (tree cmp (calls ++ [c])).keySet := by
  refine ⟨good_tree calls, fun c => ?_⟩
  have hnext : tree cmp (calls ++ [c]) = (c.apply cmp (tree cmp calls)).2 := List.foldl_concat ..
  rw [hnext]
  exact ((good_tree calls).apply c).2

/-- After any sequence of calls the height of the tree, and so the keys a call compares, are logarithmic in
the number of keys. -/
theorem tree_height_le (calls : List (Call α)) : ((tree cmp calls).height + 2).fib ≤ (tree cmp calls).keys.length + 1 :=
  fib_height_le (good_tree calls).1

/-- Insertions that rotate once and twice, one without memory, a search, and a deletion at the root. -/
def mixed : List (Call ℕ) :=
  [.tsearch true 3, .tsearch true 1, .tsearch true 2, .tsearch true 4, .tsearch true 5, .tsearch true 6,
    .tsearch false 9, .tfind 4, .tdelete 4]

theorem tree_height_le_mixed : (tree compare mixed).height = 3 ∧
    ((tree compare mixed).height + 2).fib ≤ (tree compare mixed).keys.length + 1 :=
  ⟨by decide, tree_height_le mixed⟩

theorem tree_runs_mixed : (tree compare mixed).keys = [1, 2, 3, 5, 6] ∧ Good compare (tree compare mixed) ∧
    ∀ c : Call ℕ, c.OnSet compare (tree compare mixed).keySet (c.apply compare (tree compare mixed)).1
      (tree compare (mixed ++ [c])).keySet :=
  ⟨by decide, tree_runs mixed⟩

end EmbCC.Libc.Tsearch
