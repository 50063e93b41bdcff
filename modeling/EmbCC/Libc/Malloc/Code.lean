import EmbCC.Lib.Words

/-!
# malloc

`malloc.c` for a 64-bit target: first fit over an explicit free list, on a heap
grown with `sbrk`. Blocks lie in a byte memory, a 32-byte header in front of
each payload: `size` with the free flag in its low bit, and the neighbours in
address order. The links of the free list stand in the payload of free blocks.
Pointers and sizes are numbers below `2 ^ 64`, and `size_t` arithmetic wraps.
`ALIGN` is 16 and `HDR`, which is `ALIGN_UP(sizeof(struct blk))`, is 32.

What the operating system answers to `sbrk` is a parameter. The lock is not
modelled: each call runs alone. A walk over the free list that never comes to
its end is `none`.
-/

namespace EmbCC.Libc

open Words

/-- A sum of `size_t`s. -/
def u64 (x : ℕ) : ℕ := x % 2 ^ 64

/-- A difference of `size_t`s. -/
def sub64 (a b : ℕ) : ℕ := (a + 2 ^ 64 - b) % 2 ^ 64

/-- The expression `x & ~m`. -/
def andNot (x m : ℕ) : ℕ := x &&& (2 ^ 64 - (m + 1))

def alignUp (n : ℕ) : ℕ := andNot (u64 (n + 15)) 15

/-- The conversion of a `size_t` to `long`. -/
def toLong (x : ℕ) : ℤ := if x < 2 ^ 63 then x else x - 2 ^ 64

/-- The fields of `struct blk`, and those of the `struct fnode` in the payload. -/
inductive Field
  | size | prev | next | fprev | fnext
deriving DecidableEq

/-- Where a field stands in a block. -/
def Field.off : Field → ℕ
  | .size => 0
  | .prev => 8
  | .next => 16
  | .fprev => 32
  | .fnext => 40

/-- The values of `errno` that are set. -/
inductive Errno
  | enomem | einval
deriving DecidableEq, Repr

/-- The memory, `g_head`, `g_tail`, `g_free`, `errno` and the operating system. -/
structure Heap (W : Type) where
  mem : Mem
  head : ℕ := 0
  tail : ℕ := 0
  free : ℕ := 0
  errno : Option Errno := none
  os : W

namespace Heap
variable {W : Type}

def get (h : Heap W) (b : ℕ) (f : Field) : ℕ := readLE h.mem (b + f.off) 8

def set (h : Heap W) (b : ℕ) (f : Field) (v : ℕ) : Heap W :=
  { h with mem := writeLE h.mem (b + f.off) 8 v }

def bsize (h : Heap W) (b : ℕ) : ℕ := andNot (h.get b .size) 1

def bfree (h : Heap W) (b : ℕ) : Bool := h.get b .size &&& 1 != 0

def setBlk (h : Heap W) (b n : ℕ) (free : Bool) : Heap W :=
  h.set b .size (n ||| if free then 1 else 0)

/-- The `if (b) b->prev = v; else g_tail = v;` of every splice. -/
def setPrev (h : Heap W) (b v : ℕ) : Heap W :=
  if b ≠ 0 then h.set b .prev v else { h with tail := v }

/-- The same for `next` and `g_head`. -/
def setNext (h : Heap W) (b v : ℕ) : Heap W :=
  if b ≠ 0 then h.set b .next v else { h with head := v }

/-- The same for `fnext` and `g_free`. -/
def setFnext (h : Heap W) (b v : ℕ) : Heap W :=
  if b ≠ 0 then h.set b .fnext v else { h with free := v }

/-- The free list has no tail to keep: `if (b) FN(b)->fprev = v;`. -/
def setFprev (h : Heap W) (b v : ℕ) : Heap W :=
  if b ≠ 0 then h.set b .fprev v else h

def flistPush (h : Heap W) (b : ℕ) : Heap W :=
  let h := h.set b .fprev 0
  let h := h.set b .fnext h.free
  let h := h.setFprev h.free b
  { h with free := b }

def flistRemove (h : Heap W) (b : ℕ) : Heap W :=
  let pv := h.get b .fprev
  let nx := h.get b .fnext
  let h := h.setFnext pv nx
  h.setFprev nx pv

def abuts (h : Heap W) (b n : ℕ) : Bool := n != 0 && u64 (b + 32 + h.bsize b) == n

/-- A new block `nb` put behind `b` in address order, in `split` and `do_aligned_alloc`. -/
def insertAfter (h : Heap W) (b nb : ℕ) : Heap W :=
  let h := h.set nb .prev b
  let h := h.set nb .next (h.get b .next)
  let h := h.setPrev (h.get b .next) nb
  h.set b .next nb

/-- `b` takes in the block `nx` behind it, in `do_free` (twice) and `do_realloc`. -/
def absorb (h : Heap W) (b nx : ℕ) (free : Bool) : Heap W :=
  let h := h.setBlk b (u64 (h.bsize b + 32 + h.bsize nx)) free
  let h := h.set b .next (h.get nx .next)
  h.setPrev (h.get nx .next) b

/-- `grow`, once the break has moved: the new block, joined to the last one or put on the free
list. -/
def growAt (h : Heap W) (b chunk : ℕ) : Heap W × ℕ :=
  let h := h.setBlk b (sub64 chunk 32) true
  let h := h.set b .prev h.tail
  let h := h.set b .next 0
  let h := h.setNext h.tail b
  let h := { h with tail := b }
  let t := h.get b .prev
  if t ≠ 0 ∧ h.bfree t ∧ h.abuts t b then
    let h := h.setBlk t (u64 (h.bsize t + 32 + h.bsize b)) true
    let h := h.set t .next (h.get b .next)
    ({ h with tail := t }, t)
  else (h.flistPush b, b)

/-- `__os_sbrk`; `none` is `(void *)-1`. -/
def osSbrk (sbrk : W → ℤ → Option ℕ × W) (h : Heap W) (increment : ℕ) : Option ℕ × Heap W :=
  let r := sbrk h.os (toLong increment)
  (r.1, { h with os := r.2 })

def grow (sbrk : W → ℤ → Option ℕ × W) (h : Heap W) (need : ℕ) : Heap W × ℕ :=
  let least := alignUp (u64 (need + 32))
  let chunk := if least < 64 * 1024 then 64 * 1024 else least
  match osSbrk sbrk h chunk with
  | (some b, h) => h.growAt b chunk
  | (none, h) =>
    -- the break will not move a whole chunk: ask for just what is needed
    if least < chunk then
      match osSbrk sbrk h least with
      | (some b, h) => h.growAt b least
      | (none, h) => ({ h with errno := some .enomem }, 0)
    else ({ h with errno := some .enomem }, 0)

def split (h : Heap W) (b want : ℕ) : Heap W :=
  if h.bsize b < u64 (want + 32 + 16) then h
  else
    let rest := u64 (b + 32 + want)
    let h := h.setBlk rest (sub64 (sub64 (h.bsize b) want) 32) true
    let h := h.insertAfter b rest
    let h := h.setBlk b want (h.bfree b)
    h.flistPush rest

/-- A free block taken off the free list and cut to size. -/
def take (h : Heap W) (b want : ℕ) : Heap W × ℕ :=
  let h := h.flistRemove b
  let h := h.setBlk b (h.bsize b) false
  (h.split b want, u64 (b + 32))

/-- The walk of `do_malloc` over the free list: the first block that is large enough, or null. -/
def firstFit (h : Heap W) (want : ℕ) : ℕ → ℕ → Option ℕ
  | 0, _ => none
  | k + 1, b =>
    if b = 0 then some 0
    else if h.bsize b ≥ want then some b
    else firstFit h want k (h.get b .fnext)

/-- `do_malloc`. A walk with more turns than there are addresses never ends. -/
def doMalloc (sbrk : W → ℤ → Option ℕ × W) (h : Heap W) (n : ℕ) : Option (Heap W × ℕ) :=
  let n := if n = 0 then 1 else n
  let want := alignUp n
  if want < n then some ({ h with errno := some .enomem }, 0)
  else (h.firstFit want (2 ^ 64) h.free).map fun b =>
    if b ≠ 0 then h.take b want
    else
      let (h, b) := h.grow sbrk want
      if b = 0 then (h, 0) else h.take b want

def doFree (h : Heap W) (p : ℕ) : Heap W :=
  if p = 0 then h
  else
    let b := sub64 p 32
    let h := h.setBlk b (h.bsize b) true
    let h := h.flistPush b
    let nx := h.get b .next
    let h := if nx ≠ 0 ∧ h.bfree nx ∧ h.abuts b nx then (h.flistRemove nx).absorb b nx true else h
    let pv := h.get b .prev
    if pv ≠ 0 ∧ h.bfree pv ∧ h.abuts pv b then (h.flistRemove b).absorb pv b true else h

def memcpy (h : Heap W) (q p n : ℕ) : Heap W :=
  { h with mem := fun x => if q ≤ x ∧ x < q + n then h.mem (p + (x - q)) else h.mem x }

def doRealloc (sbrk : W → ℤ → Option ℕ × W) (h : Heap W) (p n : ℕ) : Option (Heap W × ℕ) :=
  if p = 0 then h.doMalloc sbrk n
  else if n = 0 then some (h.doFree p, 0)
  else
    let b := sub64 p 32
    let want := alignUp n
    if want < n then some ({ h with errno := some .enomem }, 0)
    else if h.bsize b ≥ want then some (h.split b want, p)
    else
      let nx := h.get b .next
      if nx ≠ 0 ∧ h.bfree nx ∧ h.abuts b nx ∧ u64 (h.bsize b + 32 + h.bsize nx) ≥ want then
        some (((h.flistRemove nx).absorb b nx false).split b want, p)
      else
        let had := h.bsize b
        (h.doMalloc sbrk n).map fun (h, q) =>
          if q = 0 then (h, 0) else ((h.memcpy q p (if had < n then had else n)).doFree p, q)

/-- The `while` of `do_aligned_alloc`: the next aligned address until the fragment in front of it
can be a block. -/
def stepPast (align raw : ℕ) : ℕ → ℕ → Option ℕ
  | 0, _ => none
  | k + 1, a => if sub64 a raw < 32 + 16 then stepPast align raw k (u64 (a + align)) else some a

def doAlignedAlloc (sbrk : W → ℤ → Option ℕ × W) (h : Heap W) (align n : ℕ) :
    Option (Heap W × ℕ) :=
  if align ≤ 16 then h.doMalloc sbrk n
  else if align &&& (align - 1) ≠ 0 then some ({ h with errno := some .einval }, 0)
  else
    let want := alignUp n
    (h.doMalloc sbrk (u64 (want + align + 32))).bind fun (h, raw) =>
      if raw = 0 then some (h, 0)
      else
        let b := sub64 raw 32
        let a := andNot (u64 (raw + align - 1)) (align - 1)
        if a = raw then some (h, raw)
        else (stepPast align raw (2 ^ 64) a).map fun a =>
          let nb := sub64 a 32
          let lead := sub64 nb b
          let h := h.setBlk nb (sub64 (h.bsize b) lead) false
          let h := h.insertAfter b nb
          let h := h.setBlk b (sub64 lead 32) true
          (h.flistPush b, a)

end Heap
end EmbCC.Libc
