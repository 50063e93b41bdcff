import EmbCC.Lib.Bits

/-!
# The zlib writer

`dwarf_zlib` of `dwarf.c`, which compresses a debug section for `-gz`: one
deflate block with the fixed Huffman codes. Matches are looked up through a hash
of three bytes, chained back over a window of 32768 bytes. `acc` never holds more
than 20 bits. The output buffer is only appended to, so the writer is modelled as
the bytes that it gives to `db_u8` one after the other (`zlibBytes`), and the buffer
that takes them has the `int` length and capacity of the source.
-/

namespace EmbCC.Debug

/-! ## The buffer -/

/-- `struct dbuf`: its `len` bytes and its capacity. -/
structure Dbuf where
  p : List (BitVec 8) := []
  cap : ℤ := 0

/-- The `while` of `db_need`. The capacity wraps as an `int`, and once it is 0 the loop does not end:
32 turns lead there. -/
def doubled (need : ℤ) : ℕ → ℤ → Option ℤ
  | 0, _ => none
  | k + 1, cap => if need > cap then doubled need k (Int.bmod (cap * 2) (2 ^ 32)) else some cap

/-- `db_need`: the capacity after it. -/
def dbNeed (len n cap : ℤ) : Option ℤ :=
  if len + n > cap then
    doubled (len + n) 33 (if cap ≠ 0 then Int.bmod (cap * 2) (2 ^ 32) else 64)
  else some cap

def Dbuf.dbU8 (b : Dbuf) (v : BitVec 8) : Option Dbuf :=
  (dbNeed b.p.length 1 b.cap).map fun cap => ⟨b.p ++ [v], cap⟩

/-! ## The writer -/

/-- `struct zbits`: the bytes given to `db_u8`, and the `n` bits not yet a byte. -/
structure Zbits where
  b : List (BitVec 8) := []
  acc : ℕ := 0
  n : ℕ := 0

namespace Zbits

def dbU8 (z : Zbits) (v : ℕ) : Zbits := { z with b := z.b ++ [BitVec.ofNat 8 v] }

/-- The `while` of `zput`: whole bytes leave the accumulator. -/
def flush : ℕ → Zbits → Zbits
  | 0, z => z
  | k + 1, z =>
    if 8 ≤ z.n then
      let z := z.dbU8 (z.acc &&& 0xff)
      flush k { z with acc := z.acc >>> 8, n := z.n - 8 }
    else z

/-- `zput`: `n` bits, the least significant first. -/
def zput (z : Zbits) (v n : ℕ) : Zbits :=
  flush (z.n + n) { z with acc := z.acc ||| v <<< z.n, n := z.n + n }

/-- The loop of `zput_rev`. -/
def reversed (v n : ℕ) : ℕ :=
  (List.range n).foldl (fun r k => r ||| (v >>> k &&& 1) <<< (n - 1 - k)) 0

/-- `zput_rev`: a Huffman code. -/
def zputRev (z : Zbits) (v n : ℕ) : Zbits := z.zput (reversed v n) n

/-- `zlit`: a symbol in `0..287`. -/
def zlit (z : Zbits) (c : ℕ) : Zbits :=
  if c < 144 then z.zputRev (0x30 + c) 8
  else if c < 256 then z.zputRev (0x190 + (c - 144)) 9
  else if c < 280 then z.zputRev (c - 256) 7
  else z.zputRev (0xc0 + (c - 280)) 8

end Zbits

def zLbase : List ℕ :=
  [3, 4, 5, 6, 7, 8, 9, 10, 11, 13, 15, 17, 19, 23, 27, 31, 35, 43, 51, 59,
   67, 83, 99, 115, 131, 163, 195, 227, 258]

def zLext : List ℕ :=
  [0, 0, 0, 0, 0, 0, 0, 0, 1, 1, 1, 1, 2, 2, 2, 2, 3, 3, 3, 3, 4, 4, 4, 4,
   5, 5, 5, 5, 0]

def zDbase : List ℕ :=
  [1, 2, 3, 4, 5, 7, 9, 13, 17, 25, 33, 49, 65, 97, 129, 193, 257, 385, 513,
   769, 1025, 1537, 2049, 3073, 4097, 6145, 8193, 12289, 16385, 24577]

def zDext : List ℕ :=
  [0, 0, 0, 0, 1, 1, 2, 2, 3, 3, 4, 4, 5, 5, 6, 6, 7, 7, 8, 8, 9, 9, 10, 10,
   11, 11, 12, 12, 13, 13]

/-- The loops that find `lc` and `dc`: from `c` on, while the next base is not above `v`; `k` more
codes follow. -/
def findCode (base : List ℕ) (v : ℕ) : ℕ → ℕ → ℕ
  | 0, c => c
  | k + 1, c => if base.getD (c + 1) 0 ≤ v then findCode base v k (c + 1) else c

/-- `lc`. -/
def lcode (best : ℕ) : ℕ := findCode zLbase best 28 0

/-- `dc`. -/
def dcode (dist : ℕ) : ℕ := findCode zDbase dist 29 0

/-- The code of a match. -/
def Zbits.zmatch (z : Zbits) (best dist : ℕ) : Zbits :=
  let lc := lcode best
  let z := z.zlit (257 + lc)
  let z := z.zput (best - zLbase.getD lc 0) (zLext.getD lc 0)
  let dc := dcode dist
  let z := z.zputRev dc 5
  z.zput (dist - zDbase.getD dc 0) (zDext.getD dc 0)

/-- `head` and `prev`; `none` is -1, and an entry of `prev` that was never written. -/
structure Chains where
  head : ℕ → Option ℕ := fun _ => none
  prev : ℕ → Option ℕ := fun _ => none

section
variable (p : List (BitVec 8))

def zhash (i : ℕ) : ℕ :=
  ((p.getD i 0).toNat <<< 10 ^^^ (p.getD (i + 1) 0).toNat <<< 5 ^^^ (p.getD (i + 2) 0).toNat)
    &&& (1 <<< 15 - 1)

/-- How far the bytes at `c` and at `i` agree, `l` bytes and at most `k` more. -/
def matchLen (c i : ℕ) : ℕ → ℕ → ℕ
  | 0, l => l
  | k + 1, l => if p.getD (c + l) 0 = p.getD (i + l) 0 then matchLen c i k (l + 1) else l

/-- `max`: a match ends with the section, and after 258 bytes. -/
def maxLen (i : ℕ) : ℕ := if p.length - i < 258 then p.length - i else 258

/-- The walk down one chain: the longest match and its distance. -/
def walkChain (prev : ℕ → Option ℕ) (i : ℕ) : ℕ → Option ℕ → ℕ → ℕ → ℕ × ℕ
  | k + 1, some c, best, dist =>
    if i - c ≤ 32768 then
      let l := matchLen p c i (maxLen p i) 0
      if l > best then
        if l = maxLen p i then (l, i - c) else walkChain prev i k (prev c) l (i - c)
      else walkChain prev i k (prev c) best dist
    else (best, dist)
  | _, _, best, dist => (best, dist)

/-- The match taken at `i`. -/
def findMatch (ch : Chains) (i : ℕ) : ℕ × ℕ :=
  if i + 2 < p.length then walkChain p ch.prev i 64 (ch.head (zhash p i)) 0 0 else (0, 0)

/-- The position `i` put in front of its chain. -/
def enter (ch : Chains) (i : ℕ) : Chains :=
  if i + 2 < p.length then
    let h := zhash p i
    { prev := Function.update ch.prev i (ch.head h), head := Function.update ch.head h (some i) }
  else ch

/-- The main loop from position `i` on, for at most `k` matches and literals. -/
def compress : ℕ → ℕ → Chains → Zbits → Zbits
  | 0, _, _, z => z
  | k + 1, i, ch, z =>
    if i < p.length then
      let (best, dist) := findMatch p ch i
      let adv := if best ≥ 3 then best else 1
      let z := if best ≥ 3 then z.zmatch best dist else z.zlit (p.getD i 0).toNat
      let ch := (List.range' i adv).foldl (enter p) ch
      compress k (i + adv) ch z
    else z

/-- The two sums of Adler-32, `a` and `b`. -/
def adler : ℕ × ℕ :=
  p.foldl (fun (a, b) c => ((a + c.toNat) % 65521, (b + (a + c.toNat) % 65521) % 65521)) (1, 0)

/-- The bytes of `dwarf_zlib`, in the order in which it writes them. -/
def zlibBytes : List (BitVec 8) :=
  let z : Zbits := {}
  let z := z.dbU8 0x78
  let z := z.dbU8 0x9c
  let z := z.zput 1 1
  let z := z.zput 1 2
  let z := compress p p.length 0 {} z
  let z := z.zlit 256
  let z := if z.n ≠ 0 then z.zput 0 (8 - z.n) else z
  let (a, b) := adler p
  let ad := b <<< 16 ||| a
  let z := [3, 2, 1, 0].foldl (fun z k => z.dbU8 (ad >>> (8 * k) &&& 0xff)) z
  z.b

/-- `dwarf_zlib`. The test `i + 2 < n` is made at every position, the last of which is `n - 1`, so for
`n = INT_MAX` it overflows. -/
def dwarfZlib : Option (List (BitVec 8)) :=
  if p.length + 1 < 2 ^ 31 then ((zlibBytes p).foldlM Dbuf.dbU8 {}).map Dbuf.p else none

end
end EmbCC.Debug
