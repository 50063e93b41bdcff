import EmbCC.Lib.Reciprocal
import Mathlib.Data.Nat.Bitwise

/-!
# Magic numbers

The searches of `divmagic.c` for a multiplier and a shift that divide a 32-bit
number by a constant. Each doubles `2 ^ p / nc` and `2 ^ p / d` bit by bit until
the multiplier's excess is small enough.

`magicU32_spec` and `magicS32_spec` say that the numbers found divide every
dividend. The unsigned search always ends; the signed one does for a divisor of 32
bits, and for a longer one it never does (`searchS_never`), but for `2 ^ 31 + 1`.
-/

namespace EmbCC.Opt.DivMagic

open Int Nat Reciprocal

/-! ## The searches -/

/-- An `unsigned long`, of 64 bits. -/
def ulong (z : ℤ) : ℕ := (z % 2 ^ 64).toNat

/-- The variables of the two searches. -/
structure Search where
  p : ℕ
  q1 : ℕ
  r1 : ℕ
  q2 : ℕ
  r2 : ℕ
  delta : ℕ := 0
  add : Bool := false

/-- The part of the condition that both loops have. -/
def Search.again (x : Search) : Bool := x.q1 < x.delta || (x.q1 == x.delta && x.r1 == 0)

/-- `do x = body(x); while (go(x));`, or `none` if that takes more than `k` turns. -/
def doWhile (body : Search → Search) (go : Search → Bool) : ℕ → Search → Option Search
  | 0, _ => none
  | k + 1, x =>
    let x := body x
    if go x then doWhile body go k x else some x

/-- The body of the loop of `magic_u32`. -/
def stepU (d nc : ℕ) (x : Search) : Search :=
  let (q1, r1) :=
    if x.r1 ≥ ulong (nc - x.r1) then (ulong (2 * x.q1 + 1), ulong (2 * x.r1 - nc))
    else (ulong (2 * x.q1), ulong (2 * x.r1))
  let (add, q2, r2) :=
    if ulong (x.r2 + 1) ≥ ulong (d - x.r2) then
      (x.add || x.q2 ≥ 0x7FFFFFFF, ulong (2 * x.q2 + 1), ulong (2 * x.r2 + 1 - d))
    else (x.add || x.q2 ≥ 0x80000000, ulong (2 * x.q2), ulong (2 * x.r2 + 1))
  { p := x.p + 1, q1, r1, q2, r2, delta := ulong (d - 1 - r2), add }

/-- `struct magicu`. -/
structure Magicu where
  m : ℕ
  add : Bool
  s : ℕ
deriving DecidableEq, Repr

/-- The loop of `magic_u32`, which its own counter ends after 33 turns. -/
def searchU (d : ℕ) : Option Search :=
  let nc := ulong (0xFFFFFFFF - (ulong (0xFFFFFFFF - d + 1) % d : ℕ))
  let q1 := 0x80000000 / nc
  let r1 := ulong (0x80000000 - q1 * nc)
  let q2 := 0x7FFFFFFF / d
  let r2 := ulong (0x7FFFFFFF - q2 * d)
  doWhile (stepU d nc) (fun x => decide (x.p < 64) && x.again) 33 { p := 31, q1, r1, q2, r2 }

def magicU32 (d : ℕ) : Option Magicu :=
  (searchU d).map fun x => { m := (x.q2 + 1) &&& 0xFFFFFFFF, add := x.add, s := x.p - 32 }

/-- The body of the loop of `magic_s32`. -/
def stepS (ad anc : ℕ) (x : Search) : Search :=
  let q1 := ulong (2 * x.q1)
  let r1 := ulong (2 * x.r1)
  let (q1, r1) := if r1 ≥ anc then (ulong (q1 + 1), ulong (r1 - anc)) else (q1, r1)
  let q2 := ulong (2 * x.q2)
  let r2 := ulong (2 * x.r2)
  let (q2, r2) := if r2 ≥ ad then (ulong (q2 + 1), ulong (r2 - ad)) else (q2, r2)
  { x with p := x.p + 1, q1, r1, q2, r2, delta := ulong (ad - r2) }

/-- `struct magics`. -/
structure Magics where
  m : ℤ
  s : ℕ
deriving DecidableEq, Repr

/-- The loop of `magic_s32`, for `k` turns at most. -/
def searchS (k : ℕ) (d : ℤ) : Option Search :=
  let ad := ulong (if d < 0 then -d else d)
  let t := 0x80000000 + (d / 2 ^ 31 % 2).toNat
  let anc := ulong (t - 1 - (t % ad : ℕ))
  let q1 := 0x80000000 / anc
  let r1 := ulong (0x80000000 - q1 * anc)
  let q2 := 0x80000000 / ad
  let r2 := ulong (0x80000000 - q2 * ad)
  doWhile (stepS ad anc) Search.again k { p := 31, q1, r1, q2, r2 }

/-- `magic_s32`; `(long)(int)v` is `Int.bmod v (2 ^ 32)`. Its loop has no bound of its own: one that
takes more than 32 turns does not end, which is `none`. -/
def magicS32 (d : ℤ) : Option Magics :=
  (searchS 32 d).map fun x =>
    let m := Int.bmod (x.q2 + 1) (2 ^ 32)
    { m := if d < 0 then -m else m, s := x.p - 32 }

/-! ## What the loops keep -/

/-- An invariant of the body that ends the loop at `n` says where the loop ended, and that it did not
end before. -/
lemma doWhile_spec {body : Search → Search} {go : Search → Bool} {Inv : ℕ → Search → Prop} {n : ℕ}
    (hbody : ∀ p x, p < n → Inv p x → Inv (p + 1) (body x)) (hend : ∀ y, Inv n y → go y = false)
    {k p : ℕ} {x : Search} (hx : Inv p x) (hp : p < n) (hk : n ≤ p + k) :
    ∃ q y, doWhile body go k x = some y ∧ p < q ∧ q ≤ n ∧ Inv q y ∧ go y = false ∧
      ∀ r, p < r → r < q → ∃ y, Inv r y ∧ go y = true := by
  induction k generalizing p x with
  | zero => omega
  | succ k ih =>
    have hstep := hbody p x hp hx
    rw [doWhile]
    split_ifs with hgo
    · have hne : p + 1 ≠ n := by
        rintro rfl
        simp [hend _ hstep] at hgo
      obtain ⟨q, y, hy, hlt, hle, hinv, hstop, hlast⟩ := ih hstep (by omega) (by omega)
      refine ⟨q, y, hy, by omega, hle, hinv, hstop, fun r h1 h2 => ?_⟩
      rcases (succ_le_of_lt h1).eq_or_lt with rfl | hr
      · exact ⟨body x, hstep, hgo⟩
      · exact hlast r hr h2
    · exact ⟨p + 1, body x, rfl, by omega, by omega, hstep, by simpa using hgo, fun r h1 h2 => by omega⟩

/-- A loop whose body leads back to where the condition holds does not end. -/
lemma doWhile_never {body : Search → Search} {go : Search → Bool} {Inv : Search → Prop}
    (hbody : ∀ x, Inv x → Inv (body x) ∧ go (body x) = true) {x : Search} (hx : Inv x) (k : ℕ) :
    doWhile body go k x = none := by
  induction k generalizing x with
  | zero => rfl
  | succ k ih =>
    obtain ⟨hinv, hgo⟩ := hbody x hx
    rw [doWhile, if_pos hgo, ih hinv]

/-- The excess of the multiplier `(2 ^ p - b) / d + 1`. -/
def excess (b d p : ℕ) : ℕ := d - b - (2 ^ p - b) % d

/-- The variables at the power `p`; `b` is 1 in the unsigned search. -/
structure Tracks (b d nc p : ℕ) (x : Search) : Prop where
  p_eq : x.p = p
  q1 : x.q1 = 2 ^ p / nc
  r1 : x.r1 = 2 ^ p % nc
  q2 : x.q2 = (2 ^ p - b) / d
  r2 : x.r2 = (2 ^ p - b) % d
  delta : 31 < p → x.delta = excess b d p
  add : x.add = true ↔ b = 1 ∧ 2 ^ 32 ≤ x.q2 + 1

section
variable {b d nc p : ℕ} {x : Search}

lemma again_iff (hx : Tracks b d nc p x) (hnc : 0 < nc) (hp : 31 < p) : x.again = true ↔ 2 ^ p ≤ nc * excess b d p := by
  have hdiv := div_add_mod (2 ^ p) nc
  have hmod := mod_lt (2 ^ p) hnc
  simp only [Search.again, hx.q1, hx.r1, hx.delta hp, Bool.or_eq_true, Bool.and_eq_true, decide_eq_true_eq, beq_iff_eq]
  generalize 2 ^ p / nc = q at *
  generalize 2 ^ p % nc = r at *
  generalize excess b d p = δ
  rw [← hdiv]
  constructor
  · rintro (hlt | ⟨rfl, rfl⟩)
    · calc nc * q + r ≤ nc * q + nc := by omega
        _ = nc * (q + 1) := by ring
        _ ≤ nc * δ := Nat.mul_le_mul_left nc hlt
    · omega
  · intro hle
    have hq : q ≤ δ := Nat.le_of_mul_le_mul_left (by omega) hnc
    rcases hq.lt_or_eq with hlt | rfl
    · exact .inl hlt
    · exact .inr ⟨rfl, by omega⟩

lemma mul_excess (hd : 0 < d) (hb : b ≤ 1) (p : ℕ) : ((2 ^ p - b) / d + 1) * d = 2 ^ p + excess b d p := by
  have hpow := Nat.two_pow_pos p
  have hdiv := div_add_mod (2 ^ p - b) d
  have hmod := mod_lt (2 ^ p - b) hd
  rw [excess, Nat.add_mul, Nat.mul_comm _ d, Nat.one_mul]
  omega

lemma tracks_init (hb : b ≤ 1) (hd : 0 < d) (nc : ℕ) : Tracks b d nc 31
      { p := 31, q1 := 2 ^ 31 / nc, r1 := 2 ^ 31 - 2 ^ 31 / nc * nc,
        q2 := (2 ^ 31 - b) / d, r2 := 2 ^ 31 - b - (2 ^ 31 - b) / d * d } := by
  have h1 := div_add_mod' (2 ^ 31) nc
  have h3 := div_add_mod' (2 ^ 31 - b) d
  have hq : (2 ^ 31 - b) / d ≤ (2 ^ 31 - b) / 1 := div_le_div_left (by omega) (by omega)
  refine ⟨rfl, rfl, by dsimp only; omega, rfl, by dsimp only; omega, fun h => by omega, ?_⟩
  simp only [Bool.false_eq_true, false_iff]
  omega

lemma stepU_first (hr : x.r1 < nc) (hnc : nc ≤ 2 ^ 63) (hq : x.q1 < 2 ^ 63) :
    (stepU d nc x).q1 = 2 * x.q1 + (if nc ≤ 2 * x.r1 + 0 then 1 else 0) ∧
      (stepU d nc x).r1 = 2 * x.r1 + 0 - if nc ≤ 2 * x.r1 + 0 then nc else 0 := by
  have hcond : x.r1 ≥ ulong (nc - x.r1) ↔ nc ≤ 2 * x.r1 + 0 := by
    rw [ulong]
    omega
  simp only [stepU, hcond]
  by_cases h : nc ≤ 2 * x.r1 + 0
  · simp only [if_pos h, ulong]
    omega
  · simp only [if_neg h, ulong]
    omega

lemma stepU_second (hr : x.r2 < d) (hd : d ≤ 2 ^ 63) (hq : x.q2 < 2 ^ 63) :
    (stepU d nc x).q2 = 2 * x.q2 + (if d ≤ 2 * x.r2 + 1 then 1 else 0) ∧
      (stepU d nc x).r2 = 2 * x.r2 + 1 - (if d ≤ 2 * x.r2 + 1 then d else 0) ∧
      ((stepU d nc x).add = true ↔ x.add = true ∨ 2 ^ 32 ≤ (stepU d nc x).q2 + 1) := by
  have hcond : ulong (x.r2 + 1) ≥ ulong (d - x.r2) ↔ d ≤ 2 * x.r2 + 1 := by
    rw [ulong, ulong]
    omega
  simp only [stepU, hcond]
  by_cases h : d ≤ 2 * x.r2 + 1
  · simp only [if_pos h, ulong, Bool.or_eq_true, decide_eq_true_eq]
    refine ⟨by omega, by omega, or_congr_right (by omega)⟩
  · simp only [if_neg h, ulong, Bool.or_eq_true, decide_eq_true_eq]
    refine ⟨by omega, by omega, or_congr_right (by omega)⟩

/-- Doubling in the signed search is the same for both quotients. -/
lemma double_ulong {q r n : ℕ} (hr : r < n) (hn : n ≤ 2 ^ 63) (hq : q < 2 ^ 63) :
    (if ulong (2 * r) ≥ n then (ulong (ulong (2 * q) + 1), ulong (ulong (2 * r) - n))
        else (ulong (2 * q), ulong (2 * r))) =
      (2 * q + (if n ≤ 2 * r + 0 then 1 else 0), 2 * r + 0 - if n ≤ 2 * r + 0 then n else 0) := by
  have hcond : ulong (2 * r) ≥ n ↔ n ≤ 2 * r + 0 := by
    rw [ulong]
    omega
  simp only [hcond]
  split_ifs <;> simp only [Prod.mk.injEq, ulong] <;> omega

lemma stepS_first (hr : x.r1 < nc) (hnc : nc ≤ 2 ^ 63) (hq : x.q1 < 2 ^ 63) :
    (stepS d nc x).q1 = 2 * x.q1 + (if nc ≤ 2 * x.r1 + 0 then 1 else 0) ∧
      (stepS d nc x).r1 = 2 * x.r1 + 0 - if nc ≤ 2 * x.r1 + 0 then nc else 0 := by
  simp only [stepS, double_ulong hr hnc hq, and_self]

lemma stepS_second (hr : x.r2 < d) (hd : d ≤ 2 ^ 63) (hq : x.q2 < 2 ^ 63) :
    (stepS d nc x).q2 = 2 * x.q2 + (if d ≤ 2 * x.r2 + 0 then 1 else 0) ∧
      (stepS d nc x).r2 = 2 * x.r2 + 0 - if d ≤ 2 * x.r2 + 0 then d else 0 := by
  simp only [stepS, double_ulong hr hd hq, and_self]

/-- Up to `2 ^ 63` no quotient is too long to be doubled. -/
lemma Tracks.lt (hx : Tracks b d nc p x) (hd : 0 < d) (hnc : 2 ≤ nc) (hp : p ≤ 63) (hb : b = 1 ∨ p < 63) :
    x.q1 < 2 ^ 63 ∧ x.q2 < 2 ^ 63 ∧ x.r1 < nc ∧ x.r2 < d := by
  have hpow : 2 ^ p ≤ 2 ^ 63 := Nat.pow_le_pow_right (by norm_num) hp
  have hpos := Nat.two_pow_pos p
  refine ⟨?_, ?_, ?_, ?_⟩
  · rw [hx.q1]
    exact (Nat.div_lt_self hpos hnc).trans_le hpow
  · rw [hx.q2]
    refine (Nat.div_le_self _ _).trans_lt ?_
    rcases hb with rfl | hlt
    · omega
    · exact (Nat.sub_le _ _).trans_lt (Nat.pow_lt_pow_right (by norm_num) hlt)
  · rw [hx.r1]
    exact mod_lt _ (by omega)
  · rw [hx.r2]
    exact mod_lt _ hd

/-- A turn of the unsigned search goes to the next power of two. -/
lemma tracks_stepU (hd : 0 < d) (hd' : d ≤ 2 ^ 63) (hnc : 2 ≤ nc) (hnc' : nc ≤ 2 ^ 63) (hp : p ≤ 63)
    (hx : Tracks 1 d nc p x) : Tracks 1 d nc (p + 1) (stepU d nc x) := by
  have hpow := Nat.two_pow_pos p
  obtain ⟨hq1, hq2, hr1, hr2⟩ := hx.lt hd hnc hp (.inl rfl)
  have h1 := @double_div nc (by omega) (2 ^ p) 0 (by omega)
  have h2 := @double_div d hd (2 ^ p - 1) 1 le_rfl
  rw [show 2 * 2 ^ p + 0 = 2 ^ (p + 1) by ring, ← hx.q1, ← hx.r1] at h1
  rw [show 2 * (2 ^ p - 1) + 1 = 2 ^ (p + 1) - 1 by rw [Nat.pow_succ]; omega, ← hx.q2, ← hx.r2] at h2
  obtain ⟨hq1, hr1⟩ := @stepU_first d _ _ hr1 hnc' hq1
  obtain ⟨hq2, hr2, hadd⟩ := @stepU_second _ nc _ hr2 hd' hq2
  rw [← h1.1] at hq1
  rw [← h1.2] at hr1
  rw [← h2.2] at hr2
  refine ⟨by simp [stepU, hx.p_eq], hq1, hr1, by rw [hq2, h2.1], hr2, fun _ => ?_, ?_⟩
  · rw [excess, ← hr2]
    have : (stepU d nc x).delta = ulong (d - 1 - (stepU d nc x).r2) := rfl
    have hlt : (stepU d nc x).r2 < d := hr2 ▸ mod_lt _ hd
    rw [this, ulong]
    omega
  · -- the flag stays set, and so does what it says: the quotient only grows
    rw [hadd, hx.add, hq2]
    omega

/-- A turn of the signed search goes to the next power of two. -/
lemma tracks_stepS (hd : 0 < d) (hd' : d ≤ 2 ^ 63) (hnc : 2 ≤ nc) (hnc' : nc ≤ 2 ^ 63) (hp : p < 63)
    (hx : Tracks 0 d nc p x) : Tracks 0 d nc (p + 1) (stepS d nc x) := by
  obtain ⟨hq1, hq2, hr1, hr2⟩ := hx.lt hd hnc hp.le (.inr hp)
  have h1 := @double_div nc (by omega) (2 ^ p) 0 (by omega)
  have h2 := @double_div d hd (2 ^ p - 0) 0 (by omega)
  rw [show 2 * 2 ^ p + 0 = 2 ^ (p + 1) by ring, ← hx.q1, ← hx.r1] at h1
  rw [show 2 * (2 ^ p - 0) + 0 = 2 ^ (p + 1) - 0 by rw [Nat.pow_succ]; omega, ← hx.q2, ← hx.r2] at h2
  obtain ⟨hq1, hr1⟩ := @stepS_first d _ _ hr1 hnc' hq1
  obtain ⟨hq2, hr2⟩ := @stepS_second _ nc _ hr2 hd' hq2
  rw [← h1.1] at hq1
  rw [← h1.2] at hr1
  rw [← h2.1] at hq2
  rw [← h2.2] at hr2
  refine ⟨by simp [stepS, hx.p_eq], hq1, hr1, hq2, hr2, fun _ => ?_, ?_⟩
  · rw [excess, ← hr2]
    have : (stepS d nc x).delta = ulong (d - (stepS d nc x).r2) := rfl
    have hlt : (stepS d nc x).r2 < d := hr2 ▸ mod_lt _ hd
    rw [this, ulong]
    omega
  · have := hx.add
    simp only [Nat.zero_ne_one, false_and] at this ⊢
    exact this

end

/-! ## What the searches find -/

/-- What the unsigned search finds: `m`, which may have 33 bits, and the shift. -/
structure UnsignedMagic (d : ℕ) (mg : Magicu) (m : ℕ) : Prop where
  m_eq : m = mg.m + if mg.add then 2 ^ 32 else 0
  m_lt : mg.m < 2 ^ 32
  s_le : mg.s ≤ if mg.add then 32 else 31
  s_pos : mg.add = true → 1 ≤ mg.s
  div : ∀ x < 2 ^ 32, x * m / 2 ^ (32 + mg.s) = x / d

lemma ulong_sub {a b : ℕ} (h : b ≤ a) (ha : a < 2 ^ 64) : ulong (a - b) = a - b := by
  rw [ulong]
  omega

lemma ulong_sub_div (d : ℕ) {a : ℕ} (ha : a < 2 ^ 64) : ulong (a - (a / d : ℕ) * d) = a - a / d * d := by
  rw [← ulong_sub (Nat.div_mul_le_self a d) ha]
  push_cast
  rfl

/-- The unsigned search starts at `2 ^ 31`. -/
lemma searchU_eq {d nc : ℕ} (hd0 : 0 < d) (hd : d < 2 ^ 32) (hnc : nc = 0xFFFFFFFF - (0xFFFFFFFF - d + 1) % d) :
    searchU d = doWhile (stepU d nc) (fun x => decide (x.p < 64) && x.again) 33
      { p := 31, q1 := 2 ^ 31 / nc, r1 := 2 ^ 31 - 2 ^ 31 / nc * nc,
        q2 := (2 ^ 31 - 1) / d, r2 := 2 ^ 31 - 1 - (2 ^ 31 - 1) / d * d } := by
  have h1 : ulong (0xFFFFFFFF - d + 1) = 0xFFFFFFFF - d + 1 := by
    rw [ulong]
    omega
  have h2 : ulong (0xFFFFFFFF - ((0xFFFFFFFF - d + 1) % d : ℕ)) = nc := by
    have := mod_lt (0xFFFFFFFF - d + 1) hd0
    rw [ulong, hnc]
    omega
  have h3 := ulong_sub_div nc (show 0x80000000 < 2 ^ 64 by norm_num)
  have h4 := ulong_sub_div d (show 0x7FFFFFFF < 2 ^ 64 by norm_num)
  simp only [searchU, h1, h2]
  push_cast at h3 h4 ⊢
  rw [h3, h4]

/-- The unsigned search ends and finds a multiplier for every dividend. -/
lemma magicU32_spec {d : ℕ} (h2 : 2 ≤ d) (hd : d < 2 ^ 32) :
    ∃ mg m, magicU32 d = some mg ∧ UnsignedMagic d mg m := by
  have hd0 : 0 < d := by omega
  -- `nc` is the largest dividend with remainder `d - 1`
  obtain ⟨nc, hnc_def⟩ : ∃ nc, nc = 0xFFFFFFFF - (0xFFFFFFFF - d + 1) % d := ⟨_, rfl⟩
  have hmod : (0xFFFFFFFF - d + 1) % d = 2 ^ 32 % d := by
    rw [show 0xFFFFFFFF - d + 1 = 2 ^ 32 - d by omega, ← mod_eq_sub_mod hd.le]
  have hmod_lt := mod_lt (2 ^ 32) hd0
  have hmod_le : (0xFFFFFFFF - d + 1) % d ≤ 0xFFFFFFFF - d + 1 := Nat.mod_le _ _
  have hnc : nc + 1 = 2 ^ 32 - 2 ^ 32 % d := by omega
  have hdvd : d ∣ nc + 1 := hnc ▸ dvd_sub_mod (2 ^ 32)
  have hnc2 : 2 ≤ nc := by omega
  have hnc0 : 0 < nc := by omega
  obtain ⟨q, x, hsearch, hlow, hhigh, hx, hstop, hlast⟩ :=
    @doWhile_spec (stepU d nc) (fun x => decide (x.p < 64) && x.again) (Tracks 1 d nc) 64
      (fun _ _ hp => tracks_stepU hd0 (by omega) hnc2 (by omega) (by omega)) (fun y hy => by simp [hy.p_eq])
      33 31 _ (tracks_init le_rfl hd0 nc) (by norm_num) (by norm_num)
  rw [← searchU_eq hd0 hd hnc_def] at hsearch
  have hmagic : magicU32 d = some ⟨(x.q2 + 1) &&& 0xFFFFFFFF, x.add, x.p - 32⟩ := by
    rw [magicU32, hsearch]
    rfl
  have hexc : ∀ p, excess 1 d p < d := fun p => by rw [excess]; omega
  have hbound : nc * excess 1 d q < 2 ^ q := by
    rcases hhigh.lt_or_eq with hlt | rfl
    · rw [hx.p_eq, decide_eq_true hlt, Bool.true_and, ← Bool.not_eq_true, again_iff hx hnc0 hlow] at hstop
      omega
    · calc nc * excess 1 d 64 < 2 ^ 32 * 2 ^ 32 := Nat.mul_lt_mul'' (by omega) ((hexc 64).trans hd)
        _ = 2 ^ 64 := by norm_num
  have hm := mul_excess hd0 le_rfl q
  rw [← hx.q2] at hm
  -- the search did not stop one power earlier, so the multiplier has at most 33 bits
  have hm33 : x.q2 + 1 < 2 ^ 33 := by
    refine Nat.lt_of_mul_lt_mul_right (a := d) ?_
    rcases (succ_le_of_lt hlow).eq_or_lt with rfl | hlt
    · have := hexc (Nat.succ 31)
      omega
    · obtain ⟨y, hy, hgo⟩ := hlast (q - 1) (by omega) (by omega)
      rw [Bool.and_eq_true, again_iff hy hnc0 (by omega)] at hgo
      have hpow : 2 ^ (q - 33) < d := by
        refine Nat.lt_of_mul_lt_mul_left (a := 2 ^ 32) ?_
        calc 2 ^ 32 * 2 ^ (q - 33) = 2 ^ (q - 1) := by rw [← pow_add]; congr 1; omega
          _ ≤ nc * excess 1 d (q - 1) := hgo.2
          _ < 2 ^ 32 * d := Nat.mul_lt_mul'' (by omega) (hexc _)
      have hsplit : 2 ^ q = 2 ^ 33 * 2 ^ (q - 33) := by rw [← pow_add]; congr 1; omega
      have := hexc q
      omega
  have hmm : (x.q2 + 1) &&& 0xFFFFFFFF = (x.q2 + 1) % 2 ^ 32 := and_two_pow_sub_one_eq_mod (x.q2 + 1) 32
  have hadd : x.add = true ↔ 2 ^ 32 ≤ x.q2 + 1 := by
    rw [hx.add]
    simp
  refine ⟨_, x.q2 + 1, hmagic, ?_⟩
  rw [hmm, hx.p_eq]
  refine ⟨?_, mod_lt _ (by norm_num), ?_, fun h => ?_, fun z hz => ?_⟩
  · dsimp only
    split_ifs with h
    · rw [hadd] at h
      omega
    · rw [hadd] at h
      omega
  · dsimp only
    split_ifs with h
    · omega
    · rw [hadd] at h
      have hlt : 2 ^ q < 2 ^ 64 := by
        calc 2 ^ q ≤ (x.q2 + 1) * d := by omega
          _ < 2 ^ 32 * 2 ^ 32 := Nat.mul_lt_mul'' (by omega) hd
          _ = 2 ^ 64 := by norm_num
      have := (Nat.pow_lt_pow_iff_right (by norm_num : 1 < 2)).1 hlt
      omega
  · dsimp only at h ⊢
    rw [hadd] at h
    have hlt : 2 ^ 32 < 2 ^ q := by
      have hle : 2 ^ 32 * d ≤ (x.q2 + 1) * d := Nat.mul_le_mul_right d h
      have := hexc q
      omega
    have := (Nat.pow_lt_pow_iff_right (by norm_num : 1 < 2)).1 hlt
    omega
  · dsimp only
    rw [show 32 + (q - 32) = q by omega]
    exact mul_div_eq hm (excess_lt hd0 hdvd hbound (by omega))

/-- What the signed search finds, for a divisor of either sign: `z * m / 2 ^ (32 + s)` is the
quotient by `|D|` rounded down, one too low for a negative `z`. -/
structure SignedMagic (D : ℤ) (mg : Magics) (m : ℕ) : Prop where
  m_lt : m < 2 ^ 32
  m_eq : mg.m = if D < 0 then -Int.bmod m (2 ^ 32) else Int.bmod m (2 ^ 32)
  s_le : mg.s ≤ 30
  div : ∀ z : ℤ, -2 ^ 31 ≤ z → z ≤ 2 ^ 31 → (0 ≤ D → z < 2 ^ 31) →
    z * m / 2 ^ (32 + mg.s) + (if z * m / 2 ^ (32 + mg.s) < 0 then 1 else 0) = z.tdiv D.natAbs

lemma div_of_excess {ad m p e : ℕ} (hm : m * ad = 2 ^ p + e) (he : 0 < e) {z : ℤ}
    (hpos : 0 ≤ z → z.natAbs % ad * 2 ^ p + z.natAbs * e < ad * 2 ^ p)
    (hneg : z < 0 → z.natAbs % ad * 2 ^ p + z.natAbs * e ≤ ad * 2 ^ p) :
    z * m / 2 ^ p + (if z * m / 2 ^ p < 0 then 1 else 0) = z.tdiv ad := by
  rcases le_or_gt 0 z with h0 | h0
  · obtain ⟨x, rfl⟩ := eq_ofNat_of_zero_le h0
    have hx : x % ad * 2 ^ p + x * e < ad * 2 ^ p := hpos h0
    have hdiv : (x : ℤ) * m / 2 ^ p = (x / ad : ℕ) := by
      rw [← mul_div_eq hm hx]
      rfl
    rw [hdiv, if_neg (Int.not_lt.2 (natCast_nonneg _)), add_zero, ofNat_tdiv]
  · obtain ⟨y, rfl⟩ : ∃ y : ℕ, z = -y := ⟨z.natAbs, by omega⟩
    have hy := hneg h0
    rw [natAbs_neg, natAbs_natCast] at hy
    have hdiv : (-(y : ℤ)) * m / 2 ^ p = -(y / ad : ℕ) - 1 := by
      rw [← neg_mul_ediv hm (by omega) he hy]
      push_cast
      ring_nf
    rw [hdiv, if_pos (by linarith), Int.neg_tdiv, ofNat_tdiv]
    ring

lemma excess_first {ad : ℕ} (h3 : 3 ≤ ad) (h : 2 ^ 31 % ad = ad - 1) : excess 0 ad 32 = 2 := by
  have h2 := (@double_div ad (by omega) (2 ^ 31) 0 (by omega)).2
  rw [h, show 2 * 2 ^ 31 + 0 = 2 ^ 32 - 0 by norm_num, if_pos (by omega)] at h2
  rw [excess, h2]
  omega

/-- The signed search starts at `2 ^ 31`. -/
lemma searchS_eq {D : ℤ} {t ad anc : ℕ} (had : D.natAbs = ad) (had' : ad < 2 ^ 64)
    (ht : 0x80000000 + (D / 2 ^ 31 % 2).toNat = t) (hanc : ulong (t - 1 - (t % ad : ℕ)) = anc) (k : ℕ) :
    searchS k D = doWhile (stepS ad anc) Search.again k
      { p := 31, q1 := 2 ^ 31 / anc, r1 := 2 ^ 31 - 2 ^ 31 / anc * anc,
        q2 := (2 ^ 31 - 0) / ad, r2 := 2 ^ 31 - 0 - (2 ^ 31 - 0) / ad * ad } := by
  have h1 : ulong (if D < 0 then -D else D) = ad := by
    rw [ulong]
    split_ifs <;> omega
  have h2 := ulong_sub_div anc (show 0x80000000 < 2 ^ 64 by norm_num)
  have h3 := ulong_sub_div ad (show 0x80000000 < 2 ^ 64 by norm_num)
  simp only [searchS, h1, ht, hanc]
  push_cast at h2 h3 ⊢
  rw [h2, h3]

/-- The signed search ends for a divisor of 32 bits and finds a multiplier for every dividend. -/
lemma magicS32_spec {D : ℤ} (h2 : 2 ≤ D.natAbs) (hlow : -2 ^ 31 ≤ D) (hhigh : D < 2 ^ 31) :
    ∃ mg m, magicS32 D = some mg ∧ SignedMagic D mg m := by
  obtain ⟨ad, had⟩ : ∃ ad, D.natAbs = ad := ⟨_, rfl⟩
  have had0 : 0 < ad := by omega
  have hadle : ad ≤ 2 ^ 31 := by omega
  obtain ⟨t, ht_def⟩ : ∃ t, 0x80000000 + (D / 2 ^ 31 % 2).toNat = t := ⟨_, rfl⟩
  have ht : t = 2 ^ 31 + if D < 0 then 1 else 0 := by split_ifs <;> omega
  have ht_le : 2 ^ 31 ≤ t ∧ t ≤ 2 ^ 31 + 1 := by split_ifs at ht <;> omega
  obtain ⟨anc, hanc_def⟩ : ∃ anc, ulong (t - 1 - (t % ad : ℕ)) = anc := ⟨_, rfl⟩
  have hmod_lt := mod_lt t had0
  have hmod_le : t % ad ≤ t - ad := by
    rw [mod_eq_sub_mod (by omega)]
    exact Nat.mod_le _ _
  have hanc : anc + 1 = t - t % ad := by
    rw [ulong] at hanc_def
    omega
  have hdvd : ad ∣ anc + 1 := hanc ▸ dvd_sub_mod t
  have hanc2 : 2 ≤ anc := by omega
  have hanc0 : 0 < anc := by omega
  have hexc : ∀ p, 0 < excess 0 ad p ∧ excess 0 ad p ≤ ad := fun p => by
    have := mod_lt (2 ^ p - 0) had0
    rw [excess]
    omega
  obtain ⟨q, x, hsearch, hlow', hhigh', hx, hstop, hlast⟩ :=
    @doWhile_spec (stepS ad anc) Search.again (Tracks 0 ad anc) 63
      (fun _ _ hp => tracks_stepS had0 (by omega) hanc2 (by omega) hp) (fun y hy => by
        rw [← Bool.not_eq_true, again_iff hy hanc0 (by omega), not_le]
        calc anc * excess 0 ad 63 ≤ 2 ^ 31 * ad := Nat.mul_le_mul (by omega) (hexc _).2
          _ < 2 ^ 63 := by omega)
      32 31 _ (tracks_init (Nat.zero_le 1) had0 anc) (by norm_num) (by norm_num)
  rw [← searchS_eq had (by omega) ht_def hanc_def] at hsearch
  have hmagic : magicS32 D = some ⟨if D < 0 then -bmod (x.q2 + 1) (2 ^ 32) else bmod (x.q2 + 1) (2 ^ 32), x.p - 32⟩ := by
    rw [magicS32, hsearch]
    rfl
  rw [← Bool.not_eq_true, again_iff hx hanc0 hlow', not_le] at hstop
  have hm := mul_excess had0 (Nat.zero_le 1) q
  rw [← hx.q2] at hm
  have hbefore : 32 < q → 2 ^ (q - 32) < ad := fun hlt => by
    obtain ⟨y, hy, hgo⟩ := hlast (q - 1) (by omega) (by omega)
    rw [again_iff hy hanc0 (by omega)] at hgo
    have hpow : 2 ^ (q - 1) = 2 ^ 31 * 2 ^ (q - 32) := by rw [← pow_add]; congr 1; omega
    have hle : anc * excess 0 ad (q - 1) ≤ anc * ad := Nat.mul_le_mul_left anc (hexc _).2
    rcases (show anc ≤ 2 ^ 31 by omega).lt_or_eq with hanc' | hanc'
    · refine Nat.lt_of_mul_lt_mul_left (a := 2 ^ 31) ?_
      calc 2 ^ 31 * 2 ^ (q - 32) ≤ anc * ad := by omega
        _ < 2 ^ 31 * ad := Nat.mul_lt_mul_of_pos_right hanc' had0
    · rw [hanc'] at hle hgo hdvd
      have hodd : 2 ^ (q - 32) ≠ ad := by
        rintro rfl
        have h2 : 2 ∣ 2 ^ 31 + 1 := (dvd_pow_self 2 (by omega)).trans hdvd
        omega
      omega
  have hm32 : x.q2 + 1 < 2 ^ 32 := by
    refine Nat.lt_of_mul_lt_mul_right (a := ad) ?_
    have := (hexc q).2
    rcases (succ_le_of_lt hlow').eq_or_lt with rfl | hlt
    · omega
    · have hsplit : 2 ^ q = 2 ^ 32 * 2 ^ (q - 32) := by rw [← pow_add]; congr 1; omega
      have := hbefore hlt
      omega
  have hq : q ≤ 62 := by
    by_contra hge
    obtain rfl : q = 63 := by omega
    have := hbefore (by norm_num)
    omega
  refine ⟨_, x.q2 + 1, hmagic, hm32, by push_cast; rfl, by rw [hx.p_eq]; dsimp only; omega, fun z hz1 hz2 hz3 => ?_⟩
  dsimp only
  rw [had, hx.p_eq, show 32 + (q - 32) = q by omega]
  have hall : ∀ y, y < anc + ad → y % ad * 2 ^ q + y * excess 0 ad q < ad * 2 ^ q := fun y hy =>
    excess_lt had0 hdvd hstop hy
  refine div_of_excess hm (hexc q).1 (fun h0 => hall _ ?_) (fun h0 => ?_)
  · split_ifs at ht with hneg
    · omega
    · have := hz3 (by omega)
      omega
  · rcases lt_or_ge z.natAbs (anc + ad) with hlt | hge
    · exact (hall _ hlt).le
    · -- only `-2 ^ 31` by a positive divisor that divides `2 ^ 31 + 1`
      split_ifs at ht with hneg
      · omega
      · rw [Nat.add_zero] at ht
        have hz : z.natAbs = 2 ^ 31 := by omega
        have hmod : 2 ^ 31 % ad = ad - 1 := by
          rw [← ht]
          omega
        have h3 : 3 ≤ ad := by
          by_contra hlt
          obtain rfl : ad = 2 := by omega
          omega
        have h2 := excess_first h3 hmod
        have hq32 : q = 32 := by
          by_contra hne
          obtain ⟨y, hy, hgo⟩ := hlast 32 (by norm_num) (by omega)
          rw [again_iff hy hanc0 (by norm_num), h2] at hgo
          omega
        rw [hq32, h2, hz, hmod]
        omega

/-- With a longer divisor `anc` wraps around to the largest number, which nothing reaches: the signed
search never ends. -/
lemma searchS_never {D : ℤ} (h : 2 ^ 31 < D.natAbs) (hlong : D.natAbs ≤ 2 ^ 63) (hne : D ≠ 2 ^ 31 + 1) (k : ℕ) :
    searchS k D = none := by
  obtain ⟨t, ht⟩ : ∃ t, 0x80000000 + (D / 2 ^ 31 % 2).toNat = t := ⟨_, rfl⟩
  have hlt : t < D.natAbs := by omega
  have hanc : ulong (t - 1 - (t % D.natAbs : ℕ)) = 2 ^ 64 - 1 := by
    rw [mod_eq_of_lt hlt, ulong]
    omega
  rw [searchS_eq rfl (by omega) ht hanc]
  have hzero : (2 ^ 31 - 0) / D.natAbs = 0 := Nat.div_eq_of_lt h
  have hinit : 2 ^ 31 - 0 - (2 ^ 31 - 0) / D.natAbs * D.natAbs < D.natAbs := by
    rw [hzero]
    omega
  refine @doWhile_never _ _ (fun x => x.q1 = 0 ∧ x.r2 < D.natAbs) ?_ _ ⟨by norm_num, hinit⟩ k
  rintro x ⟨hq, hr⟩
  have hodd : ¬ulong (2 * x.r1) ≥ 2 ^ 64 - 1 := by
    rw [ulong]
    omega
  have hstep : (stepS D.natAbs (2 ^ 64 - 1) x).q1 = 0 ∧ (stepS D.natAbs (2 ^ 64 - 1) x).r2 < D.natAbs ∧
      0 < (stepS D.natAbs (2 ^ 64 - 1) x).delta := by
    simp only [stepS, hq, if_neg hodd]
    by_cases hge : ulong (2 * x.r2) ≥ D.natAbs
    · simp only [if_pos hge]
      simp only [ulong] at hge ⊢
      omega
    · simp only [if_neg hge]
      simp only [ulong] at hge ⊢
      omega
  refine ⟨⟨hstep.1, hstep.2.1⟩, ?_⟩
  rw [Search.again, hstep.1, decide_eq_true hstep.2.2, Bool.true_or]

end EmbCC.Opt.DivMagic
