import HellfireOS.SoftFloat
import Mathlib.Order.Monotone.Basic

set_option autoImplicit false

/-!
# Single-float comparison, multiplication and division

`__cmpsf2`, `__mulsf3`, `__divsf3` and `__negsf2` work on the pattern `fl.l` of a
`union float_long`, an `int32_t`, through the macros `SIGN`, `EXP`, `MANT` and `PACK`. These
routines read every nonzero pattern as a normal number: `MANT` sets the hidden bit whatever
the exponent, and no exponent is kept for infinities or NaNs. Only the pattern 0 is zero.
`value` is that reading, times 2^150 so that it is an integer.

`__cmpsf2` orders patterns by `value`, and the six comparison entry points answer by it.
`__divsf3` rounds the quotient of the mantissas to the nearest 24-bit integer, a tie away
from zero, so that it is correctly rounded whenever the exponent fits. `__mulsf3` drops the
product of the two low bytes and two partial carries before it rounds, and is within half a
unit in the last place and `3 * 2^16` of the exact product of the mantissas.

`PACK` shifts an `int32_t` exponent left by 23, which is undefined for a negative exponent
and overflows from 256 on: a result whose exponent leaves `0 … 255` is `none`, since the
routines do not check for overflow or underflow. Signed multiplication wraps, as on the
target.
-/
namespace HellfireOS.FloatArith
open HellfireOS.SoftFloat (runLoop runLoop_of_not_cond runLoop_succ_of_cond)

/-- Assumed from `libc.h`, which is not in the sources: `SIGNBIT`, `0x80000000`. -/
def signBit : BitVec 32 := 0x80000000

/-- Assumed from `libc.h`, which is not in the sources: `HIDDEN`, `(1 << 23)`. -/
def hidden : BitVec 32 := 1 <<< 23

/-- Assumed from `libc.h`, which is not in the sources: `EXCESS`, `126`, the exponent bias less
one. -/
def excess : BitVec 32 := 126

/-- Assumed from `libc.h`, which is not in the sources: `SIGN(fp)`, `((fp) & SIGNBIT)`. -/
def sign (fp : BitVec 32) : BitVec 32 := fp &&& signBit

/-- Assumed from `libc.h`, which is not in the sources: `EXP(fp)`, `(((fp) >> 23) & 0xFF)`,
with `>>` on the `int32_t` `fl.l`. -/
def exp (fp : BitVec 32) : BitVec 32 := fp.sshiftRight 23 &&& 0xFF

/-- Assumed from `libc.h`, which is not in the sources: `MANT(fp)`,
`(((fp) & 0x7FFFFF) | HIDDEN)`. -/
def mant (fp : BitVec 32) : BitVec 32 := (fp &&& 0x7FFFFF) ||| hidden

/-- Assumed from `libc.h`, which is not in the sources: `PACK(s,e,m)`,
`((s) | ((e) << 23) | (m))`. The shift of the `int32_t` exponent is
undefined for a negative `e` and overflows from `e = 256` on. -/
def pack (s e m : BitVec 32) : Option (BitVec 32) :=
  if 0 ≤ e.toInt ∧ e.toInt < 256 then some (s ||| e <<< 23 ||| m) else none

def absValue (k : ℕ) : ℕ := (2 ^ 23 + k % 2 ^ 23) * 2 ^ (k / 2 ^ 23)

def value (p : BitVec 32) : ℤ :=
  if p = 0 then 0
  else if p.toNat < 2 ^ 31 then (absValue p.toNat : ℤ) else -(absValue (p.toNat - 2 ^ 31) : ℤ)

/-- `__cmpsf2`: when both sign bits are set they are cleared (`i = 1`) and the comparison is
turned round; `<` and `>` compare `int32_t`s. -/
def cmpsf2 (a1 a2 : BitVec 32) : BitVec 32 :=
  let i := sign a1 != 0 && sign a2 != 0
  let fl1 := if i then a1 ^^^ signBit else a1
  let fl2 := if i then a2 ^^^ signBit else a2
  if !i then (if fl1.slt fl2 then -1 else if fl2.slt fl1 then 1 else 0)
  else (if fl2.slt fl1 then -1 else if fl1.slt fl2 then 1 else 0)

/-- `__ltsf2`, `-(__cmpsf2 (a, b) < 0)`. -/
def ltsf2 (a b : BitVec 32) : BitVec 32 := -(if (cmpsf2 a b).slt 0 then 1 else 0)

/-- `__gtsf2`, `__cmpsf2 (a, b) > 0`. -/
def gtsf2 (a b : BitVec 32) : BitVec 32 := if (0 : BitVec 32).slt (cmpsf2 a b) then 1 else 0

/-- `__lesf2`, the body of `__gtsf2`. -/
def lesf2 (a b : BitVec 32) : BitVec 32 := gtsf2 a b

/-- `__gesf2`, `(__cmpsf2 (a, b) >= 0) - 1`. -/
def gesf2 (a b : BitVec 32) : BitVec 32 := (if (0 : BitVec 32).sle (cmpsf2 a b) then 1 else 0) - 1

/-- `__eqsf2`, `!(*(int32_t *) & a == *(int32_t *) & b)`. -/
def eqsf2 (a b : BitVec 32) : BitVec 32 := if a = b then 0 else 1

/-- `__nesf2`, `*(int32_t *) & a != *(int32_t *) & b`. -/
def nesf2 (a b : BitVec 32) : BitVec 32 := if a ≠ b then 1 else 0

/-- `__negsf2`: the pattern 0 stays 0, and every other has its sign bit flipped. -/
def negsf2 (a1 : BitVec 32) : BitVec 32 := if a1 = 0 then 0 else a1 ^^^ signBit

/-- The variables of `__divsf3`'s loop: the partial remainder `fl1.l`, `result` and `mask`. -/
structure DivState where
  rem : BitVec 32
  result : BitVec 32
  mask : BitVec 32

/-- `if (fl1.l >= fl2.l){ result |= mask; fl1.l -= fl2.l; } fl1.l <<= 1; mask >>= 1;` with
`fl2.l = den`. -/
def divStep (den : BitVec 32) (s : DivState) : DivState :=
  let s := if den.sle s.rem then { s with result := s.result ||| s.mask, rem := s.rem - den } else s
  { s with rem := s.rem <<< 1, mask := s.mask.sshiftRight 1 }

/-- `__divsf3`, with `sgn` and `e` its `sign` and `exp`. A zero divisor returns the `unsigned`
constant `0xFFFFFFFF` or `0x7FFFFFFF` as a `float`; the compiler folds that conversion to the
nearest floats, 2^32 (`0x4F800000`) and 2^31 (`0x4F000000`). -/
def divsf3 (fuel : ℕ) (a1 a2 : BitVec 32) : Option (BitVec 32) :=
  let e := exp a1 - exp a2 + excess
  let sgn := sign a1 ^^^ sign a2
  if a2 = 0 then some (if sgn ≠ 0 then 0x4F800000 else 0x4F000000)
  else if a1 = 0 then some 0
  else
    let fl2 := mant a2
    let lt := (mant a1).slt fl2
    let fl1 := if lt then mant a1 <<< 1 else mant a1
    let e := if lt then e - 1 else e
    do
      let s ← runLoop (fun s => s.mask != 0) (divStep fl2) fuel ⟨fl1, 0, 0x1000000⟩
      let result := s.result + 1
      let e := e + 1
      let result := result.sshiftRight 1
      pack sgn e (result &&& ~~~hidden)

/-- The rounding of `__mulsf3`, from `result >>= 2` on: round to 24 bits from bit 29 or bit 28,
lowering the exponent `e` in the second case, and normalise down once more on a carry into
bit 24. -/
def mulRound (result e : BitVec 32) : BitVec 32 × BitVec 32 :=
  let result := result >>> 2
  let big := result &&& 0x20000000 != 0
  let result := if big then (result + 0x20) >>> 6 else (result + 0x10) >>> 5
  let e := if big then e else e - 1
  let over := result &&& hidden <<< 1 != 0
  (if over then result >>> 1 else result, if over then e + 1 else e)

/-- `__mulsf3`, with its `sign` and `exp` as `sgn` and the second argument of `mulRound`. The
partial products are `int32_t`s; the first, of the two high halves, can pass 2^31 and wraps,
and `result` reads their sum as a `uint32_t`. -/
def mulsf3 (a1 a2 : BitVec 32) : Option (BitVec 32) :=
  if a1 = 0 ∨ a2 = 0 then some 0
  else
    let sgn := sign a1 ^^^ sign a2
    let fl1 := mant a1
    let fl2 := mant a2
    let result := fl1.sshiftRight 8 * fl2.sshiftRight 8
    let result := result + ((fl1 &&& 0xFF) * fl2.sshiftRight 8).sshiftRight 8
    let result := result + ((fl2 &&& 0xFF) * fl1.sshiftRight 8).sshiftRight 8
    let rounded := mulRound result (exp a1 - excess + exp a2)
    pack sgn rounded.2 (rounded.1 &&& ~~~hidden)

theorem sign_eq (p : BitVec 32) : sign p = if p.toNat < 2 ^ 31 then 0 else signBit := by
  have hp : p.getLsbD 31 = decide (2 ^ 31 ≤ p.toNat) := BitVec.getLsbD_last p
  rw [sign, show signBit = BitVec.twoPow 32 31 from rfl, BitVec.and_twoPow, hp]
  by_cases h : p.toNat < 2 ^ 31
  · rw [if_pos h, if_neg (by simpa using h)]
    rfl
  · rw [if_neg h, if_pos (by simpa using h)]

theorem exp_toNat (p : BitVec 32) : (exp p).toNat = p.toNat / 2 ^ 23 % 2 ^ 8 := by
  have hshift : p.sshiftRight 23 &&& (0xFF : BitVec 32) = p >>> 23 &&& 0xFF := by
    ext i
    by_cases h : (i : ℕ) < 8
    · simp [BitVec.getLsbD_sshiftRight, show 23 + (i : ℕ) < 32 by omega,
        show ¬ 32 ≤ (i : ℕ) by omega]
    · have h8 : 2 ^ 8 ≤ 2 ^ (i : ℕ) := Nat.pow_le_pow_right (by decide) (by omega)
      have hmask : (0xFF#32).getLsbD i = false := by
        rw [BitVec.getLsbD_ofNat]
        simp only [Nat.testBit_lt_two_pow (show 255 < 2 ^ (i : ℕ) by omega), Bool.and_false]
      simp [BitVec.getLsbD_and, hmask]
  rw [exp, hshift, SoftFloat.exponent_toNat]

theorem xor_signBit_toNat {p : BitVec 32} (h : 2 ^ 31 ≤ p.toNat) :
    (p ^^^ signBit).toNat = p.toNat - 2 ^ 31 := by
  have hr : p.toNat - 2 ^ 31 < 2 ^ 31 := by have := p.isLt; omega
  rw [BitVec.toNat_xor, show signBit.toNat = 2 ^ 31 from rfl,
    show p.toNat = 2 ^ 31 + (p.toNat - 2 ^ 31) by omega, Nat.add_sub_cancel_left]
  apply Nat.eq_of_testBit_eq
  intro i
  rw [Nat.testBit_xor, Nat.testBit_two_pow]
  rcases Nat.lt_trichotomy i 31 with hi | rfl | hi
  · rw [Nat.testBit_two_pow_add_gt hi, decide_eq_false (by omega), Bool.xor_false]
  · rw [Nat.testBit_two_pow_add_eq, Nat.testBit_lt_two_pow hr]
    rfl
  · have h2 : 2 ^ 32 ≤ 2 ^ i := Nat.pow_le_pow_right (by decide) hi
    rw [Nat.testBit_lt_two_pow (show 2 ^ 31 + (p.toNat - 2 ^ 31) < 2 ^ i by omega),
      Nat.testBit_lt_two_pow (show p.toNat - 2 ^ 31 < 2 ^ i by omega), decide_eq_false (by omega)]
    rfl

theorem toInt_eq_cond (p : BitVec 32) :
    p.toInt = if p.toNat < 2 ^ 31 then (p.toNat : ℤ) else p.toNat - 2 ^ 32 := by
  rw [BitVec.toInt_eq_toNat_cond]
  simp only [show 2 * p.toNat < 2 ^ 32 ↔ p.toNat < 2 ^ 31 by omega]
  rfl

theorem slt_eq (x y : BitVec 32) : x.slt y = decide (x.toInt < y.toInt) := rfl

/-- The order `__cmpsf2` puts patterns in: the low 31 bits when the sign bit is clear, and
below all of those, turned round, when it is set. -/
def key (p : BitVec 32) : ℤ := if p.toNat < 2 ^ 31 then p.toNat else 2 ^ 31 - 1 - p.toNat

theorem cmpsf2_key (a b : BitVec 32) :
    cmpsf2 a b = if key a < key b then -1 else if key b < key a then 1 else 0 := by
  have hs : (signBit != 0) = true := by decide
  by_cases hA : a.toNat < 2 ^ 31 <;> by_cases hB : b.toNat < 2 ^ 31 <;>
    simp only [cmpsf2, key, sign_eq, hA, hB, if_true, if_false, bne_self_eq_false, hs,
      Bool.false_and, Bool.and_false, Bool.and_true, Bool.not_false, Bool.not_true,
      Bool.false_eq_true, slt_eq, decide_eq_true_eq]
  · simp only [toInt_eq_cond, hA, hB, if_true]
  · rw [toInt_eq_cond a, toInt_eq_cond b, if_pos hA, if_neg hB]
    split_ifs <;> first | rfl | omega
  · rw [toInt_eq_cond a, toInt_eq_cond b, if_neg hA, if_pos hB]
    split_ifs <;> first | rfl | omega
  · have ha := xor_signBit_toNat (show 2 ^ 31 ≤ a.toNat by omega)
    have hb := xor_signBit_toNat (show 2 ^ 31 ≤ b.toNat by omega)
    have := a.isLt
    have := b.isLt
    rw [toInt_eq_cond (a ^^^ signBit), toInt_eq_cond (b ^^^ signBit), ha, hb,
      if_pos (show a.toNat - 2 ^ 31 < 2 ^ 31 by omega), if_pos (show b.toNat - 2 ^ 31 < 2 ^ 31 by omega)]
    split_ifs <;> first | rfl | omega

theorem key_injective : Function.Injective key := by
  intro a b h
  unfold key at h
  apply BitVec.eq_of_toNat_eq
  split_ifs at h <;> omega

theorem absValue_pos (k : ℕ) : 0 < absValue k := Nat.mul_pos (by omega) (Nat.two_pow_pos _)

theorem absValue_lt {k k' : ℕ} (h : k < k') : absValue k < absValue k' := by
  unfold absValue
  rcases Nat.lt_or_ge (k / 2 ^ 23) (k' / 2 ^ 23) with he | he
  · calc (2 ^ 23 + k % 2 ^ 23) * 2 ^ (k / 2 ^ 23) < 2 ^ 24 * 2 ^ (k / 2 ^ 23) :=
          Nat.mul_lt_mul_of_pos_right (by omega) (Nat.two_pow_pos _)
      _ = 2 ^ 23 * 2 ^ (k / 2 ^ 23 + 1) := by ring
      _ ≤ 2 ^ 23 * 2 ^ (k' / 2 ^ 23) := Nat.mul_le_mul_left _ (Nat.pow_le_pow_right (by decide) he)
      _ ≤ (2 ^ 23 + k' % 2 ^ 23) * 2 ^ (k' / 2 ^ 23) := Nat.mul_le_mul_right _ (by omega)
  · rw [show k' / 2 ^ 23 = k / 2 ^ 23 by omega]
    exact Nat.mul_lt_mul_of_pos_right (by omega) (Nat.two_pow_pos _)

def ofKey (k : ℤ) : ℤ :=
  if k < 0 then -(absValue (-k - 1).toNat : ℤ) else if k = 0 then 0 else (absValue k.toNat : ℤ)

theorem value_eq_ofKey (p : BitVec 32) : value p = ofKey (key p) := by
  have := p.isLt
  unfold value key ofKey
  by_cases h0 : p = 0
  · subst h0
    rfl
  · have hp : p.toNat ≠ 0 := fun h => h0 (BitVec.eq_of_toNat_eq h)
    by_cases hs : p.toNat < 2 ^ 31
    · rw [if_neg h0, if_pos hs, if_pos hs, if_neg (by omega), if_neg (by omega), Int.toNat_natCast]
    · have hk : (-(2 ^ 31 - 1 - (p.toNat : ℤ)) - 1).toNat = p.toNat - 2 ^ 31 := by omega
      rw [if_neg h0, if_neg hs, if_neg hs, if_pos (by omega), hk]

theorem ofKey_strictMono : StrictMono ofKey := by
  intro k k' h
  have h1 := absValue_pos (-k - 1).toNat
  have h2 := absValue_pos k'.toNat
  unfold ofKey
  split_ifs <;> first
    | omega
    | have := absValue_lt (show (-k' - 1).toNat < (-k - 1).toNat by omega); omega
    | have := absValue_lt (show k.toNat < k'.toNat by omega); omega

theorem cmpsf2_eq_ite (a b : BitVec 32) :
    cmpsf2 a b = if value a < value b then -1 else if value a = value b then 0 else 1 := by
  simp only [cmpsf2_key, value_eq_ofKey, ofKey_strictMono.lt_iff_lt,
    ofKey_strictMono.injective.eq_iff]
  split_ifs <;> first | rfl | omega

theorem value_injective : Function.Injective value := fun a b h =>
  key_injective (ofKey_strictMono.injective (by rwa [← value_eq_ofKey, ← value_eq_ofKey]))

theorem wrappers_value (a b : BitVec 32) :
    ((ltsf2 a b).toInt < 0 ↔ value a < value b) ∧ ((lesf2 a b).toInt ≤ 0 ↔ value a ≤ value b) ∧
      (0 < (gtsf2 a b).toInt ↔ value b < value a) ∧ (0 ≤ (gesf2 a b).toInt ↔ value b ≤ value a) ∧
      (eqsf2 a b = 0 ↔ value a = value b) ∧ (nesf2 a b ≠ 0 ↔ value a ≠ value b) := by
  simp only [ltsf2, lesf2, gtsf2, gesf2, eqsf2, nesf2, cmpsf2_eq_ite, value_injective.eq_iff]
  rcases lt_trichotomy (value a) (value b) with h | h | h
  · have hab : a ≠ b := fun e => h.ne (congrArg value e)
    simp [h, h.ne, h.le, not_le.2 h, not_lt.2 h.le, hab]
  · have hab := value_injective h
    simp [h, hab]
  · have hab : a ≠ b := fun e => h.ne' (congrArg value e)
    simp [h, h.ne', h.le, not_le.2 h, not_lt.2 h.le, hab]

/-- The comparison routines as a whole: `__cmpsf2` orders patterns by value, and each wrapper
decides its relation on the values. -/
theorem comparisons_value (a b : BitVec 32) :
    (cmpsf2 a b = if value a < value b then -1 else if value a = value b then 0 else 1) ∧
      ((ltsf2 a b).toInt < 0 ↔ value a < value b) ∧ ((lesf2 a b).toInt ≤ 0 ↔ value a ≤ value b) ∧
      (0 < (gtsf2 a b).toInt ↔ value b < value a) ∧ (0 ≤ (gesf2 a b).toInt ↔ value b ≤ value a) ∧
      (eqsf2 a b = 0 ↔ value a = value b) ∧ (nesf2 a b ≠ 0 ↔ value a ≠ value b) :=
  ⟨cmpsf2_eq_ite a b, wrappers_value a b⟩

theorem mant_toNat (p : BitVec 32) : (mant p).toNat = 2 ^ 23 + p.toNat % 2 ^ 23 := by
  have hf : (p &&& 0x7FFFFF).toNat = p.toNat % 2 ^ 23 := by
    rw [BitVec.toNat_and, show (0x7FFFFF : BitVec 32).toNat = 2 ^ 23 - 1 from rfl,
      Nat.and_pow_two_sub_one_eq_mod]
  have hlt := Nat.mod_lt p.toNat (show 0 < 2 ^ 23 by decide)
  rw [mant, BitVec.toNat_or, hf, show hidden.toNat = 2 ^ 23 * 1 from rfl, Nat.or_comm,
    ← Nat.mul_add_lt_is_or hlt]
  omega

/-- At the head of the loop of `__divsf3` with `j` passes to go, dividing `num` by `den`:
`mask` is `2^(j-1)` (0 once `j = 0`), `result` holds the quotient bits `q` found so far
above it, and the partial remainder is what `num * 2^(25 - j)` leaves after them, below
`2 * den`. -/
def DivHead (num : ℕ) (den : BitVec 32) (j : ℕ) (s : DivState) : Prop :=
  s.mask.toNat = 2 ^ j / 2 ∧ s.rem.toNat < 2 * den.toNat ∧
    ∃ q, s.result.toNat = q * 2 ^ j ∧ 2 * (q * den.toNat) + s.rem.toNat = num * 2 ^ (25 - j)

theorem sle_iff_le {x y : BitVec 32} (hx : x.toNat < 2 ^ 31) (hy : y.toNat < 2 ^ 31) :
    x.sle y = true ↔ x.toNat ≤ y.toNat := by
  rw [show x.sle y = decide (x.toInt ≤ y.toInt) from rfl, toInt_eq_cond, toInt_eq_cond,
    if_pos hx, if_pos hy, decide_eq_true_iff]
  omega

theorem sshiftRight_one_toNat {x : BitVec 32} (hx : x.toNat < 2 ^ 31) :
    (x.sshiftRight 1).toNat = x.toNat / 2 := by
  have hmsb : x.msb = false := by rw [BitVec.msb_eq_decide]; exact decide_eq_false (by omega)
  rw [BitVec.sshiftRight_eq_of_msb_false hmsb, BitVec.toNat_ushiftRight, Nat.shiftRight_one]

theorem divStep_head {num j : ℕ} {den : BitVec 32} {s : DivState} (hden : den.toNat < 2 ^ 24)
    (hj : j + 1 ≤ 25) (h : DivHead num den (j + 1) s) : DivHead num den j (divStep den s) := by
  obtain ⟨hmask, hrem, q, hq, hsum⟩ := h
  rw [pow_succ, Nat.mul_div_cancel _ (by decide)] at hmask
  have hpow : 2 ^ (25 - j) = 2 ^ (25 - (j + 1)) * 2 := by
    rw [← pow_succ]; congr 1; omega
  have hmask' : (s.mask.sshiftRight 1).toNat = 2 ^ j / 2 := by
    rw [sshiftRight_one_toNat (by rw [hmask]; exact Nat.pow_lt_pow_right (by decide) (by omega)),
      hmask]
  by_cases hle : den.toNat ≤ s.rem.toNat
  · have hor : (s.result ||| s.mask).toNat = (2 * q + 1) * 2 ^ j := by
      rw [BitVec.toNat_or, hq, hmask, Division.or_two_pow_eq_add ⟨q, by ring⟩]
      ring
    have hsub : (s.rem - den).toNat = s.rem.toNat - den.toNat :=
      BitVec.toNat_sub_of_le (BitVec.le_def.2 hle)
    have hrem' : ((s.rem - den) <<< 1).toNat = (s.rem.toNat - den.toNat) * 2 := by
      rw [BitVec.toNat_shiftLeft, hsub, Nat.shiftLeft_eq, pow_one, Nat.mod_eq_of_lt (by omega)]
    have hexp : 2 * ((2 * q + 1) * den.toNat) = 2 * (2 * (q * den.toNat)) + 2 * den.toNat := by ring
    simp only [divStep, (sle_iff_le (show den.toNat < 2 ^ 31 by omega)
      (show s.rem.toNat < 2 ^ 31 by omega)).2 hle, if_true]
    refine ⟨hmask', by rw [hrem']; omega, 2 * q + 1, hor, ?_⟩
    rw [hrem', hexp, hpow, show num * (2 ^ (25 - (j + 1)) * 2) = num * 2 ^ (25 - (j + 1)) * 2 by ring,
      ← hsum]
    omega
  · have hrem' : (s.rem <<< 1).toNat = s.rem.toNat * 2 := by
      rw [BitVec.toNat_shiftLeft, Nat.shiftLeft_eq, pow_one, Nat.mod_eq_of_lt (by omega)]
    have hnot : den.sle s.rem = false := by
      rw [← Bool.not_eq_true, sle_iff_le (show den.toNat < 2 ^ 31 by omega)
        (show s.rem.toNat < 2 ^ 31 by omega)]
      exact hle
    have hexp : 2 * ((2 * q) * den.toNat) = 2 * (2 * (q * den.toNat)) := by ring
    simp only [divStep, hnot, Bool.false_eq_true, if_false]
    refine ⟨hmask', by rw [hrem']; omega, 2 * q, by rw [hq, pow_succ]; ring, ?_⟩
    rw [hrem', hexp, hpow, show num * (2 ^ (25 - (j + 1)) * 2) = num * 2 ^ (25 - (j + 1)) * 2 by ring,
      ← hsum]
    omega

theorem divLoop_run {num : ℕ} {den : BitVec 32} (hden : den.toNat < 2 ^ 24) :
    ∀ j fuel (s : DivState), j ≤ 25 → j ≤ fuel → DivHead num den j s →
      ∃ s', runLoop (fun s => s.mask != 0) (divStep den) fuel s = some s' ∧ DivHead num den 0 s' := by
  intro j
  induction j with
  | zero =>
    intro fuel s _ _ h
    have hm : s.mask = 0 := BitVec.eq_of_toNat_eq (by rw [h.1]; rfl)
    exact ⟨s, runLoop_of_not_cond _ (by simp [hm]) fuel, h⟩
  | succ j ih =>
    intro fuel s hj hfuel h
    obtain ⟨fuel, rfl⟩ : ∃ f, fuel = f + 1 := ⟨fuel - 1, by omega⟩
    have hm : (s.mask != 0) = true := by
      have hpos : s.mask.toNat ≠ 0 := by
        rw [h.1, pow_succ, Nat.mul_div_cancel _ (by decide)]
        exact (Nat.two_pow_pos j).ne'
      simpa [BitVec.toNat_eq] using hpos
    rw [@runLoop_succ_of_cond DivState (fun s => s.mask != 0) (divStep den) s hm fuel]
    exact ih fuel _ (by omega) (by omega) (divStep_head hden hj h)

theorem DivHead.result_eq {num : ℕ} {den : BitVec 32} {s : DivState} (h : DivHead num den 0 s) :
    s.result.toNat = num * 2 ^ 24 / den.toNat := by
  obtain ⟨-, hrem, q, hq, hsum⟩ := h
  rw [pow_zero, mul_one] at hq
  have h25 : num * 2 ^ (25 - 0) = 2 * (num * 2 ^ 24) := by ring
  have hsucc : (q + 1) * den.toNat = q * den.toNat + den.toNat := by ring
  rw [hq, eq_comm]
  exact Nat.div_eq_of_lt_le (by omega) (by omega)

theorem and_not_hidden {M : ℕ} (h1 : 2 ^ 23 ≤ M) (h2 : M < 2 ^ 24) :
    BitVec.ofNat 32 M &&& ~~~hidden = BitVec.ofNat 32 (M - 2 ^ 23) := by
  apply BitVec.eq_of_toNat_eq
  rw [BitVec.toNat_and, BitVec.toNat_not, BitVec.toNat_ofNat, BitVec.toNat_ofNat,
    show hidden.toNat = 2 ^ 23 from rfl, Nat.mod_eq_of_lt (by omega), Nat.mod_eq_of_lt (by omega),
    show 2 ^ 32 - 1 - 2 ^ 23 = 2 ^ 32 - (2 ^ 23 + 1) from rfl]
  apply Nat.eq_of_testBit_eq
  intro i
  rw [Nat.testBit_and, Nat.testBit_two_pow_sub_succ (by decide), Nat.testBit_two_pow,
    show M = 2 ^ 23 + (M - 2 ^ 23) by omega, Nat.add_sub_cancel_left]
  have hr : M - 2 ^ 23 < 2 ^ 23 := by omega
  rcases Nat.lt_trichotomy i 23 with hi | rfl | hi
  · rw [Nat.testBit_two_pow_add_gt hi, decide_eq_false (show ¬ 23 = i by omega),
      decide_eq_true (show i < 32 by omega)]
    simp
  · rw [Nat.testBit_lt_two_pow hr]
    simp
  · have h2i : 2 ^ 24 ≤ 2 ^ i := Nat.pow_le_pow_right (by decide) hi
    rw [Nat.testBit_lt_two_pow (show 2 ^ 23 + (M - 2 ^ 23) < 2 ^ i by omega),
      Nat.testBit_lt_two_pow (show M - 2 ^ 23 < 2 ^ i by omega)]
    simp

theorem half_round_nearest (N d : ℕ) (hd : 0 < d) :
    |((2 * ((N / d + 1) / 2) * d : ℕ) : ℤ) - N| ≤ d := by
  have hlo : N / d * d ≤ N := Nat.div_mul_le_self N d
  have hhi : N < N / d * d + d := Nat.lt_div_mul_add hd
  have key : 2 * ((N / d + 1) / 2) * d ≤ N + d ∧ N ≤ 2 * ((N / d + 1) / 2) * d + d := by
    obtain ⟨k, hk | hk⟩ := Nat.even_or_odd' (N / d)
    · rw [hk] at hlo hhi ⊢
      rw [show (2 * k + 1) / 2 = k by omega]
      omega
    · rw [hk] at hlo hhi ⊢
      rw [show (2 * k + 1 + 1) / 2 = k + 1 by omega]
      have : 2 * (k + 1) * d = (2 * k + 1) * d + d := by ring
      omega
  generalize 2 * ((N / d + 1) / 2) * d = X at key
  rw [abs_le]
  omega

theorem exp_eq_natCast (p : BitVec 32) : exp p = ((p.toNat / 2 ^ 23 % 2 ^ 8 : ℕ) : BitVec 32) := by
  apply BitVec.eq_of_toNat_eq
  rw [exp_toNat, show ((p.toNat / 2 ^ 23 % 2 ^ 8 : ℕ) : BitVec 32) =
    BitVec.ofNat 32 (p.toNat / 2 ^ 23 % 2 ^ 8) from rfl, BitVec.toNat_ofNat,
    Nat.mod_eq_of_lt (show p.toNat / 2 ^ 23 % 2 ^ 8 < 2 ^ 32 by omega)]

theorem div_exponent (a1 a2 : BitVec 32) (t : ℕ) :
    exp a1 - exp a2 + excess - BitVec.ofNat 32 t + 1 =
      BitVec.ofInt 32 ((a1.toNat / 2 ^ 23 % 2 ^ 8 : ℕ) - (a2.toNat / 2 ^ 23 % 2 ^ 8 : ℕ) + 127 - t) := by
  rw [exp_eq_natCast, exp_eq_natCast, excess, show BitVec.ofNat 32 t = (t : BitVec 32) from rfl,
    show BitVec.ofInt 32 ((a1.toNat / 2 ^ 23 % 2 ^ 8 : ℕ) - (a2.toNat / 2 ^ 23 % 2 ^ 8 : ℕ) + 127 - t) =
      (((a1.toNat / 2 ^ 23 % 2 ^ 8 : ℕ) - (a2.toNat / 2 ^ 23 % 2 ^ 8 : ℕ) + 127 - t : ℤ) : BitVec 32)
      from rfl]
  generalize a1.toNat / 2 ^ 23 % 2 ^ 8 = e1
  generalize a2.toNat / 2 ^ 23 % 2 ^ 8 = e2
  push_cast
  ring

/-- `__divsf3` on nonzero patterns, with fuel for its 25 passes. The mantissa `m1`, doubled when
it is below `m2` (`t = 1`, and the exponent lowered), is divided by `m2` to 25 bits, and the
quotient is rounded to 24 by adding one and halving: the mantissa `M` of the result is an
integer nearest to `n * 2^23 / m2`, a tie going up. The result packs the exclusive or of the
signs, the exponent `e1 - e2 + 127 - t` and `M` without its hidden bit; that is `none` exactly
when the exponent leaves `0 … 255`. -/
theorem divsf3_rounds (fuel : ℕ) (a1 a2 : BitVec 32) (h1 : a1 ≠ 0) (h2 : a2 ≠ 0)
    (hfuel : 25 ≤ fuel) :
    (let m1 : ℕ := 2 ^ 23 + a1.toNat % 2 ^ 23
     let m2 : ℕ := 2 ^ 23 + a2.toNat % 2 ^ 23
     let t : ℕ := if m1 < m2 then 1 else 0
     let n : ℕ := m1 * 2 ^ t
     let M : ℕ := (n * 2 ^ 24 / m2 + 1) / 2
     divsf3 fuel a1 a2 = pack (sign a1 ^^^ sign a2)
         (BitVec.ofInt 32 ((a1.toNat / 2 ^ 23 % 2 ^ 8 : ℕ) - (a2.toNat / 2 ^ 23 % 2 ^ 8 : ℕ) + 127 - t))
         (BitVec.ofNat 32 (M - 2 ^ 23)) ∧
       2 ^ 23 ≤ M ∧ M < 2 ^ 24 ∧ |((2 * M * m2 : ℕ) : ℤ) - (n * 2 ^ 24 : ℕ)| ≤ m2) := by
  intro m1 m2 t n M
  have hm1 : (mant a1).toNat = m1 := mant_toNat a1
  have hm2 : (mant a2).toNat = m2 := mant_toNat a2
  have hr1 := Nat.mod_lt a1.toNat (show 0 < 2 ^ 23 by decide)
  have hr2 := Nat.mod_lt a2.toNat (show 0 < 2 ^ 23 by decide)
  have hlt : (mant a1).slt (mant a2) = decide (m1 < m2) := by
    rw [slt_eq, toInt_eq_cond, toInt_eq_cond, hm1, hm2, if_pos (by omega), if_pos (by omega)]
    simp only [Nat.cast_lt]
  have hn : m2 ≤ n ∧ n < 2 * m2 := by
    simp only [n, t]
    split <;> omega
  have hfl1 : (if (mant a1).slt (mant a2) then mant a1 <<< 1 else mant a1).toNat = n := by
    by_cases hc : m1 < m2
    · rw [hlt, decide_eq_true hc, if_pos rfl, BitVec.toNat_shiftLeft, hm1, Nat.shiftLeft_eq,
        Nat.mod_eq_of_lt (by omega)]
      simp only [n, t, if_pos hc]
    · rw [hlt, decide_eq_false hc, if_neg (by decide), hm1]
      simp only [n, t, if_neg hc, pow_zero, mul_one]
  have hexp : (if (mant a1).slt (mant a2) then exp a1 - exp a2 + excess - 1
      else exp a1 - exp a2 + excess) = exp a1 - exp a2 + excess - BitVec.ofNat 32 t := by
    by_cases hc : m1 < m2
    · rw [hlt, decide_eq_true hc, if_pos rfl]
      simp only [t, if_pos hc]
      rfl
    · rw [hlt, decide_eq_false hc, if_neg (by decide)]
      simp only [t, if_neg hc]
      exact (BitVec.sub_zero _).symm
  have init : DivHead n (mant a2) 25
      ⟨if (mant a1).slt (mant a2) then mant a1 <<< 1 else mant a1, 0, 0x1000000⟩ :=
    ⟨show (0x1000000 : BitVec 32).toNat = 2 ^ 25 / 2 from rfl, by rw [hfl1, hm2]; exact hn.2, 0,
      show (0 : BitVec 32).toNat = 0 * 2 ^ 25 from rfl, by rw [hfl1]; ring⟩
  obtain ⟨s', hrun, hdone⟩ := divLoop_run (by rw [hm2]; omega) 25 fuel _ le_rfl hfuel init
  have hq := hdone.result_eq
  rw [hm2] at hq
  have hqlo : 2 ^ 24 ≤ n * 2 ^ 24 / m2 := (Nat.le_div_iff_mul_le (by omega)).2 (by omega)
  have hqhi : n * 2 ^ 24 / m2 < 2 ^ 25 - 1 := (Nat.div_lt_iff_lt_mul (by omega)).2 (by omega)
  have hM : ((s'.result + 1).sshiftRight 1) = BitVec.ofNat 32 M := by
    have hsum : (s'.result + 1).toNat = n * 2 ^ 24 / m2 + 1 := by
      rw [BitVec.toNat_add, hq, show (1 : BitVec 32).toNat = 1 from rfl, Nat.mod_eq_of_lt (by omega)]
    apply BitVec.eq_of_toNat_eq
    rw [sshiftRight_one_toNat (by omega), hsum, BitVec.toNat_ofNat, Nat.mod_eq_of_lt (by omega)]
  refine ⟨?_, by omega, by omega, half_round_nearest _ _ (by omega)⟩
  simp only [divsf3, h1, h2, if_false, hrun, Option.bind_eq_bind, Option.some_bind]
  rw [hexp, div_exponent a1 a2 t, hM,
    and_not_hidden (by omega) (by omega)]

theorem divsf3_rounds_one_three :
    (0x3F800000 : BitVec 32) ≠ 0 ∧ (0x40400000 : BitVec 32) ≠ 0 ∧ 25 ≤ 25 ∧
      let m1 : ℕ := 2 ^ 23 + (0x3F800000 : BitVec 32).toNat % 2 ^ 23
      let m2 : ℕ := 2 ^ 23 + (0x40400000 : BitVec 32).toNat % 2 ^ 23
      let t : ℕ := if m1 < m2 then 1 else 0
      let n : ℕ := m1 * 2 ^ t
      let M : ℕ := (n * 2 ^ 24 / m2 + 1) / 2
      divsf3 25 0x3F800000 0x40400000 = pack (sign 0x3F800000 ^^^ sign 0x40400000)
          (BitVec.ofInt 32 (((0x3F800000 : BitVec 32).toNat / 2 ^ 23 % 2 ^ 8 : ℕ) -
            ((0x40400000 : BitVec 32).toNat / 2 ^ 23 % 2 ^ 8 : ℕ) + 127 - t))
          (BitVec.ofNat 32 (M - 2 ^ 23)) ∧
        2 ^ 23 ≤ M ∧ M < 2 ^ 24 ∧ |((2 * M * m2 : ℕ) : ℤ) - (n * 2 ^ 24 : ℕ)| ≤ m2 :=
  ⟨by decide, by decide, le_rfl, divsf3_rounds 25 _ _ (by decide) (by decide) le_rfl⟩

theorem and_twoPow_ne_zero (x : BitVec 32) (i : ℕ) (hi : i < 32) (hx : x.toNat < 2 ^ (i + 1)) :
    (x &&& BitVec.twoPow 32 i != 0) = decide (2 ^ i ≤ x.toNat) := by
  have hpow : 2 ^ i < 2 ^ 32 := Nat.pow_lt_pow_right (by decide) hi
  have htwo : (BitVec.twoPow 32 i != 0) = true := by
    simp only [bne_iff_ne, ne_eq, BitVec.toNat_eq, BitVec.toNat_twoPow, Nat.mod_eq_of_lt hpow]
    exact (Nat.two_pow_pos i).ne'
  rw [BitVec.and_twoPow, BitVec.getLsbD, Nat.testBit_to_div_mod]
  rw [pow_succ] at hx
  by_cases h : 2 ^ i ≤ x.toNat
  · have hq : x.toNat / 2 ^ i = 1 := Nat.div_eq_of_lt_le (by omega) (by omega)
    rw [if_pos (decide_eq_true (by rw [hq])), htwo, decide_eq_true h]
  · rw [if_neg (by rw [Nat.div_eq_of_lt (by omega)]; decide), decide_eq_false h]
    rfl

theorem mul_round (P r : ℕ) (hP1 : 2 ^ 46 ≤ P) (hP2 : P < 2 ^ 48) (hr1 : 2 ^ 16 * r ≤ P)
    (hr2 : P < 2 ^ 16 * r + 3 * 2 ^ 16) :
    let M := if 2 ^ 29 ≤ r / 4 then (r / 4 + 32) / 64 else (r / 4 + 16) / 32
    let k := if 2 ^ 29 ≤ r / 4 then 24 else 23
    2 ^ 23 ≤ M ∧ M ≤ 2 ^ 24 ∧ |(M * 2 ^ k : ℤ) - P| ≤ 2 ^ (k - 1) + 3 * 2 ^ 16 := by
  intro M k
  rw [abs_le]
  by_cases h : 2 ^ 29 ≤ r / 4
  · simp only [M, k, if_pos h]
    push_cast
    omega
  · simp only [M, k, if_neg h]
    push_cast
    omega

theorem sshiftRight_toNat {x : BitVec 32} (hx : x.toNat < 2 ^ 31) (k : ℕ) :
    (x.sshiftRight k).toNat = x.toNat / 2 ^ k := by
  have hmsb : x.msb = false := by rw [BitVec.msb_eq_decide]; exact decide_eq_false (by omega)
  rw [BitVec.sshiftRight_eq_of_msb_false hmsb, BitVec.toNat_ushiftRight, Nat.shiftRight_eq_div_pow]

theorem mul_partial_toNat (x y : BitVec 32) (hx : x.toNat < 2 ^ 24) (hy : y.toNat < 2 ^ 24) :
    (x.sshiftRight 8 * y.sshiftRight 8 + ((x &&& 0xFF) * y.sshiftRight 8).sshiftRight 8 +
        ((y &&& 0xFF) * x.sshiftRight 8).sshiftRight 8).toNat =
      x.toNat / 2 ^ 8 * (y.toNat / 2 ^ 8) + x.toNat % 2 ^ 8 * (y.toNat / 2 ^ 8) / 2 ^ 8 +
        y.toNat % 2 ^ 8 * (x.toNat / 2 ^ 8) / 2 ^ 8 := by
  have hlow : ∀ z : BitVec 32, (z &&& 0xFF).toNat = z.toNat % 2 ^ 8 := fun z => by
    rw [BitVec.toNat_and, show (0xFF : BitVec 32).toNat = 2 ^ 8 - 1 from rfl,
      Nat.and_pow_two_sub_one_eq_mod]
  have hx8 := sshiftRight_toNat (show x.toNat < 2 ^ 31 by omega) 8
  have hy8 := sshiftRight_toNat (show y.toNat < 2 ^ 31 by omega) 8
  have hhh : x.toNat / 2 ^ 8 * (y.toNat / 2 ^ 8) ≤ (2 ^ 16 - 1) * (2 ^ 16 - 1) :=
    Nat.mul_le_mul (by omega) (by omega)
  have hlx : x.toNat % 2 ^ 8 * (y.toNat / 2 ^ 8) ≤ (2 ^ 8 - 1) * (2 ^ 16 - 1) :=
    Nat.mul_le_mul (by omega) (by omega)
  have hly : y.toNat % 2 ^ 8 * (x.toNat / 2 ^ 8) ≤ (2 ^ 8 - 1) * (2 ^ 16 - 1) :=
    Nat.mul_le_mul (by omega) (by omega)
  have hp1 : ((x &&& 0xFF) * y.sshiftRight 8).toNat = x.toNat % 2 ^ 8 * (y.toNat / 2 ^ 8) := by
    rw [BitVec.toNat_mul, hlow, hy8, Nat.mod_eq_of_lt (by omega)]
  have hp2 : ((y &&& 0xFF) * x.sshiftRight 8).toNat = y.toNat % 2 ^ 8 * (x.toNat / 2 ^ 8) := by
    rw [BitVec.toNat_mul, hlow, hx8, Nat.mod_eq_of_lt (by omega)]
  rw [BitVec.toNat_add, BitVec.toNat_add, BitVec.toNat_mul, hx8, hy8,
    sshiftRight_toNat (by rw [hp1]; omega), sshiftRight_toNat (by rw [hp2]; omega), hp1, hp2]
  omega

theorem mul_partial_bounds (x y : ℕ) :
    let r := x / 2 ^ 8 * (y / 2 ^ 8) + x % 2 ^ 8 * (y / 2 ^ 8) / 2 ^ 8 + y % 2 ^ 8 * (x / 2 ^ 8) / 2 ^ 8
    2 ^ 16 * r ≤ x * y ∧ x * y < 2 ^ 16 * r + 3 * 2 ^ 16 := by
  intro r
  have hxy : x * y = 2 ^ 16 * (x / 2 ^ 8 * (y / 2 ^ 8)) + 2 ^ 8 * (x % 2 ^ 8 * (y / 2 ^ 8)) +
      2 ^ 8 * (y % 2 ^ 8 * (x / 2 ^ 8)) + x % 2 ^ 8 * (y % 2 ^ 8) := by
    conv_lhs => rw [← Nat.div_add_mod x (2 ^ 8), ← Nat.div_add_mod y (2 ^ 8)]
    ring
  have hll : x % 2 ^ 8 * (y % 2 ^ 8) ≤ (2 ^ 8 - 1) * (2 ^ 8 - 1) :=
    Nat.mul_le_mul (by omega) (by omega)
  omega

theorem mulRound_eq (R e : BitVec 32) :
    let r := R.toNat / 4
    let M' := if 2 ^ 29 ≤ r then (r + 32) / 64 else (r + 16) / 32
    mulRound R e = (BitVec.ofNat 32 (if 2 ^ 24 ≤ M' then M' / 2 else M'),
      e - BitVec.ofNat 32 (if 2 ^ 29 ≤ r then 0 else 1) + BitVec.ofNat 32 (if 2 ^ 24 ≤ M' then 1 else 0)) := by
  intro r M'
  have hR := R.isLt
  have hr : (R >>> 2).toNat = r := by
    rw [BitVec.toNat_ushiftRight, Nat.shiftRight_eq_div_pow]
  have hbig : (R >>> 2 &&& 0x20000000 != 0) = decide (2 ^ 29 ≤ r) := by
    rw [show (0x20000000 : BitVec 32) = BitVec.twoPow 32 29 from rfl,
      and_twoPow_ne_zero _ 29 (by decide) (by rw [hr]; omega), hr]
  have hM'lt : M' < 2 ^ 25 := by simp only [M']; split <;> omega
  have tail : ∀ X E : BitVec 32, X.toNat = M' →
      ((if (X &&& hidden <<< 1 != 0) = true then X >>> 1 else X),
        (if (X &&& hidden <<< 1 != 0) = true then E + 1 else E)) =
      (BitVec.ofNat 32 (if 2 ^ 24 ≤ M' then M' / 2 else M'),
        E + BitVec.ofNat 32 (if 2 ^ 24 ≤ M' then 1 else 0)) := by
    intro X E hX
    rw [show hidden <<< 1 = BitVec.twoPow 32 24 from rfl,
      and_twoPow_ne_zero _ 24 (by decide) (by rw [hX]; omega), hX]
    by_cases ho : 2 ^ 24 ≤ M'
    · rw [if_pos (decide_eq_true ho), if_pos (decide_eq_true ho), if_pos ho, if_pos ho]
      refine Prod.ext (BitVec.eq_of_toNat_eq ?_) rfl
      rw [BitVec.toNat_ushiftRight, hX, Nat.shiftRight_one, BitVec.toNat_ofNat,
        Nat.mod_eq_of_lt (by omega)]
    · rw [if_neg (by simpa using ho), if_neg (by simpa using ho), if_neg ho, if_neg ho]
      refine Prod.ext (BitVec.eq_of_toNat_eq ?_) (BitVec.add_zero E).symm
      rw [hX, BitVec.toNat_ofNat, Nat.mod_eq_of_lt (by omega)]
  by_cases hb : 2 ^ 29 ≤ r
  · have hX : ((R >>> 2 + 0x20) >>> 6).toNat = M' := by
      rw [BitVec.toNat_ushiftRight, BitVec.toNat_add, hr, Nat.shiftRight_eq_div_pow,
        show (0x20 : BitVec 32).toNat = 32 from rfl, Nat.mod_eq_of_lt (by omega)]
      simp only [M', if_pos hb]
    simp only [mulRound, hbig, hb, decide_True, if_true]
    rw [tail _ _ hX, BitVec.sub_zero]
  · have hX : ((R >>> 2 + 0x10) >>> 5).toNat = M' := by
      rw [BitVec.toNat_ushiftRight, BitVec.toNat_add, hr, Nat.shiftRight_eq_div_pow,
        show (0x10 : BitVec 32).toNat = 16 from rfl, Nat.mod_eq_of_lt (by omega)]
      simp only [M', if_neg hb]
    simp only [mulRound, hbig, hb, decide_False, Bool.false_eq_true, if_false]
    rw [tail _ _ hX]
    rfl

theorem mul_exponent (a1 a2 : BitVec 32) (u v k : ℕ) (hk : k + u = 24 + v) :
    exp a1 - excess + exp a2 - BitVec.ofNat 32 u + BitVec.ofNat 32 v =
      BitVec.ofInt 32 ((a1.toNat / 2 ^ 23 % 2 ^ 8 : ℕ) + (a2.toNat / 2 ^ 23 % 2 ^ 8 : ℕ) + k - 150) := by
  have hk' : (k : BitVec 32) + u = 24 + v := by exact_mod_cast congrArg (Nat.cast (R := BitVec 32)) hk
  rw [exp_eq_natCast, exp_eq_natCast, excess, show BitVec.ofNat 32 u = (u : BitVec 32) from rfl,
    show BitVec.ofNat 32 v = (v : BitVec 32) from rfl,
    show BitVec.ofInt 32 ((a1.toNat / 2 ^ 23 % 2 ^ 8 : ℕ) + (a2.toNat / 2 ^ 23 % 2 ^ 8 : ℕ) + k - 150) =
      (((a1.toNat / 2 ^ 23 % 2 ^ 8 : ℕ) + (a2.toNat / 2 ^ 23 % 2 ^ 8 : ℕ) + k - 150 : ℤ) : BitVec 32)
      from rfl]
  generalize a1.toNat / 2 ^ 23 % 2 ^ 8 = e1
  generalize a2.toNat / 2 ^ 23 % 2 ^ 8 = e2
  have hkv : (k : BitVec 32) = 24 + v - u := by rw [← hk']; ring
  push_cast
  rw [hkv]
  ring

/-- `__mulsf3` on nonzero patterns: the mantissa `M` of the result, with its hidden bit, is the
product `m1 * m2` of the mantissas shifted right by `k` bits (23, 24 or 25) and rounded, within
half a unit of `M` and `3 * 2^16` of it, since the partial products leave out less than
`3 * 2^16`. The result packs the exclusive or of the signs, the exponent `e1 + e2 + k - 150` and
`M` without its hidden bit; that is `none` exactly when the exponent leaves `0 … 255`. -/
theorem mulsf3_rounds (a1 a2 : BitVec 32) (h1 : a1 ≠ 0) (h2 : a2 ≠ 0) :
    (let m1 : ℕ := 2 ^ 23 + a1.toNat % 2 ^ 23
     let m2 : ℕ := 2 ^ 23 + a2.toNat % 2 ^ 23
     ∃ M k : ℕ, 2 ^ 23 ≤ M ∧ M < 2 ^ 24 ∧ 23 ≤ k ∧ k ≤ 25 ∧
       mulsf3 a1 a2 = pack (sign a1 ^^^ sign a2)
         (BitVec.ofInt 32 ((a1.toNat / 2 ^ 23 % 2 ^ 8 : ℕ) + (a2.toNat / 2 ^ 23 % 2 ^ 8 : ℕ) + k - 150))
         (BitVec.ofNat 32 (M - 2 ^ 23)) ∧
       |((M * 2 ^ k : ℕ) : ℤ) - (m1 * m2 : ℕ)| ≤ 2 ^ (k - 1) + 3 * 2 ^ 16) := by
  intro m1 m2
  have hm1 : (mant a1).toNat = m1 := mant_toNat a1
  have hm2 : (mant a2).toNat = m2 := mant_toNat a2
  have hr1 := Nat.mod_lt a1.toNat (show 0 < 2 ^ 23 by decide)
  have hr2 := Nat.mod_lt a2.toNat (show 0 < 2 ^ 23 by decide)
  obtain ⟨hlo, hhi⟩ := mul_partial_bounds m1 m2
  have hR := mul_partial_toNat (mant a1) (mant a2) (by omega) (by omega)
  rw [hm1, hm2] at hR
  set r := m1 / 2 ^ 8 * (m2 / 2 ^ 8) + m1 % 2 ^ 8 * (m2 / 2 ^ 8) / 2 ^ 8 +
    m2 % 2 ^ 8 * (m1 / 2 ^ 8) / 2 ^ 8 with hr
  have hP1 : 2 ^ 46 ≤ m1 * m2 :=
    le_trans (by norm_num) (Nat.mul_le_mul (show 2 ^ 23 ≤ m1 by omega) (show 2 ^ 23 ≤ m2 by omega))
  have hP2 : m1 * m2 < 2 ^ 48 :=
    lt_of_lt_of_le (Nat.mul_lt_mul'' (show m1 < 2 ^ 24 by omega) (show m2 < 2 ^ 24 by omega))
      (by norm_num)
  obtain ⟨hM1, hM2, herr⟩ := mul_round (m1 * m2) r hP1 hP2 hlo hhi
  set M' := if 2 ^ 29 ≤ r / 4 then (r / 4 + 32) / 64 else (r / 4 + 16) / 32 with hM'
  have hk : ((if 2 ^ 29 ≤ r / 4 then 24 else 23) + if 2 ^ 24 ≤ M' then 1 else 0) +
      (if 2 ^ 29 ≤ r / 4 then 0 else 1) = 24 + if 2 ^ 24 ≤ M' then 1 else 0 := by
    split <;> omega
  have hM : 2 ^ 23 ≤ (if 2 ^ 24 ≤ M' then M' / 2 else M') ∧
      (if 2 ^ 24 ≤ M' then M' / 2 else M') < 2 ^ 24 := by
    split <;> omega
  refine ⟨if 2 ^ 24 ≤ M' then M' / 2 else M',
    (if 2 ^ 29 ≤ r / 4 then 24 else 23) + (if 2 ^ 24 ≤ M' then 1 else 0), hM.1, hM.2,
    by split <;> split <;> omega, by split <;> split <;> omega, ?_, ?_⟩
  · simp only [mulsf3, h1, h2, or_self, if_false]
    rw [mulRound_eq, hR, mul_exponent a1 a2 _ _ _ hk, and_not_hidden hM.1 hM.2]
  · rw [abs_le] at herr ⊢
    by_cases hb : 2 ^ 29 ≤ r / 4 <;> by_cases ho : 2 ^ 24 ≤ M' <;>
      simp only [hb, ho, if_true, if_false] at herr ⊢ <;> push_cast at herr ⊢ <;> omega

theorem mulsf3_rounds_two_three :
    (0x40000000 : BitVec 32) ≠ 0 ∧ (0x40400000 : BitVec 32) ≠ 0 ∧
      let m1 : ℕ := 2 ^ 23 + (0x40000000 : BitVec 32).toNat % 2 ^ 23
      let m2 : ℕ := 2 ^ 23 + (0x40400000 : BitVec 32).toNat % 2 ^ 23
      ∃ M k : ℕ, 2 ^ 23 ≤ M ∧ M < 2 ^ 24 ∧ 23 ≤ k ∧ k ≤ 25 ∧
        mulsf3 0x40000000 0x40400000 = pack (sign 0x40000000 ^^^ sign 0x40400000)
          (BitVec.ofInt 32 (((0x40000000 : BitVec 32).toNat / 2 ^ 23 % 2 ^ 8 : ℕ) +
            ((0x40400000 : BitVec 32).toNat / 2 ^ 23 % 2 ^ 8 : ℕ) + k - 150))
          (BitVec.ofNat 32 (M - 2 ^ 23)) ∧
        |((M * 2 ^ k : ℕ) : ℤ) - (m1 * m2 : ℕ)| ≤ 2 ^ (k - 1) + 3 * 2 ^ 16 :=
  ⟨by decide, by decide, mulsf3_rounds _ _ (by decide) (by decide)⟩

end HellfireOS.FloatArith
