import HellfireOS.FloatArith

set_option autoImplicit false

/-!
# Single-float addition and subtraction

`__addsf3` returns one argument unchanged when the other is the pattern 0 or lies more than 25
exponents below it. Otherwise it gives both mantissas six extra bits and their signs, shifts the
one of the smaller exponent right arithmetically, adds, and works on the magnitude of the sum:
a loop shifts it left until one of bits 29 to 31 is set, a set bit 30 is shifted out, the six
extra bits are rounded to even, a carry into bit 30 is shifted out again, and the result is
packed. `__subsf3` flips the sign bit of its second argument and adds.

Addition is commutative on every pair of patterns, subtraction is addition of the `__negsf2`
of the second argument, and `x - x` is the pattern 0 for every pattern but `0x80000000`, whose
negation is the pattern 0 and which comes back unchanged. `__negsf2` negates every value but
that of `0x80000000`, and so reverses the order `__cmpsf2` decides.
-/
namespace HellfireOS.FloatArith
open HellfireOS.SoftFloat (runLoop runLoop_of_not_cond runLoop_succ_of_cond)

/-- `MANT(fl.l) << 6`, negated when `SIGN(fl.l)` is set. -/
def signedMant (fl : BitVec 32) : BitVec 32 :=
  if sign fl ≠ 0 then -(mant fl <<< 6) else mant fl <<< 6

/-- `if (exp1 > exp2) mant2 >>= exp1 - exp2; else { mant1 >>= exp2 - exp1; exp1 = exp2; }`
followed by `mant1 += mant2`: the aligned sum and its exponent. -/
def align (a1 a2 : BitVec 32) : BitVec 32 × BitVec 32 :=
  if (exp a2).slt (exp a1) then
    (signedMant a1 + (signedMant a2).sshiftRight (exp a1 - exp a2).toNat, exp a1)
  else ((signedMant a1).sshiftRight (exp a2 - exp a1).toNat + signedMant a2, exp a2)

/-- `while (!(mant1 & 0xE0000000)) { mant1 <<= 1; exp1--; }` over `(mant1, exp1)`. -/
def normalizeUp (fuel : ℕ) (s : BitVec 32 × BitVec 32) : Option (BitVec 32 × BitVec 32) :=
  runLoop (fun s => s.1 &&& 0xE0000000 == 0) (fun s => (s.1 <<< 1, s.2 - 1)) fuel s

/-- `if (mant1 & (1 << 30)) { mant1 >>= 1; exp1++; }`. -/
def normalizeDown (s : BitVec 32 × BitVec 32) : BitVec 32 × BitVec 32 :=
  if s.1 &&& 1 <<< 30 != 0 then (s.1.sshiftRight 1, s.2 + 1) else s

/-- From the normalised magnitude on, with `sgn` the sign of the sum: normalise down, round to
even on the six extra bits (`mant1 += (mant1 & 0x40) ? 0x20 : 0x1F`), normalise down again,
drop the extra bits and the hidden bit, and pack. -/
def roundPack (sgn : BitVec 32) (s : BitVec 32 × BitVec 32) : Option (BitVec 32) :=
  let s := normalizeDown s
  let s := normalizeDown (s.1 + (if s.1 &&& 0x40 != 0 then 0x20 else 0x1F), s.2)
  pack sgn s.2 (s.1.sshiftRight 6 &&& ~~~hidden)

/-- `__addsf3`. A negative sum is negated and gives the sign `SIGNBIT`; a zero sum is the
pattern 0. -/
def addsf3 (fuel : ℕ) (a1 a2 : BitVec 32) : Option (BitVec 32) :=
  if a1 = 0 then some a2
  else if a2 = 0 then some a1
  else if (exp a2 + 25).slt (exp a1) then some a1
  else if (exp a1 + 25).slt (exp a2) then some a2
  else
    let s := align a1 a2
    if s.1.slt 0 then do roundPack signBit (← normalizeUp fuel (-s.1, s.2))
    else if s.1 = 0 then some 0
    else do roundPack 0 (← normalizeUp fuel (s.1, s.2))

/-- `__subsf3`: `-fl2.f`, for a nonzero `fl2.l`, is `__negsf2`. -/
def subsf3 (fuel : ℕ) (a1 a2 : BitVec 32) : Option (BitVec 32) :=
  if a2 = 0 then some a1
  else if a1 = 0 then some (negsf2 a2)
  else addsf3 fuel a1 (a2 ^^^ signBit)

theorem slt_iff_lt {x y : BitVec 32} (hx : x.toNat < 2 ^ 31) (hy : y.toNat < 2 ^ 31) :
    x.slt y = decide (x.toNat < y.toNat) := by
  rw [slt_eq, toInt_eq_cond, toInt_eq_cond, if_pos hx, if_pos hy]
  simp only [Nat.cast_lt]

theorem exp_lt (p : BitVec 32) : (exp p).toNat < 2 ^ 8 := by
  rw [exp_toNat]
  omega

theorem exp_gap (a1 a2 : BitVec 32) :
    (exp a2 + 25).slt (exp a1) = decide ((exp a2).toNat + 25 < (exp a1).toNat) := by
  have h1 := exp_lt a1
  have h2 := exp_lt a2
  have hsum : (exp a2 + 25).toNat = (exp a2).toNat + 25 := by
    rw [BitVec.toNat_add, show (25 : BitVec 32).toNat = 25 from rfl, Nat.mod_eq_of_lt (by omega)]
  rw [slt_iff_lt (by omega) (by omega), hsum]

theorem align_comm (a1 a2 : BitVec 32) : align a2 a1 = align a1 a2 := by
  have h1 := exp_lt a1
  have h2 := exp_lt a2
  unfold align
  rw [slt_iff_lt (by omega) (by omega), slt_iff_lt (by omega) (by omega)]
  rcases Nat.lt_trichotomy (exp a1).toNat (exp a2).toNat with h | h | h
  · rw [if_pos (decide_eq_true h), if_neg (by simpa using h.le), BitVec.add_comm]
  · have he : exp a1 = exp a2 := BitVec.eq_of_toNat_eq h
    rw [if_neg (by simp [h]), if_neg (by simp [h]), he, BitVec.sub_self,
      show (0#32).toNat = 0 from rfl, BitVec.sshiftRight_zero, BitVec.sshiftRight_zero,
      BitVec.add_comm]
  · rw [if_neg (by simpa using h.le), if_pos (decide_eq_true h), BitVec.add_comm]

/-- `__addsf3` is commutative on every pair of patterns. -/
theorem addsf3_comm (fuel : ℕ) (a1 a2 : BitVec 32) : addsf3 fuel a1 a2 = addsf3 fuel a2 a1 := by
  by_cases h1 : a1 = 0
  · subst h1
    by_cases h2 : a2 = 0
    · rw [h2]
    · unfold addsf3
      rw [if_pos rfl, if_neg h2, if_pos rfl]
  by_cases h2 : a2 = 0
  · subst h2
    unfold addsf3
    rw [if_neg h1, if_pos rfl, if_pos rfl]
  simp only [addsf3, h1, h2, if_false, exp_gap, align_comm a2 a1]
  by_cases g1 : (exp a2).toNat + 25 < (exp a1).toNat
  · rw [if_pos (decide_eq_true g1), if_neg (by simpa using by omega), if_pos (decide_eq_true g1)]
  · by_cases g2 : (exp a1).toNat + 25 < (exp a2).toNat <;> simp [g1, g2]

theorem subsf3_eq_addsf3 (fuel : ℕ) (a1 a2 : BitVec 32) :
    subsf3 fuel a1 a2 = addsf3 fuel a1 (negsf2 a2) := by
  unfold subsf3 negsf2
  by_cases h2 : a2 = 0
  · rw [if_pos h2, if_pos h2]
    unfold addsf3
    by_cases h1 : a1 = 0
    · rw [if_pos h1, h1]
    · rw [if_neg h1, if_pos rfl]
  · rw [if_neg h2, if_neg h2]
    by_cases h1 : a1 = 0
    · subst h1
      unfold addsf3
      rw [if_pos rfl, if_pos rfl]
    · rw [if_neg h1]

theorem xor_signBit_toNat_of_lt {p : BitVec 32} (h : p.toNat < 2 ^ 31) :
    (p ^^^ signBit).toNat = p.toNat + 2 ^ 31 := by
  rw [BitVec.toNat_xor, show signBit.toNat = 2 ^ 31 from rfl]
  apply Nat.eq_of_testBit_eq
  intro i
  rw [Nat.testBit_xor, Nat.testBit_two_pow, Nat.add_comm]
  rcases Nat.lt_trichotomy i 31 with hi | rfl | hi
  · rw [Nat.testBit_two_pow_add_gt hi, decide_eq_false (by omega), Bool.xor_false]
  · rw [Nat.testBit_two_pow_add_eq, Nat.testBit_lt_two_pow h]
    rfl
  · have h2 : 2 ^ 32 ≤ 2 ^ i := Nat.pow_le_pow_right (by decide) hi
    rw [Nat.testBit_lt_two_pow (show 2 ^ 31 + p.toNat < 2 ^ i by omega),
      Nat.testBit_lt_two_pow (show p.toNat < 2 ^ i by omega), decide_eq_false (by omega)]
    rfl

theorem exp_mant_xor_signBit (p : BitVec 32) :
    exp (p ^^^ signBit) = exp p ∧ mant (p ^^^ signBit) = mant p := by
  have hx : (p ^^^ signBit).toNat % 2 ^ 31 = p.toNat % 2 ^ 31 := by
    by_cases h : p.toNat < 2 ^ 31
    · rw [xor_signBit_toNat_of_lt h]
      omega
    · rw [xor_signBit_toNat (by omega)]
      omega
  constructor <;> apply BitVec.eq_of_toNat_eq
  · rw [exp_toNat, exp_toNat]
    omega
  · rw [mant_toNat, mant_toNat]
    omega

theorem signedMant_xor_signBit (p : BitVec 32) :
    signedMant (p ^^^ signBit) = -signedMant p := by
  have hs : signBit ≠ 0 := by decide
  rw [signedMant, signedMant, (exp_mant_xor_signBit p).2, sign_eq, sign_eq]
  by_cases h : p.toNat < 2 ^ 31
  · simp only [xor_signBit_toNat_of_lt h, show ¬ p.toNat + 2 ^ 31 < 2 ^ 31 by omega, h, if_true,
      if_false, ne_eq, hs, not_false_eq_true, not_true_eq_false]
  · simp only [xor_signBit_toNat (show 2 ^ 31 ≤ p.toNat by omega),
      show p.toNat - 2 ^ 31 < 2 ^ 31 by omega, h, if_true, if_false, ne_eq, hs, not_false_eq_true,
      not_true_eq_false, BitVec.neg_neg]

theorem xor_signBit_ne_zero {a : BitVec 32} (hs : a ≠ signBit) : a ^^^ signBit ≠ 0 :=
  fun h => hs (calc
    a = a ^^^ signBit ^^^ signBit := by rw [BitVec.xor_assoc, BitVec.xor_self, BitVec.xor_zero]
    _ = signBit := by rw [h]; decide)

/-- `x - x` is the pattern 0 for every pattern but `SIGNBIT`, whose negation is 0 and which
`__addsf3` then returns unchanged. -/
theorem subsf3_self (fuel : ℕ) (a : BitVec 32) :
    subsf3 fuel a a = some (if a = signBit then signBit else 0) := by
  by_cases h0 : a = 0
  · subst h0
    rfl
  by_cases hs : a = signBit
  · subst hs
    rfl
  have hb := xor_signBit_ne_zero hs
  obtain ⟨he, -⟩ := exp_mant_xor_signBit a
  have h1 := exp_lt a
  rw [subsf3, if_neg h0, if_neg h0, addsf3, if_neg h0, if_neg hb, exp_gap, exp_gap, he,
    if_neg (by simp), if_neg (by simp), if_neg hs]
  have hsum : (align a (a ^^^ signBit)).1 = 0 := by
    rw [align, he, slt_iff_lt (by omega) (by omega), if_neg (by simp), BitVec.sub_self,
      show (0#32).toNat = 0 from rfl, BitVec.sshiftRight_zero, signedMant_xor_signBit]
    exact add_neg_cancel _
  dsimp only
  rw [hsum, if_neg (by decide), if_pos rfl]

theorem value_negsf2 (a : BitVec 32) :
    value (negsf2 a) = if a = signBit then 0 else -value a := by
  by_cases h0 : a = 0
  · subst h0
    rfl
  by_cases hs : a = signBit
  · subst hs
    rfl
  have hx0 := xor_signBit_ne_zero hs
  have ha : a.toNat ≠ 2 ^ 31 := fun h => hs (BitVec.eq_of_toNat_eq h)
  rw [negsf2, if_neg h0, if_neg hs, value, value, if_neg hx0, if_neg h0]
  by_cases hlt : a.toNat < 2 ^ 31
  · rw [xor_signBit_toNat_of_lt hlt, if_pos hlt, if_neg (by omega), Nat.add_sub_cancel]
  · have := a.isLt
    rw [xor_signBit_toNat (by omega), if_neg hlt, if_pos (by omega), neg_neg]

/-- `__negsf2` sends `SIGNBIT` to the pattern 0; away from it, it negates values and so
reverses `__cmpsf2`. -/
theorem negsf2_reverses (a b : BitVec 32) (ha : a ≠ signBit) (hb : b ≠ signBit) :
    negsf2 signBit = 0 ∧ value (negsf2 a) = -value a ∧
      cmpsf2 (negsf2 a) (negsf2 b) = cmpsf2 b a := by
  have hva : value (negsf2 a) = -value a := by rw [value_negsf2, if_neg ha]
  have hvb : value (negsf2 b) = -value b := by rw [value_negsf2, if_neg hb]
  refine ⟨rfl, hva, ?_⟩
  simp only [cmpsf2_eq_ite, hva, hvb, neg_lt_neg_iff, neg_inj, @eq_comm _ (value a)]

theorem negsf2_reverses_one_two :
    (0x3F800000 : BitVec 32) ≠ signBit ∧ (0x40000000 : BitVec 32) ≠ signBit ∧
      negsf2 signBit = 0 ∧ value (negsf2 0x3F800000) = -value 0x3F800000 ∧
      cmpsf2 (negsf2 0x3F800000) (negsf2 0x40000000) = cmpsf2 0x40000000 0x3F800000 :=
  ⟨by decide, by decide, negsf2_reverses _ _ (by decide) (by decide)⟩

end HellfireOS.FloatArith
