import HellfireOS.Word

set_option autoImplicit false

/-!
# 64-bit shifts

`__ashldi3`, `__ashrdi3` and `__lshrdi3` shift the two halves of a `dwords` and carry
the bits that cross between them. The branch is chosen on `bm = 32 - b`, declared
`uint32_t`, so `bm <= 0` holds only at `b = 32`: every `b` from 33 on takes the
word-shift branch and shifts a half by `b` and by the wrapped `bm`, both out of range.
At `b = 32`, `__ashrdi3` copies the low half where the high half belongs.
-/
namespace HellfireOS.Shift64
open HellfireOS.Word

def ashldi3 (u : BitVec 64) (b : BitVec 32) : Option (BitVec 64) :=
  if b = 0 then some u
  else
    let uu := Dwords.ofAll u
    let bm := 32 - b
    if bm ≤ 0 then do
      let high ← shl uu.low (-bm)
      pure (Dwords.mk high 0).all
    else do
      let carries ← lshr uu.low bm
      let low ← shl uu.low b
      let high ← shl uu.high b
      pure (Dwords.mk (high ||| carries) low).all

def ashrdi3 (u : BitVec 64) (b : BitVec 32) : Option (BitVec 64) :=
  if b = 0 then some u
  else
    let uu := Dwords.ofAll u
    let bm := 32 - b
    if bm ≤ 0 then do
      let high ← ashr uu.high 31
      let low ← lshr uu.low (-bm)
      pure (Dwords.mk high low).all
    else do
      let carries ← shl uu.high bm
      let high ← ashr uu.high b
      let low ← lshr uu.low b
      pure (Dwords.mk high (low ||| carries)).all

def lshrdi3 (u : BitVec 64) (b : BitVec 32) : Option (BitVec 64) :=
  if b = 0 then some u
  else
    let uu := Dwords.ofAll u
    let bm := 32 - b
    if bm ≤ 0 then do
      let low ← lshr uu.high (-bm)
      pure (Dwords.mk 0 low).all
    else do
      let carries ← shl uu.high bm
      let high ← lshr uu.high b
      let low ← lshr uu.low b
      pure (Dwords.mk high (low ||| carries)).all

theorem bm_cases (b : BitVec 32) (hb : b ≠ 0) :
    (0 < b.toNat ∧ b.toNat < 32 ∧ (32 - b).toNat = 32 - b.toNat) ∨ b = 32 ∨
    (32 < b.toNat ∧ 32 ≤ (32 - b).toNat) := by
  have : b.toNat ≠ 0 := fun h => hb (BitVec.eq_of_toNat_eq (by simpa using h))
  bv_omega

theorem ashl_carry (u : BitVec 64) (n : ℕ) (h1 : 0 < n) (h2 : n < 32) :
    (Dwords.mk ((Dwords.ofAll u).high <<< n ||| (Dwords.ofAll u).low >>> (32 - n))
      ((Dwords.ofAll u).low <<< n)).all = u <<< n := by
  ext i
  have hi := i.isLt
  simp only [Dwords.all, Dwords.ofAll, BitVec.getLsbD_append, BitVec.getLsbD_or,
    BitVec.getLsbD_shiftLeft, BitVec.getLsbD_ushiftRight, BitVec.getLsbD_extractLsb']
  by_cases h : (i : ℕ) < 32
  · simp only [h, hi, decide_True, Bool.true_and, show (i : ℕ) - n < 32 by omega, zero_add, cond_true]
  · have hn : ¬ (i : ℕ) < n := by omega
    simp only [h, hi, hn, decide_True, decide_False, Bool.true_and, Bool.false_and, Bool.not_false,
      Bool.and_true, cond_false, zero_add]
    by_cases h' : (i : ℕ) - 32 < n
    · simp only [h', show 32 - n + ((i : ℕ) - 32) = i - n by omega, show (i : ℕ) - n < 32 by omega,
        decide_True, Bool.not_true, Bool.and_false, Bool.false_or, Bool.and_self, Bool.false_and,
        Bool.true_and]
    · simp only [h', show (i : ℕ) - 32 < 32 by omega, show (i : ℕ) - 32 - n < 32 by omega,
        show 32 + ((i : ℕ) - 32 - n) = i - n by omega, show ¬ 32 - n + ((i : ℕ) - 32) < 32 by omega,
        decide_True, decide_False, Bool.not_false, Bool.and_self, Bool.and_false, Bool.or_false,
        Bool.true_and, Bool.false_and]

theorem rshift_low (u : BitVec 64) (n : ℕ) (h1 : 0 < n) (h2 : n < 32) (i : ℕ) (hi : i < 32) :
    ((Dwords.ofAll u).low >>> n ||| (Dwords.ofAll u).high <<< (32 - n)).getLsbD i =
      u.getLsbD (n + i) := by
  simp only [Dwords.ofAll, BitVec.getLsbD_or, BitVec.getLsbD_shiftLeft,
    BitVec.getLsbD_ushiftRight, BitVec.getLsbD_extractLsb']
  simp only [hi, decide_True, Bool.true_and, zero_add]
  by_cases h : n + i < 32
  · simp only [h, show i < 32 - n by omega, decide_True, Bool.not_true, Bool.and_false,
      Bool.false_and, Bool.or_false, Bool.true_and]
  · simp only [h, show ¬ i < 32 - n by omega, show i - (32 - n) < 32 by omega,
      show 32 + (i - (32 - n)) = n + i by omega, decide_True, decide_False, Bool.not_false,
      Bool.false_and, Bool.true_and, Bool.false_or]

theorem lshr_carry (u : BitVec 64) (n : ℕ) (h1 : 0 < n) (h2 : n < 32) :
    (Dwords.mk ((Dwords.ofAll u).high >>> n)
      ((Dwords.ofAll u).low >>> n ||| (Dwords.ofAll u).high <<< (32 - n))).all = u >>> n := by
  ext i
  have hi := i.isLt
  simp only [Dwords.all, BitVec.getLsbD_append, BitVec.getLsbD_ushiftRight]
  by_cases h : (i : ℕ) < 32
  · simp only [h, decide_True, rshift_low u n h1 h2 i h, cond_true]
  · simp only [h, decide_False, cond_false, Dwords.ofAll, BitVec.getLsbD_extractLsb', zero_add]
    by_cases h' : n + ((i : ℕ) - 32) < 32
    · simp only [h', show 32 + (n + ((i : ℕ) - 32)) = n + i by omega, decide_True, Bool.true_and]
    · simp only [h', BitVec.getLsbD_ge u (n + i) (by omega), decide_False, Bool.false_and]

theorem ashr_carry (u : BitVec 64) (n : ℕ) (h1 : 0 < n) (h2 : n < 32) :
    (Dwords.mk ((Dwords.ofAll u).high.sshiftRight n)
      ((Dwords.ofAll u).low >>> n ||| (Dwords.ofAll u).high <<< (32 - n))).all =
      u.sshiftRight n := by
  ext i
  have hi := i.isLt
  simp only [Dwords.all, BitVec.getLsbD_append, BitVec.getLsbD_sshiftRight,
    BitVec.msb_eq_getLsbD_last, show ¬ 64 ≤ (i : ℕ) by omega, if_false, decide_False,
    Bool.not_false, Bool.true_and]
  by_cases h : (i : ℕ) < 32
  · simp only [h, decide_True, cond_true, rshift_low u n h1 h2 i h, show n + (i : ℕ) < 64 by omega,
      if_true]
  · simp only [h, decide_False, cond_false, Dwords.ofAll, BitVec.getLsbD_extractLsb',
      show ¬32 ≤ (i : ℕ) - 32 by omega, if_false, zero_add, Nat.add_one_sub_one, Bool.not_false]
    by_cases h' : n + ((i : ℕ) - 32) < 32
    · simp only [h', show 32 + (n + ((i : ℕ) - 32)) = n + i by omega, show n + (i : ℕ) < 64 by omega,
        if_true, decide_True, Bool.true_and]
    · simp only [h', show ¬ n + (i : ℕ) < 64 by omega, if_false, decide_True, Bool.true_and, Nat.lt_add_one,
        Nat.reduceAdd]

theorem ashl_word (u : BitVec 64) : (Dwords.mk (Dwords.ofAll u).low 0).all = u <<< 32 := by
  ext i
  simp only [Dwords.all, Dwords.ofAll, BitVec.getLsbD_append, BitVec.getLsbD_shiftLeft,
    BitVec.getLsbD_extractLsb']
  by_cases h : (i : ℕ) < 32 <;> simp [h, i.isLt, show (i : ℕ) - 32 < 32 by omega]

theorem lshr_word (u : BitVec 64) : (Dwords.mk 0 (Dwords.ofAll u).high).all = u >>> 32 := by
  ext i
  simp only [Dwords.all, Dwords.ofAll, BitVec.getLsbD_append, BitVec.getLsbD_ushiftRight,
    BitVec.getLsbD_extractLsb']
  by_cases h : (i : ℕ) < 32
  · simp [h, Nat.add_comm]
  · simp [h, BitVec.getLsbD_ge u (32 + i) (by omega)]

theorem not_bm_le_zero {b : BitVec 32} (h : 0 < (32 - b).toNat) : ¬ (32 - b ≤ 0) :=
  fun h' => absurd (show (32 - b).toNat ≤ 0 from h') (by omega)

theorem ashldi3_eq (u : BitVec 64) (b : BitVec 32) :
    ashldi3 u b = if b.toNat ≤ 32 then some (u <<< b.toNat) else none := by
  by_cases hb : b = 0
  · simp [ashldi3, hb]
  rcases bm_cases b hb with ⟨hpos, hlt, hbm⟩ | rfl | ⟨hgt, hbm⟩
  · rw [ashldi3, if_neg hb]
    dsimp only
    rw [if_neg (not_bm_le_zero (by omega)), lshr_of_lt _ (32 - b) (by omega), shl_of_lt _ _ hlt,
      shl_of_lt _ _ hlt, if_pos (by omega), hbm]
    exact congrArg some (ashl_carry u b.toNat hpos hlt)
  · simp only [ashldi3]
    simp [shl]
    exact ashl_word u
  · rw [ashldi3, if_neg hb]
    dsimp only
    rw [if_neg (not_bm_le_zero (by omega)), lshr, if_neg (by omega), if_neg (by omega)]
    rfl

theorem lshrdi3_eq (u : BitVec 64) (b : BitVec 32) :
    lshrdi3 u b = if b.toNat ≤ 32 then some (u >>> b.toNat) else none := by
  by_cases hb : b = 0
  · simp [lshrdi3, hb]
  rcases bm_cases b hb with ⟨hpos, hlt, hbm⟩ | rfl | ⟨hgt, hbm⟩
  · rw [lshrdi3, if_neg hb]
    dsimp only
    rw [if_neg (not_bm_le_zero (by omega)), shl_of_lt _ (32 - b) (by omega), lshr_of_lt _ _ hlt,
      lshr_of_lt _ _ hlt, if_pos (by omega), hbm]
    exact congrArg some (lshr_carry u b.toNat hpos hlt)
  · simp only [lshrdi3]
    simp [lshr]
    exact lshr_word u
  · rw [lshrdi3, if_neg hb]
    dsimp only
    rw [if_neg (not_bm_le_zero (by omega)), shl, if_neg (by omega), if_neg (by omega)]
    rfl

theorem ashrdi3_eq (u : BitVec 64) (b : BitVec 32) :
    ashrdi3 u b =
      if b.toNat < 32 then some (u.sshiftRight b.toNat)
      else if b = 32 then
        some (Dwords.mk ((Dwords.ofAll u).high.sshiftRight 31) (Dwords.ofAll u).low).all
      else none := by
  by_cases hb : b = 0
  · simp [ashrdi3, hb]
  rcases bm_cases b hb with ⟨hpos, hlt, hbm⟩ | rfl | ⟨hgt, hbm⟩
  · rw [ashrdi3, if_neg hb]
    dsimp only
    rw [if_neg (not_bm_le_zero (by omega)), shl_of_lt _ (32 - b) (by omega), ashr_of_lt _ _ hlt,
      lshr_of_lt _ _ hlt, if_pos hlt, hbm]
    exact congrArg some (ashr_carry u b.toNat hpos hlt)
  · simp [ashrdi3, ashr, lshr]
  · rw [ashrdi3, if_neg hb]
    dsimp only
    rw [if_neg (not_bm_le_zero (by omega)), shl, if_neg (by omega), if_neg (by omega),
      if_neg (by rintro rfl; exact absurd hgt (by decide))]
    rfl

/-- At `b = 33` all three shift a half by an out-of-range amount; at `b = 32`, `__ashrdi3`
of `2^32` gives `0` where the arithmetic shift gives `1`. -/
theorem shifts_at_thirty_two_and_three :
    ashldi3 1 33 = none ∧ lshrdi3 1 33 = none ∧ ashrdi3 1 33 = none ∧
      ashrdi3 4294967296 32 = some 0 ∧ (4294967296 : BitVec 64).sshiftRight 32 = 1 := by
  refine ⟨?_, ?_, ?_, ?_, ?_⟩
  · rw [ashldi3_eq]; decide
  · rw [lshrdi3_eq]; decide
  · rw [ashrdi3_eq]; decide
  · rw [ashrdi3_eq]; decide
  · decide

end HellfireOS.Shift64
