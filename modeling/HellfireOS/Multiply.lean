import HellfireOS.Word
import Mathlib.Data.BitVec

set_option autoImplicit false

/-!
# Software multiplication

`__mulsi3` is shift-and-add over the bits of `b`; `__muldsi3` builds the exact 64-bit
product of two 32-bit words from four 16-bit partial products; `__muldi3` adds the two
cross products of the halves to the high word of `__muldsi3` of the low halves.
-/
namespace HellfireOS.Multiply
open HellfireOS.Loop HellfireOS.Word

/-- The variables of `__mulsi3`'s `while (b)` loop. -/
structure Mulsi3State where
  answer : BitVec 32
  a : BitVec 32
  b : BitVec 32

def mulsi3Step (s : Mulsi3State) : Mulsi3State :=
  { answer := if s.b &&& 1 != 0 then s.answer + s.a else s.answer
    a := s.a <<< 1
    b := s.b >>> 1 }

/-- `__mulsi3`: the loop over the 32 bits of `b`. -/
def mulsi3 (a b : BitVec 32) : BitVec 32 :=
  (loopWhile (fun s => s.b != 0) mulsi3Step 32 ⟨0, a, b⟩).answer

theorem and_one_toNat (b : BitVec 32) : (b &&& 1).toNat = b.toNat % 2 := by simp

theorem halve_add_bit (b : BitVec 32) : b = (b >>> 1) + (b >>> 1) + (b &&& 1) := by
  have := and_one_toNat b
  bv_omega

theorem shiftLeft_one_eq_add (a : BitVec 32) : a <<< 1 = a + a := by
  bv_omega

theorem mulsi3Step_answer (s : Mulsi3State) :
    (mulsi3Step s).answer + (mulsi3Step s).a * (mulsi3Step s).b = s.answer + s.a * s.b := by
  have hbit : s.b &&& 1 = if s.b &&& 1 != 0 then 1 else 0 := by
    have := and_one_toNat s.b
    split <;> simp_all only [bne_iff_ne, ne_eq, Decidable.not_not]
    bv_omega
  simp only [mulsi3Step, shiftLeft_one_eq_add]
  conv_rhs => rw [halve_add_bit s.b, hbit]
  split <;> ring

theorem mulsi3_loop_exits (a b : BitVec 32) :
    (loopWhile (fun s => s.b != 0) mulsi3Step 32 ⟨0, a, b⟩).b = 0 := by
  have h := loopWhile_exit (fun s : Mulsi3State => s.b != 0) mulsi3Step
    (fun n s => s.b.toNat < 2 ^ n)
    (fun n s (hs : s.b.toNat < 2 ^ (n + 1)) _ => by
      simp only [mulsi3Step, BitVec.toNat_ushiftRight, Nat.shiftRight_one]
      rw [Nat.pow_succ] at hs
      omega)
    (fun s (hs : s.b.toNat < 2 ^ 0) => by
      simp only [bne_eq_false_iff_eq]
      bv_omega) 32 ⟨0, a, b⟩ b.isLt
  simpa using h

theorem mulsi3_eq (a b : BitVec 32) : mulsi3 a b = a * b := by
  have inv := loopWhile_invariant (fun s : Mulsi3State => s.b != 0) mulsi3Step
    (fun s => s.answer + s.a * s.b = a * b)
    (fun s hs _ => (mulsi3Step_answer s).trans hs) 32 ⟨0, a, b⟩ (by simp)
  dsimp only at inv
  rw [mulsi3_loop_exits, mul_zero, add_zero] at inv
  exact inv

/-- `lower_mask` of `__muldsi3`: `(uint32_t)~0 >> bits_in_word_2`. -/
def lowerMask : BitVec 32 := ~~~(0 : BitVec 32) >>> 16

/-- `__muldsi3`: the full product of two words from 16-bit halves, each assignment of the
source in order (`bits_in_word_2 = 16`, `lower_mask = 0xffff`). -/
def muldsi3 (a b : BitVec 32) : BitVec 64 :=
  let low := (a &&& lowerMask) * (b &&& lowerMask)
  let t := low >>> 16
  let low := low &&& lowerMask
  let t := t + (a >>> 16) * (b &&& lowerMask)
  let low := low + ((t &&& lowerMask) <<< 16)
  let high := t >>> 16
  let t := low >>> 16
  let low := low &&& lowerMask
  let t := t + (b >>> 16) * (a &&& lowerMask)
  let low := low + ((t &&& lowerMask) <<< 16)
  let high := high + (t >>> 16)
  let high := high + (a >>> 16) * (b >>> 16)
  (Dwords.mk high low).all

/-- `__muldi3`: the low halves' full product, plus both cross products in the high word. -/
def muldi3 (a b : BitVec 64) : BitVec 64 :=
  let x := Dwords.ofAll a
  let y := Dwords.ofAll b
  let r := Dwords.ofAll (muldsi3 x.low y.low)
  (Dwords.mk (r.high + (mulsi3 x.high y.low + mulsi3 x.low y.high)) r.low).all

theorem and_lowerMask_toNat (x : BitVec 32) : (x &&& lowerMask).toNat = x.toNat % 2 ^ 16 := by
  have : lowerMask = BitVec.ofNat 32 (2 ^ 16 - 1) := by decide
  rw [this, BitVec.toNat_and, BitVec.toNat_ofNat, Nat.mod_eq_of_lt (by decide),
    Nat.and_pow_two_sub_one_eq_mod]

theorem fold_cross_toNat (low p : BitVec 32) (hp : p.toNat < 2 ^ 32 - 2 ^ 16) :
    ((low &&& lowerMask) +
        ((((low >>> 16) + p) &&& lowerMask) <<< 16)).toNat +
      (((low >>> 16) + p) >>> 16).toNat * 2 ^ 32 = low.toNat + p.toNat * 2 ^ 16 := by
  have := low.isLt
  simp only [BitVec.toNat_add, BitVec.toNat_ushiftRight, BitVec.toNat_shiftLeft,
    and_lowerMask_toNat, Nat.shiftRight_eq_div_pow, Nat.shiftLeft_eq]
  omega

theorem half_product_toNat (x y : BitVec 32) (hx : x.toNat < 2 ^ 16) (hy : y.toNat < 2 ^ 16) :
    (x * y).toNat = x.toNat * y.toNat :=
  BitVec.toNat_mul_of_lt (Nat.lt_of_lt_of_le (Nat.mul_lt_mul'' hx hy) (by decide))

theorem muldsi3_toNat (a b : BitVec 32) : (muldsi3 a b).toNat = a.toNat * b.toNat := by
  have ha := a.isLt
  have hb := b.isLt
  have a0 : (a &&& lowerMask).toNat < 2 ^ 16 := by
    rw [and_lowerMask_toNat]; exact Nat.mod_lt _ (by decide)
  have b0 : (b &&& lowerMask).toNat < 2 ^ 16 := by
    rw [and_lowerMask_toNat]; exact Nat.mod_lt _ (by decide)
  have a1 : (a >>> 16).toNat < 2 ^ 16 := by simp only [BitVec.toNat_ushiftRight]; omega
  have b1 : (b >>> 16).toNat < 2 ^ 16 := by simp only [BitVec.toNat_ushiftRight]; omega
  have bound : ∀ x y : ℕ, x < 2 ^ 16 → y < 2 ^ 16 → x * y < 2 ^ 32 - 2 ^ 16 := fun x y hx hy =>
    Nat.lt_of_le_of_lt (Nat.mul_le_mul (Nat.le_pred_of_lt hx) (Nat.le_pred_of_lt hy)) (by decide)
  have split : a.toNat * b.toNat =
      (a >>> 16).toNat * (b >>> 16).toNat * 2 ^ 32 +
      ((a >>> 16).toNat * (b &&& lowerMask).toNat +
        (b >>> 16).toNat * (a &&& lowerMask).toNat) * 2 ^ 16 +
      (a &&& lowerMask).toNat * (b &&& lowerMask).toNat := by
    simp only [and_lowerMask_toNat, BitVec.toNat_ushiftRight, Nat.shiftRight_eq_div_pow]
    conv_lhs => rw [← Nat.div_add_mod a.toNat (2 ^ 16), ← Nat.div_add_mod b.toNat (2 ^ 16)]
    ring
  have c1 := fold_cross_toNat ((a &&& lowerMask) * (b &&& lowerMask))
    ((a >>> 16) * (b &&& lowerMask)) (half_product_toNat _ _ a1 b0 ▸ bound _ _ a1 b0)
  have c2 := fold_cross_toNat
    (((a &&& lowerMask) * (b &&& lowerMask) &&& lowerMask) +
      (((((a &&& lowerMask) * (b &&& lowerMask)) >>> 16) + (a >>> 16) * (b &&& lowerMask)) &&&
        lowerMask) <<< 16)
    ((b >>> 16) * (a &&& lowerMask)) (half_product_toNat _ _ b1 a0 ▸ bound _ _ b1 a0)
  rw [half_product_toNat _ _ a0 b0, half_product_toNat _ _ a1 b0] at c1
  rw [half_product_toNat _ _ b1 a0] at c2
  have total := Nat.mul_lt_mul'' ha hb
  simp only [muldsi3, Dwords.toNat_all]
  rw [BitVec.toNat_add _ ((a >>> 16) * (b >>> 16)), BitVec.toNat_add ((_ : BitVec 32) >>> (16 : ℕ)) ((_ : BitVec 32) >>> (16 : ℕ)),
    half_product_toNat _ _ a1 b1]
  omega

theorem muldi3_eq (a b : BitVec 64) : muldi3 a b = a * b := by
  apply BitVec.eq_of_toNat_eq
  have split : a.toNat * b.toNat =
      (a.toNat / 2 ^ 32) * (b.toNat / 2 ^ 32) * 2 ^ 64 +
      ((a.toNat / 2 ^ 32) * (b.toNat % 2 ^ 32) + (a.toNat % 2 ^ 32) * (b.toNat / 2 ^ 32)) * 2 ^ 32 +
      (a.toNat % 2 ^ 32) * (b.toNat % 2 ^ 32) := by
    conv_lhs => rw [← Nat.div_add_mod a.toNat (2 ^ 32), ← Nat.div_add_mod b.toNat (2 ^ 32)]
    ring
  have low := muldsi3_toNat (Dwords.ofAll a).low (Dwords.ofAll b).low
  rw [← Dwords.all_ofAll (muldsi3 _ _), Dwords.toNat_all] at low
  simp only [muldi3, Dwords.toNat_all, BitVec.toNat_add, mulsi3_eq, BitVec.toNat_mul,
    BitVec.toNat_mul, Dwords.ofAll_high_toNat, Dwords.ofAll_low_toNat] at low ⊢
  omega

theorem mulsi3_muldsi3_muldi3 :
    (∀ a b : BitVec 32, mulsi3 a b = a * b) ∧
    (∀ a b : BitVec 32, (muldsi3 a b).toNat = a.toNat * b.toNat) ∧
    (∀ a b : BitVec 64, muldi3 a b = a * b) :=
  ⟨mulsi3_eq, muldsi3_toNat, muldi3_eq⟩

end HellfireOS.Multiply
