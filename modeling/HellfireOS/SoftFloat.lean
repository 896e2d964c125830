import HellfireOS.Loop
import HellfireOS.Word
import HellfireOS.Division
import Mathlib.Data.BitVec

set_option autoImplicit false

/-!
# Conversions between integers and single floats

The soft-float routines work on the 32-bit IEEE-754 pattern of a `float` (`FtoL`, `LtoF`):
sign `as`, biased exponent `ae` and the 23 stored bits of the mantissa. `__floatsisf` and
`__floatunsisf` share one body, in which the argument's type decides the test `af>=0`
and the shift `af >>= 1`. They normalise the magnitude with two loops, right shifts
while a bit above the 24th is set, then left shifts until bit 23 is set. Each loop runs
on fuel, and a conversion whose loop has not exited when the fuel runs out is `none`.
`__fixsfsi` and `__fixunssfsi` have the same body. They shift the mantissa right by the
exponent's distance below 157, and never shift left. Negation of an `int32_t` wraps, and
`>>` on an `int32_t` shifts arithmetically, as on the target.

What a float keeps of an integer is `truncate24`, the integer rounded toward zero to 24
significant bits. Converting an `int32_t` to a float and back gives `truncate24` of it, with
its sign, for every value but `-2^31`, on which `__floatsisf` does not terminate. A
`uint32_t` comes back as `truncate24` of it below 2^31 and as half of that from 2^31 on.
-/
namespace HellfireOS.SoftFloat
open HellfireOS.Loop HellfireOS.Word HellfireOS.Division

/-- `while (cond s) s = body s;` with at most `fuel` passes; `none` when the loop has not
exited by then. -/
def runLoop {σ : Type} (cond : σ → Bool) (body : σ → σ) (fuel : ℕ) (s : σ) : Option σ :=
  let s := loopWhile cond body fuel s
  if cond s then none else some s

/-- `while(af & 0xff000000){ ++ae; af >>= 1; }` over `(ae, af)`, with `shr1` the shift. -/
def shiftDown (shr1 : BitVec 32 → BitVec 32) (fuel : ℕ) (s : BitVec 32 × BitVec 32) :
    Option (BitVec 32 × BitVec 32) :=
  runLoop (fun s => s.2 &&& 0xff000000 != 0) (fun s => (s.1 + 1, shr1 s.2)) fuel s

/-- `while((af & 0xff800000) == 0){ --ae; af <<= 1; }` over `(ae, af)`. -/
def shiftUp (fuel : ℕ) (s : BitVec 32 × BitVec 32) : Option (BitVec 32 × BitVec 32) :=
  runLoop (fun s => s.2 &&& 0xff800000 == 0) (fun s => (s.1 - 1, s.2 <<< 1)) fuel s

/-- The body of `__floatsisf` and `__floatunsisf`: `nonneg` is the test `af>=0` and `shr1`
the shift `af >>= 1` of the argument's type. The result is the pattern `LtoF` returns. -/
def floatBits (nonneg : BitVec 32 → Bool) (shr1 : BitVec 32 → BitVec 32) (fuel : ℕ)
    (af : BitVec 32) : Option (BitVec 32) := do
  let as : BitVec 32 := if nonneg af then 0 else 1
  let af := if nonneg af then af else -af
  let ae : BitVec 32 := 0x80 + 22
  if af = 0 then some af
  else do
    let (ae, af) ← shiftDown shr1 fuel (ae, af)
    let (ae, af) ← shiftUp fuel (ae, af)
    some ((as <<< 31) ||| (ae <<< 23) ||| (af &&& 0x007fffff))

/-- `__floatsisf(int32_t af)`. -/
def floatsisf (fuel : ℕ) (af : BitVec 32) : Option (BitVec 32) :=
  floatBits (fun af => decide (0 ≤ af.toInt)) (fun af => af.sshiftRight 1) fuel af

/-- `__floatunsisf(uint32_t af)`: `af>=0` always holds. -/
def floatunsisf (fuel : ℕ) (af : BitVec 32) : Option (BitVec 32) :=
  floatBits (fun af => decide (0 ≤ af.toNat)) (fun af => af >>> 1) fuel af

/-- `__fixsfsi(float a_fp)` on the pattern `a = FtoL(a_fp)`. The shift by `shift` is only
made when `0 < shift < 31`. -/
def fixsfsi (a : BitVec 32) : BitVec 32 :=
  let as := a >>> 31
  let ae := (a >>> 23) &&& 0xff
  let af := (0x00800000 ||| (a &&& 0x007fffff)) <<< 7
  let shift := -(ae - 0x80 - 29)
  let af := if 0 < shift.toInt then (if shift.toInt < 31 then af.sshiftRight shift.toNat else 0)
    else af
  if as ≠ 0 then -af else af

/-- `__fixunssfsi(float a_fp)`: the body of `__fixsfsi`, its result read as `uint32_t`. -/
def fixunssfsi (a : BitVec 32) : BitVec 32 := fixsfsi a

theorem shiftDown_msb (fuel : ℕ) (s : BitVec 32 × BitVec 32) (h : s.2.msb = true) :
    shiftDown (fun af => af.sshiftRight 1) fuel s = none := by
  have hcond : ∀ s : BitVec 32 × BitVec 32, s.2.msb = true → (s.2 &&& 0xff000000 != 0) = true := by
    intro s hs
    refine bne_iff_ne.2 fun h0 => ?_
    have := congrArg (fun x : BitVec 32 => x.getLsbD 31) h0
    simp only [BitVec.getLsbD_and, BitVec.getLsbD_zero] at this
    rw [BitVec.msb_eq_getLsbD_last] at hs
    simp [hs] at this
  have hinv := loopWhile_invariant (fun s : BitVec 32 × BitVec 32 => s.2 &&& 0xff000000 != 0)
    (fun s => (s.1 + 1, s.2.sshiftRight 1)) (fun s => s.2.msb = true)
    (fun s hs _ => by simpa only [BitVec.msb_sshiftRight] using hs) fuel s h
  rw [shiftDown, runLoop]
  exact if_pos (hcond _ hinv)

/-- `__floatsisf(-2^31)` does not terminate: `-af` wraps to `-2^31`, and the arithmetic
shift keeps bit 31 set, so whatever the fuel the first loop has not exited. -/
theorem floatsisf_int_min_diverges (fuel : ℕ) : floatsisf fuel (BitVec.intMin 32) = none := by
  have hneg : ¬ 0 ≤ (BitVec.intMin 32).toInt := by decide
  simp only [floatsisf, floatBits, hneg, decide_False, Bool.false_eq_true, if_false,
    show -BitVec.intMin 32 = BitVec.intMin 32 by decide,
    show BitVec.intMin 32 ≠ 0 by decide, Option.bind_eq_bind]
  rw [shiftDown_msb fuel (0x80 + 22, BitVec.intMin 32) (by decide), Option.none_bind]

/-- `__fixunssfsi(__floatunsisf(2^31))` is `2^30`: the exponent of `2^31` is 158, one above
the largest that `__fixunssfsi` shifts for, and it never shifts left. -/
theorem fixunssfsi_floatunsisf_two_pow_31 :
    (floatunsisf 32 0x80000000).map fixunssfsi = some 0x40000000 := by
  decide

def normalize (m : ℕ) : ℕ := m / 2 ^ (Nat.log2 m - 23) * 2 ^ (23 - Nat.log2 m)

def truncate24 (m : ℕ) : ℕ := m / 2 ^ (Nat.log2 m - 23) * 2 ^ (Nat.log2 m - 23)

theorem truncate24_of_lt {m : ℕ} (h : m < 2 ^ 24) : truncate24 m = m := by
  rcases Nat.eq_zero_or_pos m with rfl | hm
  · rw [truncate24, Nat.zero_div, Nat.zero_mul]
  · rw [truncate24, show Nat.log2 m - 23 = 0 by have := (Nat.log2_lt hm.ne').2 h; omega, pow_zero,
      Nat.div_one, Nat.mul_one]

theorem normalize_bounds {m : ℕ} (hm : 0 < m) : 2 ^ 23 ≤ normalize m ∧ normalize m < 2 ^ 24 := by
  have hlo := Nat.log2_self_le (Nat.pos_iff_ne_zero.1 hm)
  have hhi := Nat.lt_log2_self (n := m)
  unfold normalize
  by_cases hL : 23 ≤ Nat.log2 m
  · obtain ⟨d, hd⟩ : ∃ d, Nat.log2 m = 23 + d := ⟨_, (Nat.add_sub_of_le hL).symm⟩
    rw [hd, Nat.add_sub_cancel_left, show 23 - (23 + d) = 0 by omega, pow_zero, Nat.mul_one,
      Nat.le_div_iff_mul_le (Nat.two_pow_pos d), Nat.div_lt_iff_lt_mul (Nat.two_pow_pos d), ← pow_add,
      ← pow_add]
    rw [hd] at hlo hhi
    exact ⟨hlo, by rwa [show 24 + d = 23 + d + 1 by omega]⟩
  · obtain ⟨u, hu⟩ : ∃ u, 23 = Nat.log2 m + u := ⟨23 - Nat.log2 m, by omega⟩
    rw [show Nat.log2 m - 23 = 0 by omega, pow_zero, Nat.div_one, hu, Nat.add_sub_cancel_left]
    constructor
    · rw [pow_add]; exact Nat.mul_le_mul_right _ hlo
    · rw [show 24 = (Nat.log2 m + 1) + u by omega, pow_add]
      exact Nat.mul_lt_mul_of_pos_right hhi (Nat.two_pow_pos u)

theorem normalize_shift {m : ℕ} (hL : Nat.log2 m ≤ 31) :
    normalize m * 2 ^ 7 / 2 ^ (30 - Nat.log2 m) = truncate24 m / 2 ^ (Nat.log2 m - 30) := by
  unfold normalize truncate24
  by_cases h : 23 ≤ Nat.log2 m
  · obtain ⟨d, hd⟩ : ∃ d, Nat.log2 m = 23 + d := ⟨_, (Nat.add_sub_of_le h).symm⟩
    rw [hd, Nat.add_sub_cancel_left, show 23 - (23 + d) = 0 by omega, pow_zero, Nat.mul_one]
    generalize m / 2 ^ d = q
    by_cases h7 : d ≤ 7
    · rw [show 30 - (23 + d) = 7 - d by omega, show 23 + d - 30 = 0 by omega, pow_zero, Nat.div_one,
        show (2 : ℕ) ^ 7 = 2 ^ d * 2 ^ (7 - d) by rw [← pow_add]; congr 1; omega, ← mul_assoc,
        Nat.mul_div_cancel _ (Nat.two_pow_pos _)]
    · obtain rfl : d = 8 := by omega
      rw [show 30 - (23 + 8) = 0 from rfl, show 23 + 8 - 30 = 1 from rfl, pow_zero, Nat.div_one,
        pow_succ 2 7, ← mul_assoc, pow_one, Nat.mul_div_cancel _ (by decide)]
  · obtain ⟨u, hu⟩ : ∃ u, 23 = Nat.log2 m + u := ⟨23 - Nat.log2 m, by omega⟩
    rw [show Nat.log2 m - 23 = 0 by omega, show Nat.log2 m - 30 = 0 by omega,
      show 30 - Nat.log2 m = u + 7 by omega, show 23 - Nat.log2 m = u by omega, pow_zero, Nat.div_one,
      Nat.mul_one, Nat.div_one, pow_add, mul_assoc, Nat.mul_div_cancel _ (by positivity)]

theorem hidden_toNat (a : BitVec 32) :
    (((0x00800000 : BitVec 32) ||| (a &&& 0x007fffff)) <<< 7).toNat =
      (2 ^ 23 + a.toNat % 2 ^ 23) * 2 ^ 7 := by
  have hf : (a &&& 0x007fffff).toNat = a.toNat % 2 ^ 23 := by
    rw [BitVec.toNat_and, show (0x007fffff : BitVec 32).toNat = 2 ^ 23 - 1 from rfl,
      Nat.and_pow_two_sub_one_eq_mod]
  have hlt := Nat.mod_lt a.toNat (show 0 < 2 ^ 23 by decide)
  rw [BitVec.toNat_shiftLeft, BitVec.toNat_or, hf, show (0x00800000 : BitVec 32).toNat = 2 ^ 23 * 1 from rfl,
    ← Nat.mul_add_lt_is_or hlt, Nat.shiftLeft_eq]
  omega

theorem exponent_toNat (a : BitVec 32) : ((a >>> 23) &&& 0xff).toNat = a.toNat / 2 ^ 23 % 2 ^ 8 := by
  rw [BitVec.toNat_and, BitVec.toNat_ushiftRight, Nat.shiftRight_eq_div_pow,
    show (0xff : BitVec 32).toNat = 2 ^ 8 - 1 from rfl, Nat.and_pow_two_sub_one_eq_mod]

theorem shift_toInt (ae : BitVec 32) (h : ae.toNat < 2 ^ 8) :
    (-(ae - 0x80 - 29)).toInt = 157 - ae.toNat := by
  rw [BitVec.toInt_eq_toNat_cond, BitVec.toNat_neg, BitVec.toNat_sub, BitVec.toNat_sub,
    show (0x80 : BitVec 32).toNat = 128 from rfl, show (29 : BitVec 32).toNat = 29 from rfl]
  split <;> omega

theorem sign_eq_zero (a : BitVec 32) : a >>> 31 = 0 ↔ a.toNat < 2 ^ 31 := by
  rw [BitVec.toNat_eq, BitVec.toNat_ushiftRight, Nat.shiftRight_eq_div_pow,
    show (0 : BitVec 32).toNat = 0 from rfl]
  omega

theorem shifted_toNat (af shift : BitVec 32) (e : ℕ) (haf : af.toNat < 2 ^ 31)
    (hshift : shift.toInt = 157 - e) :
    (if 0 < shift.toInt then (if shift.toInt < 31 then af.sshiftRight shift.toNat else 0) else af) =
      BitVec.ofNat 32 (af.toNat / 2 ^ (157 - e)) := by
  have hs := BitVec.toInt_eq_toNat_cond shift
  apply BitVec.eq_of_toNat_eq
  rw [BitVec.toNat_ofNat]
  by_cases h1 : 0 < shift.toInt
  · rw [if_pos h1]
    have hn : shift.toNat = 157 - e := by split at hs <;> omega
    by_cases h2 : shift.toInt < 31
    · have hmsb : af.msb = false := by rw [BitVec.msb_eq_decide]; exact decide_eq_false (by omega)
      rw [if_pos h2, BitVec.sshiftRight_eq_of_msb_false hmsb, BitVec.toNat_ushiftRight,
        Nat.shiftRight_eq_div_pow, hn, Nat.mod_eq_of_lt (Nat.lt_of_le_of_lt (Nat.div_le_self _ _) af.isLt)]
    · rw [if_neg h2, Nat.div_eq_of_lt (Nat.lt_of_lt_of_le haf (Nat.pow_le_pow_right (by decide)
        (by omega)))]
      rfl
  · rw [if_neg h1, show 157 - e = 0 by omega, Nat.pow_zero, Nat.div_one, Nat.mod_eq_of_lt af.isLt]

theorem fixsfsi_eq (a : BitVec 32) :
    fixsfsi a =
      let mag := BitVec.ofNat 32
        ((2 ^ 23 + a.toNat % 2 ^ 23) * 2 ^ 7 / 2 ^ (157 - a.toNat / 2 ^ 23 % 2 ^ 8))
      if a.toNat < 2 ^ 31 then mag else -mag := by
  have hshift := shift_toInt ((a >>> 23) &&& 0xff) (by rw [exponent_toNat]; omega)
  rw [exponent_toNat] at hshift
  have haf := hidden_toNat a
  have hmag := shifted_toNat _ _ _ (by rw [haf]; omega) hshift
  rw [haf] at hmag
  simp only [fixsfsi, hmag, ne_eq, sign_eq_zero]
  by_cases hs : a.toNat < 2 ^ 31 <;> simp only [hs, not_true, not_false_eq_true, if_true, if_false]

def pack (s e f : ℕ) : BitVec 32 := BitVec.ofNat 32 (s * 2 ^ 31 + e * 2 ^ 23 + f)

theorem pack_toNat {s e f : ℕ} (hs : s ≤ 1) (he : e < 2 ^ 8) (hf : f < 2 ^ 23) :
    (pack s e f).toNat = s * 2 ^ 31 + e * 2 ^ 23 + f :=
  Nat.mod_eq_of_lt (by omega)

theorem fixsfsi_pack {s e f : ℕ} (hs : s ≤ 1) (he : e < 2 ^ 8) (hf : f < 2 ^ 23) :
    fixsfsi (pack s e f) =
      let mag := BitVec.ofNat 32 ((2 ^ 23 + f) * 2 ^ 7 / 2 ^ (157 - e))
      if s = 0 then mag else -mag := by
  rw [fixsfsi_eq, pack_toNat hs he hf, show (s * 2 ^ 31 + e * 2 ^ 23 + f) % 2 ^ 23 = f by omega,
    show (s * 2 ^ 31 + e * 2 ^ 23 + f) / 2 ^ 23 % 2 ^ 8 = e by omega]
  simp only [show s * 2 ^ 31 + e * 2 ^ 23 + f < 2 ^ 31 ↔ s = 0 by omega]

theorem runLoop_of_not_cond {σ : Type} {cond : σ → Bool} (body : σ → σ) {s : σ} (h : cond s = false)
    (fuel : ℕ) : runLoop cond body fuel s = some s := by
  simp only [runLoop, loopWhile_of_not_cond cond body h, h, Bool.false_eq_true, if_false]

theorem runLoop_succ_of_cond {σ : Type} {cond : σ → Bool} (body : σ → σ) {s : σ} (h : cond s = true)
    (fuel : ℕ) : runLoop cond body (fuel + 1) s = runLoop cond body fuel (body s) := by
  simp only [runLoop, loopWhile_succ_of_cond cond body h]

theorem and_high_toNat (af : BitVec 32) (k : ℕ) :
    (af &&& BitVec.allOnes 32 <<< k).toNat = af.toNat / 2 ^ k * 2 ^ k % 2 ^ 32 := by
  rw [← BitVec.shiftLeft_ushiftRight, BitVec.toNat_shiftLeft, BitVec.toNat_ushiftRight,
    Nat.shiftLeft_eq, Nat.shiftRight_eq_div_pow]

theorem shiftDown_test (af : BitVec 32) : (af &&& 0xff000000 != 0) = decide (2 ^ 24 ≤ af.toNat) := by
  have h := and_high_toNat af 24
  rw [show BitVec.allOnes 32 <<< 24 = 0xff000000 by decide] at h
  rw [Bool.eq_iff_iff, bne_iff_ne, ne_eq, BitVec.toNat_eq, h, decide_eq_true_iff,
    show (0 : BitVec 32).toNat = 0 from rfl]
  omega

theorem shiftUp_test (af : BitVec 32) : (af &&& 0xff800000 == 0) = decide (af.toNat < 2 ^ 23) := by
  have h := and_high_toNat af 23
  rw [show BitVec.allOnes 32 <<< 23 = 0xff800000 by decide] at h
  rw [Bool.eq_iff_iff, beq_iff_eq, BitVec.toNat_eq, h, decide_eq_true_iff,
    show (0 : BitVec 32).toNat = 0 from rfl]
  omega

theorem ofNat_succ (n : ℕ) : BitVec.ofNat 32 (n + 1) = BitVec.ofNat 32 n + 1 :=
  BitVec.ofNat_add n 1

theorem shiftDown_run (shr1 : BitVec 32 → BitVec 32) (m : ℕ)
    (hshr : ∀ x : BitVec 32, x.toNat ≤ m → shr1 x = x >>> 1) (n : ℕ) :
    ∀ (fuel : ℕ) (ae af : BitVec 32), n ≤ fuel → af.toNat ≤ m → af.toNat < 2 ^ (24 + n) →
      (n = 0 ∨ 2 ^ (23 + n) ≤ af.toNat) → shiftDown shr1 fuel (ae, af) = some (ae + BitVec.ofNat 32 n, af >>> n) := by
  induction n with
  | zero =>
    intro fuel ae af _ _ hhi _
    rw [shiftDown, runLoop_of_not_cond _ (by dsimp only; rw [shiftDown_test]; exact decide_eq_false (by omega)),
      BitVec.add_zero, BitVec.ushiftRight_zero]
  | succ n ih =>
    intro fuel ae af hfuel hm hhi hlo
    obtain ⟨fuel, rfl⟩ : ∃ f, fuel = f + 1 := ⟨fuel - 1, by omega⟩
    rw [show 24 + (n + 1) = 24 + n + 1 by omega, pow_succ] at hhi
    have hlo' : 2 ^ (23 + n) * 2 ≤ af.toNat := by
      rcases hlo with h | h
      · omega
      · rwa [show 23 + (n + 1) = 23 + n + 1 by omega, pow_succ] at h
    have h24 : 2 ^ 24 ≤ af.toNat :=
      le_trans (by rw [← pow_succ]; exact Nat.pow_le_pow_right (by decide) (by omega)) hlo'
    have hhalf : (af >>> 1).toNat = af.toNat / 2 := by
      rw [BitVec.toNat_ushiftRight, Nat.shiftRight_eq_div_pow, pow_one]
    rw [shiftDown, runLoop_succ_of_cond _ (by dsimp only; rw [shiftDown_test]; exact decide_eq_true h24)]
    dsimp only
    rw [hshr af hm, ← shiftDown, ih fuel (ae + 1) (af >>> 1) (by omega) (by omega) (by omega)
      (.inr (by omega)), ← BitVec.shiftRight_add, Nat.add_comm 1 n, ofNat_succ, BitVec.add_assoc,
      BitVec.add_comm 1]

theorem shiftUp_run (n : ℕ) :
    ∀ (fuel : ℕ) (ae af : BitVec 32), n ≤ fuel → 2 ^ 23 ≤ af.toNat * 2 ^ n →
      af.toNat * 2 ^ n < 2 ^ 24 → shiftUp fuel (ae, af) = some (ae - BitVec.ofNat 32 n, af <<< n) := by
  induction n with
  | zero =>
    intro fuel ae af _ hlo _
    rw [shiftUp, runLoop_of_not_cond _ (by dsimp only; rw [shiftUp_test]; exact decide_eq_false (by omega)),
      BitVec.sub_zero, BitVec.shiftLeft_zero]
  | succ n ih =>
    intro fuel ae af hfuel hlo hhi
    obtain ⟨fuel, rfl⟩ : ∃ f, fuel = f + 1 := ⟨fuel - 1, by omega⟩
    have hpow : af.toNat * 2 ^ (n + 1) = af.toNat * 2 * 2 ^ n := by rw [pow_succ']; ring
    have h2 : af.toNat * 2 ≤ af.toNat * 2 * 2 ^ n := Nat.le_mul_of_pos_right _ (Nat.two_pow_pos n)
    have hdouble : (af <<< 1).toNat = af.toNat * 2 := by
      rw [BitVec.toNat_shiftLeft, Nat.shiftLeft_eq, pow_one, Nat.mod_eq_of_lt (by omega)]
    rw [shiftUp, runLoop_succ_of_cond _ (by dsimp only; rw [shiftUp_test]; exact decide_eq_true (by omega))]
    dsimp only
    rw [← shiftUp, ih fuel (ae - 1) (af <<< 1) (by omega) (by rw [hdouble]; omega)
      (by rw [hdouble]; omega), ← BitVec.shiftLeft_add, Nat.add_comm 1 n, ofNat_succ, sub_sub,
      BitVec.add_comm 1]

theorem or_eq_add {x y k : ℕ} (hx : 2 ^ k ∣ x) (hy : y < 2 ^ k) : x ||| y = x + y := by
  obtain ⟨q, rfl⟩ := hx
  exact (Nat.mul_add_lt_is_or hy q).symm

theorem pattern_toNat (as ae af : BitVec 32) (hs : as.toNat ≤ 1) (he : ae.toNat < 2 ^ 8) :
    ((as <<< 31) ||| (ae <<< 23) ||| (af &&& 0x007fffff)).toNat =
      as.toNat * 2 ^ 31 + ae.toNat * 2 ^ 23 + af.toNat % 2 ^ 23 := by
  have hf : (af &&& 0x007fffff).toNat = af.toNat % 2 ^ 23 := by
    rw [BitVec.toNat_and, show (0x007fffff : BitVec 32).toNat = 2 ^ 23 - 1 from rfl,
      Nat.and_pow_two_sub_one_eq_mod]
  rw [BitVec.toNat_or, BitVec.toNat_or, BitVec.toNat_shiftLeft, BitVec.toNat_shiftLeft, hf,
    Nat.shiftLeft_eq, Nat.shiftLeft_eq, Nat.mod_eq_of_lt (by omega : as.toNat * 2 ^ 31 < 2 ^ 32),
    Nat.mod_eq_of_lt (by omega : ae.toNat * 2 ^ 23 < 2 ^ 32),
    or_eq_add (x := as.toNat * 2 ^ 31) (y := ae.toNat * 2 ^ 23) (k := 31)
      (Nat.dvd_of_mod_eq_zero (by omega)) (by omega),
    or_eq_add (k := 23) (Nat.dvd_of_mod_eq_zero (by omega)) (Nat.mod_lt _ (by decide))]

theorem exponent_after_loops : ∀ L, L < 32 →
    ((0x80 + 22 : BitVec 32) + BitVec.ofNat 32 (L - 23) - BitVec.ofNat 32 (23 - L)).toNat = 127 + L := by
  decide

theorem floatBits_eq (nonneg : BitVec 32 → Bool) (shr1 : BitVec 32 → BitVec 32) (fuel : ℕ)
    (af : BitVec 32) (m : ℕ) (hm : (if nonneg af then af else -af).toNat = m) (hpos : 0 < m)
    (hshr : ∀ x : BitVec 32, x.toNat ≤ m → shr1 x = x >>> 1) (hfuel : 23 ≤ fuel) :
    floatBits nonneg shr1 fuel af =
      some (pack (if nonneg af then 0 else 1) (127 + Nat.log2 m) (normalize m % 2 ^ 23)) := by
  have hlo := Nat.log2_self_le (Nat.pos_iff_ne_zero.1 hpos)
  have hhi := Nat.lt_log2_self (n := m)
  have hL : Nat.log2 m < 32 := (Nat.log2_lt (Nat.pos_iff_ne_zero.1 hpos)).2 (hm ▸ BitVec.isLt _)
  obtain ⟨hn1, hn2⟩ := normalize_bounds hpos
  have hne : (if nonneg af then af else -af) ≠ 0 := fun h => by
    rw [h, show (0 : BitVec 32).toNat = 0 from rfl] at hm; omega
  have hdown := shiftDown_run shr1 m hshr (Nat.log2 m - 23) fuel (0x80 + 22) _ (by omega) hm.le
    (by rw [hm]; exact lt_of_lt_of_le hhi (Nat.pow_le_pow_right (by decide) (by omega)))
    (by
      by_cases h : 23 < Nat.log2 m
      · right; rwa [hm, show 23 + (Nat.log2 m - 23) = Nat.log2 m by omega]
      · left; omega)
  have hmid : ((if nonneg af then af else -af) >>> (Nat.log2 m - 23)).toNat * 2 ^ (23 - Nat.log2 m) =
      normalize m := by
    rw [BitVec.toNat_ushiftRight, Nat.shiftRight_eq_div_pow, hm]
    rfl
  have hup := shiftUp_run (23 - Nat.log2 m) fuel (0x80 + 22 + BitVec.ofNat 32 (Nat.log2 m - 23)) _
    (by omega) (hmid ▸ hn1) (hmid ▸ hn2)
  simp only [floatBits, hne, if_false, Option.bind_eq_bind, hdown, Option.some_bind, hup]
  have he := exponent_after_loops _ hL
  have hf : ((if nonneg af then af else -af) >>> (Nat.log2 m - 23) <<< (23 - Nat.log2 m)).toNat =
      normalize m := by
    rw [BitVec.toNat_shiftLeft, Nat.shiftLeft_eq, hmid, Nat.mod_eq_of_lt (by omega)]
  congr 1
  apply BitVec.eq_of_toNat_eq
  have hs : (if nonneg af then (0 : BitVec 32) else 1).toNat = if nonneg af then 0 else 1 := by
    split <;> rfl
  rw [pattern_toNat _ _ _ (by rw [hs]; split <;> decide) (by rw [he]; omega), hs, he, hf,
    pack_toNat (by split <;> decide) (by omega) (Nat.mod_lt _ (by decide))]

theorem fixsfsi_floatBits (nonneg : Bool) {m : ℕ} (hpos : 0 < m) (hL : Nat.log2 m ≤ 31) :
    fixsfsi (pack (if nonneg then 0 else 1) (127 + Nat.log2 m) (normalize m % 2 ^ 23)) =
      if nonneg then BitVec.ofNat 32 (truncate24 m / 2 ^ (Nat.log2 m - 30))
      else -BitVec.ofNat 32 (truncate24 m / 2 ^ (Nat.log2 m - 30)) := by
  obtain ⟨hn1, hn2⟩ := normalize_bounds hpos
  rw [fixsfsi_pack (by split <;> decide) (by omega) (Nat.mod_lt _ (by decide)),
    show 2 ^ 23 + normalize m % 2 ^ 23 = normalize m by omega,
    show 157 - (127 + Nat.log2 m) = 30 - Nat.log2 m by omega, normalize_shift hL]
  cases nonneg <;> rfl

/-- Converting an `int32_t` other than `-2^31` to a float and back with `__floatsisf` and
`__fixsfsi` rounds it toward zero to 24 significant bits, given fuel for the loops. -/
theorem fixsfsi_floatsisf (x : BitVec 32) (hx : x ≠ BitVec.intMin 32) (fuel : ℕ) (hfuel : 23 ≤ fuel) :
    (floatsisf fuel x).map fixsfsi =
      some (if x.toInt < 0 then -BitVec.ofNat 32 (truncate24 x.toInt.natAbs)
        else BitVec.ofNat 32 (truncate24 x.toInt.natAbs)) := by
  by_cases h0 : x = 0
  · subst h0
    rw [show floatsisf fuel 0 = some 0 by simp [floatsisf, floatBits],
      show truncate24 (0 : BitVec 32).toInt.natAbs = 0 by simp [truncate24]]
    decide
  have hb := toInt_bounds x
  have hmin : x.toInt ≠ -2 ^ 31 := fun h => hx (BitVec.eq_of_toInt_eq (by rw [h]; rfl))
  have hpos : 0 < x.toInt.natAbs :=
    Int.natAbs_pos.2 fun h => h0 (BitVec.eq_of_toInt_eq (by rw [h]; rfl))
  have hL : Nat.log2 x.toInt.natAbs ≤ 30 := Nat.lt_succ_iff.1 ((Nat.log2_lt hpos.ne').2 (by omega))
  have hsel : (if decide (0 ≤ x.toInt) then x else -x).toNat = x.toInt.natAbs := by
    rw [← magnitude_toNat, magnitude]
    simp only [decide_eq_true_eq, ← not_lt, ite_not]
  have hshr : ∀ y : BitVec 32, y.toNat ≤ x.toInt.natAbs → y.sshiftRight 1 = y >>> 1 := fun y hy =>
    BitVec.sshiftRight_eq_of_msb_false (by rw [BitVec.msb_eq_decide]; exact decide_eq_false (by omega))
  rw [floatsisf, floatBits_eq (fun af => decide (0 ≤ af.toInt)) _ fuel x _ hsel hpos hshr hfuel,
    Option.map_some',
    fixsfsi_floatBits _ hpos (by omega), show Nat.log2 x.toInt.natAbs - 30 = 0 by omega,
    pow_zero, Nat.div_one]
  simp only [decide_eq_true_eq, ← not_lt, ite_not]

theorem fixsfsi_floatsisf_large :
    (0x01234567 : BitVec 32) ≠ BitVec.intMin 32 ∧ 23 ≤ 32 ∧
      (floatsisf 32 0x01234567).map fixsfsi =
        some (if (0x01234567 : BitVec 32).toInt < 0 then
          -BitVec.ofNat 32 (truncate24 (0x01234567 : BitVec 32).toInt.natAbs)
          else BitVec.ofNat 32 (truncate24 (0x01234567 : BitVec 32).toInt.natAbs)) :=
  ⟨by decide, by decide, fixsfsi_floatsisf 0x01234567 (by decide) 32 (by decide)⟩

/-- Converting a `uint32_t` to a float and back with `__floatunsisf` and `__fixunssfsi` rounds
it toward zero to 24 significant bits below 2^31, and gives half of that from 2^31 on. -/
theorem fixunssfsi_floatunsisf (x : BitVec 32) (fuel : ℕ) (hfuel : 23 ≤ fuel) :
    (floatunsisf fuel x).map fixunssfsi =
      some (BitVec.ofNat 32 (if x.toNat < 2 ^ 31 then truncate24 x.toNat else truncate24 x.toNat / 2)) := by
  by_cases h0 : x = 0
  · subst h0
    rw [show floatunsisf fuel 0 = some 0 by simp [floatunsisf, floatBits],
      show truncate24 (0 : BitVec 32).toNat = 0 by simp [truncate24]]
    decide
  have hpos : 0 < x.toNat := Nat.pos_of_ne_zero fun h => h0 (BitVec.eq_of_toNat_eq h)
  have hL : Nat.log2 x.toNat ≤ 31 := Nat.lt_succ_iff.1 ((Nat.log2_lt hpos.ne').2 x.isLt)
  have hnonneg : decide (0 ≤ x.toNat) = true := decide_eq_true (Nat.zero_le _)
  rw [floatunsisf, floatBits_eq _ _ fuel x x.toNat (by rw [hnonneg]; rfl) hpos (fun _ _ => rfl) hfuel,
    Option.map_some', fixunssfsi, hnonneg, fixsfsi_floatBits true hpos hL, if_pos rfl]
  congr 2
  by_cases h : x.toNat < 2 ^ 31
  · rw [if_pos h, show Nat.log2 x.toNat - 30 = 0 by
      have := (Nat.log2_lt hpos.ne').2 h; omega, pow_zero, Nat.div_one]
  · rw [if_neg h, show Nat.log2 x.toNat - 30 = 1 by
      have := (Nat.le_log2 hpos.ne').2 (not_lt.1 h); omega, pow_one]

theorem fixunssfsi_floatunsisf_high :
    23 ≤ 32 ∧ (floatunsisf 32 0x80000001).map fixunssfsi =
      some (BitVec.ofNat 32 (if (0x80000001 : BitVec 32).toNat < 2 ^ 31
        then truncate24 (0x80000001 : BitVec 32).toNat
        else truncate24 (0x80000001 : BitVec 32).toNat / 2)) :=
  ⟨by decide, fixunssfsi_floatunsisf 0x80000001 32 (by decide)⟩

end HellfireOS.SoftFloat
