import HellfireOS.Division
import Mathlib.Data.BitVec

set_option autoImplicit false

/-!
# 32-bit division

`__udivmodsi4` is restoring division: while `den < num` and neither `den` nor the
quotient bit `bit` would overflow, it doubles both, then it subtracts back down.
`__divsi3` and `__modsi3` divide the magnitudes and fix the sign afterwards. The
negations wrap, so `-2^31` is its own magnitude and `__divsi3 (-2^31) (-1)` is `-2^31`.
-/
namespace HellfireOS.Divide32
open HellfireOS.Loop HellfireOS.Division

/-- The variables of `__udivmodsi4`. -/
structure Udivmodsi4State where
  num : BitVec 32
  den : BitVec 32
  bit : BitVec 32
  res : BitVec 32

/-- `den < num && bit && !(den & (1L << 31))`. -/
def scaleCond (s : Udivmodsi4State) : Bool :=
  decide (s.den < s.num) && s.bit != 0 && !(s.den &&& 1#32 <<< 31 != 0)

def scaleStep (s : Udivmodsi4State) : Udivmodsi4State :=
  { s with den := s.den <<< 1, bit := s.bit <<< 1 }

def subtractStep (s : Udivmodsi4State) : Udivmodsi4State :=
  let s := if s.num ≥ s.den then { s with num := s.num - s.den, res := s.res ||| s.bit } else s
  { s with bit := s.bit >>> 1, den := s.den >>> 1 }

/-- Both loops of `__udivmodsi4`, from `bit = 1`, `res = 0`. -/
def udivmodsi4Loops (num den : BitVec 32) : Udivmodsi4State :=
  loopWhile (fun s => s.bit != 0) subtractStep 32 (loopWhile scaleCond scaleStep 32 ⟨num, den, 1, 0⟩)

def udivmodsi4 (num den modwanted : BitVec 32) : BitVec 32 :=
  if modwanted != 0 then (udivmodsi4Loops num den).num else (udivmodsi4Loops num den).res

def udivsi3 (a b : BitVec 32) : BitVec 32 := udivmodsi4 a b 0

def umodsi3 (a b : BitVec 32) : BitVec 32 := udivmodsi4 a b 1

/-- `__divsi3`: `neg` is flipped once for each negative operand. -/
def divsi3 (a b : BitVec 32) : BitVec 32 :=
  let (a, neg) := if a.toInt < 0 then (-a, true) else (a, false)
  let (b, neg) := if b.toInt < 0 then (-b, !neg) else (b, neg)
  let res := udivmodsi4 a b 0
  if neg then -res else res

/-- `__modsi3`: the sign of the dividend only. -/
def modsi3 (a b : BitVec 32) : BitVec 32 :=
  let (a, neg) := if a.toInt < 0 then (-a, true) else (a, false)
  let b := if b.toInt < 0 then -b else b
  let res := udivmodsi4 a b 1
  if neg then -res else res

theorem top_bit_ne_zero (x : BitVec 32) :
    (x &&& 1#32 <<< 31 != 0) = decide (2 ^ 31 ≤ x.toNat) := by
  have hx : x.getLsbD 31 = decide (2 ^ 31 ≤ x.toNat) := BitVec.getLsbD_last x
  have htwo : (1#32 <<< 31 : BitVec 32) = BitVec.twoPow 32 31 := rfl
  rw [htwo, BitVec.and_twoPow, hx]
  split <;> simp_all [BitVec.toNat_eq]

/-- The scaling loop keeps `den = d0 * bit` with `bit` a power of two. -/
def Scaled (num0 d0 : ℕ) (s : Udivmodsi4State) : Prop :=
  s.num.toNat = num0 ∧ s.res.toNat = 0 ∧ s.den.toNat = d0 * s.bit.toNat ∧
    ∃ k, s.bit.toNat = 2 ^ k

theorem scaleCond_iff (s : Udivmodsi4State) :
    scaleCond s = true ↔ s.den.toNat < s.num.toNat ∧ s.bit ≠ 0 ∧ s.den.toNat < 2 ^ 31 := by
  rw [scaleCond, top_bit_ne_zero]
  simp [BitVec.lt_def, and_assoc]

theorem scaleStep_scaled {num0 d0 : ℕ} {s : Udivmodsi4State} (hd : 0 < d0)
    (h : Scaled num0 d0 s) (hc : scaleCond s = true) : Scaled num0 d0 (scaleStep s) := by
  obtain ⟨hn, hr, hden, k, hk⟩ := h
  obtain ⟨-, -, htop⟩ := (scaleCond_iff s).1 hc
  have hle : s.bit.toNat ≤ s.den.toNat := hden ▸ Nat.le_mul_of_pos_left _ hd
  have hmul : d0 * (s.bit.toNat * 2 ^ 1) = d0 * s.bit.toNat * 2 := by ring
  refine ⟨hn, hr, ?_, k + 1, ?_⟩ <;>
    simp only [scaleStep, BitVec.toNat_shiftLeft, Nat.shiftLeft_eq]
  · rw [Nat.mod_eq_of_lt (by omega), Nat.mod_eq_of_lt (by omega), hmul]
    omega
  · rw [Nat.mod_eq_of_lt (by omega), hk, ← Nat.pow_add]

theorem scale_exits {num0 d0 : ℕ} (hd : 0 < d0) :
    ∀ n s, (Scaled num0 d0 s ∧ 2 ^ 31 ≤ s.bit.toNat * 2 ^ n) →
      scaleCond (loopWhile scaleCond scaleStep n s) = false := by
  apply loopWhile_exit
  · rintro n s ⟨hs, hb⟩ hc
    refine ⟨scaleStep_scaled hd hs hc, ?_⟩
    obtain ⟨-, -, htop⟩ := (scaleCond_iff s).1 hc
    simp only [scaleStep, BitVec.toNat_shiftLeft, Nat.shiftLeft_eq]
    rw [Nat.pow_succ] at hb
    have hlt : s.bit.toNat * 2 ^ 1 < 2 ^ 32 := by
      have := hs.2.2.1 ▸ Nat.le_mul_of_pos_left s.bit.toNat hd
      omega
    rw [Nat.mod_eq_of_lt hlt]
    calc 2 ^ 31 ≤ s.bit.toNat * (2 ^ n * 2) := hb
      _ = s.bit.toNat * 2 ^ 1 * 2 ^ n := by ring
  · rintro s ⟨⟨-, -, hden, -⟩, hb⟩
    have := hden ▸ Nat.le_mul_of_pos_left s.bit.toNat hd
    cases hc : scaleCond s
    · rfl
    · have := ((scaleCond_iff s).1 hc).2.2
      omega

def Head (num0 d0 : ℕ) (s : Udivmodsi4State) : Prop :=
  RestoringHead num0 d0 s.num.toNat s.den.toNat s.bit.toNat s.res.toNat

theorem scaled_head {num0 d0 : ℕ} {s : Udivmodsi4State} (hd : 0 < d0) (h : Scaled num0 d0 s)
    (hc : scaleCond s = false) : Head num0 d0 s := by
  obtain ⟨hn, hr, hden, k, hk⟩ := h
  have hb : s.bit ≠ 0 := by
    intro h0
    have := congrArg BitVec.toNat h0
    simp only [hk, BitVec.toNat_ofNat, Nat.zero_mod] at this
    exact absurd this (Nat.pos_pow_of_pos k (by decide)).ne'
  have hle : s.bit.toNat ≤ s.den.toNat := hden ▸ Nat.le_mul_of_pos_left _ hd
  have hbit : s.bit.toNat ≠ 0 := by rw [hk]; exact (Nat.pos_pow_of_pos k (by decide)).ne'
  have hnum := s.num.isLt
  have hcond : ¬ (s.den.toNat < s.num.toNat ∧ s.den.toNat < 2 ^ 31) := fun h' =>
    absurd ((scaleCond_iff s).2 ⟨h'.1, hb, h'.2⟩) (by rw [hc]; decide)
  refine ⟨by rw [hr, hn, Nat.zero_mul, Nat.zero_add], fun h0 => absurd h0 hbit,
    fun _ => ⟨⟨k, hk⟩, hden, by omega, ?_⟩⟩
  rw [hr]
  exact dvd_zero _

@[simp] theorem subtractStep_bit (s : Udivmodsi4State) : (subtractStep s).bit = s.bit >>> 1 := by
  unfold subtractStep; split <;> rfl

@[simp] theorem subtractStep_den (s : Udivmodsi4State) : (subtractStep s).den = s.den >>> 1 := by
  unfold subtractStep; split <;> rfl

theorem subtractStep_head {num0 d0 : ℕ} {s : Udivmodsi4State} (h : Head num0 d0 s)
    (hb : (s.bit != 0) = true) : Head num0 d0 (subtractStep s) := by
  have hq : s.bit.toNat ≠ 0 := by
    simpa [BitVec.toNat_eq] using hb
  have next := restoring_step h hq
  obtain ⟨⟨k, hk⟩, -, -, hdvd⟩ := h.2.2 hq
  have hor : (s.res ||| s.bit).toNat = s.res.toNat + s.bit.toNat := by
    rw [BitVec.toNat_or, hk, or_two_pow_eq_add (hk ▸ hdvd)]
  unfold Head
  by_cases hle : s.den.toNat ≤ s.num.toNat
  · have hge : s.num ≥ s.den := BitVec.le_def.2 hle
    simpa [subtractStep, hge, hle, hor, BitVec.toNat_sub_of_le hge,
      Nat.shiftRight_one] using next
  · have hge : ¬ s.num ≥ s.den := fun h' => hle (BitVec.le_def.1 h')
    simpa [subtractStep, hge, hle, Nat.shiftRight_one] using next

theorem subtract_exits :
    ∀ n (s : Udivmodsi4State), s.bit.toNat < 2 ^ n →
      (loopWhile (fun s => s.bit != 0) subtractStep n s).bit = 0 := by
  intro n s hs
  have := loopWhile_exit (fun s : Udivmodsi4State => s.bit != 0) subtractStep
    (fun n s => s.bit.toNat < 2 ^ n)
    (fun n s (hs : s.bit.toNat < 2 ^ (n + 1)) _ => by
      simp only [subtractStep_bit, BitVec.toNat_ushiftRight, Nat.shiftRight_one]
      rw [Nat.pow_succ] at hs
      omega)
    (fun s (hs : s.bit.toNat < 2 ^ 0) => by
      simp only [bne_eq_false_iff_eq]
      bv_omega) n s hs
  simpa using this

theorem udivmodsi4Loops_spec (num den : BitVec 32) (hd : den ≠ 0) :
    (udivmodsi4Loops num den).res.toNat = num.toNat / den.toNat ∧
      (udivmodsi4Loops num den).num.toNat = num.toNat % den.toNat := by
  have hd' : 0 < den.toNat := by
    rw [Nat.pos_iff_ne_zero]; exact fun h => hd (BitVec.eq_of_toNat_eq (by simpa using h))
  have init : Scaled num.toNat den.toNat ⟨num, den, 1, 0⟩ := ⟨rfl, rfl, by simp, 0, by simp⟩
  have scaled := loopWhile_invariant scaleCond scaleStep (Scaled num.toNat den.toNat)
    (fun _ hs hc => scaleStep_scaled hd' hs hc) 32 _ init
  have head := scaled_head hd' scaled
    (scale_exits hd' 32 _ ⟨init, by simp⟩)
  have done := loopWhile_invariant (fun s => s.bit != 0) subtractStep (Head num.toNat den.toNat)
    (fun _ hs hb => subtractStep_head hs hb) 32 _ head
  have exit := subtract_exits 32 (loopWhile scaleCond scaleStep 32 ⟨num, den, 1, 0⟩) (BitVec.isLt _)
  unfold Head at done
  rw [exit] at done
  exact restoring_done done

theorem udivmodsi4_div (a b : BitVec 32) (hb : b ≠ 0) : udivmodsi4 a b 0 = a / b := by
  apply BitVec.eq_of_toNat_eq
  simp [udivmodsi4, (udivmodsi4Loops_spec a b hb).1, BitVec.toNat_udiv]

theorem udivmodsi4_mod (a b modwanted : BitVec 32) (hb : b ≠ 0) (hm : modwanted ≠ 0) :
    udivmodsi4 a b modwanted = a % b := by
  have hm' : (modwanted != 0) = true := by simpa using hm
  apply BitVec.eq_of_toNat_eq
  rw [udivmodsi4, if_pos hm', (udivmodsi4Loops_spec a b hb).2, BitVec.toNat_umod]

theorem divsi3_eq (a b : BitVec 32) : divsi3 a b =
    if (a.toInt < 0) ≠ (b.toInt < 0) then -udivmodsi4 (magnitude a) (magnitude b) 0
    else udivmodsi4 (magnitude a) (magnitude b) 0 := by
  unfold divsi3 magnitude
  by_cases ha : a.toInt < 0 <;> by_cases hb : b.toInt < 0 <;> simp [ha, hb]

theorem modsi3_eq (a b : BitVec 32) : modsi3 a b =
    if a.toInt < 0 then -udivmodsi4 (magnitude a) (magnitude b) 1
    else udivmodsi4 (magnitude a) (magnitude b) 1 := by
  unfold modsi3 magnitude
  by_cases ha : a.toInt < 0 <;> by_cases hb : b.toInt < 0 <;> simp [ha, hb]

theorem divsi3_spec (a b : BitVec 32) (hb : b ≠ 0) :
    divsi3 a b = BitVec.ofInt 32 (a.toInt.tdiv b.toInt) := by
  rw [divsi3_eq, udivmodsi4_div _ _ (magnitude_ne_zero hb), signed_quotient]

theorem modsi3_spec (a b : BitVec 32) (hb : b ≠ 0) :
    modsi3 a b = BitVec.ofInt 32 (a.toInt.tmod b.toInt) := by
  rw [modsi3_eq, udivmodsi4_mod _ _ _ (magnitude_ne_zero hb) (by decide), signed_remainder]

theorem modsi3_toInt (a b : BitVec 32) (hb : b ≠ 0) :
    (modsi3 a b).toInt = a.toInt.tmod b.toInt := by
  have hB : b.toInt.natAbs ≤ 2 ^ 31 := by
    have := b.isLt; rw [BitVec.toInt_eq_toNat_cond]; split <;> omega
  have hB0 : b.toInt.natAbs ≠ 0 := by
    have := magnitude_toNat b; have := magnitude_ne_zero hb
    intro h; exact this (BitVec.eq_of_toNat_eq (by simp_all))
  have hlt := Nat.mod_lt a.toInt.natAbs (Nat.pos_of_ne_zero hB0)
  rw [modsi3_spec a b hb, BitVec.toInt_ofInt, tmod_natAbs]
  split <;> (simp only [Int.bmod]; split <;> omega)

theorem udivmodsi4_divsi3_modsi3 :
    (∀ a b : BitVec 32, b ≠ 0 →
      udivmodsi4 a b 0 = a / b ∧ udivmodsi4 a b 1 = a % b ∧
        udivsi3 a b = a / b ∧ umodsi3 a b = a % b) ∧
    (∀ a b : BitVec 32, b ≠ 0 →
      divsi3 a b = BitVec.ofInt 32 (a.toInt.tdiv b.toInt) ∧
      modsi3 a b = BitVec.ofInt 32 (a.toInt.tmod b.toInt) ∧
      a = divsi3 a b * b + modsi3 a b ∧
      (modsi3 a b).toInt = a.toInt.tmod b.toInt ∧
      (modsi3 a b ≠ 0 → ((modsi3 a b).toInt < 0 ↔ a.toInt < 0))) := by
  refine ⟨fun a b hb => ⟨udivmodsi4_div a b hb, udivmodsi4_mod a b 1 hb (by decide),
    udivmodsi4_div a b hb, udivmodsi4_mod a b 1 hb (by decide)⟩, fun a b hb => ?_⟩
  refine ⟨divsi3_spec a b hb, modsi3_spec a b hb, ?_, modsi3_toInt a b hb, fun hr => ?_⟩
  · rw [divsi3_spec a b hb, modsi3_spec a b hb]
    exact ofInt_tdiv_add_tmod a b
  · have hne : (modsi3 a b).toInt ≠ 0 := fun h => hr (BitVec.eq_of_toInt_eq (by simpa using h))
    rw [modsi3_toInt a b hb, tmod_natAbs] at hne ⊢
    split <;> omega

theorem divsi3_at_intMin :
    (-1 : BitVec 32) ≠ 0 ∧ divsi3 (BitVec.intMin 32) (-1) =
      BitVec.ofInt 32 ((BitVec.intMin 32).toInt.tdiv (-1 : BitVec 32).toInt) :=
  ⟨by decide, (udivmodsi4_divsi3_modsi3.2 _ _ (by decide)).1⟩

end HellfireOS.Divide32
