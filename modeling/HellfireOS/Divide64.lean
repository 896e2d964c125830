import HellfireOS.Division

set_option autoImplicit false

/-!
# 64-bit division

`__udivmoddi4` scales the divisor until its top bit is set, then runs the restoring
loop with `quot += qbit`. A zero divisor reaches `1 / ((uint32_t)den)`, a division by
zero: the model returns `none` there. `__divdi3` and `__moddi3` divide the magnitudes
and negate afterwards; `__moddi3` flips its sign for a negative divisor as `__divdi3`
does.
-/
namespace HellfireOS.Divide64
open HellfireOS.Loop HellfireOS.Division

/-- The variables of `__udivmoddi4`. -/
structure Udivmoddi4State where
  num : BitVec 64
  den : BitVec 64
  quot : BitVec 64
  qbit : BitVec 64

/-- `(int64_t)den >= 0`. -/
def scaleCond (s : Udivmoddi4State) : Bool := decide (0 ≤ s.den.toInt)

def scaleStep (s : Udivmoddi4State) : Udivmoddi4State :=
  { s with den := s.den <<< 1, qbit := s.qbit <<< 1 }

def subtractStep (s : Udivmoddi4State) : Udivmoddi4State :=
  let s := if s.den ≤ s.num then { s with num := s.num - s.den, quot := s.quot + s.qbit } else s
  { s with den := s.den >>> 1, qbit := s.qbit >>> 1 }

/-- The scaling loop of `__udivmoddi4`, from `quot = 0`, `qbit = 1`. -/
def scaled (num den : BitVec 64) : Udivmoddi4State :=
  loopWhile scaleCond scaleStep 64 ⟨num, den, 0, 1⟩

/-- `__udivmoddi4`: the quotient, and the remainder it stores through `rem_p`. -/
def udivmoddi4 (num den : BitVec 64) : Option (BitVec 64 × BitVec 64) :=
  if den = 0 then none
  else
    let s := loopWhile (fun s => s.qbit != 0) subtractStep 64 (scaled num den)
    some (s.quot, s.num)

def umoddi3 (num den : BitVec 64) : Option (BitVec 64) := (udivmoddi4 num den).map Prod.snd

def udivdi3 (num den : BitVec 64) : Option (BitVec 64) := (udivmoddi4 num den).map Prod.fst

/-- `__moddi3`: `minus` is flipped once for each negative operand. -/
def moddi3 (num den : BitVec 64) : Option (BitVec 64) :=
  let (num, minus) := if num.toInt < 0 then (-num, true) else (num, false)
  let (den, minus) := if den.toInt < 0 then (-den, !minus) else (den, minus)
  (udivmoddi4 num den).map fun (_, v) => if minus then -v else v

def divdi3 (num den : BitVec 64) : Option (BitVec 64) :=
  let (num, minus) := if num.toInt < 0 then (-num, true) else (num, false)
  let (den, minus) := if den.toInt < 0 then (-den, !minus) else (den, minus)
  (udivmoddi4 num den).map fun (v, _) => if minus then -v else v

theorem scaleCond_iff (s : Udivmoddi4State) : scaleCond s = true ↔ s.den.toNat < 2 ^ 63 := by
  rw [scaleCond, decide_eq_true_iff, BitVec.toInt_eq_toNat_cond]
  have := s.den.isLt
  split <;> omega

/-- The scaling loop keeps `den = d0 * qbit` with `qbit` a power of two. -/
def Scaled (num0 d0 : ℕ) (s : Udivmoddi4State) : Prop :=
  s.num.toNat = num0 ∧ s.quot.toNat = 0 ∧ s.den.toNat = d0 * s.qbit.toNat ∧
    ∃ k, s.qbit.toNat = 2 ^ k

theorem scaleStep_scaled {num0 d0 : ℕ} {s : Udivmoddi4State} (hd : 0 < d0)
    (h : Scaled num0 d0 s) (hc : scaleCond s = true) : Scaled num0 d0 (scaleStep s) := by
  obtain ⟨hn, hq, hden, k, hk⟩ := h
  have htop := (scaleCond_iff s).1 hc
  have hle : s.qbit.toNat ≤ s.den.toNat := hden ▸ Nat.le_mul_of_pos_left _ hd
  have hmul : d0 * (s.qbit.toNat * 2 ^ 1) = d0 * s.qbit.toNat * 2 := by ring
  refine ⟨hn, hq, ?_, k + 1, ?_⟩ <;>
    simp only [scaleStep, BitVec.toNat_shiftLeft, Nat.shiftLeft_eq]
  · rw [Nat.mod_eq_of_lt (by omega), Nat.mod_eq_of_lt (by omega), hmul]
    omega
  · rw [Nat.mod_eq_of_lt (by omega), hk, ← Nat.pow_add]

theorem scale_exits {num0 d0 : ℕ} (hd : 0 < d0) :
    ∀ n s, (Scaled num0 d0 s ∧ 2 ^ 63 ≤ s.qbit.toNat * 2 ^ n) →
      scaleCond (loopWhile scaleCond scaleStep n s) = false := by
  apply loopWhile_exit
  · rintro n s ⟨hs, hb⟩ hc
    refine ⟨scaleStep_scaled hd hs hc, ?_⟩
    have htop := (scaleCond_iff s).1 hc
    simp only [scaleStep, BitVec.toNat_shiftLeft, Nat.shiftLeft_eq]
    have hlt : s.qbit.toNat * 2 ^ 1 < 2 ^ 64 := by
      have := hs.2.2.1 ▸ Nat.le_mul_of_pos_left s.qbit.toNat hd
      omega
    rw [Nat.mod_eq_of_lt hlt]
    calc 2 ^ 63 ≤ s.qbit.toNat * 2 ^ (n + 1) := hb
      _ = s.qbit.toNat * 2 ^ 1 * 2 ^ n := by ring
  · rintro s ⟨⟨-, -, hden, -⟩, hb⟩
    have := hden ▸ Nat.le_mul_of_pos_left s.qbit.toNat hd
    cases hc : scaleCond s
    · rfl
    · have := (scaleCond_iff s).1 hc
      omega

def Head (num0 d0 : ℕ) (s : Udivmoddi4State) : Prop :=
  RestoringHead num0 d0 s.num.toNat s.den.toNat s.qbit.toNat s.quot.toNat

theorem scaled_head {num0 d0 : ℕ} {s : Udivmoddi4State} (h : Scaled num0 d0 s)
    (hc : scaleCond s = false) : Head num0 d0 s := by
  obtain ⟨hn, hq, hden, k, hk⟩ := h
  have hbit : s.qbit.toNat ≠ 0 := by rw [hk]; exact (Nat.pos_pow_of_pos k (by decide)).ne'
  have hnum := s.num.isLt
  have htop : ¬ s.den.toNat < 2 ^ 63 := fun h' =>
    absurd ((scaleCond_iff s).2 h') (by rw [hc]; decide)
  refine ⟨by rw [hq, hn, Nat.zero_mul, Nat.zero_add], fun h0 => absurd h0 hbit,
    fun _ => ⟨⟨k, hk⟩, hden, by omega, ?_⟩⟩
  rw [hq]
  exact dvd_zero _

@[simp] theorem subtractStep_qbit (s : Udivmoddi4State) :
    (subtractStep s).qbit = s.qbit >>> 1 := by
  unfold subtractStep; split <;> rfl

@[simp] theorem subtractStep_den (s : Udivmoddi4State) : (subtractStep s).den = s.den >>> 1 := by
  unfold subtractStep; split <;> rfl

theorem subtractStep_head {num0 d0 : ℕ} {s : Udivmoddi4State} (hd : 0 < d0)
    (hnum0 : num0 < 2 ^ 64) (h : Head num0 d0 s) (hb : (s.qbit != 0) = true) :
    Head num0 d0 (subtractStep s) := by
  have hq : s.qbit.toNat ≠ 0 := by
    simpa [BitVec.toNat_eq] using hb
  have next := restoring_step h hq
  obtain ⟨hsum, -, hrun⟩ := h
  obtain ⟨-, hden, -, -⟩ := hrun hq
  unfold Head
  by_cases hle : s.den.toNat ≤ s.num.toNat
  · have hge : s.den ≤ s.num := BitVec.le_def.2 hle
    have hfit : s.quot.toNat + s.qbit.toNat < 2 ^ 64 := by
      have : (s.quot.toNat + s.qbit.toNat) * d0 ≤ num0 := by
        rw [Nat.add_mul, Nat.mul_comm s.qbit.toNat, ← hden]; omega
      exact Nat.lt_of_le_of_lt (Nat.le_mul_of_pos_right _ hd |>.trans this) hnum0
    have hadd : (s.quot + s.qbit).toNat = s.quot.toNat + s.qbit.toNat := by
      rw [BitVec.toNat_add, Nat.mod_eq_of_lt hfit]
    simpa [subtractStep, hge, hle, hadd, BitVec.toNat_sub_of_le hge,
      Nat.shiftRight_one] using next
  · have hge : ¬ s.den ≤ s.num := fun h' => hle (BitVec.le_def.1 h')
    simpa [subtractStep, hge, hle, Nat.shiftRight_one] using next

theorem subtract_exits :
    ∀ n (s : Udivmoddi4State), s.qbit.toNat < 2 ^ n →
      (loopWhile (fun s => s.qbit != 0) subtractStep n s).qbit = 0 := by
  intro n s hs
  have := loopWhile_exit (fun s : Udivmoddi4State => s.qbit != 0) subtractStep
    (fun n s => s.qbit.toNat < 2 ^ n)
    (fun n s (hs : s.qbit.toNat < 2 ^ (n + 1)) _ => by
      simp only [subtractStep_qbit, BitVec.toNat_ushiftRight, Nat.shiftRight_one]
      rw [Nat.pow_succ] at hs
      omega)
    (fun s (hs : s.qbit.toNat < 2 ^ 0) => by
      simp only [bne_eq_false_iff_eq]
      bv_omega) n s hs
  simpa using this

theorem scaled_exits (num den : BitVec 64) (hd : den ≠ 0) :
    scaleCond (loopWhile scaleCond scaleStep 63 ⟨num, den, 0, 1⟩) = false := by
  have hd' : 0 < den.toNat := Nat.pos_of_ne_zero fun h => hd (BitVec.eq_of_toNat_eq (by simpa using h))
  exact scale_exits hd' 63 _ ⟨⟨rfl, rfl, by simp, 0, by simp⟩, by simp⟩

theorem udivmoddi4_loops (num den : BitVec 64) (hd : den ≠ 0) :
    (loopWhile (fun s => s.qbit != 0) subtractStep 64 (scaled num den)).quot.toNat =
        num.toNat / den.toNat ∧
      (loopWhile (fun s => s.qbit != 0) subtractStep 64 (scaled num den)).num.toNat =
        num.toNat % den.toNat := by
  have hd' : 0 < den.toNat := Nat.pos_of_ne_zero fun h => hd (BitVec.eq_of_toNat_eq (by simpa using h))
  have init : Scaled num.toNat den.toNat ⟨num, den, 0, 1⟩ := ⟨rfl, rfl, by simp, 0, by simp⟩
  have head : Head num.toNat den.toNat (scaled num den) :=
    scaled_head (loopWhile_invariant scaleCond scaleStep _
    (fun _ hs hc => scaleStep_scaled hd' hs hc) 64 _ init)
    (scale_exits hd' 64 _ ⟨init, by simp⟩)
  have done := loopWhile_invariant (fun s => s.qbit != 0) subtractStep (Head num.toNat den.toNat)
    (fun _ hs hb => subtractStep_head hd' num.isLt hs hb) 64 _ head
  unfold Head at done
  rw [subtract_exits 64 (scaled num den) (BitVec.isLt _)] at done
  exact restoring_done done

theorem udivmoddi4_eq (num den : BitVec 64) (hd : den ≠ 0) :
    udivmoddi4 num den = some (num / den, num % den) := by
  obtain ⟨hq, hr⟩ := udivmoddi4_loops num den hd
  simp only [udivmoddi4, hd, if_false, Option.some.injEq, Prod.mk.injEq]
  exact ⟨BitVec.eq_of_toNat_eq (by rw [hq, BitVec.toNat_udiv]),
    BitVec.eq_of_toNat_eq (by rw [hr, BitVec.toNat_umod])⟩

theorem divdi3_eq (a b : BitVec 64) : divdi3 a b =
    (udivmoddi4 (magnitude a) (magnitude b)).map fun (v, _) =>
      if (a.toInt < 0) ≠ (b.toInt < 0) then -v else v := by
  unfold divdi3 magnitude
  by_cases ha : a.toInt < 0 <;> by_cases hb : b.toInt < 0 <;> simp [ha, hb]

theorem moddi3_eq (a b : BitVec 64) : moddi3 a b =
    (udivmoddi4 (magnitude a) (magnitude b)).map fun (_, v) =>
      if (a.toInt < 0) ≠ (b.toInt < 0) then -v else v := by
  unfold moddi3 magnitude
  by_cases ha : a.toInt < 0 <;> by_cases hb : b.toInt < 0 <;> simp [ha, hb]

/-- `__divdi3` is C's truncating division, wrapped to 64 bits. -/
theorem divdi3_spec (a b : BitVec 64) (hb : b ≠ 0) :
    divdi3 a b = some (BitVec.ofInt 64 (a.toInt.tdiv b.toInt)) := by
  rw [divdi3_eq, udivmoddi4_eq _ _ (magnitude_ne_zero hb)]
  simp only [Option.map_some', Option.some.injEq]
  exact signed_quotient a b

/-- `__moddi3` is C's remainder with its sign flipped whenever the divisor is negative. -/
theorem moddi3_spec (a b : BitVec 64) (hb : b ≠ 0) :
    moddi3 a b = some (if b.toInt < 0 then -BitVec.ofInt 64 (a.toInt.tmod b.toInt)
      else BitVec.ofInt 64 (a.toInt.tmod b.toInt)) := by
  rw [moddi3_eq, udivmoddi4_eq _ _ (magnitude_ne_zero hb), ← signed_remainder]
  by_cases ha : a.toInt < 0 <;> by_cases hb : b.toInt < 0 <;> simp [ha, hb]

theorem divdi3_spec_seven :
    (-2 : BitVec 64) ≠ 0 ∧
      divdi3 7 (-2) = some (BitVec.ofInt 64 ((7 : BitVec 64).toInt.tdiv (-2 : BitVec 64).toInt)) :=
  ⟨by decide, divdi3_spec 7 (-2) (by decide)⟩

theorem moddi3_spec_seven :
    (-2 : BitVec 64) ≠ 0 ∧
      moddi3 7 (-2) = some (if (-2 : BitVec 64).toInt < 0 then
        -BitVec.ofInt 64 ((7 : BitVec 64).toInt.tmod (-2 : BitVec 64).toInt)
        else BitVec.ofInt 64 ((7 : BitVec 64).toInt.tmod (-2 : BitVec 64).toInt)) :=
  ⟨by decide, moddi3_spec 7 (-2) (by decide)⟩

/-- `__udivmoddi4` divides every dividend by every nonzero divisor, within 63 scaling
shifts and 64 subtraction steps. -/
theorem udivmoddi4_correct (num den : BitVec 64) (hd : den ≠ 0) :
    (∃ q r, udivmoddi4 num den = some (q, r) ∧
      num.toNat = q.toNat * den.toNat + r.toNat ∧ r.toNat < den.toNat) ∧
    udivdi3 num den = some (num / den) ∧ umoddi3 num den = some (num % den) ∧
    scaleCond (loopWhile scaleCond scaleStep 63 ⟨num, den, 0, 1⟩) = false ∧
    (loopWhile (fun s => s.qbit != 0) subtractStep 64 (scaled num den)).qbit = 0 := by
  have hd' : 0 < den.toNat := Nat.pos_of_ne_zero fun h => hd (BitVec.eq_of_toNat_eq (by simpa using h))
  refine ⟨⟨num / den, num % den, udivmoddi4_eq num den hd, ?_, ?_⟩, ?_, ?_, scaled_exits num den hd,
    subtract_exits 64 _ (BitVec.isLt _)⟩
  · rw [BitVec.toNat_udiv, BitVec.toNat_umod, Nat.mul_comm]
    exact (Nat.div_add_mod _ _).symm
  · rw [BitVec.toNat_umod]; exact Nat.mod_lt _ hd'
  · simp [udivdi3, udivmoddi4_eq num den hd]
  · simp [umoddi3, udivmoddi4_eq num den hd]

theorem udivmoddi4_correct_at_three :
    (3 : BitVec 64) ≠ 0 ∧ udivdi3 100 3 = some (100 / 3) :=
  ⟨by decide, (udivmoddi4_correct 100 3 (by decide)).2.1⟩

set_option maxRecDepth 4000 in
/-- At `(7, -2)` the quotient is C's, `-3`, but the remainder is `-1` where C's `7 % -2` is
`1 = 7 - (-2) * (-3)`. -/
theorem moddi3_seven_neg_two : divdi3 7 (-2) = some (-3) ∧ moddi3 7 (-2) = some (-1) := by
  constructor <;> rfl

end HellfireOS.Divide64
