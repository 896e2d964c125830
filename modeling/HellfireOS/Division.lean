import HellfireOS.Loop
import Mathlib.Data.BitVec
import Mathlib.Tactic.Ring

set_option autoImplicit false

/-!
# Division, shared by both widths

Both unsigned division routines first scale the divisor `den` up by a power of two
`q`, then walk `q` back down, subtracting `den` whenever it fits and setting the
quotient bit `q`. `RestoringHead` is what holds at the head of that second loop, stated
on the values of the words; `restoring_step` is one iteration, and `restoring_done`
reads the quotient and remainder off the exit.

The signed routines divide magnitudes (`magnitude`) and negate afterwards; the second
half relates that to C's truncating `/` and `%` (`Int.tdiv`, `Int.tmod`).
-/
namespace HellfireOS.Division

/-- At the subtract loop's head: the quotient so far accounts for `num0 - num`, and
while `q` is set, `den = d0 * q`, the partial remainder is below `2 * den`, and the
quotient has no bit below `2 * q`. -/
def RestoringHead (num0 d0 num den q quot : ℕ) : Prop :=
  num0 = quot * d0 + num ∧ (q = 0 → num < d0) ∧
    (q ≠ 0 → (∃ k, q = 2 ^ k) ∧ den = d0 * q ∧ num < 2 * den ∧ 2 * q ∣ quot)

theorem restoring_step {num0 d0 num den q quot : ℕ}
    (h : RestoringHead num0 d0 num den q quot) (hq : q ≠ 0) :
    RestoringHead num0 d0 (if den ≤ num then num - den else num) (den / 2) (q / 2)
      (if den ≤ num then quot + q else quot) := by
  obtain ⟨hsum, -, hrun⟩ := h
  obtain ⟨⟨k, rfl⟩, rfl, hlt, hdvd⟩ := hrun hq
  have hnext : (if d0 * 2 ^ k ≤ num then num - d0 * 2 ^ k else num) < d0 * 2 ^ k := by
    split <;> omega
  have hsum' : num0 = (if d0 * 2 ^ k ≤ num then quot + 2 ^ k else quot) * d0 +
      (if d0 * 2 ^ k ≤ num then num - d0 * 2 ^ k else num) := by
    split
    · rw [Nat.add_mul, Nat.mul_comm (2 ^ k)]; omega
    · exact hsum
  refine ⟨hsum', fun h0 => ?_, fun h0 => ?_⟩
  · have : k = 0 := by
      by_contra hk
      exact absurd h0 (Nat.pos_iff_ne_zero.mp (Nat.div_pos
        (Nat.le_self_pow hk 2 |>.trans' (by decide)) (by decide)))
    simpa [this] using hnext
  · have hk : k ≠ 0 := by rintro rfl; simp at h0
    obtain ⟨j, rfl⟩ : ∃ j, k = j + 1 := ⟨k - 1, by omega⟩
    have hhalf : 2 ^ (j + 1) / 2 = 2 ^ j := by rw [Nat.pow_succ, Nat.mul_div_cancel _ (by decide)]
    have hden : d0 * 2 ^ (j + 1) / 2 = d0 * 2 ^ j := by
      rw [Nat.pow_succ, ← Nat.mul_assoc, Nat.mul_div_cancel _ (by decide)]
    rw [hhalf, hden]
    have hdouble : d0 * 2 ^ (j + 1) = 2 * (d0 * 2 ^ j) := by ring
    refine ⟨⟨j, rfl⟩, rfl, by rw [← hdouble]; exact hnext, ?_⟩
    have hq2 : 2 * 2 ^ j = 2 ^ (j + 1) := by rw [Nat.pow_succ, Nat.mul_comm]
    rw [hq2]
    have : 2 ^ (j + 1) ∣ quot := (Dvd.intro_left 2 rfl).trans hdvd
    split
    · exact Nat.dvd_add this (dvd_refl _)
    · exact this

theorem restoring_done {num0 d0 num den quot : ℕ} (h : RestoringHead num0 d0 num den 0 quot) :
    quot = num0 / d0 ∧ num = num0 % d0 := by
  obtain ⟨hsum, hlt, -⟩ := h
  have hlt := hlt rfl
  have hd : 0 < d0 := by omega
  constructor
  · rw [hsum, Nat.mul_comm, Nat.mul_add_div hd, Nat.div_eq_of_lt hlt, Nat.add_zero]
  · rw [hsum, Nat.mul_comm, Nat.mul_add_mod, Nat.mod_eq_of_lt hlt]

theorem or_two_pow_eq_add {quot k : ℕ} (h : 2 * 2 ^ k ∣ quot) : quot ||| 2 ^ k = quot + 2 ^ k := by
  obtain ⟨m, rfl⟩ := h
  have : 2 * 2 ^ k = 2 ^ (k + 1) := by rw [Nat.pow_succ, Nat.mul_comm]
  rw [this, Nat.mul_add_lt_is_or (Nat.pow_lt_pow_right (by decide) (Nat.lt_succ_self k))]

/-- `if (a < 0) a = -a;`: the magnitude, wrapped, so the most negative word is its own. -/
def magnitude {w : ℕ} (a : BitVec w) : BitVec w := if a.toInt < 0 then -a else a

theorem magnitude_toNat {w : ℕ} (a : BitVec w) : (magnitude a).toNat = a.toInt.natAbs := by
  rw [magnitude, BitVec.toInt_eq_toNat_cond]
  have := a.isLt
  split
  · rw [if_neg (by omega)]; simp
  · have hpos : 0 < a.toNat := by have := Nat.one_le_two_pow (n := w); omega
    rw [if_pos (by omega), BitVec.toNat_neg, Nat.mod_eq_of_lt (by omega)]
    omega

theorem magnitude_ne_zero {w : ℕ} {b : BitVec w} (hb : b ≠ 0) : magnitude b ≠ 0 := by
  unfold magnitude
  split
  · exact neg_ne_zero.2 hb
  · exact hb

theorem ofInt_neg_natCast {w : ℕ} (n : ℕ) : BitVec.ofInt w (-(n : ℤ)) = -BitVec.ofNat w n := by
  have h : BitVec.ofInt w (-(n : ℤ) + n) = BitVec.ofInt w (-(n : ℤ)) + BitVec.ofInt w n :=
    BitVec.ofInt_add _ _
  rw [neg_add_cancel, BitVec.ofInt_natCast] at h
  exact eq_neg_of_add_eq_zero_left (h.symm.trans (by simp))

theorem ofInt_toInt {w : ℕ} (x : BitVec w) : BitVec.ofInt w x.toInt = x := by
  apply BitVec.eq_of_toInt_eq
  rw [BitVec.toInt_ofInt, BitVec.toInt_eq_toNat_bmod, Int.bmod_bmod]

theorem tdiv_natAbs (x y : ℤ) : x.tdiv y = if (x < 0) ≠ (y < 0)
    then -((x.natAbs / y.natAbs : ℕ) : ℤ) else ((x.natAbs / y.natAbs : ℕ) : ℤ) := by
  cases x <;> cases y <;> simp [Int.tdiv, Int.negSucc_lt_zero]
  all_goals omega

theorem tmod_natAbs (x y : ℤ) : x.tmod y =
    if x < 0 then -((x.natAbs % y.natAbs : ℕ) : ℤ) else ((x.natAbs % y.natAbs : ℕ) : ℤ) := by
  cases x <;> cases y <;> simp [Int.tmod, Int.negSucc_lt_zero] <;> omega

theorem ofInt_tdiv_add_tmod {w : ℕ} (a b : BitVec w) :
    a = BitVec.ofInt w (a.toInt.tdiv b.toInt) * b + BitVec.ofInt w (a.toInt.tmod b.toInt) := by
  have h := congrArg (BitVec.ofInt w) (Int.tdiv_add_tmod' a.toInt b.toInt)
  rw [BitVec.ofInt_add, BitVec.ofInt_mul, ofInt_toInt, ofInt_toInt] at h
  exact h.symm

theorem signed_quotient {w : ℕ} (a b : BitVec w) :
    (if (a.toInt < 0) ≠ (b.toInt < 0) then -(magnitude a / magnitude b)
      else magnitude a / magnitude b) = BitVec.ofInt w (a.toInt.tdiv b.toInt) := by
  have hq : magnitude a / magnitude b = BitVec.ofNat w (a.toInt.natAbs / b.toInt.natAbs) := by
    apply BitVec.eq_of_toNat_eq
    rw [BitVec.toNat_udiv, magnitude_toNat, magnitude_toNat, BitVec.toNat_ofNat,
      Nat.mod_eq_of_lt (Nat.lt_of_le_of_lt (Nat.div_le_self _ _)
        (magnitude_toNat a ▸ (magnitude a).isLt))]
  rw [tdiv_natAbs, hq]
  split
  · rw [ofInt_neg_natCast]
  · rw [BitVec.ofInt_natCast]

theorem signed_remainder {w : ℕ} (a b : BitVec w) :
    (if a.toInt < 0 then -(magnitude a % magnitude b) else magnitude a % magnitude b) =
      BitVec.ofInt w (a.toInt.tmod b.toInt) := by
  have hr : magnitude a % magnitude b = BitVec.ofNat w (a.toInt.natAbs % b.toInt.natAbs) := by
    apply BitVec.eq_of_toNat_eq
    rw [BitVec.toNat_umod, magnitude_toNat, magnitude_toNat, BitVec.toNat_ofNat,
      Nat.mod_eq_of_lt (Nat.lt_of_le_of_lt (Nat.mod_le _ _)
        (magnitude_toNat a ▸ (magnitude a).isLt))]
  rw [tmod_natAbs, hr]
  split
  · rw [ofInt_neg_natCast]
  · rw [BitVec.ofInt_natCast]

theorem sdiv_eq_ofInt_tdiv {w : ℕ} (a b : BitVec w) :
    a.sdiv b = BitVec.ofInt w (a.toInt.tdiv b.toInt) := by
  rw [← signed_quotient, BitVec.sdiv_eq, BitVec.msb_eq_toInt, BitVec.msb_eq_toInt]
  by_cases ha : a.toInt < 0 <;> by_cases hb : b.toInt < 0 <;>
    simp [ha, hb, magnitude, BitVec.udiv_eq]

end HellfireOS.Division
