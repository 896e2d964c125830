import HellfireOS.Loop
import Mathlib.Tactic.Ring
import Mathlib.Tactic.Linarith

set_option autoImplicit false

/-!
# Machine words of the runtime

`int8_t` characters, the `dwords` union that the 64-bit routines use to reach the
halves of a word, and the C shift operators on 32-bit halves. A shift by the width
or more is undefined in C; the shift operators return `none` there, so a routine
that performs one returns `none` as a whole.
-/
namespace HellfireOS.Word

abbrev Byte := BitVec 8

def ch (c : Char) : Byte := BitVec.ofNat 8 c.toNat

theorem toInt_bounds (a : BitVec 32) : -2 ^ 31 ≤ a.toInt ∧ a.toInt < 2 ^ 31 := by
  have := a.isLt
  rw [BitVec.toInt_eq_toNat_cond]
  split <;> omega

theorem toNat_eq_natAbs {v : BitVec 32} (h : ¬ v.toInt < 0) : v.toNat = v.toInt.natAbs := by
  rw [BitVec.toInt_eq_toNat_cond] at *
  split at h <;> omega

theorem bmod_of_range {x : ℤ} (h1 : -2 ^ 31 ≤ x) (h2 : x < 2 ^ 31) : x.bmod (2 ^ 32) = x := by
  rw [Int.bmod_def]
  split <;> omega

theorem sub_one_of_toNat {n : BitVec 32} (hn : 0 ≤ n.toInt) {m : ℕ} (hm : n.toNat = m + 1) :
    0 ≤ (n - 1).toInt ∧ (n - 1).toNat = m := by
  have h1 : (n - 1).toNat = m := by
    rw [BitVec.toNat_sub, show (1 : BitVec 32).toNat = 1 from rfl]
    omega
  refine ⟨?_, h1⟩
  rw [BitVec.toInt_eq_toNat_cond] at hn ⊢
  rw [h1]
  split at hn <;> split <;> omega

theorem sub_one_toInt_neg {n : BitVec 32} (hm : n.toNat = 0) : (n - 1).toInt < 0 := by
  obtain rfl : n = 0 := BitVec.eq_of_toNat_eq hm
  decide

structure Dwords where
  high : BitVec 32
  low : BitVec 32
deriving DecidableEq, Repr

namespace Dwords

def all (r : Dwords) : BitVec 64 := r.high ++ r.low

def ofAll (x : BitVec 64) : Dwords := ⟨x.extractLsb' 32 32, x.extractLsb' 0 32⟩

theorem toNat_all (r : Dwords) : r.all.toNat = r.high.toNat * 2 ^ 32 + r.low.toNat := by
  rw [all, BitVec.toNat_append, Nat.shiftLeft_eq, Nat.mul_comm,
    ← Nat.mul_add_lt_is_or r.low.isLt]

@[simp] theorem ofAll_high_toNat (x : BitVec 64) : (ofAll x).high.toNat = x.toNat / 2 ^ 32 := by
  have := x.isLt
  simp only [ofAll, BitVec.extractLsb'_toNat, Nat.shiftRight_eq_div_pow]
  omega

@[simp] theorem ofAll_low_toNat (x : BitVec 64) : (ofAll x).low.toNat = x.toNat % 2 ^ 32 := by
  simp [ofAll, BitVec.extractLsb'_toNat]

@[simp] theorem all_ofAll (x : BitVec 64) : (ofAll x).all = x := by
  apply BitVec.eq_of_toNat_eq
  rw [toNat_all, ofAll_high_toNat, ofAll_low_toNat]
  omega

theorem all_inj {r s : Dwords} (h : r.all = s.all) : r = s := by
  obtain ⟨rh, rl⟩ := r
  obtain ⟨sh, sl⟩ := s
  have hn : rh.toNat * 2 ^ 32 + rl.toNat = sh.toNat * 2 ^ 32 + sl.toNat := by
    rw [← toNat_all ⟨rh, rl⟩, ← toNat_all ⟨sh, sl⟩, h]
  have := rl.isLt
  have := sl.isLt
  simp only [mk.injEq, BitVec.toNat_eq]
  omega

@[simp] theorem ofAll_all (r : Dwords) : ofAll r.all = r := all_inj (all_ofAll r.all)

end Dwords

def shl (x n : BitVec 32) : Option (BitVec 32) :=
  if n.toNat < 32 then some (x <<< n.toNat) else none

def lshr (x n : BitVec 32) : Option (BitVec 32) :=
  if n.toNat < 32 then some (x >>> n.toNat) else none

def ashr (x n : BitVec 32) : Option (BitVec 32) :=
  if n.toNat < 32 then some (x.sshiftRight n.toNat) else none

theorem shl_of_lt (x n : BitVec 32) (h : n.toNat < 32) : shl x n = some (x <<< n.toNat) :=
  if_pos h

theorem lshr_of_lt (x n : BitVec 32) (h : n.toNat < 32) : lshr x n = some (x >>> n.toNat) :=
  if_pos h

theorem ashr_of_lt (x n : BitVec 32) (h : n.toNat < 32) :
    ashr x n = some (x.sshiftRight n.toNat) :=
  if_pos h

theorem shl_of_ge (x n : BitVec 32) (h : 32 ≤ n.toNat) : shl x n = none := if_neg (by omega)

end HellfireOS.Word
