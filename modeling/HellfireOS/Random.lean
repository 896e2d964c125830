import Mathlib.Data.BitVec
import Mathlib.Dynamics.PeriodicPts
import Mathlib.Data.Nat.Prime.Basic
import Mathlib.Tactic.Ring
import Mathlib.Data.Finset.Card
import Mathlib.Data.Finset.Prod
import Mathlib.Data.Finset.Image

set_option autoImplicit false

/-!
# `random` and `srand`

`random()` steps the library's static `rand1` through `rand1 * 1103515245 + 12345`, modulo
2^32, and returns bits 16 to 30 of the new state; `srand(seed)` sets `rand1`. The multiplier
is 1 modulo 4 and the increment is odd, Hull and Dobell's conditions for the modulus 2^32:
from every state the generator runs through all 2^32 words before it repeats
(`minimalPeriod_next`), and each of the 32768 values of `random()` comes back exactly 2^17
times in any 2^32 consecutive calls.

`aperiodic_task_generator` of the kernel draws its delays as `random() % 140 + 60`.
-/
namespace HellfireOS.Random
open Function

/-- `static uint32_t rand1=0xbaadf00d;` -/
def rand1Init : BitVec 32 := 0xbaadf00d

/-- `rand1 = rand1 * 1103515245 + 12345;` -/
def next (rand1 : BitVec 32) : BitVec 32 := rand1 * 1103515245 + 12345

/-- `(uint32_t)(rand1 >> 16) & 32767`, the value `random()` returns from the new state. -/
def output (rand1 : BitVec 32) : BitVec 32 := (rand1 >>> 16) &&& 32767

/-- `random()`: the state after the call, and the value it returns. -/
def random (rand1 : BitVec 32) : BitVec 32 × BitVec 32 := (next rand1, output (next rand1))

/-- `srand(seed)`: the state after the call. -/
def srand (seed : BitVec 32) : BitVec 32 := seed

/-- `n` calls of `random()` from the state `rand1`: the values in order, and the state after. -/
def randoms : ℕ → BitVec 32 → List (BitVec 32) × BitVec 32
  | 0, rand1 => ([], rand1)
  | n + 1, rand1 =>
    let r := random rand1
    let rest := randoms n r.1
    (r.2 :: rest.1, rest.2)

/-- `random() % 140 + 60` of `aperiodic_task_generator`: the state after the call, and the
delay it asks for, with C's `%` on `int32_t`. -/
def generatorDelay (rand1 : BitVec 32) : BitVec 32 × BitVec 32 :=
  let (rand1, r) := random rand1
  (rand1, r.srem 140 + 60)

theorem randoms_succ (n : ℕ) (rand1 : BitVec 32) :
    randoms (n + 1) rand1 =
      (output (next rand1) :: (randoms n (next rand1)).1, (randoms n (next rand1)).2) := rfl

theorem randoms_eq (n : ℕ) (rand1 : BitVec 32) :
    randoms n rand1 = ((List.range n).map fun i => output (next^[i] (next rand1)), next^[n] rand1) := by
  induction n generalizing rand1 with
  | zero => rfl
  | succ n ih =>
    rw [randoms_succ, ih, List.range_succ_eq_map, List.map_cons, List.map_map, iterate_zero_apply,
      iterate_succ_apply]
    refine congrArg₂ Prod.mk (congrArg _ (List.map_congr_left fun i _ => ?_)) rfl
    rw [Function.comp_apply, iterate_succ_apply]

theorem output_toNat (s : BitVec 32) : (output s).toNat = s.toNat / 2 ^ 16 % 2 ^ 15 := by
  rw [output, BitVec.toNat_and, show (32767 : BitVec 32).toNat = 2 ^ 15 - 1 from rfl,
    Nat.and_pow_two_sub_one_eq_mod, BitVec.toNat_ushiftRight, Nat.shiftRight_eq_div_pow]

theorem delay_bounds (r : BitVec 32) (hr : r.toNat < 2 ^ 15) :
    60 ≤ (r.srem 140 + 60).toNat ∧ (r.srem 140 + 60).toNat ≤ 199 := by
  have hm : r.msb = false := by
    rw [BitVec.msb_eq_decide]
    simp only [decide_eq_false_iff_not, not_le]
    omega
  have hs : (r.srem 140).toNat = r.toNat % 140 := by
    rw [BitVec.srem, hm]
    exact BitVec.toNat_umod
  rw [BitVec.toNat_add, hs, show (60 : BitVec 32).toNat = 60 from rfl]
  omega

theorem generatorDelay_bounds (rand1 : BitVec 32) :
    60 ≤ (generatorDelay rand1).2.toNat ∧ (generatorDelay rand1).2.toNat ≤ 199 :=
  delay_bounds _ (by rw [output_toNat]; exact Nat.mod_lt _ (by decide))

/-- The coefficients of `2^k` steps: `next^[2^k] x = (doubled k).1 * x + (doubled k).2`. -/
def doubled : ℕ → BitVec 32 × BitVec 32
  | 0 => (1103515245, 12345)
  | k + 1 =>
    let (b, d) := doubled k
    (b * b, (b + 1) * d)

theorem iterate_two_pow (k : ℕ) (x : BitVec 32) :
    next^[2 ^ k] x = (doubled k).1 * x + (doubled k).2 := by
  induction k generalizing x with
  | zero =>
    rw [pow_zero, iterate_one, next, mul_comm]
    rfl
  | succ k ih =>
    rw [pow_succ, mul_two, iterate_add_apply, ih, ih]
    simp only [doubled]
    ring

theorem doubled_sixteen : doubled 16 = (0xdfa40001, 0x21330000) := by rfl

theorem doubled_thirty_one : doubled 31 = (1, 0x80000000) := by rfl

theorem doubled_thirty_two : doubled 32 = (1, 0) := by rfl

theorem minimalPeriod_next (x : BitVec 32) : minimalPeriod next x = 2 ^ 32 := by
  have : Fact (Nat.Prime 2) := ⟨Nat.prime_two⟩
  apply minimalPeriod_eq_prime_pow (k := 31)
  · intro h
    have h' : next^[2 ^ 31] x = x := h
    rw [iterate_two_pow, doubled_thirty_one, one_mul] at h'
    exact absurd (add_right_eq_self.1 h') (by decide)
  · show next^[2 ^ 32] x = x
    rw [iterate_two_pow, doubled_thirty_two, one_mul, add_zero]

theorem iterate_injOn (x : BitVec 32) : Set.InjOn (fun n => next^[n] x) (Set.Iio (2 ^ 32)) := by
  rw [← minimalPeriod_next x]
  exact iterate_injOn_Iio_minimalPeriod

theorem image_states (x : BitVec 32) :
    (Finset.range (2 ^ 32)).image (fun n => (next^[n] x).toNat) = Finset.range (2 ^ 32) := by
  refine Finset.eq_of_subset_of_card_le (fun m hm => ?_) ?_
  · obtain ⟨n, -, rfl⟩ := Finset.mem_image.1 hm
    exact Finset.mem_range.2 (BitVec.isLt _)
  · rw [Finset.card_image_of_injOn fun a ha b hb hab =>
      iterate_injOn x (Finset.mem_range.1 ha) (Finset.mem_range.1 hb) (BitVec.eq_of_toNat_eq hab)]

theorem existsUnique_state (x y : BitVec 32) : ∃! n, n < 2 ^ 32 ∧ next^[n] x = y := by
  have hy : y.toNat ∈ (Finset.range (2 ^ 32)).image (fun n => (next^[n] x).toNat) := by
    rw [image_states]
    exact Finset.mem_range.2 y.isLt
  obtain ⟨n, hn, hny⟩ := Finset.mem_image.1 hy
  have hn' := Finset.mem_range.1 hn
  exact ⟨n, ⟨hn', BitVec.eq_of_toNat_eq hny⟩, fun m ⟨hm, hmy⟩ =>
    iterate_injOn x hm hn' (hmy.trans (BitVec.eq_of_toNat_eq hny).symm)⟩

theorem card_output_fiber (v : ℕ) (hv : v < 2 ^ 15) :
    ((Finset.range (2 ^ 32)).filter fun m => output (BitVec.ofNat 32 m) = BitVec.ofNat 32 v).card =
      2 ^ 17 := by
  have hfib : (Finset.range (2 ^ 32)).filter (fun m => output (BitVec.ofNat 32 m) = BitVec.ofNat 32 v) =
      (Finset.range 2 ×ˢ Finset.range (2 ^ 16)).image fun p => p.1 * 2 ^ 31 + v * 2 ^ 16 + p.2 := by
    ext m
    simp only [Finset.mem_filter, Finset.mem_range, Finset.mem_image, Finset.mem_product, Prod.exists,
      BitVec.toNat_eq, output_toNat, BitVec.toNat_ofNat]
    constructor
    · rintro ⟨hm, he⟩
      exact ⟨m / 2 ^ 31, m % 2 ^ 16, ⟨by omega, by omega⟩, by omega⟩
    · rintro ⟨a, b, ⟨ha, hb⟩, rfl⟩
      omega
  rw [hfib, Finset.card_image_of_injOn, Finset.card_product, Finset.card_range, Finset.card_range]
  · rfl
  · rintro ⟨a, b⟩ hp ⟨c, d⟩ hq h
    simp only [Finset.coe_product, Set.mem_prod, Finset.coe_range, Set.mem_Iio] at hp hq h
    simp only [Prod.mk.injEq]
    omega

/-- In any 2^32 consecutive calls, from any state, `random()` returns each of its 2^15 values
exactly 2^17 times. -/
theorem randoms_count (rand1 : BitVec 32) (v : ℕ) (hv : v < 2 ^ 15) :
    (randoms (2 ^ 32) rand1).1.count (BitVec.ofNat 32 v) = 2 ^ 17 := by
  have hinj : Set.InjOn (fun n => (next^[n] (next rand1)).toNat) (Finset.range (2 ^ 32) : Set ℕ) :=
    fun a ha b hb hab => iterate_injOn _ (Finset.mem_range.1 ha) (Finset.mem_range.1 hb)
      (BitVec.eq_of_toNat_eq hab)
  rw [← card_output_fiber v hv, ← image_states (next rand1), Finset.filter_image,
    Finset.card_image_of_injOn (hinj.mono (Finset.coe_subset.2 (Finset.filter_subset _ _))),
    randoms_eq, List.count_eq_countP, List.countP_map, List.countP_eq_length_filter]
  simp only [BitVec.ofNat_toNat, BitVec.setWidth_eq]
  rw [Finset.card_def, Finset.filter_val, Finset.range_val, Multiset.range, Multiset.filter_coe,
    Multiset.coe_card]
  rfl

theorem randoms_count_zero :
    0 < 2 ^ 15 ∧ (randoms (2 ^ 32) rand1Init).1.count (BitVec.ofNat 32 0) = 2 ^ 17 :=
  ⟨by decide, randoms_count rand1Init 0 (by decide)⟩

/-- The lowest bit of `random()`, bit 16 of the state, flips every 2^16 calls, so the parity
of `random()` repeats with period 2^17 from every state. -/
theorem output_parity_flips (x : BitVec 32) :
    (output (next^[2 ^ 16] x)).toNat % 2 = 1 - (output x).toNat % 2 ∧
      (output (next^[2 ^ 17] x)).toNat % 2 = (output x).toNat % 2 := by
  have parity : ∀ s : BitVec 32, (output s).toNat % 2 = s.toNat % 2 ^ 17 / 2 ^ 16 := fun s => by
    rw [output_toNat]
    omega
  have flip : ∀ y : BitVec 32, (output (next^[2 ^ 16] y)).toNat % 2 = 1 - (output y).toNat % 2 := by
    intro y
    rw [parity, parity, iterate_two_pow, doubled_sixteen, BitVec.toNat_add, BitVec.toNat_mul,
      show (0xdfa40001 : BitVec 32).toNat = 0xdfa40001 from rfl,
      show (0x21330000 : BitVec 32).toNat = 0x21330000 from rfl]
    have low : (0xdfa40001 * y.toNat % 2 ^ 32 + 0x21330000) % 2 ^ 32 % 2 ^ 17 =
        (y.toNat + 2 ^ 16) % 2 ^ 17 := by
      omega
    rw [low]
    omega
  refine ⟨flip x, ?_⟩
  rw [show 2 ^ 17 = 2 ^ 16 + 2 ^ 16 from rfl, iterate_add_apply, flip, flip]
  omega

/-- From every state, seeded by `srand` or not, the state of `random()` comes back after
2^32 calls and not before, and on the way takes every 32-bit word exactly once. -/
theorem state_cycle (x : BitVec 32) :
    minimalPeriod next x = 2 ^ 32 ∧ ∀ y, ∃! n, n < 2 ^ 32 ∧ next^[n] x = y :=
  ⟨minimalPeriod_next x, existsUnique_state x⟩

end HellfireOS.Random
