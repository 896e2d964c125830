import HellfireOS.Word

set_option autoImplicit false

/-!
# Byte storage, `memmove`, `memcpy` and `memset`

A routine that writes works on one storage, the list of its bytes, with its pointers as
indices into it. Reading with `m[i]?` or writing with `store` outside the storage is
undefined and makes the routine `none`.

`memmove` copies forwards when the source does not lie below the destination and
backwards from one past the ends otherwise, so that each byte is read before the copy
overwrites it. `Moved` is what both directions achieve: the `n` bytes from `src` are at
`dst`, and every other byte is as it was.

`memcpy` always copies forwards. It achieves `Moved`, and so equals `memmove`, where the
ranges are disjoint or the destination lies at or below the source. `memset` fills `n` bytes
with the low byte of its argument.
-/
namespace HellfireOS.Memory
open HellfireOS.Word

/-- `m[i] = b`; a write outside the storage is undefined. -/
def store (m : List Byte) (i : ℕ) (b : Byte) : Option (List Byte) :=
  if i < m.length then some (m.set i b) else none

/-- `while (n--) *s++ = *p++;` with `k` passes left and `s`, `p` as indices. -/
def copyForward : ℕ → List Byte → ℕ → ℕ → Option (List Byte)
  | 0, m, _, _ => some m
  | k + 1, m, s, p => do
    let b ← m[p]?
    let m ← store m s b
    copyForward k m (s + 1) (p + 1)

/-- `while (n--) *--s = *--p;` from one past the ends; a step below the storage is
undefined. -/
def copyBackward : ℕ → List Byte → ℕ → ℕ → Option (List Byte)
  | 0, m, _, _ => some m
  | k + 1, m, s + 1, p + 1 => do
    let b ← m[p]?
    let m ← store m s b
    copyBackward k m s p
  | _ + 1, _, _, _ => none

/-- `memmove(m + dst, m + src, n)`: the storage after the call, and the `dst` it returns.
`if (p >= s)` compares the source with the destination. -/
def memmove (m : List Byte) (dst src : ℕ) (n : BitVec 32) : Option (List Byte × ℕ) := do
  let m ← if dst ≤ src then copyForward n.toNat m dst src
    else copyBackward n.toNat m (dst + n.toNat) (src + n.toNat)
  some (m, dst)

/-- `memcpy(m + dst, m + src, n)`: `while (n--) *r1++ = *r2++;` forwards whatever the
overlap; the storage after the call, and the `dst` it returns. -/
def memcpy (m : List Byte) (dst src : ℕ) (n : BitVec 32) : Option (List Byte × ℕ) := do
  let m ← copyForward n.toNat m dst src
  some (m, dst)

/-- `memset(m + s, c, n)`: `while (n--) *p++ = (uint8_t)c;` with `k` passes left. -/
def fill : ℕ → List Byte → ℕ → Byte → Option (List Byte)
  | 0, m, _, _ => some m
  | k + 1, m, p, b => do
    let m ← store m p b
    fill k m (p + 1) b

/-- `memset(m + s, c, n)`: the storage after the call, and the `s` it returns. -/
def memset (m : List Byte) (s : ℕ) (c n : BitVec 32) : Option (List Byte × ℕ) := do
  let m ← fill n.toNat m s (c.setWidth 8)
  some (m, s)

structure Moved (m m' : List Byte) (dst src n : ℕ) : Prop where
  length_eq : m'.length = m.length
  copied : ∀ i < n, m'[dst + i]? = m[src + i]?
  frame : ∀ j, j < dst ∨ dst + n ≤ j → m'[j]? = m[j]?

theorem store_of_lt {m : List Byte} {i : ℕ} (h : i < m.length) (b : Byte) :
    store m i b = some (m.set i b) :=
  if_pos h

theorem store_append (pre : List Byte) (t : Byte) (tail : List Byte) (b : Byte) :
    store (pre ++ t :: tail) pre.length b = some (pre ++ b :: tail) := by
  rw [store_of_lt (by simp), List.set_append_right _ _ le_rfl, Nat.sub_self, List.set_cons_zero]

theorem moved_zero (m : List Byte) (dst src : ℕ) : Moved m m dst src 0 :=
  ⟨rfl, fun _ h => absurd h (Nat.not_lt_zero _), fun _ _ => rfl⟩

theorem copyForward_moved (k : ℕ) (m : List Byte) (dst src : ℕ) (hle : dst ≤ src ∨ src + k ≤ dst)
    (hk : src + k ≤ m.length) (hd : dst + k ≤ m.length) :
    ∃ m', copyForward k m dst src = some m' ∧ Moved m m' dst src k := by
  induction k generalizing m dst src with
  | zero => exact ⟨m, rfl, moved_zero m dst src⟩
  | succ k ih =>
    have hs : src < m.length := by omega
    obtain ⟨m', hrun, hmv⟩ := ih (m.set dst m[src]) (dst + 1) (src + 1) (by omega)
      (by rw [List.length_set]; omega) (by rw [List.length_set]; omega)
    refine ⟨m', ?_, ⟨?_, fun i hi => ?_, fun j hj => ?_⟩⟩
    · simp only [copyForward, List.getElem?_eq_getElem hs, Option.bind_eq_bind, Option.some_bind,
        store_of_lt (show dst < m.length by omega), hrun]
    · rw [hmv.length_eq, List.length_set]
    · cases i with
      | zero =>
        rw [hmv.frame _ (Or.inl (by omega)), Nat.add_zero, Nat.add_zero,
          List.getElem?_set_self (by omega), List.getElem?_eq_getElem hs]
      | succ i =>
        rw [show dst + (i + 1) = dst + 1 + i by omega, hmv.copied i (by omega),
          List.getElem?_set_ne (by omega), show src + 1 + i = src + (i + 1) by omega]
    · rw [hmv.frame j (by omega), List.getElem?_set_ne (by omega)]

theorem copyBackward_moved (k : ℕ) (m : List Byte) (dst src : ℕ) (hle : src ≤ dst)
    (hk : dst + k ≤ m.length) :
    ∃ m', copyBackward k m (dst + k) (src + k) = some m' ∧ Moved m m' dst src k := by
  induction k generalizing m with
  | zero => exact ⟨m, rfl, moved_zero m dst src⟩
  | succ k ih =>
    have hs : src + k < m.length := by omega
    obtain ⟨m', hrun, hmv⟩ := ih (m.set (dst + k) m[src + k]) (by rw [List.length_set]; omega)
    refine ⟨m', ?_, ⟨?_, fun i hi => ?_, fun j hj => ?_⟩⟩
    · rw [← Nat.add_assoc, ← Nat.add_assoc, copyBackward]
      simp only [List.getElem?_eq_getElem hs, Option.bind_eq_bind, Option.some_bind,
        store_of_lt (show dst + k < m.length by omega), hrun]
    · rw [hmv.length_eq, List.length_set]
    · by_cases hik : i < k
      · rw [hmv.copied i hik, List.getElem?_set_ne (by omega)]
      · obtain rfl : i = k := by omega
        rw [hmv.frame _ (Or.inr le_rfl), List.getElem?_set_self (by omega),
          List.getElem?_eq_getElem hs]
    · rw [hmv.frame j (by omega), List.getElem?_set_ne (by omega)]

/-- `memmove` copies the `n` bytes at `src` to `dst` within one storage, whichever way the
two ranges overlap, changes nothing outside the destination, and returns `dst`. -/
theorem memmove_moved (m : List Byte) (dst src : ℕ) (n : BitVec 32)
    (hd : dst + n.toNat ≤ m.length) (hs : src + n.toNat ≤ m.length) :
    ∃ m', memmove m dst src n = some (m', dst) ∧ Moved m m' dst src n.toNat := by
  by_cases h : dst ≤ src
  · obtain ⟨m', hrun, hmv⟩ := copyForward_moved n.toNat m dst src (.inl h) hs hd
    exact ⟨m', by rw [memmove, if_pos h, hrun]; rfl, hmv⟩
  · obtain ⟨m', hrun, hmv⟩ := copyBackward_moved n.toNat m dst src (by omega) hd
    exact ⟨m', by rw [memmove, if_neg h, hrun]; rfl, hmv⟩

theorem memmove_moved_overlap :
    1 + (2 : BitVec 32).toNat ≤ [1, 2, 3, 4].length ∧ 0 + (2 : BitVec 32).toNat ≤ [1, 2, 3, 4].length ∧
      ∃ m', memmove [1, 2, 3, 4] 1 0 2 = some (m', 1) ∧ Moved [1, 2, 3, 4] m' 1 0 (2 : BitVec 32).toNat :=
  ⟨by decide, by decide, memmove_moved [1, 2, 3, 4] 1 0 2 (by decide) (by decide)⟩

theorem Moved.unique {m m1 m2 : List Byte} {dst src n : ℕ} (h1 : Moved m m1 dst src n)
    (h2 : Moved m m2 dst src n) : m1 = m2 := by
  apply List.ext_getElem?
  intro j
  by_cases hj : j < dst ∨ dst + n ≤ j
  · rw [h1.frame j hj, h2.frame j hj]
  · obtain ⟨i, rfl⟩ : ∃ i, j = dst + i := ⟨j - dst, by omega⟩
    rw [h1.copied i (by omega), h2.copied i (by omega)]

/-- Where the ranges do not overlap, or the destination lies at or below the source,
`memcpy` does what `memmove` does: the same storage and the same result. -/
theorem memcpy_eq_memmove (m : List Byte) (dst src : ℕ) (n : BitVec 32)
    (hov : dst ≤ src ∨ src + n.toNat ≤ dst) (hd : dst + n.toNat ≤ m.length)
    (hs : src + n.toNat ≤ m.length) : memcpy m dst src n = memmove m dst src n := by
  by_cases h : dst ≤ src
  · rw [memcpy, memmove, if_pos h]
  · obtain ⟨m1, hrun1, hmv1⟩ := copyForward_moved n.toNat m dst src hov hs hd
    obtain ⟨m2, hrun2, hmv2⟩ := copyBackward_moved n.toNat m dst src (by omega) hd
    rw [memcpy, memmove, if_neg h, hrun1, hrun2, hmv1.unique hmv2]

theorem memcpy_eq_memmove_disjoint :
    (0 ≤ 2 ∨ 2 + (2 : BitVec 32).toNat ≤ 0) ∧ 0 + (2 : BitVec 32).toNat ≤ [1, 2, 3, 4].length ∧
      2 + (2 : BitVec 32).toNat ≤ [1, 2, 3, 4].length ∧
      memcpy [1, 2, 3, 4] 0 2 2 = memmove [1, 2, 3, 4] 0 2 2 :=
  ⟨by decide, by decide, by decide, memcpy_eq_memmove _ _ _ _ (by decide) (by decide) (by decide)⟩

theorem fill_spec (k : ℕ) (m : List Byte) (p : ℕ) (b : Byte) (hk : p + k ≤ m.length) :
    ∃ m', fill k m p b = some m' ∧ m'.length = m.length ∧
      ∀ j, m'[j]? = if p ≤ j ∧ j < p + k then some b else m[j]? := by
  induction k generalizing m p with
  | zero => exact ⟨m, rfl, rfl, fun j => by rw [if_neg (by omega)]⟩
  | succ k ih =>
    obtain ⟨m', hrun, hlen, hget⟩ := ih (m.set p b) (p + 1) (by rw [List.length_set]; omega)
    refine ⟨m', ?_, by rw [hlen, List.length_set], fun j => ?_⟩
    · simp only [fill, Option.bind_eq_bind, store_of_lt (show p < m.length by omega),
        Option.some_bind, hrun]
    · rw [hget, List.getElem?_set]
      split_ifs <;> first | rfl | omega

/-- `memset` sets the `n` bytes at `s` to the low byte of `c`, changes nothing else, and
returns `s`. -/
theorem memset_spec (m : List Byte) (s : ℕ) (c n : BitVec 32) (hn : s + n.toNat ≤ m.length) :
    ∃ m', memset m s c n = some (m', s) ∧ m'.length = m.length ∧
      ∀ j, m'[j]? = if s ≤ j ∧ j < s + n.toNat then some (c.setWidth 8) else m[j]? := by
  obtain ⟨m', hrun, hlen, hget⟩ := fill_spec n.toNat m s (c.setWidth 8) hn
  exact ⟨m', by rw [memset, hrun]; rfl, hlen, hget⟩

theorem memset_spec_two :
    1 + (2 : BitVec 32).toNat ≤ [1, 2, 3, 4].length ∧
      ∃ m', memset [1, 2, 3, 4] 1 0x141 2 = some (m', 1) ∧ m'.length = [1, 2, 3, 4].length ∧
        ∀ j, m'[j]? = if 1 ≤ j ∧ j < 1 + (2 : BitVec 32).toNat then
          some ((0x141 : BitVec 32).setWidth 8) else [1, 2, 3, 4][j]? :=
  ⟨by decide, memset_spec _ _ _ _ (by decide)⟩

end HellfireOS.Memory
