import HellfireOS.Itoa

set_option autoImplicit false

/-!
# `strtol`

`strtol` reads an optional `'-'` and an optional `"0x"`, which sets the base to 16, then
at most nine bytes through its digit loop `for (i = 0; i <= 8; ++i)`. Each byte is
widened to `uint32_t` and read as a digit, an upper-case letter or a lower-case letter,
whatever the base; any other byte, the NUL included, ends the loop. `*end` is set to the
last byte read: the one that ended the loop, or the ninth digit when all nine passes read
one. A string is the list of its bytes; a read beyond it is undefined and gives `none`.
-/
namespace HellfireOS.Strtol
open HellfireOS.Word HellfireOS.Itoa

/-- `ch` after `if('0' <= ch && ch <= '9') ch -= '0'; else if('A' <= ch && ch <= 'Z')
ch = ch - 'A' + 10; else if('a' <= ch && ch <= 'z') ch = ch - 'a' + 10;`, compared as
`uint32_t`, or `none` at the `break`. -/
def digitValue (ch : BitVec 32) : Option (BitVec 32) :=
  if 48 ≤ ch ∧ ch ≤ 57 then some (ch - 48)
  else if 65 ≤ ch ∧ ch ≤ 90 then some (ch - 65 + 10)
  else if 97 ≤ ch ∧ ch ≤ 122 then some (ch - 97 + 10)
  else none

/-- The digit loop with `k` passes left: `value = value * base + ch` over the bytes it
reads, and the number of bytes read, the one at the `break` included. -/
def digitLoop (base : BitVec 32) : ℕ → BitVec 32 → List Byte → Option (BitVec 32 × ℕ)
  | 0, value, _ => some (value, 0)
  | _ + 1, _, [] => none
  | k + 1, value, c :: s =>
    match digitValue (c.signExtend 32) with
    | none => some (value, 1)
    | some d => (digitLoop base k (value * base + d) s).map fun r => (r.1, r.2 + 1)

/-- `strtol(s, &end, base)`: the value it returns, and the index that `*end = s - 1`
stores. -/
def strtol (s : List Byte) (base : BitVec 32) : Option (BitVec 32 × ℕ) := do
  let c ← s[0]?
  let neg := decide (c = ch '-')
  let i := if neg then 1 else 0
  let c ← s[i]?
  let (base, i) ← if c = ch '0' then do
      let c' ← s[i + 1]?
      pure (if c' = ch 'x' then ((16 : BitVec 32), i + 2) else (base, i))
    else pure (base, i)
  let (value, read) ← digitLoop base 9 0 (s.drop i)
  some (if neg then -value else value, i + read - 1)

/-- `strtol` reads letters and digits whatever the base, and at most nine of them: `"19"`
in base 8 reads as 17 with `end` after the `9`, where the longest run of octal digits is
`"1"`; and what `itoa(1000000000, s, 10)` writes reads back as 100000000, with `end` on
the last `'0'` instead of the NUL. -/
theorem strtol_reads_past_base :
    strtol [ch '1', ch '9', 0] 8 = some (17, 2) ∧
      strtol (itoa 1000000000 10) 10 = some (100000000, 8) := by
  refine ⟨by decide, ?_⟩
  rw [itoa_ten, if_neg (by decide), show (1000000000 : BitVec 32).toInt.natAbs = 1000000000 from rfl,
    decimal]
  simp (disch := norm_num) only [baseDigits_of_ge, baseDigits_of_lt]
  decide

theorem digitValue_lowerDigit (d : Fin 36) :
    digitValue ((lowerDigit d).signExtend 32) = some (BitVec.ofNat 32 d) := by
  revert d
  decide

theorem ofNat_mul_add (a d : ℕ) (base : BitVec 32) :
    BitVec.ofNat 32 a * base + BitVec.ofNat 32 d = BitVec.ofNat 32 (a * base.toNat + d) := by
  apply BitVec.eq_of_toNat_eq
  simp only [BitVec.toNat_add, BitVec.toNat_mul, BitVec.toNat_ofNat, Nat.mod_add_mod,
    Nat.add_mod_mod, Nat.mod_mul_mod]

theorem digitLoop_digits (base : BitVec 32) (ds : List ℕ) (hds : ∀ d ∈ ds, d < 36) (a k : ℕ)
    (hk : ds.length < k) (rest : List Byte) :
    digitLoop base k (BitVec.ofNat 32 a) (ds.map lowerDigit ++ 0 :: rest) =
      some (BitVec.ofNat 32 (ds.foldl (fun n d => n * base.toNat + d) a), ds.length + 1) := by
  induction ds generalizing a k with
  | nil =>
    obtain ⟨k, rfl⟩ := Nat.exists_eq_add_of_lt hk
    rfl
  | cons d ds ih =>
    rw [List.forall_mem_cons] at hds
    obtain ⟨k, rfl⟩ : ∃ j, k = j + 1 := ⟨k - 1, by simp at hk; omega⟩
    rw [List.map_cons, List.cons_append, digitLoop, digitValue_lowerDigit ⟨d, hds.1⟩]
    dsimp only
    rw [ofNat_mul_add, ih hds.2 _ k (by simp at hk; omega)]
    rfl

theorem strtol_of_digit {c : Byte} (hm : c ≠ ch '-') (hz : c ≠ ch '0') (s : List Byte)
    (base : BitVec 32) :
    strtol (c :: s) base = (digitLoop base 9 0 (c :: s)).map fun r => (r.1, r.2 - 1) := by
  simp only [strtol, List.getElem?_cons_zero, Option.bind_eq_bind, Option.some_bind, hm, decide_False,
    Bool.false_eq_true, if_false, hz, Option.pure_def, List.drop_zero, Option.map_eq_bind,
    Function.comp_def, Nat.zero_add]

theorem strtol_of_zero {c : Byte} (hx : c ≠ ch 'x') (s : List Byte) (base : BitVec 32) :
    strtol (ch '0' :: c :: s) base =
      (digitLoop base 9 0 (ch '0' :: c :: s)).map fun r => (r.1, r.2 - 1) := by
  have h0 : ch '0' ≠ ch '-' := by decide
  simp only [strtol, List.getElem?_cons_zero, List.getElem?_cons_succ, Option.bind_eq_bind,
    Option.some_bind, h0, decide_False, Bool.false_eq_true, if_false, if_true, hx, Option.pure_def,
    List.drop_zero, Option.map_eq_bind, Function.comp_def, Nat.zero_add]

theorem strtol_of_minus {c : Byte} (hz : c ≠ ch '0') (s : List Byte) (base : BitVec 32) :
    strtol (ch '-' :: c :: s) base = (digitLoop base 9 0 (c :: s)).map fun r => (-r.1, r.2) := by
  simp only [strtol, List.getElem?_cons_zero, List.getElem?_cons_succ, Option.bind_eq_bind,
    Option.some_bind, decide_True, if_true, hz, if_false, Option.pure_def, List.drop_succ_cons,
    List.drop_zero, Option.map_eq_bind, Function.comp_def, Nat.add_sub_cancel_left]

theorem lowerDigit_ne (d : Fin 36) :
    lowerDigit d ≠ ch '-' ∧ (0 < (d : ℕ) → lowerDigit d ≠ ch '0') := by
  revert d
  decide

/-- `strtol(itoa(v, s, b), &end, b)` is `v` with `end` at the NUL, for every `int32_t` `v`
whose magnitude has at most eight digits in base `b`, `2 ≤ b ≤ 36`. -/
theorem strtol_itoa (v b : BitVec 32) (hb : 2 ≤ b.toInt ∧ b.toInt ≤ 36)
    (hsmall : v.toInt.natAbs < b.toInt.natAbs ^ 8) :
    strtol (itoa v b) b = some (v, (itoa v b).length - 1) := by
  have hb2 : 2 ≤ b.toInt.natAbs := by omega
  have hB : b.toNat = b.toInt.natAbs := toNat_eq_natAbs (by omega)
  have hds : ∀ d ∈ (baseDigits b.toInt.natAbs v.toInt.natAbs).reverse, d < 36 :=
    fun d hd => by have := baseDigits_lt hb2 _ d (List.mem_reverse.1 hd); omega
  have hlen := baseDigits_length hb2 7 _ hsmall
  have hloop := digitLoop_digits b _ hds 0 9 (by rw [List.length_reverse]; omega) []
  rw [List.foldl_reverse, hB, baseDigits_value hb2, List.length_reverse,
    show BitVec.ofNat 32 0 = (0 : BitVec 32) from rfl] at hloop
  have hv := signed_natAbs v
  rw [itoa_base hb v, numeral]
  obtain ⟨d, rest, hdr, hd36, hpos⟩ := baseDigits_reverse hb2 v.toInt.natAbs
  have hlen' : (baseDigits b.toInt.natAbs v.toInt.natAbs).length = rest.length + 1 := by
    rw [← List.length_reverse, hdr, List.length_cons]
  rw [hlen'] at hloop
  rw [hdr, List.map_cons, List.cons_append] at hloop
  rw [hdr, List.map_cons, List.append_assoc, List.cons_append]
  obtain ⟨hminus, hzero⟩ := lowerDigit_ne ⟨d, by omega⟩
  by_cases hneg : v.toInt < 0
  · rw [if_pos hneg] at hv ⊢
    rw [List.singleton_append, strtol_of_minus (hzero (hpos (by omega))), hloop]
    simp [hv]
  · rw [if_neg hneg] at hv ⊢
    rw [List.nil_append]
    by_cases hz : v.toInt.natAbs = 0
    · rw [hz, baseDigits_of_lt (by omega), List.reverse_singleton] at hdr
      obtain ⟨rfl, rfl⟩ := List.cons_eq_cons.1 hdr
      rw [List.map_nil, List.nil_append] at hloop ⊢
      rw [show lowerDigit 0 = ch '0' from rfl] at hloop ⊢
      rw [strtol_of_zero (by decide), hloop]
      simp [hv]
    · rw [strtol_of_digit hminus (hzero (hpos (by omega))), hloop]
      simp [hv]

theorem strtol_itoa_hex :
    (2 ≤ (16 : BitVec 32).toInt ∧ (16 : BitVec 32).toInt ≤ 36) ∧
      (-255 : BitVec 32).toInt.natAbs < (16 : BitVec 32).toInt.natAbs ^ 8 ∧
      strtol (itoa (-255) 16) 16 = some (-255, (itoa (-255) 16).length - 1) :=
  ⟨by decide, by decide, strtol_itoa (-255) 16 (by decide) (by decide)⟩

end HellfireOS.Strtol
