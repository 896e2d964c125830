import HellfireOS.Loop
import HellfireOS.Word
import HellfireOS.Division

set_option autoImplicit false

/-!
# `itoa` and `atoi`

`itoa` emits the digits of its argument least significant first by repeated C division,
each read from a table centred on `'0'` so that negative remainders need no correction,
appends the sign, and reverses the buffer in place. `atoi` skips blanks, reads one sign,
and folds decimal digits into an `int32_t`. A string is the list of its bytes; the end
of the list reads as the terminating NUL, which is neither a blank, a sign nor a digit.
-/
namespace HellfireOS.Itoa
open HellfireOS.Loop HellfireOS.Word HellfireOS.Division

/-- The table that `itoa` indexes by `35 + (tmp_value - i * base)`. -/
def digitTable : List Byte :=
  "zyxwvutsrqponmlkjihgfedcba9876543210123456789abcdefghijklmnopqrstuvwxyz".toList.map ch

/-- The variables of `itoa`'s `do … while (i)` loop; `buf` is what `*ptr++` has written. -/
structure ItoaState where
  i : BitVec 32
  tmpValue : BitVec 32
  buf : List Byte

def itoaStep (base : BitVec 32) (s : ItoaState) : ItoaState :=
  let tmpValue := s.i
  let i := tmpValue.sdiv base
  { i, tmpValue, buf := s.buf ++ [digitTable.getD (35 + (tmpValue - i * base)).toNat 0] }

/-- The `do … while (i)` loop: one pass, then at most 32 more. `tmp_value` starts
unassigned in C and is written before it is read; it starts as `i` here. -/
def itoaDigits (i base : BitVec 32) : ItoaState :=
  loopWhile (fun s => s.i != 0) (itoaStep base) 32 (itoaStep base ⟨i, i, []⟩)

structure ReverseState where
  buf : List Byte
  ptr1 : ℕ
  ptr : ℕ

/-- `tmp_char = *ptr; *ptr-- = *ptr1; *ptr1++ = tmp_char;` -/
def reverseStep (s : ReverseState) : ReverseState :=
  let tmpChar := s.buf.getD s.ptr 0
  let buf := s.buf.set s.ptr (s.buf.getD s.ptr1 0)
  { buf := buf.set s.ptr1 tmpChar, ptr1 := s.ptr1 + 1, ptr := s.ptr - 1 }

/-- `while (ptr1 < ptr)`, from the first character to the last one before the NUL. -/
def reverseInPlace (buf : List Byte) : List Byte :=
  (loopWhile (fun s => decide (s.ptr1 < s.ptr)) reverseStep buf.length
    ⟨buf, 0, buf.length - 1⟩).buf

/-- `itoa(i, s, base)`: the bytes it writes to `s`, up to and including the NUL. -/
def itoa (i base : BitVec 32) : List Byte :=
  if base.toInt < 2 ∨ 36 < base.toInt then [0]
  else
    let s := itoaDigits i base
    let buf := if s.tmpValue.toInt < 0 then s.buf ++ [ch '-'] else s.buf
    reverseInPlace buf ++ [0]

/-- `atoi`'s `for (;; s++) switch (*s)`: blanks are skipped; `'-'` sets `f` and falls
through to `'+'`, which steps past the sign; anything else ends the loop where it is. -/
def atoiSign : List Byte → List Byte × Bool
  | [] => ([], false)
  | c :: s =>
    if c = ch ' ' ∨ c = ch '\t' then atoiSign s
    else if c = ch '-' then (s, true)
    else if c = ch '+' then (s, false)
    else (c :: s, false)

/-- `*s >= '0' && *s <= '9'`, compared as `int8_t`. -/
def isDigit (c : Byte) : Bool := (ch '0').sle c && c.sle (ch '9')

/-- A run of decimal digits read into an `int32_t`, with where it stopped: `atoi`'s
`while (*s >= '0' && *s <= '9') n = n*10 + *s++ - '0';`. `print` reads a field width with
the same loop, adding `*format - '0'` to `width * 10`, the same sum in `int32_t`. -/
def readDecimal (n : BitVec 32) : List Byte → BitVec 32 × List Byte
  | [] => (n, [])
  | c :: s => if isDigit c then readDecimal (n * 10 + c.signExtend 32 - 48) s else (n, c :: s)

def atoi (s : List Byte) : BitVec 32 :=
  let (s, f) := atoiSign s
  let n := (readDecimal 0 s).1
  if f then -n else n

def digitChar (d : ℕ) : Byte := BitVec.ofNat 8 (48 + d)

def baseDigits (b m : ℕ) : List ℕ :=
  if m < b ∨ b < 2 then [m] else m % b :: baseDigits b (m / b)
termination_by m
decreasing_by exact Nat.div_lt_self (by omega) (by omega)

theorem baseDigits_of_lt {b m : ℕ} (h : m < b) : baseDigits b m = [m] := by
  rw [baseDigits, if_pos (Or.inl h)]

theorem baseDigits_of_ge {b m : ℕ} (hb : 2 ≤ b) (h : b ≤ m) :
    baseDigits b m = m % b :: baseDigits b (m / b) := by
  rw [baseDigits, if_neg (by omega)]

def decimal (m : ℕ) : List Byte := (baseDigits 10 m).reverse.map digitChar

def lowerDigit (d : ℕ) : Byte := if d < 10 then digitChar d else BitVec.ofNat 8 (87 + d)

def numeral (b m : ℕ) : List Byte := (baseDigits b m).reverse.map lowerDigit

section
variable {b : ℕ} (hb : 2 ≤ b)
include hb

theorem baseDigits_lt (m : ℕ) : ∀ d ∈ baseDigits b m, d < b := by
  induction m using Nat.strong_induction_on with
  | _ m ih =>
    by_cases h : m < b
    · simpa [baseDigits_of_lt h]
    · rw [baseDigits_of_ge hb (by omega)]
      simp only [List.mem_cons, forall_eq_or_imp]
      exact ⟨Nat.mod_lt _ (by omega), ih _ (Nat.div_lt_self (by omega) (by omega))⟩

theorem baseDigits_value (m : ℕ) : (baseDigits b m).foldr (fun d n => n * b + d) 0 = m := by
  induction m using Nat.strong_induction_on with
  | _ m ih =>
    by_cases h : m < b
    · simp [baseDigits_of_lt h]
    · rw [baseDigits_of_ge hb (by omega), List.foldr_cons,
        ih _ (Nat.div_lt_self (by omega) (by omega)), Nat.div_add_mod']

theorem baseDigits_reverse (m : ℕ) :
    ∃ d rest, (baseDigits b m).reverse = d :: rest ∧ d < b ∧ (0 < m → 0 < d) := by
  induction m using Nat.strong_induction_on with
  | _ m ih =>
    by_cases h : m < b
    · exact ⟨m, [], by rw [baseDigits_of_lt h]; rfl, h, id⟩
    · obtain ⟨d, rest, hr, hd, hpos⟩ := ih (m / b) (Nat.div_lt_self (by omega) (by omega))
      refine ⟨d, rest ++ [m % b], ?_, hd, fun _ => hpos (Nat.div_pos (by omega) (by omega))⟩
      rw [baseDigits_of_ge hb (by omega), List.reverse_cons, hr, List.cons_append]

theorem baseDigits_length (n m : ℕ) (h : m < b ^ (n + 1)) : (baseDigits b m).length ≤ n + 1 := by
  induction n generalizing m with
  | zero => rw [baseDigits_of_lt (by simpa using h)]; rfl
  | succ n ih =>
    by_cases hm : m < b
    · rw [baseDigits_of_lt hm]; simp
    · rw [baseDigits_of_ge hb (by omega), List.length_cons]
      have := ih (m / b) (by rw [Nat.div_lt_iff_lt_mul (by omega), ← Nat.pow_succ]; exact h)
      omega

end

theorem digitTable_getD (k : Fin 71) : digitTable.getD k 0 = lowerDigit ((k : ℤ) - 35).natAbs := by
  revert k
  decide

theorem sub_sdiv_mul (a b : BitVec 32) :
    a - a.sdiv b * b = BitVec.ofInt 32 (a.toInt.tmod b.toInt) := by
  rw [sdiv_eq_ofInt_tdiv]
  exact sub_eq_of_eq_add' (ofInt_tdiv_add_tmod a b)

theorem tdiv_of_pos (x y : ℤ) (hy : 0 < y) : x.tdiv y =
    if x < 0 then -((x.natAbs / y.natAbs : ℕ) : ℤ) else ((x.natAbs / y.natAbs : ℕ) : ℤ) := by
  have hy' : ¬ y < 0 := by omega
  by_cases hx : x < 0 <;> simp [tdiv_natAbs, hx, hy']

section
variable {b : BitVec 32} (hb : 2 ≤ b.toInt ∧ b.toInt ≤ 36)
include hb

theorem itoaStep_base (s : ItoaState) :
    (itoaStep b s).i.toInt = s.i.toInt.tdiv b.toInt ∧ (itoaStep b s).tmpValue = s.i ∧
      (itoaStep b s).buf = s.buf ++ [lowerDigit (s.i.toInt.natAbs % b.toInt.natAbs)] := by
  refine ⟨?_, rfl, ?_⟩
  · have hx := toInt_bounds s.i
    have hq := tdiv_of_pos s.i.toInt b.toInt (by omega)
    have hle := Nat.div_le_self s.i.toInt.natAbs b.toInt.natAbs
    generalize s.i.toInt.natAbs / b.toInt.natAbs = q at hq hle
    rw [itoaStep, sdiv_eq_ofInt_tdiv, BitVec.toInt_ofInt]
    split at hq <;> exact bmod_of_range (by omega) (by omega)
  · have hlt := Nat.mod_lt s.i.toInt.natAbs (show 0 < b.toInt.natAbs by omega)
    have hr : -35 ≤ s.i.toInt.tmod b.toInt ∧ s.i.toInt.tmod b.toInt ≤ 35 ∧
        (s.i.toInt.tmod b.toInt).natAbs = s.i.toInt.natAbs % b.toInt.natAbs := by
      rw [tmod_natAbs]
      split <;> omega
    have hidx : (35 + (s.i - s.i.sdiv b * b)).toNat = (35 + s.i.toInt.tmod b.toInt).toNat := by
      rw [sub_sdiv_mul, BitVec.toNat_add, BitVec.toNat_ofInt, show (35 : BitVec 32).toNat = 35 from rfl]
      omega
    have hd := digitTable_getD ⟨_, (show (35 + s.i.toInt.tmod b.toInt).toNat < 71 by omega)⟩
    simp only [itoaStep, hidx, hd]
    rw [show (((35 + s.i.toInt.tmod b.toInt).toNat : ℤ) - 35).natAbs =
      s.i.toInt.natAbs % b.toInt.natAbs by omega]

theorem itoaDigits_last (fuel : ℕ) (s : ItoaState) (hsmall : s.i.toInt.natAbs < b.toInt.natAbs) :
    (loopWhile (fun s => s.i != 0) (itoaStep b) fuel (itoaStep b s)).buf =
        s.buf ++ (baseDigits b.toInt.natAbs s.i.toInt.natAbs).map lowerDigit ∧
      ((loopWhile (fun s => s.i != 0) (itoaStep b) fuel (itoaStep b s)).tmpValue.toInt < 0 ↔
        s.i.toInt < 0) := by
  obtain ⟨hi, htmp, hbuf⟩ := itoaStep_base hb s
  have hzero : (itoaStep b s).i = 0 := by
    apply BitVec.eq_of_toInt_eq
    rw [hi, tdiv_natAbs, Nat.div_eq_of_lt hsmall, show (0 : BitVec 32).toInt = 0 from rfl]
    split <;> rfl
  have hstop : ((itoaStep b s).i != 0) = false := by rw [hzero]; rfl
  rw [loopWhile_of_not_cond (fun s : ItoaState => s.i != 0) _ hstop, hbuf, htmp,
    baseDigits_of_lt hsmall, Nat.mod_eq_of_lt hsmall]
  exact ⟨rfl, Iff.rfl⟩

theorem itoaDigits_run (fuel : ℕ) (s : ItoaState)
    (h : s.i.toInt.natAbs < b.toInt.natAbs ^ fuel) :
    (loopWhile (fun s => s.i != 0) (itoaStep b) fuel (itoaStep b s)).buf =
        s.buf ++ (baseDigits b.toInt.natAbs s.i.toInt.natAbs).map lowerDigit ∧
      ((loopWhile (fun s => s.i != 0) (itoaStep b) fuel (itoaStep b s)).tmpValue.toInt < 0 ↔
        s.i.toInt < 0) := by
  induction fuel generalizing s with
  | zero => exact itoaDigits_last hb 0 s (by rw [Nat.pow_zero] at h; omega)
  | succ n ih =>
    by_cases hsmall : s.i.toInt.natAbs < b.toInt.natAbs
    · exact itoaDigits_last hb _ s hsmall
    obtain ⟨hi, -, hbuf⟩ := itoaStep_base hb s
    have hq := tdiv_of_pos s.i.toInt b.toInt (by omega)
    have hpos : 0 < s.i.toInt.natAbs / b.toInt.natAbs := Nat.div_pos (by omega) (by omega)
    have hnext : (itoaStep b s).i.toInt.natAbs = s.i.toInt.natAbs / b.toInt.natAbs := by
      rw [hi]; generalize s.i.toInt.natAbs / b.toInt.natAbs = q at hq; split at hq <;> omega
    have hsign : (itoaStep b s).i.toInt < 0 ↔ s.i.toInt < 0 := by
      rw [hi]; generalize s.i.toInt.natAbs / b.toInt.natAbs = q at hq hpos; split at hq <;> omega
    have hcond : ((itoaStep b s).i != 0) = true :=
      bne_iff_ne.2 fun h0 => by
        rw [h0, show (0 : BitVec 32).toInt = 0 from rfl] at hnext; omega
    obtain ⟨ihbuf, ihsign⟩ := ih (itoaStep b s) (by
      rw [hnext, Nat.div_lt_iff_lt_mul (by omega), ← Nat.pow_succ]; exact h)
    rw [loopWhile_succ_of_cond (fun s : ItoaState => s.i != 0) _ hcond, ihbuf, ← hsign, ihsign,
      hbuf, hnext, baseDigits_of_ge (by omega) (show b.toInt.natAbs ≤ s.i.toInt.natAbs by omega)]
    simp

end

def Reversing (buf : List Byte) (s : ReverseState) : Prop :=
  s.buf.length = buf.length ∧ s.ptr1 + s.ptr + 1 = buf.length ∧ s.ptr1 ≤ s.ptr + 1 ∧
    ∀ k, s.buf[k]? = if s.ptr1 ≤ k ∧ k ≤ s.ptr then buf[k]? else buf.reverse[k]?

theorem getD_eq_of_getElem? {l : List Byte} {k : ℕ} {c : Byte} (h : l[k]? = some c) :
    l.getD k 0 = c := by
  simp [h]

theorem reverseStep_reversing (buf : List Byte) (s : ReverseState) (h : Reversing buf s)
    (hlt : s.ptr1 < s.ptr) : Reversing buf (reverseStep s) := by
  obtain ⟨hlen, hsum, -, hk⟩ := h
  obtain ⟨c, hc⟩ : ∃ c, buf[s.ptr]? = some c := ⟨_, List.getElem?_eq_getElem (by omega)⟩
  obtain ⟨c1, hc1⟩ : ∃ c, buf[s.ptr1]? = some c := ⟨_, List.getElem?_eq_getElem (by omega)⟩
  have hp : s.buf.getD s.ptr 0 = c := getD_eq_of_getElem? (by rw [hk, if_pos (by omega), hc])
  have hp1 : s.buf.getD s.ptr1 0 = c1 := getD_eq_of_getElem? (by rw [hk, if_pos (by omega), hc1])
  refine ⟨by simp [reverseStep, hlen], by simp only [reverseStep]; omega,
    by simp only [reverseStep]; omega, fun k => ?_⟩
  simp only [reverseStep, hp, hp1, List.getElem?_set, List.length_set]
  by_cases h1 : s.ptr1 = k
  · subst h1
    rw [if_pos rfl, if_pos (by omega), if_neg (by omega), List.getElem?_reverse' _ s.ptr (by omega),
      hc]
  by_cases h2 : s.ptr = k
  · subst h2
    rw [if_neg h1, if_pos rfl, if_pos (by omega), if_neg (by omega),
      List.getElem?_reverse' _ s.ptr1 (by omega), hc1]
  rw [if_neg h1, if_neg h2, hk]
  congr 1
  simp only [eq_iff_iff]
  omega

theorem reverse_exits (buf : List Byte) :
    decide ((loopWhile (fun s => decide (s.ptr1 < s.ptr)) reverseStep buf.length
      ⟨buf, 0, buf.length - 1⟩).ptr1 < (loopWhile (fun s => decide (s.ptr1 < s.ptr)) reverseStep
        buf.length ⟨buf, 0, buf.length - 1⟩).ptr) = false :=
  loopWhile_exit (fun s => decide (s.ptr1 < s.ptr)) reverseStep (fun j s => s.ptr ≤ s.ptr1 + j)
    (fun _ s hs _ => by simp only [reverseStep]; omega) (fun s hs => by simp; omega)
    buf.length _ (by simp only; omega)

theorem reverseInPlace_eq (buf : List Byte) : reverseInPlace buf = buf.reverse := by
  cases buf with
  | nil => rfl
  | cons c cs =>
    have init : Reversing (c :: cs) ⟨c :: cs, 0, (c :: cs).length - 1⟩ := by
      refine ⟨rfl, by simp, by simp, fun k => ?_⟩
      split
      · rfl
      · rw [List.getElem?_eq_none (by simp at *; omega),
          List.getElem?_eq_none (by simp at *; omega)]
    obtain ⟨-, hsum, -, hk⟩ := loopWhile_invariant
      (fun s : ReverseState => decide (s.ptr1 < s.ptr)) reverseStep (Reversing (c :: cs))
      (fun s hs hlt => reverseStep_reversing _ s hs (by simpa using hlt)) _ _ init
    have hstop := reverse_exits (c :: cs)
    simp only [decide_eq_false_iff_not, Nat.not_lt] at hstop
    apply List.ext_getElem?
    intro k
    rw [reverseInPlace, hk]
    split
    · rw [List.getElem?_reverse' k k (by omega)]
    · rfl

theorem itoa_base {b : BitVec 32} (hb : 2 ≤ b.toInt ∧ b.toInt ≤ 36) (v : BitVec 32) :
    itoa v b = (if v.toInt < 0 then [ch '-'] else []) ++ numeral b.toInt.natAbs v.toInt.natAbs ++ [0] := by
  have hv := toInt_bounds v
  have hpow : 2 ^ 32 ≤ b.toInt.natAbs ^ 32 := Nat.pow_le_pow_left (by omega) 32
  obtain ⟨hbuf, hsign⟩ := itoaDigits_run hb 32 ⟨v, v, []⟩ (by simp only; omega)
  rw [itoa, if_neg (by omega)]
  simp only [itoaDigits, hbuf, hsign, List.nil_append, numeral]
  split <;> simp [reverseInPlace_eq]

/-- `itoa(v, s, b)`, for every `int32_t` `v` and base `2 ≤ b ≤ 36`, writes the canonical
numeral of `v` and the NUL: a `'-'` exactly when `v < 0`, then lowercase digits below `b`,
most significant first, whose value is the magnitude of `v` as an integer, and no leading
zero unless the numeral is `"0"`. -/
theorem itoa_canonical (v b : BitVec 32) (hb : 2 ≤ b.toInt ∧ b.toInt ≤ 36) :
    ∃ ds : List ℕ, itoa v b = (if v.toInt < 0 then [ch '-'] else []) ++ ds.map lowerDigit ++ [0] ∧
      (∀ d ∈ ds, d < b.toInt.natAbs) ∧
      ds.foldl (fun n d => n * b.toInt.natAbs + d) 0 = v.toInt.natAbs ∧
      (ds = [0] ∨ ∃ d rest, ds = d :: rest ∧ 0 < d) := by
  have hb2 : 2 ≤ b.toInt.natAbs := by omega
  refine ⟨(baseDigits b.toInt.natAbs v.toInt.natAbs).reverse, itoa_base hb v,
    fun d hd => baseDigits_lt hb2 _ d (List.mem_reverse.1 hd),
    by rw [List.foldl_reverse, baseDigits_value hb2], ?_⟩
  by_cases hv : v.toInt.natAbs = 0
  · left
    rw [hv, baseDigits_of_lt (by omega)]
    rfl
  · obtain ⟨d, rest, h, -, hpos⟩ := baseDigits_reverse hb2 v.toInt.natAbs
    exact Or.inr ⟨d, rest, h, hpos (by omega)⟩

theorem itoa_canonical_hex :
    (2 ≤ (16 : BitVec 32).toInt ∧ (16 : BitVec 32).toInt ≤ 36) ∧
      ∃ ds : List ℕ, itoa (-255) 16 = (if (-255 : BitVec 32).toInt < 0 then [ch '-'] else []) ++
          ds.map lowerDigit ++ [0] ∧
        (∀ d ∈ ds, d < (16 : BitVec 32).toInt.natAbs) ∧
        ds.foldl (fun n d => n * (16 : BitVec 32).toInt.natAbs + d) 0 = (-255 : BitVec 32).toInt.natAbs ∧
        (ds = [0] ∨ ∃ d rest, ds = d :: rest ∧ 0 < d) :=
  ⟨by decide, itoa_canonical (-255) 16 (by decide)⟩

theorem lowerDigit_of_lt {d : ℕ} (h : d < 10) : lowerDigit d = digitChar d := if_pos h

theorem numeral_ten (m : ℕ) : numeral 10 m = decimal m :=
  List.map_congr_left fun d hd =>
    lowerDigit_of_lt (baseDigits_lt (by norm_num) m d (List.mem_reverse.1 hd))

theorem itoa_ten (v : BitVec 32) :
    itoa v 10 = (if v.toInt < 0 then [ch '-'] else []) ++ decimal v.toInt.natAbs ++ [0] := by
  rw [itoa_base ⟨by decide, by decide⟩, show (10 : BitVec 32).toInt.natAbs = 10 from rfl, numeral_ten]

theorem isDigit_digitChar (d : Fin 10) : isDigit (digitChar d) = true := by
  revert d
  decide

theorem digitChar_sub_zero (d : Fin 10) :
    (digitChar d).signExtend 32 - 48 = BitVec.ofNat 32 d := by
  revert d
  decide

theorem atoiSign_digitChar (d : Fin 10) (rest : List Byte) :
    atoiSign (digitChar d :: rest) = (digitChar d :: rest, false) := by
  have h : ∀ d : Fin 10, ¬ (digitChar d = ch ' ' ∨ digitChar d = ch '\t') ∧
      digitChar d ≠ ch '-' ∧ digitChar d ≠ ch '+' := by decide
  obtain ⟨h1, h2, h3⟩ := h d
  rw [atoiSign, if_neg h1, if_neg h2, if_neg h3]

theorem ofNat_mul_ten_add (a d : ℕ) :
    BitVec.ofNat 32 a * 10 + BitVec.ofNat 32 d = BitVec.ofNat 32 (a * 10 + d) := by
  apply BitVec.eq_of_toNat_eq
  simp only [BitVec.toNat_add, BitVec.toNat_mul, BitVec.toNat_ofNat,
    show (10 : BitVec 32).toNat = 10 from rfl]
  omega

theorem readDecimal_append (ds : List ℕ) (hds : ∀ d ∈ ds, d < 10) (a : ℕ) (rest : List Byte) :
    readDecimal (BitVec.ofNat 32 a) (ds.map digitChar ++ rest) =
      readDecimal (BitVec.ofNat 32 (ds.foldl (fun n d => n * 10 + d) a)) rest := by
  induction ds generalizing a with
  | nil => rfl
  | cons d ds ih =>
    simp only [List.mem_cons, forall_eq_or_imp] at hds
    rw [List.map_cons, List.cons_append, readDecimal,
      if_pos (isDigit_digitChar ⟨d, hds.1⟩), add_sub_assoc, digitChar_sub_zero ⟨d, hds.1⟩,
      ofNat_mul_ten_add, ih hds.2]
    rfl

theorem readDecimal_stop (n : BitVec 32) (rest : List Byte) (h : isDigit (rest.headD 0) = false) :
    readDecimal n rest = (n, rest) := by
  cases rest with
  | nil => rfl
  | cons c r => simp [readDecimal, show isDigit c = false from h]

theorem decimal_cons (m : ℕ) :
    ∃ d : Fin 10, ∃ rest, decimal m = digitChar d :: rest ∧ (0 < m → 0 < (d : ℕ)) := by
  obtain ⟨d, rest, h, hd, hpos⟩ := baseDigits_reverse (show 2 ≤ 10 by norm_num) m
  exact ⟨⟨d, hd⟩, rest.map digitChar, by rw [decimal, h, List.map_cons], hpos⟩

theorem readDecimal_decimal (m : ℕ) (rest : List Byte) (h : isDigit (rest.headD 0) = false) :
    readDecimal 0 (decimal m ++ rest) = (BitVec.ofNat 32 m, rest) := by
  rw [decimal, show (0 : BitVec 32) = BitVec.ofNat 32 0 from rfl,
    readDecimal_append _ (by simpa using baseDigits_lt (show 2 ≤ 10 by norm_num) m),
    List.foldl_reverse, baseDigits_value (show 2 ≤ 10 by norm_num), readDecimal_stop _ _ h]

theorem atoiSign_decimal (m : ℕ) (rest : List Byte) :
    atoiSign (decimal m ++ rest) = (decimal m ++ rest, false) := by
  obtain ⟨d, ds, hd, -⟩ := decimal_cons m
  rw [hd, List.cons_append, atoiSign_digitChar]

theorem atoiSign_minus (s : List Byte) : atoiSign (ch '-' :: s) = (s, true) := rfl

theorem atoiSign_zeros (k m : ℕ) (rest : List Byte) :
    atoiSign (List.replicate k (ch '0') ++ decimal m ++ rest) =
      (List.replicate k (ch '0') ++ decimal m ++ rest, false) := by
  cases k with
  | zero => exact atoiSign_decimal m rest
  | succ k =>
    rw [List.replicate_succ, List.cons_append, List.cons_append]
    exact atoiSign_digitChar 0 _

theorem readDecimal_zeros (k m : ℕ) (rest : List Byte) (h : isDigit (rest.headD 0) = false) :
    readDecimal 0 (List.replicate k (ch '0') ++ decimal m ++ rest) = (BitVec.ofNat 32 m, rest) := by
  induction k with
  | zero => exact readDecimal_decimal m rest h
  | succ k ih =>
    rw [List.replicate_succ, List.cons_append, List.cons_append, readDecimal, if_pos (by decide),
      show (0 : BitVec 32) * 10 + (ch '0').signExtend 32 - 48 = 0 by decide, ih]

theorem signed_natAbs (v : BitVec 32) :
    (if v.toInt < 0 then -BitVec.ofNat 32 v.toInt.natAbs else BitVec.ofNat 32 v.toInt.natAbs) = v := by
  split
  · rw [← ofInt_neg_natCast, show -(v.toInt.natAbs : ℤ) = v.toInt by omega, ofInt_toInt]
  · rw [← BitVec.ofInt_natCast, show (v.toInt.natAbs : ℤ) = v.toInt by omega, ofInt_toInt]

theorem atoi_signed_decimal (v : BitVec 32) (k : ℕ) (rest : List Byte)
    (h : isDigit (rest.headD 0) = false) :
    atoi ((if v.toInt < 0 then [ch '-'] else []) ++
      (List.replicate k (ch '0') ++ decimal v.toInt.natAbs ++ rest)) = v := by
  conv_rhs => rw [← signed_natAbs v]
  split
  · rw [List.singleton_append, atoi, atoiSign_minus]
    dsimp only
    rw [readDecimal_zeros _ _ _ h]
    rfl
  · rw [List.nil_append, atoi, atoiSign_zeros]
    dsimp only
    rw [readDecimal_zeros _ _ _ h]
    rfl

/-- `atoi` reads back what `itoa` writes in base 10, for every `int32_t`. -/
theorem atoi_itoa (v : BitVec 32) : atoi (itoa v 10) = v := by
  have h := atoi_signed_decimal v 0 [0] rfl
  rw [List.replicate_zero, List.nil_append, ← List.append_assoc] at h
  rwa [itoa_ten]

end HellfireOS.Itoa
