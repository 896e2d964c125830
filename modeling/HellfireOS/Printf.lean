import HellfireOS.Print

set_option autoImplicit false

/-!
# `print`, `printf` and `sprintf`

`print` walks the format; at a `%` it reads the `-` flag, the `0` flags and a decimal
width, then dispatches on the conversion character. With `FLOATING_POINT` set, the
`%f` family writes its sign, integer part and point with `putchar` whatever `out` is,
and `%.` counts one character that it never writes.

A string is the list of its bytes, the end of the list reading as its NUL. The model
returns `none` where the C code has no defined behaviour: an argument missing or of the
wrong kind, the format pointer stepped past the NUL (after a `%` with flags and nothing
else, or `%.` at the end), and a zero loop of the `%f` branch that never ends.
-/
namespace HellfireOS.Printf
open HellfireOS.Loop HellfireOS.Word HellfireOS.Itoa HellfireOS.Print

/-- What the `float` arithmetic of the `%f` branch yields for one argument `f`: whether
`f < 0.0f`, the `(int32_t)f` of its magnitude, and `(int32_t)((f - (int32_t)f) * p)` for
each `precision_v` `p`. The `float` operations themselves are not modelled. -/
structure FloatArg where
  negative : Bool
  whole : BitVec 32
  fraction : BitVec 32 → BitVec 32

inductive Arg where
  /-- An integer or a character, read by `va_arg(args, size_t)`. -/
  | word (w : BitVec 32)
  /-- A string pointer; `none` is `NULL`. -/
  | str (p : Option (List Byte))
  /-- A `double`, read by `va_arg(args, double)`. -/
  | float (f : FloatArg)

structure PrintState where
  format : List Byte
  args : List Arg
  o : Output
  pc : BitVec 32
  precisionN : BitVec 32
  precisionV : BitVec 32

def peek (format : List Byte) : Byte := format.headD 0

/-- `if (*format == '-') { ++format; pad = PAD_RIGHT; }` -/
def minusFlag (format : List Byte) : BitVec 32 × List Byte :=
  if peek format = ch '-' then (padRight, format.tail) else (0, format)

/-- `while (*format == '0') { ++format; pad |= PAD_ZERO; }` -/
def zeroFlags (pad : BitVec 32) : List Byte → BitVec 32 × List Byte
  | [] => (pad, [])
  | c :: rest => if c = ch '0' then zeroFlags (pad ||| padZero) rest else (pad, c :: rest)

def nextWord : List Arg → Option (BitVec 32 × List Arg)
  | .word w :: rest => some (w, rest)
  | _ => none

def nextStr : List Arg → Option (Option (List Byte) × List Arg)
  | .str p :: rest => some (p, rest)
  | _ => none

def nextFloat : List Arg → Option (FloatArg × List Arg)
  | .float f :: rest => some (f, rest)
  | _ => none

/-- `"(null)"`, printed for a `NULL` string. -/
def nullString : List Byte := "(null)".toList.map ch

/-- `pc += printi(out, va_arg(args, size_t), b, sg, width, pad, letbase);` -/
def printInteger (toBuffer : Bool) (s : PrintState) (width pad b sg letbase : BitVec 32) :
    Option PrintState := do
  let (i, args) ← nextWord s.args
  let (o, n) := printi toBuffer s.o i b sg width pad letbase
  pure { s with args, o, pc := s.pc + n }

/-- `for (j = 0; j < precision_n; j++) precision_v *= 10;` -/
def scalePrecision : ℕ → BitVec 32 → BitVec 32
  | 0, v => v
  | n + 1, v => scalePrecision n (v * 10)

/-- The variables of `while (i > f1) { printchar(out, '0'); pc++; i /= 10; }`. -/
structure ZeroState where
  o : Output
  pc : BitVec 32
  i : BitVec 32

def zeroStep (toBuffer : Bool) (z : ZeroState) : ZeroState :=
  ⟨printchar toBuffer z.o (ch '0'), z.pc + 1, z.i.sdiv 10⟩

/-- The `%e`, `%E`, `%g`, `%G` and `%f` branch for the argument `f`. The zero loop divides
`i` by 10 each time, so it is over after 11 passes unless `i` has reached `0` with
`f1 < 0`, where it never ends. -/
def printFloat (toBuffer : Bool) (s : PrintState) (f : FloatArg) : Option PrintState :=
  let (o, pc) := if f.negative then (putchar s.o (ch '-'), s.pc + 1) else (s.o, s.pc)
  let (o, pc) := putLoop putchar (cString (itoa f.whole 10)) o pc
  let o := putchar o (ch '.')
  let precisionV := scalePrecision s.precisionN.toInt.toNat s.precisionV
  let f1 := f.fraction precisionV
  let z := loopWhile (fun z => decide (f1.toInt < z.i.toInt)) (zeroStep toBuffer) 11
    ⟨o, pc, precisionV.sdiv 10⟩
  if f1.toInt < z.i.toInt then none
  else
    let (o, pc) :=
      if f1 != 0 then putLoop (printchar toBuffer) (cString (itoa f1 10)) z.o z.pc
      else (z.o, z.pc)
    some { s with o, pc, precisionN := 6, precisionV := 1 }

/-- The `switch (*format)` on the conversion character, with `format` at it. -/
def convert (floatingPoint toBuffer : Bool) (s : PrintState) (width pad : BitVec 32) :
    Option PrintState :=
  let c := peek s.format
  if c = ch 's' then do
    let (p, args) ← nextStr s.args
    let (o, n) := prints toBuffer s.o (p.getD nullString) width pad
    pure { s with args, o, pc := s.pc + n }
  else if c = ch 'd' then printInteger toBuffer s width pad 10 1 97
  else if c = ch 'x' then printInteger toBuffer s width pad 16 0 97
  else if c = ch 'X' then printInteger toBuffer s width pad 16 0 65
  else if c = ch 'u' then printInteger toBuffer s width pad 10 0 97
  else if c = ch 'c' then do
    let (w, args) ← nextWord s.args
    let (o, n) := prints toBuffer s.o [w.setWidth 8] width pad
    pure { s with args, o, pc := s.pc + n }
  else if floatingPoint ∧ c = ch '.' then do
    let format := s.format.tail
    let (f, args) ← nextFloat s.args
    let precisionN := (peek format).signExtend 32 - 48
    printFloat toBuffer { s with format, args, pc := s.pc + 1, precisionN, precisionV := 1 } f
  else if floatingPoint ∧ (c = ch 'e' ∨ c = ch 'E' ∨ c = ch 'g' ∨ c = ch 'G' ∨ c = ch 'f') then do
    let (f, args) ← nextFloat s.args
    printFloat toBuffer { s with args } f
  else some s

/-- One pass of `for (; *format != 0; ++format)` from a character other than the NUL. A
`%` at the end breaks out with `format` on the NUL. -/
def printStep (floatingPoint toBuffer : Bool) (s : PrintState) : Option PrintState :=
  if peek s.format = ch '%' then
    let format := s.format.tail
    if peek format = 0 then some { s with format }
    else if peek format = ch '%' then
      some { s with format := format.tail, o := printchar toBuffer s.o (ch '%'), pc := s.pc + 1 }
    else
      let (pad, format) := minusFlag format
      let (pad, format) := zeroFlags pad format
      let (width, format) := readDecimal 0 format
      do
        let s ← convert floatingPoint toBuffer { s with format } width pad
        if peek s.format = 0 then none else pure { s with format := s.format.tail }
  else
    let o := printchar toBuffer s.o (peek s.format)
    some { s with format := s.format.tail, o, pc := s.pc + 1 }

def printLoop (floatingPoint toBuffer : Bool) : ℕ → PrintState → Option PrintState
  | 0, s => some s
  | fuel + 1, s =>
    if peek s.format = 0 then some s
    else (printStep floatingPoint toBuffer s).bind (printLoop floatingPoint toBuffer fuel)

/-- `print(out, format, args)`: the loop, then `if (out) **out = '\0';`, and `pc`. -/
def print (floatingPoint toBuffer : Bool) (format : List Byte) (args : List Arg) :
    Option (Output × BitVec 32) := do
  let s ← printLoop floatingPoint toBuffer format.length ⟨format, args, ⟨[], []⟩, 0, 6, 1⟩
  let o := if toBuffer then { s.o with buffer := s.o.buffer ++ [0] } else s.o
  pure (o, s.pc)

/-- `sprintf(out, fmt, ...)`: `print(&out, fmt, args)`. -/
def sprintf (floatingPoint : Bool) (fmt : List Byte) (args : List Arg) :
    Option (Output × BitVec 32) :=
  print floatingPoint true fmt args

/-- `printf(fmt, ...)`: `print(0, fmt, args)`. -/
def printf (floatingPoint : Bool) (fmt : List Byte) (args : List Arg) :
    Option (Output × BitVec 32) :=
  print floatingPoint false fmt args

def EmitsFrom (toBuffer : Bool) (s s' : PrintState) : Prop :=
  ∃ text, s'.o = emit toBuffer s.o text ∧ s'.pc = s.pc + BitVec.ofNat 32 text.length

theorem EmitsFrom.refl (toBuffer : Bool) (s : PrintState) : EmitsFrom toBuffer s s :=
  ⟨[], by simp, by simp⟩

theorem EmitsFrom.trans {toBuffer : Bool} {s s' s'' : PrintState} (h : EmitsFrom toBuffer s s')
    (h' : EmitsFrom toBuffer s' s'') : EmitsFrom toBuffer s s'' := by
  obtain ⟨t, ho, hpc⟩ := h
  obtain ⟨t', ho', hpc'⟩ := h'
  refine ⟨t ++ t', by rw [ho', ho, emit_append], ?_⟩
  rw [hpc', hpc, List.length_append, BitVec.ofNat_add, add_assoc]

theorem EmitsFrom.of_emits {toBuffer : Bool} {s : PrintState} {r : Output × BitVec 32}
    (h : Emits toBuffer s.o r) (args : List Arg) :
    EmitsFrom toBuffer s { s with args, o := r.1, pc := s.pc + r.2 } := by
  obtain ⟨text, rfl⟩ := h
  exact ⟨text, rfl, rfl⟩

theorem printInteger_emits (toBuffer : Bool) (s s' : PrintState) (width pad b sg letbase : BitVec 32)
    (h : printInteger toBuffer s width pad b sg letbase = some s') :
    EmitsFrom toBuffer s s' ∧ s'.format = s.format := by
  unfold printInteger at h
  cases ha : nextWord s.args with
  | none => simp [ha] at h
  | some a =>
    simp only [ha, Option.bind_eq_bind, Option.some_bind, Option.pure_def,
      Option.some.injEq] at h
    subst h
    exact ⟨EmitsFrom.of_emits (printi_emits ..) _, rfl⟩

theorem convert_emits (toBuffer : Bool) (s s' : PrintState) (width pad : BitVec 32)
    (h : convert false toBuffer s width pad = some s') :
    EmitsFrom toBuffer s s' ∧ s'.format = s.format := by
  unfold convert at h
  simp only [Bool.false_eq_true, false_and, if_false] at h
  by_cases hs : peek s.format = ch 's'
  · rw [if_pos hs] at h
    cases ha : nextStr s.args with
    | none => simp [ha] at h
    | some a =>
      simp only [ha, Option.bind_eq_bind, Option.some_bind, Option.pure_def,
        Option.some.injEq] at h
      subst h
      exact ⟨EmitsFrom.of_emits (prints_emits ..) _, rfl⟩
  rw [if_neg hs] at h
  by_cases hd : peek s.format = ch 'd'
  · rw [if_pos hd] at h; exact printInteger_emits _ _ _ _ _ _ _ _ h
  rw [if_neg hd] at h
  by_cases hx : peek s.format = ch 'x'
  · rw [if_pos hx] at h; exact printInteger_emits _ _ _ _ _ _ _ _ h
  rw [if_neg hx] at h
  by_cases hX : peek s.format = ch 'X'
  · rw [if_pos hX] at h; exact printInteger_emits _ _ _ _ _ _ _ _ h
  rw [if_neg hX] at h
  by_cases hu : peek s.format = ch 'u'
  · rw [if_pos hu] at h; exact printInteger_emits _ _ _ _ _ _ _ _ h
  rw [if_neg hu] at h
  by_cases hc : peek s.format = ch 'c'
  · rw [if_pos hc] at h
    cases ha : nextWord s.args with
    | none => simp [ha] at h
    | some a =>
      simp only [ha, Option.bind_eq_bind, Option.some_bind, Option.pure_def,
        Option.some.injEq] at h
      subst h
      exact ⟨EmitsFrom.of_emits (prints_emits ..) _, rfl⟩
  rw [if_neg hc] at h
  cases h
  exact ⟨EmitsFrom.refl _ _, rfl⟩

theorem printStep_emits (toBuffer : Bool) (s s' : PrintState)
    (h : printStep false toBuffer s = some s') : EmitsFrom toBuffer s s' := by
  unfold printStep at h
  split at h
  · dsimp only at h
    split at h
    · cases h
      exact EmitsFrom.refl _ _
    split at h
    · cases h
      exact ⟨[ch '%'], printchar_eq_emit .., rfl⟩
    simp only [Option.bind_eq_bind] at h
    obtain ⟨s1, hs1, h⟩ := Option.bind_eq_some.1 h
    split at h
    · cases h
    · cases h
      exact (convert_emits _ _ _ _ _ hs1).1
  · cases h
    exact ⟨[peek s.format], printchar_eq_emit .., rfl⟩

theorem printLoop_emits (toBuffer : Bool) (fuel : ℕ) (s s' : PrintState)
    (h : printLoop false toBuffer fuel s = some s') : EmitsFrom toBuffer s s' := by
  induction fuel generalizing s with
  | zero =>
    cases h
    exact EmitsFrom.refl _ _
  | succ n ih =>
    unfold printLoop at h
    split at h
    · cases h
      exact EmitsFrom.refl _ _
    · obtain ⟨s1, hs1, h⟩ := Option.bind_eq_some.1 h
      exact (printStep_emits _ _ _ hs1).trans (ih _ h)

theorem print_emits (toBuffer : Bool) (format : List Byte) (args : List Arg) (o : Output)
    (pc : BitVec 32) (h : print false toBuffer format args = some (o, pc)) :
    ∃ text, pc = BitVec.ofNat 32 text.length ∧
      o = if toBuffer then ⟨text ++ [0], []⟩ else ⟨[], text⟩ := by
  unfold print at h
  simp only [Option.bind_eq_bind] at h
  obtain ⟨s, hs, h⟩ := Option.bind_eq_some.1 h
  obtain ⟨text, ho, hpc⟩ := printLoop_emits _ _ _ _ hs
  simp only [Option.pure_def, Option.some.injEq, Prod.mk.injEq] at h
  obtain ⟨rfl, rfl⟩ := h
  refine ⟨text, by rw [hpc]; exact BitVec.zero_add _, ?_⟩
  rw [ho]
  cases toBuffer <;> rfl

/-- Without `FLOATING_POINT`, `sprintf` writes nothing to the console, NUL-terminates
`out`, and returns the number of characters before the NUL (modulo 2^32). -/
theorem sprintf_emits (fmt : List Byte) (args : List Arg) (o : Output) (pc : BitVec 32)
    (h : sprintf false fmt args = some (o, pc)) :
    o.console = [] ∧ ∃ written, o.buffer = written ++ [0] ∧ pc = BitVec.ofNat 32 written.length := by
  obtain ⟨text, hpc, rfl⟩ := print_emits true fmt args o pc h
  exact ⟨rfl, text, rfl, hpc⟩

theorem sprintf_emits_hi :
    sprintf false ("hi".toList.map ch) [] = some (⟨"hi".toList.map ch ++ [0], []⟩, 2) ∧
      (⟨"hi".toList.map ch ++ [0], []⟩ : Output).console = [] := by
  have h : sprintf false ("hi".toList.map ch) [] = some (⟨"hi".toList.map ch ++ [0], []⟩, 2) := by
    decide
  exact ⟨h, (sprintf_emits _ _ _ _ h).1⟩

/-- Without `FLOATING_POINT`, `printf` writes every character it produces to the console,
none to a buffer, and returns how many it wrote (modulo 2^32). -/
theorem printf_console (fmt : List Byte) (args : List Arg) (o : Output) (pc : BitVec 32)
    (h : printf false fmt args = some (o, pc)) :
    o.buffer = [] ∧ pc = BitVec.ofNat 32 o.console.length := by
  obtain ⟨text, hpc, rfl⟩ := print_emits false fmt args o pc h
  exact ⟨rfl, hpc⟩

theorem printf_console_hi :
    printf false ("hi".toList.map ch) [] = some (⟨[], "hi".toList.map ch⟩, 2) ∧
      (2 : BitVec 32) = BitVec.ofNat 32 ("hi".toList.map ch).length := by
  have h : printf false ("hi".toList.map ch) [] = some (⟨[], "hi".toList.map ch⟩, 2) := by
    decide
  exact ⟨h, (printf_console _ _ _ _ h).2⟩

/-- The `float` 1.5: not negative, integer part 1, and `(1.5 - 1) * p = p / 2`, which is
exact in `float` at the default precision. -/
def oneAndAHalf : FloatArg := ⟨false, 1, fun p => p.sdiv 2⟩

set_option maxRecDepth 8000 in
/-- With `FLOATING_POINT` set, `sprintf(out, "%f", 1.5)` sends `"1."` to the console, writes
only `"500000"` into `out`, and returns 7. -/
theorem sprintf_float_console :
    sprintf true ("%f".toList.map ch) [.float oneAndAHalf] =
      some (⟨"500000".toList.map ch ++ [0], "1.".toList.map ch⟩, 7) := by
  decide

def hexDigit (upper : Bool) (d : ℕ) : Byte :=
  if d < 10 then digitChar d else BitVec.ofNat 8 ((if upper then 'A' else 'a').toNat + (d - 10))

/-- The numeral a conversion writes for `v`, as its sign and its digits: `%d` signed
decimal, `%u` unsigned decimal, `%x` and `%X` unsigned hexadecimal. -/
def numeral (c : Char) (v : BitVec 32) : List Byte × List Byte :=
  if c = 'd' then (if v.toInt < 0 then [ch '-'] else [], decimal v.toInt.natAbs)
  else if c = 'u' then ([], decimal v.toNat)
  else ([], (baseDigits 16 v.toNat).reverse.map (hexDigit (c = 'X')))

end HellfireOS.Printf
