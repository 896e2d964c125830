import HellfireOS.Itoa

set_option autoImplicit false

/-!
# `printchar`, `prints` and `printi`

The output side of `printf` and `sprintf`. `printchar` writes through `*out` when `out`
is not `NULL` (`sprintf`) and calls `putchar` otherwise (`printf`); an `Output` keeps
the two streams apart. `prints` pads a string to a width, on the left unless
`PAD_RIGHT` is set, with `'0'` when `PAD_ZERO` is set; `printi` renders an integer into
`print_buf` from its end and hands it to `prints`, writing a minus sign ahead of the
zero padding itself.
-/
namespace HellfireOS.Print
open HellfireOS.Loop HellfireOS.Word HellfireOS.Division HellfireOS.Itoa

def padRight : BitVec 32 := 1

def padZero : BitVec 32 := 2

structure Output where
  buffer : List Byte
  console : List Byte
deriving DecidableEq, Repr

/-- `putchar(c)`. -/
def putchar (o : Output) (c : Byte) : Output := { o with console := o.console ++ [c] }

/-- `printchar(str, c)`: `**str = c; ++(*str);` when `str` is set, else `putchar(c)`. -/
def printchar (toBuffer : Bool) (o : Output) (c : Byte) : Output :=
  if toBuffer then { o with buffer := o.buffer ++ [c] } else putchar o c

def cString (s : List Byte) : List Byte := s.takeWhile (· != 0)

structure PadState where
  o : Output
  width : BitVec 32
  pc : BitVec 32

def padStep (toBuffer : Bool) (padchar : Byte) (s : PadState) : PadState :=
  ⟨printchar toBuffer s.o padchar, s.width - 1, s.pc + 1⟩

/-- `for ( ; width > 0; --width) { printchar(out, padchar); ++pc; }` -/
def padLoop (toBuffer : Bool) (padchar : Byte) (s : PadState) : PadState :=
  loopWhile (fun s => decide (0 < s.width.toInt)) (padStep toBuffer padchar) (2 ^ 31) s

/-- `for ( ; *string ; ++string) { put(*string); ++pc; }`: each character of a string sent
by `put`, and counted. -/
def putLoop (put : Output → Byte → Output) (chars : List Byte) (o : Output) (pc : BitVec 32) :
    Output × BitVec 32 :=
  chars.foldl (fun acc c => (put acc.1 c, acc.2 + 1)) (o, pc)

/-- `prints`'s opening `if (width > 0) { … }`: the width left to pad after `width -= len`,
and the padding character. -/
def printsWidth (chars : List Byte) (width pad : BitVec 32) : BitVec 32 × Byte :=
  if 0 < width.toInt then
    let len : BitVec 32 := BitVec.ofNat 32 chars.length
    (if width.toInt ≤ len.toInt then 0 else width - len,
      if pad &&& padZero != 0 then ch '0' else ch ' ')
  else (width, ch ' ')

/-- `prints(out, string, width, pad)`, with the count `pc` it returns. -/
def prints (toBuffer : Bool) (o : Output) (string : List Byte) (width pad : BitVec 32) :
    Output × BitVec 32 :=
  let chars := cString string
  let (width, padchar) := printsWidth chars width pad
  let s : PadState := ⟨o, width, 0⟩
  let s := if pad &&& padRight == 0 then padLoop toBuffer padchar s else s
  let (o, pc) := putLoop (printchar toBuffer) chars s.o s.pc
  let s := padLoop toBuffer padchar { s with o, pc }
  (s.o, s.pc)

/-- `*--s = t + '0';` after `if (t >= 10) t += letbase - '0' - 10;`. -/
def printiChar (letbase t : BitVec 32) : Byte :=
  BitVec.setWidth 8 ((if 10 ≤ t.toInt then t + (letbase - 48 - 10) else t) + 48)

/-- The variables of `printi`'s `while (u)` loop; `s` is the text from `s` to the NUL at
the end of `print_buf`. -/
structure PrintiState where
  u : BitVec 32
  s : List Byte

def printiStep (b letbase : BitVec 32) (st : PrintiState) : PrintiState :=
  { u := st.u / b, s := printiChar letbase (st.u % b) :: st.s }

/-- `while (u) { t = u % b; …; *--s = t + '0'; u /= b; }` in unsigned arithmetic. -/
def printiDigits (u b letbase : BitVec 32) : List Byte :=
  (loopWhile (fun st => st.u != 0) (printiStep b letbase) 32 ⟨u, []⟩).s

/-- `printi(out, i, b, sg, width, pad, letbase)`, with the count it returns. -/
def printi (toBuffer : Bool) (o : Output) (i b sg width pad letbase : BitVec 32) :
    Output × BitVec 32 :=
  if i = 0 then prints toBuffer o [ch '0'] width pad
  else
    let (neg, u) := if sg != 0 && b == 10 && decide (i.toInt < 0) then (true, -i) else (false, i)
    let s := printiDigits u b letbase
    let (o, pc, width, s) :=
      if neg then
        if width != 0 && pad &&& padZero != 0 then
          (printchar toBuffer o (ch '-'), (1 : BitVec 32), width - 1, s)
        else (o, 0, width, ch '-' :: s)
      else (o, 0, width, s)
    let (o, n) := prints toBuffer o s width pad
    (o, pc + n)

def emit (toBuffer : Bool) (o : Output) (cs : List Byte) : Output :=
  if toBuffer then { o with buffer := o.buffer ++ cs } else { o with console := o.console ++ cs }

@[simp] theorem emit_nil (toBuffer : Bool) (o : Output) : emit toBuffer o [] = o := by
  cases toBuffer <;> simp [emit]

theorem emit_append (toBuffer : Bool) (o : Output) (cs ds : List Byte) :
    emit toBuffer o (cs ++ ds) = emit toBuffer (emit toBuffer o cs) ds := by
  cases toBuffer <;> simp [emit]

theorem printchar_eq_emit (toBuffer : Bool) (o : Output) (c : Byte) :
    printchar toBuffer o c = emit toBuffer o [c] := by
  cases toBuffer <;> rfl

theorem emit_cons (toBuffer : Bool) (o : Output) (c : Byte) (cs : List Byte) :
    emit toBuffer o (c :: cs) = emit toBuffer (printchar toBuffer o c) cs := by
  rw [printchar_eq_emit, ← emit_append, List.singleton_append]

theorem putLoop_eq (put : Output → Byte → Output) (chars : List Byte) (o : Output)
    (pc : BitVec 32) :
    putLoop put chars o pc = (chars.foldl put o, pc + BitVec.ofNat 32 chars.length) := by
  induction chars generalizing o pc with
  | nil => simp [putLoop]
  | cons c cs ih =>
    simp only [putLoop, List.foldl_cons] at ih ⊢
    rw [ih, List.length_cons, BitVec.ofNat_add, add_assoc, add_comm 1]
    rfl

theorem foldl_printchar (toBuffer : Bool) (o : Output) (chars : List Byte) :
    chars.foldl (printchar toBuffer) o = emit toBuffer o chars := by
  induction chars generalizing o with
  | nil => simp
  | cons c cs ih => rw [List.foldl_cons, ih, emit_cons]

theorem toInt_sub_one {w : BitVec 32} (h : 0 < w.toInt) : (w - 1).toInt = w.toInt - 1 := by
  have := toInt_bounds w
  rw [BitVec.toInt_sub, show (1 : BitVec 32).toInt = 1 from rfl, bmod_of_range] <;> omega

theorem padLoop_run (toBuffer : Bool) (padchar : Byte) (fuel : ℕ) (s : PadState)
    (h : s.width.toInt.toNat ≤ fuel) :
    loopWhile (fun s => decide (0 < s.width.toInt)) (padStep toBuffer padchar) fuel s =
      { o := emit toBuffer s.o (List.replicate s.width.toInt.toNat padchar),
        width := if 0 < s.width.toInt then 0 else s.width,
        pc := s.pc + BitVec.ofNat 32 s.width.toInt.toNat } := by
  induction fuel generalizing s with
  | zero =>
    have hw : ¬ 0 < s.width.toInt := by omega
    simp [hw, show s.width.toInt.toNat = 0 by omega]
  | succ n ih =>
    by_cases hw : 0 < s.width.toInt
    · have hsub := toInt_sub_one hw
      rw [loopWhile_succ_of_cond (fun s : PadState => decide (0 < s.width.toInt)) _
        (decide_eq_true hw), ih _ (by simp only [padStep]; omega)]
      obtain ⟨k, hk⟩ : ∃ k, s.width.toInt.toNat = k + 1 := ⟨_, (Nat.succ_pred_eq_of_pos (by omega)).symm⟩
      have hk' : (s.width - 1).toInt.toNat = k := by omega
      simp only [padStep, hk, hk', if_pos hw, List.replicate_succ, emit_cons]
      congr 1
      · split
        · rfl
        · exact BitVec.eq_of_toInt_eq (by rw [hsub]; simp; omega)
      · rw [BitVec.ofNat_add, add_assoc, add_comm (1 : BitVec 32)]
        rfl
    · rw [loopWhile_of_not_cond (fun s : PadState => decide (0 < s.width.toInt)) _
        (decide_eq_false hw)]
      simp [hw, show s.width.toInt.toNat = 0 by omega]

theorem padLoop_eq (toBuffer : Bool) (padchar : Byte) (s : PadState) :
    padLoop toBuffer padchar s =
      { o := emit toBuffer s.o (List.replicate s.width.toInt.toNat padchar),
        width := if 0 < s.width.toInt then 0 else s.width,
        pc := s.pc + BitVec.ofNat 32 s.width.toInt.toNat } :=
  padLoop_run _ _ _ s (by have := toInt_bounds s.width; omega)

def printsText (chars : List Byte) (width pad : BitVec 32) : List Byte :=
  let (width, padchar) := printsWidth chars width pad
  let fill := List.replicate width.toInt.toNat padchar
  if pad &&& padRight == 0 then fill ++ chars else chars ++ fill

theorem prints_eq (toBuffer : Bool) (o : Output) (string : List Byte) (width pad : BitVec 32) :
    prints toBuffer o string width pad =
      (emit toBuffer o (printsText (cString string) width pad),
        BitVec.ofNat 32 (printsText (cString string) width pad).length) := by
  unfold prints printsText
  dsimp only
  generalize printsWidth (cString string) width pad = p
  obtain ⟨w, c⟩ := p
  have hdone : (if 0 < w.toInt then (0 : BitVec 32) else w).toInt.toNat = 0 := by
    split
    · rfl
    · omega
  split
  · rw [padLoop_eq, putLoop_eq, padLoop_eq]
    simp only [hdone, foldl_printchar, List.replicate_zero, emit_nil, emit_append, List.length_append,
      List.length_replicate, BitVec.ofNat_add, BitVec.add_zero, zero_add]
  · rw [putLoop_eq, padLoop_eq]
    simp only [foldl_printchar, emit_append, List.length_append, List.length_replicate, BitVec.ofNat_add,
      zero_add]

def Emits (toBuffer : Bool) (o : Output) (r : Output × BitVec 32) : Prop :=
  ∃ text, r = (emit toBuffer o text, BitVec.ofNat 32 text.length)

theorem prints_emits (toBuffer : Bool) (o : Output) (string : List Byte) (width pad : BitVec 32) :
    Emits toBuffer o (prints toBuffer o string width pad) :=
  ⟨_, prints_eq toBuffer o string width pad⟩

theorem printi_emits (toBuffer : Bool) (o : Output) (i b sg width pad letbase : BitVec 32) :
    Emits toBuffer o (printi toBuffer o i b sg width pad letbase) := by
  unfold printi
  split
  · exact prints_emits ..
  by_cases hneg : (sg != 0 && b == 10 && decide (i.toInt < 0)) = true
  · rw [if_pos hneg]
    dsimp only
    rw [if_pos rfl]
    split
    · obtain ⟨text, h⟩ := prints_emits toBuffer (printchar toBuffer o (ch '-'))
        (printiDigits (-i) b letbase) (width - 1) pad
      refine ⟨ch '-' :: text, ?_⟩
      simp only [h, emit_cons, List.length_cons, BitVec.ofNat_add, BitVec.add_comm _ 1#32]
      rfl
    · simpa using prints_emits ..
  · rw [if_neg hneg]
    dsimp only
    simp only [Bool.false_eq_true, if_false]
    simpa using prints_emits ..

end HellfireOS.Print
