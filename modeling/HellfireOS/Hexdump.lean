import HellfireOS.Printf

set_option autoImplicit false

/-!
# `hexdump`

`hexdump(buf, size)` prints the bytes of `buf` in lines of sixteen: the address, the bytes
in hexadecimal with a gap after the eighth, and the bytes again as characters between bars,
a `.` for each byte outside `32..126`. `k` and `l` are `uint32_t`, and every line reads
`buf[k + l]` for all sixteen `l`, twice, whatever is left of `size`.

The buffer is its storage, a list of bytes at the address `base`. A read past the storage
has no defined behaviour and the model returns `none` there. The outer loop runs on fuel,
with `none` when it outlasts the fuel: `k += 16` wraps, so for a `size` above `2^32 - 16`
the loop never ends. None of the formats has a `%f`, so `FLOATING_POINT` does not matter;
the model takes `printf` without it.

`reads size fuel k` lists, in order, the indices the first `fuel` passes of the loop read
from `k` on: the sixteen columns of each line, once for the hex and once for the characters.
Every run that ends read only inside the buffer (`hexdumpLoop_reads_inside`); on a buffer of
`size` bytes the runs end exactly when `size` is a multiple of 16.
-/
namespace HellfireOS.Hexdump
open HellfireOS.Word HellfireOS.Print HellfireOS.Printf

/-- `printf(fmt, ...)` after the text of `o`: what it prints goes to the console. -/
def printfTo (o : Output) (fmt : List Byte) (args : List Arg) : Option Output :=
  (printf false fmt args).map fun r => { o with console := o.console ++ r.1.console }

/-- The index `k + l` of `buf[k + l]`, a `uint32_t` sum. -/
def column (k : BitVec 32) (l : ℕ) : ℕ := (k + BitVec.ofNat 32 l).toNat

/-- `for(l = 0; l < 16; l++){ printf("%02x ", buf[k + l]); if (l == 7) putchar(' '); }`
over the values of `l` still to come. The `int8_t` `buf[k + l]` goes to `printf` as an
`int`. -/
def hexColumns (buf : List Byte) (k : BitVec 32) : List ℕ → Output → Option Output
  | [], o => some o
  | l :: ls, o => do
    let c ← buf[column k l]?
    let o ← printfTo o ("%02x ".toList.map ch) [.word (c.signExtend 32)]
    hexColumns buf k ls (if l = 7 then putchar o (ch ' ') else o)

/-- `for(l = 0; l < 16; l++){ ch = buf[k + l]; if ((ch >= 32) && (ch <= 126)) putchar(ch);
else putchar('.'); }` over the values of `l` still to come; `ch` is an `int8_t`. -/
def charColumns (buf : List Byte) (k : BitVec 32) : List ℕ → Output → Option Output
  | [], o => some o
  | l :: ls, o => do
    let c ← buf[column k l]?
    charColumns buf k ls (putchar o (if 32 ≤ c.toInt ∧ c.toInt ≤ 126 then c else ch '.'))

def line (base : BitVec 32) (buf : List Byte) (k : BitVec 32) (o : Output) : Option Output := do
  let o ← printfTo o ("\n%08x ".toList.map ch) [.word (base + k)]
  let o ← hexColumns buf k (List.range 16) o
  let o ← printfTo o (" |".toList.map ch) []
  let o ← charColumns buf k (List.range 16) o
  some (putchar o (ch '|'))

/-- `for(k = 0; k < size; k += 16)` from `k`, on fuel. -/
def hexdumpLoop (base : BitVec 32) (buf : List Byte) (size : BitVec 32) :
    ℕ → BitVec 32 → Output → Option Output
  | 0, k, o => if k < size then none else some o
  | fuel + 1, k, o =>
    if k < size then (line base buf k o).bind (hexdumpLoop base buf size fuel (k + 16)) else some o

/-- `hexdump(buf, size)` with `buf` at the address `base`: the console after it, and the `0`
it returns. -/
def hexdump (base : BitVec 32) (buf : List Byte) (size : BitVec 32) (fuel : ℕ) (o : Output) :
    Option (Output × BitVec 32) :=
  (hexdumpLoop base buf size fuel 0 o).map fun o => (o, 0)

def reads (size : BitVec 32) : ℕ → BitVec 32 → List ℕ
  | 0, _ => []
  | fuel + 1, k =>
    if k < size then
      (List.range 16).map (column k) ++ (List.range 16).map (column k) ++ reads size fuel (k + 16)
    else []

example : reads 1 2 0 = List.range 16 ++ List.range 16 := by decide

theorem column_of_lt {k : BitVec 32} {l : ℕ} (h : k.toNat + l < 2 ^ 32) : column k l = k.toNat + l := by
  simp only [column, BitVec.toNat_add, BitVec.toNat_ofNat]
  omega

theorem next_toNat {k : BitVec 32} (h : k.toNat + 16 < 2 ^ 32) : (k + 16).toNat = k.toNat + 16 := by
  rw [BitVec.toNat_add, show (16 : BitVec 32).toNat = 16 from rfl]
  omega

theorem hexColumns_of_read_past (buf : List Byte) (k : BitVec 32) {l : ℕ} (h : buf.length ≤ column k l) :
    ∀ ls, l ∈ ls → ∀ o, hexColumns buf k ls o = none := by
  intro ls hl
  induction ls with
  | nil => exact absurd hl (List.not_mem_nil l)
  | cons l' ls ih =>
    rcases List.mem_cons.1 hl with rfl | hl
    · simp [hexColumns, List.getElem?_eq_none h]
    · simp [hexColumns, ih hl]

theorem line_of_read_past (base : BitVec 32) (buf : List Byte) (k : BitVec 32) {l : ℕ} (hl : l < 16)
    (h : buf.length ≤ column k l) (o : Output) : line base buf k o = none := by
  simp [line, hexColumns_of_read_past buf k h _ (List.mem_range.2 hl)]

theorem mem_line_reads {k : BitVec 32} {i : ℕ}
    (hi : i ∈ (List.range 16).map (column k) ++ (List.range 16).map (column k)) :
    ∃ l, l < 16 ∧ column k l = i := by
  simpa [List.mem_map, List.mem_range] using List.mem_append.1 hi |>.elim id id

theorem hexdumpLoop_reads_inside (base : BitVec 32) (buf : List Byte) (size : BitVec 32) :
    ∀ fuel k o o', hexdumpLoop base buf size fuel k o = some o' → ∀ i ∈ reads size fuel k, i < buf.length := by
  intro fuel
  induction fuel with
  | zero => exact fun _ _ _ _ i hi => absurd hi (List.not_mem_nil i)
  | succ fuel ih =>
    intro k o o' h i hi
    simp only [hexdumpLoop, reads] at h hi
    split at h
    · obtain ⟨o₁, hline, hrest⟩ := Option.bind_eq_some.1 h
      rw [if_pos ‹k < size›] at hi
      rcases List.mem_append.1 hi with hi | hi
      · obtain ⟨l, hl, rfl⟩ := mem_line_reads hi
        exact Nat.lt_of_not_le fun hle => by simp [line_of_read_past base buf k hl hle] at hline
      · exact ih (k + 16) o₁ o' hrest i hi
    · rw [if_neg ‹¬k < size›] at hi
      exact absurd hi (List.not_mem_nil i)

section
variable {size : BitVec 32}

theorem reads_lt_of_dvd (hs : size.toNat % 16 = 0) :
    ∀ fuel (k : BitVec 32) (j : ℕ), k.toNat = 16 * j → ∀ i ∈ reads size fuel k, i < size.toNat := by
  intro fuel
  induction fuel with
  | zero => exact fun _ _ _ i hi => absurd hi (List.not_mem_nil i)
  | succ fuel ih =>
    intro k j hk i hi
    rw [reads] at hi
    split at hi
    · have hlt : k.toNat < size.toNat := BitVec.lt_def.1 ‹k < size›
      have hsize := size.isLt
      rcases List.mem_append.1 hi with hi | hi
      · obtain ⟨l, hl, rfl⟩ := mem_line_reads hi
        rw [column_of_lt (by omega)]
        omega
      · exact ih (k + 16) (j + 1) (by rw [next_toNat (by omega)]; omega) i hi
    · exact absurd hi (List.not_mem_nil i)

theorem size_mem_reads (hs : size.toNat % 16 ≠ 0) :
    ∀ d (k : BitVec 32) (j : ℕ), k.toNat = 16 * j → j + d = size.toNat / 16 →
      size.toNat ∈ reads size (d + 1) k := by
  have hsize := size.isLt
  intro d
  induction d with
  | zero =>
    intro k j hk hj
    rw [reads, if_pos (BitVec.lt_def.2 (by omega)), List.mem_append]
    refine .inl (List.mem_append_left _ (List.mem_map.2 ⟨size.toNat - 16 * j, ?_, ?_⟩))
    · exact List.mem_range.2 (by omega)
    · rw [column_of_lt (by omega)]
      omega
  | succ d ih =>
    intro k j hk hj
    rw [reads, if_pos (BitVec.lt_def.2 (by omega)), List.mem_append]
    exact .inr (ih (k + 16) (j + 1) (by rw [next_toNat (by omega)]; omega) (by omega))

theorem hexdumpLoop_of_not_dvd (hs : size.toNat % 16 ≠ 0) (base : BitVec 32) (buf : List Byte)
    (hbuf : buf.length = size.toNat) :
    ∀ fuel (k : BitVec 32) (j : ℕ) (o : Output), k.toNat = 16 * j → j ≤ size.toNat / 16 →
      hexdumpLoop base buf size fuel k o = none := by
  have hsize := size.isLt
  intro fuel
  induction fuel with
  | zero => exact fun k j o hk hj => if_pos (BitVec.lt_def.2 (by omega))
  | succ fuel ih =>
    intro k j o hk hj
    rw [hexdumpLoop, if_pos (BitVec.lt_def.2 (by omega))]
    rcases Nat.lt_or_eq_of_le hj with hj | hj
    · cases line base buf k o with
      | none => rfl
      | some o₁ => exact ih (k + 16) (j + 1) o₁ (by rw [next_toNat (by omega)]; omega) (by omega)
    · rw [line_of_read_past base buf k (l := size.toNat - 16 * j) (by omega)
        (by rw [column_of_lt (by omega)]; omega)]
      rfl

end

/-- When `size` is not a multiple of 16, `hexdump(buf, size)` reads past the end of a
buffer of length `size`: the last line reads `buf[size]`, and a run on a buffer of exactly
that length never gets to the end, whatever the address and the fuel. -/
theorem hexdump_reads_past_end (size : BitVec 32) (hs : size.toNat % 16 ≠ 0) :
    (∃ fuel, ∃ i ∈ reads size fuel 0, size.toNat ≤ i) ∧
    ∀ (base : BitVec 32) (buf : List Byte) (fuel : ℕ) (o : Output), buf.length = size.toNat →
      hexdump base buf size fuel o = none := by
  refine ⟨⟨size.toNat / 16 + 1, size.toNat, size_mem_reads hs _ 0 0 rfl (Nat.zero_add _), le_rfl⟩, ?_⟩
  intro base buf fuel o hbuf
  rw [hexdump, hexdumpLoop_of_not_dvd hs base buf hbuf fuel 0 0 o rfl (Nat.zero_le _)]
  rfl

theorem hexdump_reads_past_end_one :
    (1 : BitVec 32).toNat % 16 ≠ 0 ∧
      (∃ fuel, ∃ i ∈ reads 1 fuel 0, (1 : BitVec 32).toNat ≤ i) ∧
      ∀ (base : BitVec 32) (buf : List Byte) (fuel : ℕ) (o : Output), buf.length = (1 : BitVec 32).toNat →
        hexdump base buf 1 fuel o = none :=
  ⟨by decide, hexdump_reads_past_end 1 (by decide)⟩

/-- Every index `hexdump(buf, size)` reads, over any number of passes, is below `size`
exactly when `size` is a multiple of 16. -/
theorem hexdump_reads_below_size_iff (size : BitVec 32) :
    (∀ fuel, ∀ i ∈ reads size fuel 0, i < size.toNat) ↔ size.toNat % 16 = 0 := by
  refine ⟨fun h => ?_, fun hs fuel => reads_lt_of_dvd hs fuel 0 0 rfl⟩
  by_contra hs
  exact lt_irrefl _ (h _ _ (size_mem_reads hs (size.toNat / 16) 0 0 rfl (Nat.zero_add _)))

section
variable {size : BitVec 32}

end

end HellfireOS.Hexdump
