import HellfireOS.Memory

set_option autoImplicit false

/-!
# `strstr`, `strncat`, `strlen` and `strchr`

Strings are read from their storages as in `Compare` and written with `Memory.store`. A
result proved on a storage that ends with a string's NUL shows that the routine reads
nothing past that NUL.

`strstr` tries the needle at each position of the haystack, the NUL included, and stops
after trying it at the NUL. `strncat` finds the NUL of the destination, then copies the
source over it byte by byte with the NUL, counting `n` down after each byte that is not
the NUL; a copied byte that takes the count below zero is overwritten with the NUL.

`strlen` counts in an `int32_t` the bytes before the NUL, the index `strncat`'s scan finds,
and `strchr` stops at the first byte equal to its argument or at the NUL, so that it finds
the NUL itself when asked for 0.
-/
namespace HellfireOS.Strings
open HellfireOS.Word HellfireOS.Memory

/-- `for (i = 0; string[i] == find[i] && find[i]; ++i);` and the test `find[i] == 0` that
follows it: whether the whole needle matched. -/
def prefixMatch : List Byte → List Byte → Option Bool
  | a :: s, b :: f => if a = b ∧ b ≠ 0 then prefixMatch s f else some (decide (b = 0))
  | _, _ => none

/-- `strstr`'s `for (;;)` from offset `k` of the haystack: `string + k` on a match, and
`NULL` after a failed try at the NUL (`if (*string++ == 0) return NULL;`). -/
def strstrFrom (find : List Byte) : List Byte → ℕ → Option (Option ℕ)
  | [], _ => none
  | c :: rest, k => do
    let found ← prefixMatch (c :: rest) find
    if found then some (some k)
    else if c = 0 then some none
    else strstrFrom find rest (k + 1)

/-- `strstr(string, find)`: the offset of the match in `string`, or `NULL`. -/
def strstr (string find : List Byte) : Option (Option ℕ) := strstrFrom find string 0

theorem prefixMatch_terminated (s f : List Byte) (hs : ∀ c ∈ s, c ≠ 0) (hf : ∀ c ∈ f, c ≠ 0) :
    prefixMatch (s ++ [0]) (f ++ [0]) = some (decide (f <+: s)) := by
  induction f generalizing s with
  | nil => cases s <;> simp [prefixMatch]
  | cons b f ih =>
    rw [List.forall_mem_cons] at hf
    cases s with
    | nil =>
      rw [List.nil_append, List.cons_append, prefixMatch, if_neg (fun h => hf.1 h.1.symm),
        decide_eq_false hf.1]
      simp
    | cons a s =>
      rw [List.forall_mem_cons] at hs
      by_cases hab : a = b
      · subst hab
        rw [List.cons_append, List.cons_append, prefixMatch, if_pos ⟨rfl, hf.1⟩, ih s hs.2 hf.2]
        simp
      · rw [List.cons_append, List.cons_append, prefixMatch, if_neg (fun h => hab h.1),
          decide_eq_false hf.1, decide_eq_false (by rw [List.cons_prefix_cons]; exact fun h => hab h.1.symm)]

theorem strstrFrom_terminated (f : List Byte) (hf : ∀ c ∈ f, c ≠ 0) (h : List Byte)
    (hh : ∀ c ∈ h, c ≠ 0) (k : ℕ) :
    strstrFrom (f ++ [0]) (h ++ [0]) k =
      some (((List.range (h.length + 1)).find? fun i => decide (f <+: h.drop i)).map (· + k)) := by
  induction h generalizing k with
  | nil =>
    rw [List.nil_append, strstrFrom, show prefixMatch [0] (f ++ [0]) = some (decide (f <+: [])) from
      prefixMatch_terminated [] f (List.forall_mem_nil _) hf]
    by_cases hp : f <+: []
    · simp [hp, List.range_succ]
    · simp [hp, List.range_succ]
  | cons c h ih =>
    rw [List.forall_mem_cons] at hh
    rw [List.cons_append, strstrFrom, ← List.cons_append,
      prefixMatch_terminated (c :: h) f (List.forall_mem_cons.2 hh) hf, List.length_cons,
      List.range_succ_eq_map]
    by_cases hp : f <+: c :: h
    · simp [hp]
    · rw [decide_eq_false hp, List.find?_cons_of_neg _ (by simpa using hp), List.find?_map,
        Option.map_map]
      simp only [Option.bind_eq_bind, Option.some_bind, Bool.false_eq_true, if_false, if_neg hh.1,
        ih hh.2]
      rw [show ((· + k) ∘ Nat.succ) = (· + (k + 1)) from funext fun i => by
        simp only [Function.comp, Nat.succ_eq_add_one]; omega]
      rfl

/-- `strstr(h, f)` on two NUL-terminated strings reads nothing past the haystack's NUL and
returns `h + k` for the least `k ≤ strlen(h)` at which `f` is a prefix of the rest of `h`,
or `NULL` when there is none. -/
theorem strstr_least (h f : List Byte) (hh : ∀ c ∈ h, c ≠ 0) (hf : ∀ c ∈ f, c ≠ 0) :
    ∃ r, strstr (h ++ [0]) (f ++ [0]) = some r ∧
      (∀ k, r = some k ↔ k ≤ h.length ∧ f <+: h.drop k ∧ ∀ j < k, ¬ f <+: h.drop j) ∧
      (r = none ↔ ∀ k ≤ h.length, ¬ f <+: h.drop k) := by
  refine ⟨_, strstrFrom_terminated f hf h hh 0, fun k => ?_, ?_⟩
  · simp [List.find?_range_eq_some, Nat.lt_succ_iff, and_left_comm]
  · simp [List.find?_range_eq_none, Nat.lt_succ_iff]

theorem strstr_least_ab_b :
    (∀ c ∈ ([0x61, 0x62] : List Byte), c ≠ 0) ∧ (∀ c ∈ ([0x62] : List Byte), c ≠ 0) ∧
      ∃ r, strstr ([0x61, 0x62] ++ [0]) ([0x62] ++ [0]) = some r ∧
        (∀ k, r = some k ↔ k ≤ ([0x61, 0x62] : List Byte).length ∧
          ([0x62] : List Byte) <+: ([0x61, 0x62] : List Byte).drop k ∧
          ∀ j < k, ¬ ([0x62] : List Byte) <+: ([0x61, 0x62] : List Byte).drop j) ∧
        (r = none ↔ ∀ k ≤ ([0x61, 0x62] : List Byte).length,
          ¬ ([0x62] : List Byte) <+: ([0x61, 0x62] : List Byte).drop k) := by
  have hh : ∀ c ∈ ([0x61, 0x62] : List Byte), c ≠ 0 :=
    List.forall_mem_cons.2 ⟨by decide, List.forall_mem_singleton.2 (by decide)⟩
  have hf : ∀ c ∈ ([0x62] : List Byte), c ≠ 0 := List.forall_mem_singleton.2 (by decide)
  exact ⟨hh, hf, strstr_least _ _ hh hf⟩

/-- `while (*s1++); --s1;`: the index of the first NUL. -/
def scanNul : List Byte → Option ℕ
  | [] => none
  | c :: s => if c = 0 then some 0 else (scanNul s).map (· + 1)

/-- `while ((*s1++ = *s2++)) if (--n < 0) { *--s1 = '\0'; break; }` with `s1` at index `i`
of the destination storage `m` and `s2` the source from its current byte. -/
def catCopy : List Byte → ℕ → List Byte → BitVec 32 → Option (List Byte)
  | m, i, c :: s2, n => do
    let m ← store m i c
    if c = 0 then some m
    else if (n - 1).toInt < 0 then store m i 0
    else catCopy m (i + 1) s2 (n - 1)
  | _, _, [], _ => none

/-- `strncat(s1, s2, n)`: the destination storage after the call, and the `os1` it
returns, the index of its start. -/
def strncat (s1 s2 : List Byte) (n : BitVec 32) : Option (List Byte × ℕ) := do
  let i ← scanNul s1
  let m ← catCopy s1 i s2 n
  some (m, 0)

theorem scanNul_terminated (s : List Byte) (hs : ∀ c ∈ s, c ≠ 0) (rest : List Byte) :
    scanNul (s ++ 0 :: rest) = some s.length := by
  induction s with
  | nil => rfl
  | cons c s ih =>
    rw [List.forall_mem_cons] at hs
    rw [List.cons_append, scanNul, if_neg hs.1, ih hs.2]
    rfl

theorem catCopy_terminated (s2 : List Byte) (h2 : ∀ c ∈ s2, c ≠ 0) (pre : List Byte) (t : Byte)
    (tail : List Byte) (n : BitVec 32) (hn : 0 ≤ n.toInt) (hroom : min n.toNat s2.length ≤ tail.length) :
    catCopy (pre ++ t :: tail) pre.length (s2 ++ [0]) n =
      some (pre ++ s2.take n.toNat ++ 0 :: tail.drop (min n.toNat s2.length)) := by
  induction s2 generalizing pre t tail n with
  | nil =>
    simp only [List.nil_append, catCopy, store_append, Option.bind_eq_bind, Option.some_bind,
      if_pos, List.take_nil, List.length_nil, Nat.min_zero, List.drop_zero, List.append_nil]
  | cons c s2 ih =>
    rw [List.forall_mem_cons] at h2
    rw [List.cons_append, catCopy, store_append]
    simp only [Option.bind_eq_bind, Option.some_bind, if_neg h2.1]
    cases hm : n.toNat with
    | zero =>
      rw [if_pos (sub_one_toInt_neg hm), store_append]
      simp
    | succ m =>
      obtain ⟨hn', hm'⟩ := sub_one_of_toNat hn hm
      rw [hm, List.length_cons] at hroom
      obtain ⟨t', tail, rfl⟩ :=
        List.exists_cons_of_ne_nil (List.ne_nil_of_length_pos (show 0 < tail.length by omega))
      have hroom' : min (n - 1).toNat s2.length ≤ tail.length := by
        rw [hm']
        rw [List.length_cons] at hroom
        omega
      rw [if_neg (by omega), show pre ++ c :: t' :: tail = (pre ++ [c]) ++ t' :: tail by simp,
        show pre.length + 1 = (pre ++ [c]).length by simp,
        ih h2.2 (pre ++ [c]) t' tail (n - 1) hn' hroom', hm',
        List.take_succ_cons, List.length_cons, Nat.succ_min_succ, List.drop_succ_cons]
      simp

/-- `strncat(s1, s2, n)` with `n ≥ 0`, where the buffer of `s1` has room, leaves `s1`
followed by the first `min(n, strlen(s2))` characters of `s2` and a NUL, changes no byte
after that NUL, reads nothing past the NUL of `s2`, and returns `s1`. -/
theorem strncat_appends (s1 s2 rest : List Byte) (h1 : ∀ c ∈ s1, c ≠ 0) (h2 : ∀ c ∈ s2, c ≠ 0)
    (n : BitVec 32) (hn : 0 ≤ n.toInt) (hroom : min n.toNat s2.length ≤ rest.length) :
    strncat (s1 ++ 0 :: rest) (s2 ++ [0]) n =
      some (s1 ++ s2.take n.toNat ++ 0 :: rest.drop (min n.toNat s2.length), 0) := by
  rw [strncat, scanNul_terminated s1 h1]
  simp only [Option.bind_eq_bind, Option.some_bind, catCopy_terminated s2 h2 s1 0 rest n hn hroom]

theorem strncat_appends_one :
    (∀ c ∈ ([0x61] : List Byte), c ≠ 0) ∧ (∀ c ∈ ([0x62, 0x63] : List Byte), c ≠ 0) ∧
      0 ≤ (1 : BitVec 32).toInt ∧ min (1 : BitVec 32).toNat ([0x62, 0x63] : List Byte).length ≤
        ([0x7a, 0x7a] : List Byte).length ∧
      strncat ([0x61] ++ 0 :: [0x7a, 0x7a]) ([0x62, 0x63] ++ [0]) 1 =
        some ([0x61] ++ ([0x62, 0x63] : List Byte).take (1 : BitVec 32).toNat ++
          0 :: ([0x7a, 0x7a] : List Byte).drop (min (1 : BitVec 32).toNat ([0x62, 0x63] : List Byte).length), 0) := by
  have h1 : ∀ c ∈ ([0x61] : List Byte), c ≠ 0 := List.forall_mem_singleton.2 (by decide)
  have h2 : ∀ c ∈ ([0x62, 0x63] : List Byte), c ≠ 0 :=
    List.forall_mem_cons.2 ⟨by decide, List.forall_mem_singleton.2 (by decide)⟩
  exact ⟨h1, h2, by decide, by decide, strncat_appends _ _ _ h1 h2 1 (by decide) (by decide)⟩

/-- `while (*s++) n++;` with the `int32_t` count `n`. -/
def strlenLoop : List Byte → BitVec 32 → Option (BitVec 32)
  | [], _ => none
  | c :: s, n => if c = 0 then some n else strlenLoop s (n + 1)

/-- `strlen(s)`. -/
def strlen (s : List Byte) : Option (BitVec 32) := strlenLoop s 0

/-- `while (*s != (int8_t)c) if (!*s++) return 0;` with `s` at index `k`: the index it
returns, or `NULL`. -/
def strchrFrom (c : Byte) : List Byte → ℕ → Option (Option ℕ)
  | [], _ => none
  | a :: s, k => if a ≠ c then (if a = 0 then some none else strchrFrom c s (k + 1))
    else some (some k)

/-- `strchr(s, c)`, with `(int8_t)c` the low byte of `c`. -/
def strchr (s : List Byte) (c : BitVec 32) : Option (Option ℕ) := strchrFrom (c.setWidth 8) s 0

theorem strlenLoop_eq (s : List Byte) (n : BitVec 32) :
    strlenLoop s n = (scanNul s).map fun k => n + BitVec.ofNat 32 k := by
  induction s generalizing n with
  | nil => rfl
  | cons c s ih =>
    by_cases hc : c = 0
    · simp [strlenLoop, scanNul, hc]
    · rw [strlenLoop, scanNul, if_neg hc, if_neg hc, ih, Option.map_map]
      congr 1
      funext k
      apply BitVec.eq_of_toNat_eq
      simp only [Function.comp, BitVec.toNat_add, BitVec.toNat_ofNat,
        show (1 : BitVec 32).toNat = 1 from rfl]
      omega

theorem scanNul_of_forall_ne (s : List Byte) (hs : ∀ c ∈ s, c ≠ 0) : scanNul s = none := by
  induction s with
  | nil => rfl
  | cons c s ih =>
    rw [List.forall_mem_cons] at hs
    rw [scanNul, if_neg hs.1, ih hs.2]
    rfl

/-- `strlen` counts the bytes before the NUL, and runs off a storage that holds none. -/
theorem strlen_spec (s rest : List Byte) (hs : ∀ c ∈ s, c ≠ 0) :
    strlen (s ++ 0 :: rest) = some (BitVec.ofNat 32 s.length) ∧ strlen s = none := by
  rw [strlen, strlen, strlenLoop_eq, strlenLoop_eq, scanNul_terminated s hs rest,
    scanNul_of_forall_ne s hs]
  simp

theorem strlen_spec_ab :
    (∀ c ∈ ([0x61, 0x62] : List Byte), c ≠ 0) ∧
      strlen ([0x61, 0x62] ++ 0 :: []) = some (BitVec.ofNat 32 [0x61, 0x62].length) ∧
      strlen [0x61, 0x62] = none :=
  have h : ∀ c ∈ ([0x61, 0x62] : List Byte), c ≠ 0 :=
    List.forall_mem_cons.2 ⟨by decide, List.forall_mem_singleton.2 (by decide)⟩
  ⟨h, strlen_spec _ _ h⟩

theorem strchrFrom_terminated (b : Byte) (s : List Byte) (hs : ∀ c ∈ s, c ≠ 0)
    (rest : List Byte) (k : ℕ) :
    strchrFrom b (s ++ 0 :: rest) k =
      some (if b = 0 then some (k + s.length) else s.findIdx? (· = b) k) := by
  induction s generalizing k with
  | nil =>
    by_cases hb : b = 0
    · subst hb
      simp [strchrFrom]
    · have h0 : (0 : Byte) ≠ b := Ne.symm hb
      rw [List.nil_append, strchrFrom, if_pos h0, if_pos rfl, if_neg hb]
      rfl
  | cons a s ih =>
    rw [List.forall_mem_cons] at hs
    by_cases hab : a = b
    · subst hab
      rw [List.cons_append, strchrFrom, if_neg (fun h => h rfl), if_neg hs.1, List.findIdx?_cons]
      simp
    · rw [List.cons_append, strchrFrom, if_pos hab, if_neg hs.1, ih hs.2, List.findIdx?_cons,
        List.length_cons, Nat.add_right_comm, Nat.add_assoc]
      simp [hab]

/-- On a NUL-terminated string `strchr` returns the index of the first occurrence of the
low byte of `c`, `NULL` when there is none, and the index of the NUL when that byte is 0. -/
theorem strchr_spec (s rest : List Byte) (hs : ∀ x ∈ s, x ≠ 0) (c : BitVec 32) :
    strchr (s ++ 0 :: rest) c =
      some (if c.setWidth 8 = 0 then some s.length else s.findIdx? (· = c.setWidth 8)) := by
  rw [strchr, strchrFrom_terminated _ s hs rest 0, Nat.zero_add]

theorem strchr_spec_ab :
    (∀ x ∈ ([0x61, 0x62] : List Byte), x ≠ 0) ∧
      strchr ([0x61, 0x62] ++ 0 :: []) 0x62 =
        some (if (0x62 : BitVec 32).setWidth 8 = 0 then some [0x61, 0x62].length
          else [0x61, 0x62].findIdx? (· = (0x62 : BitVec 32).setWidth 8)) :=
  have h : ∀ x ∈ ([0x61, 0x62] : List Byte), x ≠ 0 :=
    List.forall_mem_cons.2 ⟨by decide, List.forall_mem_singleton.2 (by decide)⟩
  ⟨h, strchr_spec _ _ h _⟩

end HellfireOS.Strings
