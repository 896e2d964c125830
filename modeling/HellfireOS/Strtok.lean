import HellfireOS.Memory

set_option autoImplicit false

/-!
# `strtok`

`strtok` keeps the static pointer `last` between calls. A call skips the delimiters
(`cont:`), returns `NULL` and clears `last` at the NUL, and otherwise scans the token up to
the next delimiter or the NUL. A delimiter that ends the token is overwritten with the NUL
and `last` is set past it; a NUL that ends it clears `last`. Pointers are indices into
the storage of the string being split; the delimiter string is read from its own storage.
Characters are compared as `int32_t` values of `int8_t`, which is equality of bytes.

`runs D str` is what a whole sequence of calls is for: the maximal non-empty runs of bytes
of `str` that are not in `D`, as `(start, end)` pairs, `end` exclusive.
-/
namespace HellfireOS.Strtok
open HellfireOS.Word HellfireOS.Memory

structure TokState where
  buf : List Byte
  last : Option ℕ

/-- `for (spanp = delim; (sc = *spanp++) != 0;) if (c == sc) goto cont;`: whether `c` is a
delimiter. -/
def isDelim (c : Byte) : List Byte → Option Bool
  | [] => none
  | sc :: spanp => if sc = 0 then some false else if c = sc then some true else isDelim c spanp

/-- `do { if ((sc = *spanp++) == c) … } while (sc != 0);`: whether `c` is a delimiter or
the delimiter string's NUL. -/
def endsToken (c : Byte) : List Byte → Option Bool
  | [] => none
  | sc :: spanp => if sc = c then some true else if sc = 0 then some false else endsToken c spanp

def skipDelims (delim : List Byte) : List Byte → ℕ → Option (ℕ × Byte)
  | [], _ => none
  | c :: s, i => do
    let d ← isDelim c delim
    if d then skipDelims delim s (i + 1) else some (i, c)

def scanToken (delim : List Byte) : List Byte → ℕ → Option (ℕ × Byte)
  | [], _ => none
  | c :: s, i => do
    let e ← endsToken c delim
    if e then some (i, c) else scanToken delim s (i + 1)

/-- `strtok(s, delim)` with `s` an index or `NULL`: the token it returns, an index or
`NULL`, and the state after the call. -/
def strtok (delim : List Byte) (s : Option ℕ) (st : TokState) : Option (Option ℕ × TokState) :=
  match s <|> st.last with
  | none => some (none, st)
  | some i => do
    let (t, c) ← skipDelims delim (st.buf.drop i) i
    if c = 0 then some (none, ⟨st.buf, none⟩)
    else do
      let (j, c) ← scanToken delim (st.buf.drop (t + 1)) (t + 1)
      if c = 0 then some (some t, ⟨st.buf, none⟩)
      else do
        let buf ← store st.buf j 0
        some (some t, ⟨buf, some (j + 1)⟩)

/-- `strtok(s, delim)` followed by `k - 1` calls `strtok(NULL, delim)`: what they return. -/
def strtokCalls (delim : List Byte) : ℕ → Option ℕ → TokState → Option (List (Option ℕ) × TokState)
  | 0, _, st => some ([], st)
  | k + 1, s, st => do
    let (tok, st) ← strtok delim s st
    let (toks, st) ← strtokCalls delim k none st
    some (tok :: toks, st)

def runsFrom (D : List Byte) : List Byte → ℕ → Option ℕ → List (ℕ × ℕ)
  | [], _, none => []
  | [], i, some t => [(t, i)]
  | c :: l, i, none => if c ∈ D then runsFrom D l (i + 1) none else runsFrom D l (i + 1) (some i)
  | c :: l, i, some t =>
    if c ∈ D then (t, i) :: runsFrom D l (i + 1) none else runsFrom D l (i + 1) (some t)

/-- The maximal non-empty runs of bytes of `str` not in `D`, as `(start, end)` pairs. -/
def runs (D str : List Byte) : List (ℕ × ℕ) := runsFrom D str 0 none

example : runs [ch ','] ([ch ','] ++ [ch 'a', ch 'b', ch ',', ch ','] ++ [ch 'c']) = [(1, 3), (5, 6)] := by
  decide

section
variable {D : List Byte} (hD : ∀ c ∈ D, c ≠ 0)
include hD

theorem isDelim_terminated (c : Byte) : isDelim c (D ++ [0]) = some (decide (c ∈ D)) := by
  induction D with
  | nil => simp [isDelim]
  | cons d D ih =>
    rw [List.forall_mem_cons] at hD
    rw [List.cons_append, isDelim, if_neg hD.1, ih hD.2]
    by_cases h : c = d <;> simp [h]

theorem endsToken_terminated {c : Byte} (hc : c ≠ 0) : endsToken c (D ++ [0]) = some (decide (c ∈ D)) := by
  induction D with
  | nil =>
    rw [List.nil_append, endsToken, if_neg (Ne.symm hc), if_pos rfl]
    simp
  | cons d D ih =>
    rw [List.forall_mem_cons] at hD
    rw [List.cons_append, endsToken, if_neg hD.1, ih hD.2]
    by_cases h : d = c
    · subst h
      simp
    · rw [if_neg h]
      simp [Ne.symm h]

theorem endsToken_nul : endsToken 0 (D ++ [0]) = some true := by
  induction D with
  | nil => rfl
  | cons d D ih =>
    rw [List.forall_mem_cons] at hD
    rw [List.cons_append, endsToken, if_neg hD.1, if_neg hD.1, ih hD.2]

theorem skip_spec (l : List Byte) (hl : ∀ c ∈ l, c ≠ 0) (p : ℕ) :
    (runsFrom D l p none = [] ∧ skipDelims (D ++ [0]) (l ++ [0]) p = some (p + l.length, 0)) ∨
    ∃ t c w, l.drop (t - p) = c :: w ∧ p ≤ t ∧ c ≠ 0 ∧
      skipDelims (D ++ [0]) (l ++ [0]) p = some (t, c) ∧
      runsFrom D l p none = runsFrom D w (t + 1) (some t) := by
  induction l generalizing p with
  | nil =>
    left
    refine ⟨rfl, ?_⟩
    rw [List.nil_append, skipDelims, isDelim_terminated hD,
      decide_eq_false fun h => hD 0 h rfl]
    rfl
  | cons c l ih =>
    rw [List.forall_mem_cons] at hl
    by_cases hc : c ∈ D
    · have hskip : skipDelims (D ++ [0]) ((c :: l) ++ [0]) p = skipDelims (D ++ [0]) (l ++ [0]) (p + 1) := by
        rw [List.cons_append, skipDelims, isDelim_terminated hD, decide_eq_true hc]
        rfl
      have hruns : runsFrom D (c :: l) p none = runsFrom D l (p + 1) none := if_pos hc
      rw [hskip, hruns]
      rcases ih hl.2 (p + 1) with ⟨hr, hs⟩ | ⟨t, c', w, hw, hpt, hc', hs, hr⟩
      · left
        rw [hs, List.length_cons, Nat.add_assoc, Nat.add_comm 1]
        exact ⟨hr, rfl⟩
      · right
        refine ⟨t, c', w, ?_, by omega, hc', hs, hr⟩
        rw [show t - p = (t - (p + 1)) + 1 by omega, List.drop_succ_cons, hw]
    · right
      refine ⟨p, c, l, by rw [Nat.sub_self, List.drop_zero], le_rfl, hl.1, ?_, if_neg hc⟩
      rw [List.cons_append, skipDelims, isDelim_terminated hD, decide_eq_false hc]
      rfl

theorem token_spec (l : List Byte) (hl : ∀ c ∈ l, c ≠ 0) (q t : ℕ) :
    (runsFrom D l q (some t) = [(t, q + l.length)] ∧
      scanToken (D ++ [0]) (l ++ [0]) q = some (q + l.length, 0)) ∨
    ∃ j c w, l.drop (j - q) = c :: w ∧ q ≤ j ∧ c ≠ 0 ∧
      scanToken (D ++ [0]) (l ++ [0]) q = some (j, c) ∧
      runsFrom D l q (some t) = (t, j) :: runsFrom D w (j + 1) none := by
  induction l generalizing q with
  | nil =>
    left
    refine ⟨rfl, ?_⟩
    rw [List.nil_append, scanToken, endsToken_nul hD]
    rfl
  | cons c l ih =>
    rw [List.forall_mem_cons] at hl
    by_cases hc : c ∈ D
    · right
      refine ⟨q, c, l, by rw [Nat.sub_self, List.drop_zero], le_rfl, hl.1, ?_, if_pos hc⟩
      rw [List.cons_append, scanToken, endsToken_terminated hD hl.1, decide_eq_true hc]
      rfl
    · have hscan : scanToken (D ++ [0]) ((c :: l) ++ [0]) q = scanToken (D ++ [0]) (l ++ [0]) (q + 1) := by
        rw [List.cons_append, scanToken, endsToken_terminated hD hl.1, decide_eq_false hc]
        rfl
      have hruns : runsFrom D (c :: l) q (some t) = runsFrom D l (q + 1) (some t) := if_neg hc
      rw [hscan, hruns]
      rcases ih hl.2 (q + 1) with ⟨hr, hs⟩ | ⟨j, c', w, hw, hqj, hc', hs, hr⟩
      · left
        rw [hs, hr, List.length_cons, Nat.add_assoc, Nat.add_comm 1]
        exact ⟨rfl, rfl⟩
      · right
        refine ⟨j, c', w, ?_, by omega, hc', hs, hr⟩
        rw [show j - q = (j - (q + 1)) + 1 by omega, List.drop_succ_cons, hw]

theorem strtok_call (l : List Byte) (hl : ∀ c ∈ l, c ≠ 0) (B : List Byte) (last : Option ℕ) :
    (runsFrom D l B.length none = [] ∧
      strtok (D ++ [0]) (some B.length) ⟨B ++ (l ++ [0]), last⟩ =
        some (none, ⟨B ++ (l ++ [0]), none⟩)) ∨
    (∃ t, runsFrom D l B.length none = [(t, B.length + l.length)] ∧
      strtok (D ++ [0]) (some B.length) ⟨B ++ (l ++ [0]), last⟩ =
        some (some t, ⟨B ++ (l ++ [0]), none⟩)) ∨
    (∃ t j c w, l.drop (j - B.length) = c :: w ∧ B.length ≤ j ∧
      runsFrom D l B.length none = (t, j) :: runsFrom D w (j + 1) none ∧
      strtok (D ++ [0]) (some B.length) ⟨B ++ (l ++ [0]), last⟩ =
        some (some t, ⟨(B ++ (l ++ [0])).set j 0, some (j + 1)⟩)) := by
  have hdrop : (B ++ (l ++ [0])).drop B.length = l ++ [0] := List.drop_left _ _
  rcases skip_spec hD l hl B.length with ⟨hr, hs⟩ | ⟨t, c, w, hw, hpt, hc, hs, hr⟩
  · left
    refine ⟨hr, ?_⟩
    simp only [strtok, Option.some_orElse, hdrop, hs, Option.bind_eq_bind, Option.some_bind, if_pos]
  have hlen := congrArg List.length hw
  rw [List.length_drop, List.length_cons] at hlen
  have hw' : ∀ c ∈ w, c ≠ 0 :=
    fun x hx => hl x (List.mem_of_mem_drop (hw ▸ List.mem_cons_of_mem c hx))
  have hdrop' : (B ++ (l ++ [0])).drop (t + 1) = w ++ [0] := by
    rw [List.drop_append_eq_append_drop, List.drop_eq_nil_of_le (by omega), List.nil_append,
      List.drop_append_of_le_length (by omega), show t + 1 - B.length = (t - B.length) + 1 by omega,
      ← List.drop_drop, hw]
    rfl
  right
  rcases token_spec hD w hw' (t + 1) t with ⟨hr2, hs2⟩ | ⟨j, c', w', hw2, hqj, hc', hs2, hr2⟩
  · left
    refine ⟨t, by rw [hr, hr2, show t + 1 + w.length = B.length + l.length by omega], ?_⟩
    simp only [strtok, Option.some_orElse, hdrop, hs, Option.bind_eq_bind, Option.some_bind,
      if_neg hc, hdrop', hs2, if_pos]
  · right
    have hlen2 := congrArg List.length hw2
    rw [List.length_drop, List.length_cons] at hlen2
    refine ⟨t, j, c', w', ?_, by omega, by rw [hr, hr2], ?_⟩
    · rw [show j - B.length = (t - B.length + 1) + (j - (t + 1)) by omega, ← List.drop_drop,
        ← List.drop_drop, hw]
      exact hw2
    · simp only [strtok, Option.some_orElse, hdrop, hs, Option.bind_eq_bind, Option.some_bind,
        if_neg hc, hdrop', hs2, if_neg hc',
        store_of_lt (show j < (B ++ (l ++ [0])).length by simp; omega)]

end

theorem strtokCalls_done (delim : List Byte) (k : ℕ) (buf : List Byte) :
    strtokCalls delim k none ⟨buf, none⟩ = some (List.replicate k none, ⟨buf, none⟩) := by
  induction k with
  | zero => rfl
  | succ k ih =>
    rw [strtokCalls, show strtok delim none ⟨buf, none⟩ = some (none, ⟨buf, none⟩) from rfl]
    simp only [Option.bind_eq_bind, Option.some_bind, ih]
    rfl

theorem strtokCalls_last (delim : List Byte) (k q : ℕ) (buf : List Byte) :
    strtokCalls delim k none ⟨buf, some q⟩ = strtokCalls delim k (some q) ⟨buf, some q⟩ := by
  cases k <;> rfl

theorem starts_cons (x : ℕ) (l : List ℕ) (k : ℕ) :
    (List.range (k + 1)).map (fun n => (x :: l)[n]?) = some x :: (List.range k).map fun n => l[n]? := by
  simp only [List.range_succ_eq_map, List.map_cons, List.map_map, Function.comp_def,
    List.getElem?_cons_zero, List.getElem?_cons_succ]

theorem starts_nil (k : ℕ) : (List.range k).map (fun n => ([] : List ℕ)[n]?) = List.replicate k none := by
  simp [List.map_const']

section
variable {D : List Byte} (hD : ∀ c ∈ D, c ≠ 0)
include hD

theorem strtokCalls_runs (k : ℕ) (l : List Byte) (hl : ∀ c ∈ l, c ≠ 0) (B : List Byte)
    (last : Option ℕ) :
    ∃ st, strtokCalls (D ++ [0]) k (some B.length) ⟨B ++ (l ++ [0]), last⟩ =
        some ((List.range k).map fun n => ((runsFrom D l B.length none).map Prod.fst)[n]?, st) ∧
      st.buf = ((runsFrom D l B.length none).take k).foldl (fun b r => b.set r.2 0) (B ++ (l ++ [0])) := by
  induction k generalizing l B last with
  | zero => exact ⟨_, rfl, rfl⟩
  | succ k ih =>
    rcases strtok_call hD l hl B last with ⟨hr, hc⟩ | ⟨t, hr, hc⟩ | ⟨t, j, c, w, hw, hj, hr, hc⟩
    · refine ⟨⟨B ++ (l ++ [0]), none⟩, ?_, by rw [hr]; rfl⟩
      rw [strtokCalls, hc]
      simp only [Option.bind_eq_bind, Option.some_bind, strtokCalls_done, hr, List.map_nil, starts_nil,
        List.replicate_succ]
    · refine ⟨⟨B ++ (l ++ [0]), none⟩, ?_, ?_⟩
      · rw [strtokCalls, hc]
        simp only [Option.bind_eq_bind, Option.some_bind, strtokCalls_done, hr, List.map_cons,
          List.map_nil, starts_cons, starts_nil]
      · rw [hr, List.take_succ_cons, List.take_nil, List.foldl_cons, List.foldl_nil, ← List.append_assoc,
          ← List.length_append, List.set_append_right _ _ le_rfl, Nat.sub_self]
        rfl
    · have hlen := congrArg List.length hw
      rw [List.length_drop, List.length_cons] at hlen
      have hw' : ∀ c ∈ w, c ≠ 0 :=
        fun x hx => hl x (List.mem_of_mem_drop (hw ▸ List.mem_cons_of_mem c hx))
      have hsplit : B ++ (l ++ [0]) = (B ++ l.take (j - B.length)) ++ c :: (w ++ [0]) := by
        conv_lhs => rw [← List.take_append_drop (j - B.length) l, hw]
        simp
      have hjlen : (B ++ l.take (j - B.length)).length = j := by
        rw [List.length_append, List.length_take]
        omega
      have hset : (B ++ (l ++ [0])).set j 0 = (B ++ l.take (j - B.length) ++ [0]) ++ (w ++ [0]) := by
        rw [hsplit, List.set_append_right _ _ (by omega), hjlen, Nat.sub_self, List.set_cons_zero]
        simp
      have hlen' : (B ++ l.take (j - B.length) ++ [0]).length = j + 1 := by
        rw [List.length_append, hjlen, List.length_singleton]
      obtain ⟨st, hst, hbuf⟩ := ih w hw' (B ++ l.take (j - B.length) ++ [0]) (some (j + 1))
      rw [hlen'] at hst hbuf
      refine ⟨st, ?_, ?_⟩
      · rw [strtokCalls, hc]
        simp only [Option.bind_eq_bind, Option.some_bind, strtokCalls_last, hset, hst, hr,
          List.map_cons, starts_cons]
      · rw [hbuf, hr, List.take_succ_cons, List.foldl_cons, hset]

end

/-- `strtok(s, D)`, `strtok(NULL, D)`, … on a NUL-terminated string `s` and delimiter
string `D`, whatever `last` held before, return in order the starts of the maximal
non-empty runs of characters of `s` not in `D`, and `NULL` from the call after the last
run on. Each call that returns a run overwrites the character ending it with the NUL, and
no call reads or writes past the NUL of `s` or of `D`. -/
theorem strtok_returns_runs (D str : List Byte) (hD : ∀ c ∈ D, c ≠ 0) (hs : ∀ c ∈ str, c ≠ 0)
    (last : Option ℕ) (k : ℕ) :
    ∃ st, strtokCalls (D ++ [0]) k (some 0) ⟨str ++ [0], last⟩ =
        some ((List.range k).map fun n => ((runs D str).map Prod.fst)[n]?, st) ∧
      st.buf = ((runs D str).take k).foldl (fun b r => b.set r.2 0) (str ++ [0]) :=
  strtokCalls_runs hD k str hs [] last

theorem strtok_returns_runs_a_b :
    (∀ c ∈ [ch ','], c ≠ 0) ∧ (∀ c ∈ [ch 'a', ch ',', ch 'b'], c ≠ 0) ∧
      ∃ st, strtokCalls ([ch ','] ++ [0]) 3 (some 0) ⟨[ch 'a', ch ',', ch 'b'] ++ [0], none⟩ =
          some ((List.range 3).map fun n => ((runs [ch ','] [ch 'a', ch ',', ch 'b']).map Prod.fst)[n]?, st) ∧
        st.buf = ((runs [ch ','] [ch 'a', ch ',', ch 'b']).take 3).foldl (fun b r => b.set r.2 0)
          ([ch 'a', ch ',', ch 'b'] ++ [0]) := by
  have hD : ∀ c ∈ [ch ','], c ≠ 0 := List.forall_mem_singleton.2 (by decide)
  have hs : ∀ c ∈ [ch 'a', ch ',', ch 'b'], c ≠ 0 :=
    List.forall_mem_cons.2 ⟨by decide, List.forall_mem_cons.2 ⟨by decide, List.forall_mem_singleton.2 (by decide)⟩⟩
  exact ⟨hD, hs, strtok_returns_runs _ _ hD hs none 3⟩

end HellfireOS.Strtok
