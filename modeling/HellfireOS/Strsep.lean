import HellfireOS.Strtok
import Mathlib.Data.List.Basic

set_option autoImplicit false

/-!
# `strpbrk` and `strsep`

`strpbrk(str, set)` scans `str` up to its NUL for the first byte that is in `set`, testing
each byte against those of `set` up to its NUL, as `strtok` tests for a delimiter.
`strsep(pp, delim)` returns `*pp`. When a delimiter is left in the field, it overwrites the
first one with the NUL and moves `*pp` past it; otherwise it sets `*pp` to `NULL`, and a
call with `*pp` `NULL` returns `NULL`. Pointers are indices into the storage of the string
being split.

`split D s` is what a whole sequence of calls is for: the pieces of `s` between the bytes in
`D`, empty ones included, as `List.splitOnP` cuts them.
-/
namespace HellfireOS.Strsep
open HellfireOS.Word HellfireOS.Memory HellfireOS.Strtok

/-- `strpbrk(str, set)` with `str` at index `i`: the index of the first byte before the NUL
that is in `set`, or `NULL`. -/
def strpbrk (set : List Byte) : List Byte → ℕ → Option (Option ℕ)
  | [], _ => none
  | c :: str, i =>
    if c = 0 then some none
    else do
      let d ← isDelim c set
      if d then some (some i) else strpbrk set str (i + 1)

structure SepState where
  buf : List Byte
  pp : Option ℕ

/-- `strsep(pp, delim)`: the field it returns, an index or `NULL`, and the state after the
call. -/
def strsep (delim : List Byte) (st : SepState) : Option (Option ℕ × SepState) :=
  match st.pp with
  | none => some (none, st)
  | some p => do
    let q ← strpbrk delim (st.buf.drop p) p
    match q with
    | some q =>
      let buf ← store st.buf q 0
      some (some p, ⟨buf, some (q + 1)⟩)
    | none => some (some p, ⟨st.buf, none⟩)

/-- `k` calls `strsep(&p, delim)`: what they return. -/
def strsepCalls (delim : List Byte) : ℕ → SepState → Option (List (Option ℕ) × SepState)
  | 0, st => some ([], st)
  | k + 1, st => do
    let (r, st) ← strsep delim st
    let (rs, st) ← strsepCalls delim k st
    some (r :: rs, st)

def split (D s : List Byte) : List (List Byte) := s.splitOnP fun c => decide (c ∈ D)

def cut (D s : List Byte) : List Byte := s.map fun c => if c ∈ D then 0 else c

example : split [ch ','] [ch 'a', ch ',', ch ',', ch 'b'] = [[ch 'a'], [], [ch 'b']] := by
  decide

theorem split_length (D s : List Byte) :
    (split D s).length = (s.filter fun c => decide (c ∈ D)).length + 1 := by
  induction s with
  | nil => rfl
  | cons c s ih =>
    unfold split at *
    rw [List.splitOnP_cons, List.filter_cons]
    split <;> simp [ih]

theorem split_append_delim (D a b : List Byte) {d : Byte} (hd : d ∈ D) :
    split D (a ++ d :: b) = split D a ++ split D b := by
  induction a with
  | nil => simp [split, List.splitOnP_nil, hd]
  | cons c a ih =>
    unfold split at *
    rw [List.cons_append, List.splitOnP_cons, List.splitOnP_cons, ih]
    split
    · rfl
    · obtain ⟨f, fs, hf⟩ := List.exists_cons_of_ne_nil (List.splitOnP_ne_nil (fun c => decide (c ∈ D)) a)
      rw [hf]
      rfl

theorem cut_of_forall_not_mem {D f : List Byte} (h : ∀ c ∈ f, c ∉ D) : cut D f = f :=
  (List.map_congr_left fun c hc => if_neg (h c hc)).trans (List.map_id f)

section
variable {D : List Byte} (hD : ∀ c ∈ D, c ≠ 0)
include hD

theorem strpbrk_spec (l : List Byte) (hl : ∀ c ∈ l, c ≠ 0) (i : ℕ) :
    ((∀ c ∈ l, c ∉ D) ∧ strpbrk (D ++ [0]) (l ++ [0]) i = some none) ∨
    ∃ f d r, l = f ++ d :: r ∧ (∀ c ∈ f, c ∉ D) ∧ d ∈ D ∧
      strpbrk (D ++ [0]) (l ++ [0]) i = some (some (i + f.length)) := by
  induction l generalizing i with
  | nil => exact .inl ⟨List.forall_mem_nil _, rfl⟩
  | cons c l ih =>
    rw [List.forall_mem_cons] at hl
    have hstep : strpbrk (D ++ [0]) ((c :: l) ++ [0]) i =
        if c ∈ D then some (some i) else strpbrk (D ++ [0]) (l ++ [0]) (i + 1) := by
      rw [List.cons_append, strpbrk, if_neg hl.1, isDelim_terminated hD]
      by_cases hc : c ∈ D <;> simp [hc]
    by_cases hc : c ∈ D
    · exact .inr ⟨[], c, l, rfl, List.forall_mem_nil _, hc, by rw [hstep, if_pos hc]; rfl⟩
    rw [hstep, if_neg hc, List.forall_mem_cons]
    rcases ih hl.2 (i + 1) with ⟨hn, hs⟩ | ⟨f, d, r, rfl, hf, hd, hs⟩
    · exact .inl ⟨⟨hc, hn⟩, hs⟩
    · refine .inr ⟨c :: f, d, r, rfl, List.forall_mem_cons.2 ⟨hc, hf⟩, hd, ?_⟩
      rw [hs, List.length_cons, Nat.add_assoc, Nat.add_comm 1]

theorem strsep_call (l : List Byte) (hl : ∀ c ∈ l, c ≠ 0) (B : List Byte) :
    ((∀ c ∈ l, c ∉ D) ∧
      strsep (D ++ [0]) ⟨B ++ (l ++ [0]), some B.length⟩ =
        some (some B.length, ⟨B ++ (l ++ [0]), none⟩)) ∨
    ∃ f d r, l = f ++ d :: r ∧ (∀ c ∈ f, c ∉ D) ∧ d ∈ D ∧
      strsep (D ++ [0]) ⟨B ++ (l ++ [0]), some B.length⟩ =
        some (some B.length, ⟨(B ++ f ++ [0]) ++ (r ++ [0]), some (B ++ f ++ [0]).length⟩) := by
  have hdrop : (B ++ (l ++ [0])).drop B.length = l ++ [0] := List.drop_left _ _
  rcases strpbrk_spec hD l hl B.length with ⟨hn, hs⟩ | ⟨f, d, r, rfl, hf, hd, hs⟩
  · exact .inl ⟨hn, by simp only [strsep, hdrop, hs, Option.bind_eq_bind, Option.some_bind]⟩
  · have hstore : store (B ++ (f ++ d :: r ++ [0])) (B.length + f.length) 0 =
        some ((B ++ f ++ [0]) ++ (r ++ [0])) := by
      rw [show B ++ (f ++ d :: r ++ [0]) = (B ++ f) ++ d :: (r ++ [0]) by simp,
        ← List.length_append, store_append]
      simp
    refine .inr ⟨f, d, r, rfl, hf, hd, ?_⟩
    simp only [strsep, hdrop, hs, Option.bind_eq_bind, Option.some_bind, hstore,
      List.length_append, List.length_singleton]

theorem strsepCalls_split (l : List Byte) (hl : ∀ c ∈ l, c ≠ 0) (B : List Byte) :
    ∃ starts : List ℕ,
      strsepCalls (D ++ [0]) ((split D l).length + 1) ⟨B ++ (l ++ [0]), some B.length⟩ =
        some (starts.map some ++ [none], ⟨B ++ (cut D l ++ [0]), none⟩) ∧
      List.Forall₂ (fun p f => ∃ rest, (B ++ (cut D l ++ [0])).drop p = f ++ 0 :: rest)
        starts (split D l) := by
  rcases strsep_call hD l hl B with ⟨hn, hc⟩ | ⟨f, d, r, hlr, hf, hd, hc⟩
  · have hsplit : split D l = [l] := List.splitOnP_eq_single _ _ fun c hc => by simpa using hn c hc
    refine ⟨[B.length], ?_, ?_⟩
    · rw [hsplit, cut_of_forall_not_mem hn]
      simp only [List.length_singleton, strsepCalls, hc, Option.bind_eq_bind, Option.some_bind]
      rfl
    · rw [hsplit, cut_of_forall_not_mem hn]
      exact List.Forall₂.cons ⟨[], by simp⟩ List.Forall₂.nil
  · have hr : ∀ c ∈ r, c ≠ 0 := fun c hc => hl c (by simp [hlr, hc])
    obtain ⟨starts, hrun, hfields⟩ := strsepCalls_split r hr (B ++ f ++ [0])
    subst hlr
    have hsplit : split D (f ++ d :: r) = f :: split D r :=
      List.splitOnP_first _ _ (fun c hc => by simpa using hf c hc) d (by simpa using hd) r
    have hcut : B ++ (cut D (f ++ d :: r) ++ [0]) = B ++ f ++ [0] ++ (cut D r ++ [0]) := by
      simp only [cut, List.map_append, List.map_cons, if_pos hd]
      rw [← cut, cut_of_forall_not_mem hf]
      simp
    refine ⟨B.length :: starts, ?_, ?_⟩
    · rw [hsplit, List.length_cons, strsepCalls, hc, hcut]
      simp only [Option.bind_eq_bind, Option.some_bind, hrun]
      rfl
    · rw [hsplit, hcut]
      refine List.Forall₂.cons ⟨cut D r ++ [0], by simp⟩ hfields
termination_by l.length
decreasing_by simp_wf; subst_vars; simp; omega

end

/-- `strsep(&p, D)`, repeated from `p = s` on a NUL-terminated string `s` and delimiter
string `D`, returns the starts of the fields of `s` between its delimiters, one call each,
and `NULL` from the call after the last field; `p` ends `NULL`. Each delimiter is
overwritten by the NUL, so that the C string at each start is its field. Two delimiters in
a row have an empty field between them, there is one field more than there are delimiters,
and the fields joined with the delimiters between them give `s` back. No call reads or
writes past the NUL of `s` or of `D`. -/
theorem strsep_fields (D s : List Byte) (hD : ∀ c ∈ D, c ≠ 0) (hs : ∀ c ∈ s, c ≠ 0) :
    (∃ starts : List ℕ,
      strsepCalls (D ++ [0]) ((split D s).length + 1) ⟨s ++ [0], some 0⟩ =
        some (starts.map some ++ [none], ⟨cut D s ++ [0], none⟩) ∧
      List.Forall₂ (fun p f => ∃ rest, (cut D s ++ [0]).drop p = f ++ 0 :: rest)
        starts (split D s)) ∧
    (∀ a b : List Byte, ∀ d e : Byte, s = a ++ d :: e :: b → d ∈ D → e ∈ D →
      split D s = split D a ++ [] :: split D b) ∧
    (split D s).length = (s.filter fun c => decide (c ∈ D)).length + 1 ∧
    (List.zipWith (· ++ ·) (split D s)
      ((s.filter fun c => decide (c ∈ D)).map (fun c => [c]) ++ [[]])).flatten = s := by
  refine ⟨strsepCalls_split hD s hs [], ?_, split_length D s, List.splitOnP_spec _ s⟩
  rintro a b d e rfl hd he
  rw [split_append_delim D a _ hd]
  simp [split, he]

theorem strsep_fields_a_b :
    (∀ c ∈ [ch ','], c ≠ 0) ∧ (∀ c ∈ [ch 'a', ch ',', ch 'b'], c ≠ 0) ∧
      ((∃ starts : List ℕ,
        strsepCalls ([ch ','] ++ [0]) ((split [ch ','] [ch 'a', ch ',', ch 'b']).length + 1)
            ⟨[ch 'a', ch ',', ch 'b'] ++ [0], some 0⟩ =
          some (starts.map some ++ [none], ⟨cut [ch ','] [ch 'a', ch ',', ch 'b'] ++ [0], none⟩) ∧
        List.Forall₂ (fun p f => ∃ rest, (cut [ch ','] [ch 'a', ch ',', ch 'b'] ++ [0]).drop p = f ++ 0 :: rest)
          starts (split [ch ','] [ch 'a', ch ',', ch 'b'])) ∧
      (∀ a b : List Byte, ∀ d e : Byte, [ch 'a', ch ',', ch 'b'] = a ++ d :: e :: b → d ∈ [ch ','] →
        e ∈ [ch ','] → split [ch ','] [ch 'a', ch ',', ch 'b'] = split [ch ','] a ++ [] :: split [ch ','] b) ∧
      (split [ch ','] [ch 'a', ch ',', ch 'b']).length =
        ([ch 'a', ch ',', ch 'b'].filter fun c => decide (c ∈ [ch ','])).length + 1 ∧
      (List.zipWith (· ++ ·) (split [ch ','] [ch 'a', ch ',', ch 'b'])
        (([ch 'a', ch ',', ch 'b'].filter fun c => decide (c ∈ [ch ','])).map (fun c => [c]) ++ [[]])).flatten =
        [ch 'a', ch ',', ch 'b']) := by
  have hD : ∀ c ∈ [ch ','], c ≠ 0 := List.forall_mem_singleton.2 (by decide)
  have hs : ∀ c ∈ [ch 'a', ch ',', ch 'b'], c ≠ 0 :=
    List.forall_mem_cons.2 ⟨by decide, List.forall_mem_cons.2 ⟨by decide, List.forall_mem_singleton.2 (by decide)⟩⟩
  exact ⟨hD, hs, strsep_fields _ _ hD hs⟩

end HellfireOS.Strsep
