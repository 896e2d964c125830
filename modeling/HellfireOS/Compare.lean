import HellfireOS.Word

set_option autoImplicit false

/-!
# `strcmp`, `strncmp` and `memcmp`

A string is read from the storage that holds it: the list of its bytes from the pointer
on. A read beyond the storage is undefined and makes the routine `none`, so a routine
that returns `some` on the storage cut just after a string's NUL, or after its first `n`
bytes, reads nothing beyond it. `strcmp` and `strncmp` subtract `int8_t` characters
promoted to `int32_t`; `memcmp` compares its bytes as `uint8_t`.
-/
namespace HellfireOS.Compare
open HellfireOS.Word

def promote (c : Byte) : BitVec 32 := c.signExtend 32

/-- `while (*s1 == *s2++) if (*s1++ == '\0') return 0; return *s1 - *--s2;` -/
def strcmp : List Byte → List Byte → Option (BitVec 32)
  | a :: s1, b :: s2 =>
    if a = b then (if a = 0 then some 0 else strcmp s1 s2) else some (promote a - promote b)
  | _, _ => none

/-- `while (--n >= 0 && *s1 == *s2++) if (*s1++ == '\0') return 0;
return (n<0 ? 0 : *s1 - *--s2);` The count is decremented before anything is read. -/
def strncmp : List Byte → List Byte → BitVec 32 → Option (BitVec 32)
  | a :: s1, b :: s2, n =>
    if (n - 1).toInt < 0 then some 0
    else if a = b then (if a = 0 then some 0 else strncmp s1 s2 (n - 1))
    else some (promote a - promote b)
  | _, _, n => if (n - 1).toInt < 0 then some 0 else none

/-- `memcmp`'s loop with `n` left: `while (n && (*r1 == *r2)) { ++r1; ++r2; --n; }`, then
`(n == 0) ? 0 : ((*r1 < *r2) ? -1 : 1)` on `uint8_t`. -/
def memcmpLoop : ℕ → List Byte → List Byte → Option (BitVec 32)
  | 0, _, _ => some 0
  | n + 1, a :: r1, b :: r2 => if a = b then memcmpLoop n r1 r2 else some (if a < b then -1 else 1)
  | _ + 1, _, _ => none

def memcmp (cs ct : List Byte) (n : BitVec 32) : Option (BitVec 32) := memcmpLoop n.toNat cs ct

theorem byte_toInt_bounds (c : Byte) : -128 ≤ c.toInt ∧ c.toInt < 128 := by
  have := c.isLt
  rw [BitVec.toInt_eq_toNat_cond]
  split <;> omega

@[simp] theorem promote_toInt (c : Byte) : (promote c).toInt = c.toInt := by
  have := byte_toInt_bounds c
  rw [promote, BitVec.signExtend, BitVec.toInt_ofInt]
  exact bmod_of_range (by omega) (by omega)

theorem promote_sub_toInt (a b : Byte) : (promote a - promote b).toInt = a.toInt - b.toInt := by
  have := byte_toInt_bounds a
  have := byte_toInt_bounds b
  rw [BitVec.toInt_sub, promote_toInt, promote_toInt]
  exact bmod_of_range (by omega) (by omega)

theorem promote_sub_eq_zero {a b : Byte} : promote a - promote b = 0 ↔ a = b := by
  rw [← BitVec.toInt_inj, promote_sub_toInt, ← BitVec.toInt_inj, show (0 : BitVec 32).toInt = 0 from rfl]
  omega

theorem strcmp_cons_self {a : Byte} (ha : a ≠ 0) (s1 s2 : List Byte) :
    strcmp (a :: s1) (a :: s2) = strcmp s1 s2 := by
  rw [strcmp, if_pos rfl, if_neg ha]

theorem strcmp_cons_ne {a b : Byte} (hab : a ≠ b) (s1 s2 : List Byte) :
    strcmp (a :: s1) (b :: s2) = some (promote a - promote b) := by
  rw [strcmp, if_neg hab]

theorem strcmp_append (p : List Byte) (hp : ∀ c ∈ p, c ≠ 0) (l1 l2 : List Byte) :
    strcmp (p ++ l1) (p ++ l2) = strcmp l1 l2 := by
  induction p with
  | nil => rfl
  | cons c p ih =>
    rw [List.forall_mem_cons] at hp
    rw [List.cons_append, List.cons_append, strcmp_cons_self hp.1, ih hp.2]

theorem strcmp_terminated (s1 s2 : List Byte) (h1 : ∀ c ∈ s1, c ≠ 0) (h2 : ∀ c ∈ s2, c ≠ 0) :
    ∃ r, strcmp (s1 ++ [0]) (s2 ++ [0]) = some r ∧ (r = 0 ↔ s1 = s2) := by
  induction s1 generalizing s2 with
  | nil =>
    cases s2 with
    | nil => exact ⟨0, rfl, iff_of_true rfl rfl⟩
    | cons b s2 =>
      have hb : (0 : Byte) ≠ b := (h2 b (List.mem_cons_self _ _)).symm
      exact ⟨_, strcmp_cons_ne hb _ _, iff_of_false (mt promote_sub_eq_zero.1 hb) (List.cons_ne_nil _ _).symm⟩
  | cons a s1 ih =>
    rw [List.forall_mem_cons] at h1
    cases s2 with
    | nil =>
      exact ⟨_, strcmp_cons_ne h1.1 _ _,
        iff_of_false (mt promote_sub_eq_zero.1 h1.1) (List.cons_ne_nil _ _)⟩
    | cons b s2 =>
      rw [List.forall_mem_cons] at h2
      by_cases hab : a = b
      · subst hab
        obtain ⟨r, hr, hiff⟩ := ih s2 h1.2 h2.2
        rw [List.cons_append, List.cons_append, strcmp_cons_self h1.1, hr]
        exact ⟨r, rfl, hiff.trans (List.cons_eq_cons.trans (and_iff_right rfl)).symm⟩
      · exact ⟨_, strcmp_cons_ne hab _ _,
          iff_of_false (mt promote_sub_eq_zero.1 hab) fun h => hab (List.cons_eq_cons.1 h).1⟩

/-- `strcmp` compares characters as `int8_t`: at `"\x80"` against `"\x01"` it is negative,
where `memcmp` over the first byte, comparing `uint8_t`, is positive. -/
theorem strcmp_signed_high_byte :
    strcmp [0x80, 0] [0x01, 0] = some (-129) ∧ memcmp [0x80, 0] [0x01, 0] 1 = some 1 ∧
      (-129 : BitVec 32).toInt < 0 ∧ 0 < (1 : BitVec 32).toInt := by
  decide

theorem memcmpLoop_append (p : List Byte) (n : ℕ) (l1 l2 : List Byte) :
    memcmpLoop (p.length + n) (p ++ l1) (p ++ l2) = memcmpLoop n l1 l2 := by
  induction p with
  | nil => rw [List.length_nil, Nat.zero_add]; rfl
  | cons c p ih =>
    rw [List.length_cons, Nat.add_right_comm, List.cons_append, List.cons_append, memcmpLoop,
      if_pos rfl, ih]

/-- At the first difference `a ≠ b` of two strings, `strcmp` and `memcmp` agree in sign
exactly when `a` and `b` are both below `0x80` or both at or above it. -/
theorem strcmp_memcmp_sign_iff (p t1 t2 : List Byte) (a b : Byte) (hp : ∀ c ∈ p, c ≠ 0)
    (hab : a ≠ b) (hlen : p.length + 1 < 2 ^ 32) :
    ∃ r m, strcmp (p ++ a :: t1) (p ++ b :: t2) = some r ∧
      memcmp (p ++ a :: t1) (p ++ b :: t2) (BitVec.ofNat 32 (p.length + 1)) = some m ∧
      ((r.toInt < 0 ↔ m.toInt < 0) ↔ (a.toNat < 128 ↔ b.toNat < 128)) := by
  refine ⟨_, if a < b then -1 else 1, by rw [strcmp_append p hp, strcmp_cons_ne hab], ?_, ?_⟩
  · rw [memcmp, BitVec.toNat_ofNat, Nat.mod_eq_of_lt hlen, memcmpLoop_append, memcmpLoop, if_neg hab]
  · have hne : a.toNat ≠ b.toNat := fun h => hab (BitVec.eq_of_toNat_eq h)
    have ha := a.isLt
    have hb := b.isLt
    rw [promote_sub_toInt, BitVec.toInt_eq_toNat_cond a, BitVec.toInt_eq_toNat_cond b]
    by_cases hlt : a < b
    · rw [if_pos hlt, show (-1 : BitVec 32).toInt = -1 from rfl]
      rw [BitVec.lt_def] at hlt
      split <;> split <;> omega
    · rw [if_neg hlt, show (1 : BitVec 32).toInt = 1 from rfl]
      rw [BitVec.lt_def] at hlt
      split <;> split <;> omega

theorem strcmp_memcmp_sign_iff_high_byte :
    (∀ c ∈ ([] : List Byte), c ≠ 0) ∧ (0x80 : Byte) ≠ 0x01 ∧ ([] : List Byte).length + 1 < 2 ^ 32 ∧
      ∃ r m, strcmp ([] ++ 0x80 :: [0]) ([] ++ 0x01 :: [0]) = some r ∧
        memcmp ([] ++ 0x80 :: [0]) ([] ++ 0x01 :: [0]) (BitVec.ofNat 32 (([] : List Byte).length + 1)) =
          some m ∧ ((r.toInt < 0 ↔ m.toInt < 0) ↔ ((0x80 : Byte).toNat < 128 ↔ (0x01 : Byte).toNat < 128)) :=
  ⟨List.forall_mem_nil _, by decide, by decide,
    strcmp_memcmp_sign_iff [] [0] [0] 0x80 0x01 (List.forall_mem_nil _) (by decide) (by decide)⟩

theorem strncmp_of_le_one {n : BitVec 32} (hn : (n - 1).toInt < 0) (s1 s2 : List Byte) :
    strncmp s1 s2 n = some 0 := by
  unfold strncmp
  split <;> rw [if_pos hn]

theorem strncmp_cons {n : BitVec 32} (hn : 0 ≤ (n - 1).toInt) (a b : Byte) (s1 s2 : List Byte) :
    strncmp (a :: s1) (b :: s2) n =
      if a = b then (if a = 0 then some 0 else strncmp s1 s2 (n - 1)) else some (promote a - promote b) := by
  rw [strncmp, if_neg (by omega)]

theorem strncmp_take (s1 s2 : List Byte) (h1 : ∀ c ∈ s1, c ≠ 0) (h2 : ∀ c ∈ s2, c ≠ 0)
    (n : BitVec 32) (hn : 0 ≤ n.toInt) (e1 e2 : List Byte) :
    strncmp ((s1 ++ [0]).take n.toNat ++ e1) ((s2 ++ [0]).take n.toNat ++ e2) n =
      strcmp (s1.take n.toNat ++ [0]) (s2.take n.toNat ++ [0]) := by
  obtain ⟨m, hm⟩ : ∃ m, n.toNat = m := ⟨_, rfl⟩
  rw [hm]
  induction m generalizing s1 s2 n with
  | zero =>
    exact strncmp_of_le_one (sub_one_toInt_neg hm) _ _
  | succ m ih =>
    obtain ⟨hn', hm'⟩ := sub_one_of_toNat hn hm
    cases s1 with
    | nil =>
      cases s2 with
      | nil =>
        simp only [List.nil_append, List.cons_append, List.take_succ_cons, List.take_nil]
        rw [strncmp_cons hn', if_pos rfl, if_pos rfl]
        rfl
      | cons b s2 =>
        have hb : (0 : Byte) ≠ b := (h2 b (List.mem_cons_self _ _)).symm
        simp only [List.nil_append, List.cons_append, List.take_succ_cons, List.take_nil]
        rw [strncmp_cons hn', if_neg hb, strcmp_cons_ne hb]
    | cons a s1 =>
      rw [List.forall_mem_cons] at h1
      cases s2 with
      | nil =>
        simp only [List.nil_append, List.cons_append, List.take_succ_cons, List.take_nil]
        rw [strncmp_cons hn', if_neg h1.1, strcmp_cons_ne h1.1]
      | cons b s2 =>
        rw [List.forall_mem_cons] at h2
        simp only [List.cons_append, List.take_succ_cons]
        rw [strncmp_cons hn']
        by_cases hab : a = b
        · subst hab
          rw [if_pos rfl, if_neg h1.1, strcmp_cons_self h1.1]
          exact ih s1 s2 h1.2 h2.2 (n - 1) hn' hm'
        · rw [if_neg hab, strcmp_cons_ne hab]

/-- `strncmp(s1, s2, n)` with `n ≥ 0` reads at most the first `n` bytes of each string and
nothing past a NUL: whatever the storages hold after them, it is `strcmp` on the two
strings cut after `n` characters, so it is `0` exactly when those prefixes are equal. -/
theorem strncmp_prefixes (s1 s2 : List Byte) (h1 : ∀ c ∈ s1, c ≠ 0) (h2 : ∀ c ∈ s2, c ≠ 0)
    (n : BitVec 32) (hn : 0 ≤ n.toInt) :
    ∃ r, strcmp (s1.take n.toNat ++ [0]) (s2.take n.toNat ++ [0]) = some r ∧
      (r = 0 ↔ s1.take n.toNat = s2.take n.toNat) ∧
      ∀ e1 e2, strncmp ((s1 ++ [0]).take n.toNat ++ e1) ((s2 ++ [0]).take n.toNat ++ e2) n = some r := by
  obtain ⟨r, hr, hiff⟩ := strcmp_terminated _ _ (fun c hc => h1 c (List.mem_of_mem_take hc))
    (fun c hc => h2 c (List.mem_of_mem_take hc))
  exact ⟨r, hr, hiff, fun e1 e2 => (strncmp_take s1 s2 h1 h2 n hn e1 e2).trans hr⟩

theorem strncmp_prefixes_one :
    (∀ c ∈ ([0x61, 0x62] : List Byte), c ≠ 0) ∧ (∀ c ∈ ([0x61, 0x63] : List Byte), c ≠ 0) ∧
      0 ≤ (1 : BitVec 32).toInt ∧
      ∃ r, strcmp (([0x61, 0x62] : List Byte).take (1 : BitVec 32).toNat ++ [0])
          (([0x61, 0x63] : List Byte).take (1 : BitVec 32).toNat ++ [0]) = some r ∧
        (r = 0 ↔ ([0x61, 0x62] : List Byte).take (1 : BitVec 32).toNat =
          ([0x61, 0x63] : List Byte).take (1 : BitVec 32).toNat) ∧
        ∀ e1 e2, strncmp ((([0x61, 0x62] : List Byte) ++ [0]).take (1 : BitVec 32).toNat ++ e1)
          ((([0x61, 0x63] : List Byte) ++ [0]).take (1 : BitVec 32).toNat ++ e2) 1 = some r := by
  have h1 : ∀ c ∈ ([0x61, 0x62] : List Byte), c ≠ 0 :=
    List.forall_mem_cons.2 ⟨by decide, List.forall_mem_singleton.2 (by decide)⟩
  have h2 : ∀ c ∈ ([0x61, 0x63] : List Byte), c ≠ 0 :=
    List.forall_mem_cons.2 ⟨by decide, List.forall_mem_singleton.2 (by decide)⟩
  exact ⟨h1, h2, by decide, strncmp_prefixes _ _ h1 h2 1 (by decide)⟩

end HellfireOS.Compare
