import Mathlib.Data.List.Basic

set_option autoImplicit false

/-!
# The kernel's bounded FIFO queue

The queue primitives (`hf_queue_create`, `hf_queue_count`, `hf_queue_addtail`,
`hf_queue_remhead`) are not in the sources; they are modelled from the spec's bounded
FIFO: a fixed capacity, `addtail` fails when the queue is full and `remhead` fails when
it is empty. The count bound is a field, so a queue over its capacity cannot be built.
-/
namespace HellfireOS

/-- Modelled from the spec: a queue of at most `capacity` elements, head first. -/
structure Queue (α : Type) where
  capacity : ℕ
  items : List α
  count_le : items.length ≤ capacity

namespace Queue

variable {α : Type}

/-- Modelled from the spec: `hf_queue_create(capacity)`, an empty queue. -/
def create (capacity : ℕ) : Queue α := ⟨capacity, [], Nat.zero_le _⟩

/-- Modelled from the spec: `hf_queue_count(q)`. -/
def count (q : Queue α) : ℕ := q.items.length

/-- Modelled from the spec: `hf_queue_addtail(q, x)` appends `x`, or fails on a full queue. -/
def addtail (q : Queue α) (x : α) : Option (Queue α) :=
  if h : q.items.length < q.capacity then
    some ⟨q.capacity, q.items ++ [x], by rw [List.length_append, List.length_singleton]; omega⟩
  else none

/-- Modelled from the spec: `hf_queue_remhead(q)` returns the head and the rest, or fails on
an empty queue. -/
def remhead : Queue α → Option (α × Queue α)
  | ⟨_, [], _⟩ => none
  | ⟨c, x :: xs, h⟩ => some (x, ⟨c, xs, Nat.le_of_succ_le h⟩)

@[simp] theorem create_items (c : ℕ) : (create c : Queue α).items = [] := rfl

@[simp] theorem create_capacity (c : ℕ) : (create c : Queue α).capacity = c := rfl

theorem addtail_eq_some {q q' : Queue α} {x : α} (h : q.addtail x = some q') :
    q.items.length < q.capacity ∧ q'.items = q.items ++ [x] ∧ q'.capacity = q.capacity := by
  unfold addtail at h
  split at h
  · cases h
    exact ⟨‹_›, rfl, rfl⟩
  · cases h

theorem addtail_of_lt (q : Queue α) (x : α) (h : q.items.length < q.capacity) :
    ∃ q', q.addtail x = some q' := ⟨_, dif_pos h⟩

theorem addtail_eq_none {q : Queue α} {x : α} : q.addtail x = none ↔ q.capacity ≤ q.items.length := by
  unfold addtail
  split <;> simp <;> omega

theorem remhead_eq_some {q q' : Queue α} {x : α} :
    q.remhead = some (x, q') ↔ q.items = x :: q'.items ∧ q'.capacity = q.capacity := by
  obtain ⟨c, _ | ⟨y, ys⟩, h⟩ := q <;> obtain ⟨c', ys', h'⟩ := q'
  · simp [remhead]
  · simp only [remhead, Option.some.injEq, Prod.mk.injEq, mk.injEq, List.cons.injEq]
    tauto

theorem remhead_of_cons {q : Queue α} {x : α} {xs : List α} (h : q.items = x :: xs) :
    ∃ q', q.remhead = some (x, q') ∧ q'.items = xs ∧ q'.capacity = q.capacity := by
  have hlen := q.count_le
  rw [h, List.length_cons] at hlen
  exact ⟨⟨q.capacity, xs, Nat.le_of_succ_le hlen⟩, remhead_eq_some.2 ⟨h, rfl⟩, rfl, rfl⟩

theorem remhead_eq_none {q : Queue α} : q.remhead = none ↔ q.count = 0 := by
  obtain ⟨c, _ | ⟨y, ys⟩, h⟩ := q <;> simp [remhead, count]

theorem remhead_addtail_create (c : ℕ) (x : α) (h : 0 < c) :
    ((create c).addtail x).bind remhead = some (x, create c) := by
  simp [create, addtail, h, remhead]

theorem addtail_after_remhead {q q' : Queue α} {x : α} (h : q.remhead = some (x, q')) (y : α) :
    ∃ q'', q'.addtail y = some q'' ∧ q''.items = q'.items ++ [y] ∧ q''.capacity = q.capacity := by
  obtain ⟨hq, hc⟩ := remhead_eq_some.1 h
  have hlen := q.count_le
  rw [hq, List.length_cons, ← hc] at hlen
  obtain ⟨q'', hq''⟩ := addtail_of_lt q' y hlen
  obtain ⟨-, hi, hc'⟩ := addtail_eq_some hq''
  exact ⟨q'', hq'', hi, hc'.trans hc⟩

end Queue

end HellfireOS
