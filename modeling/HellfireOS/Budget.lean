import Mathlib.Algebra.Order.BigOperators.Group.List
import Mathlib.Algebra.Ring.Int.Defs
import Mathlib.Data.List.Nodup

set_option autoImplicit false

/-!
# A budget lent to waiting work

What a polling server is for, stated without the machine: a budget of `capacity` units
lent to the waiting work in arrival order. A poll refills an exhausted budget, then
serves the head with as much as the budget allows and puts what is still owed back at
the tail. The ghost fields `spent`, `served` and `arrived` record the budget used since
the last refill and the work served and received over the whole run.

`Inv` is the budget's invariant: the fuel stays within the capacity, the fuel spent since
the last refill and the fuel left add up to the capacity, no task waits twice, and the
work owed plus the work served is the work that arrived.
-/
namespace HellfireOS

inductive Outcome where
  | yield
  | dispatch (id : ℕ)
deriving DecidableEq, Repr

structure Budget where
  fuel : ℤ
  spent : ℤ
  pending : List (ℕ × ℤ)
  served : ℤ
  arrived : ℤ

namespace Budget

def start (capacity : ℤ) : Budget := ⟨capacity, 0, [], 0, 0⟩

def refill (capacity : ℤ) (b : Budget) : Budget :=
  if b.fuel = 0 then ⟨capacity, 0, b.pending, b.served, b.arrived⟩ else b

def serve (b : Budget) : Budget × Outcome :=
  match b.pending with
  | [] => (b, .yield)
  | (id, work) :: rest =>
    let charge := min b.fuel work
    (⟨b.fuel - charge, b.spent + charge,
      if charge < work then rest ++ [(id, work - charge)] else rest,
      b.served + charge, b.arrived⟩, .dispatch id)

def poll (capacity : ℤ) (b : Budget) : Budget × Outcome := (b.refill capacity).serve

def arrive (bound id : ℕ) (work : ℤ) (b : Budget) : Budget :=
  if b.pending.length < bound then
    ⟨b.fuel, b.spent, b.pending ++ [(id, work)], b.served, b.arrived + work⟩
  else b

structure Inv (capacity : ℤ) (b : Budget) : Prop where
  fuel_nonneg : 0 ≤ b.fuel
  fuel_le : b.fuel ≤ capacity
  spent_add_fuel : b.spent + b.fuel = capacity
  work_nonneg : ∀ p ∈ b.pending, 0 ≤ p.2
  ids_nodup : (b.pending.map Prod.fst).Nodup
  conserved : (b.pending.map Prod.snd).sum + b.served = b.arrived

variable {capacity : ℤ} {b : Budget}

theorem start_inv (h : 0 ≤ capacity) : (start capacity).Inv capacity :=
  ⟨h, le_rfl, zero_add _, by simp [start], List.nodup_nil, by simp [start]⟩

@[simp] theorem refill_pending (b : Budget) : (b.refill capacity).pending = b.pending := by
  unfold refill; split <;> rfl

theorem refill_inv (h : 0 ≤ capacity) (hb : b.Inv capacity) : (b.refill capacity).Inv capacity := by
  unfold refill
  split
  · exact ⟨h, le_rfl, zero_add _, hb.work_nonneg, hb.ids_nodup, hb.conserved⟩
  · exact hb

theorem serve_nil (h : b.pending = []) : b.serve = (b, .yield) := by
  rw [serve, h]

theorem serve_cons {id : ℕ} {work : ℤ} {rest : List (ℕ × ℤ)} (h : b.pending = (id, work) :: rest) :
    b.serve = (⟨b.fuel - min b.fuel work, b.spent + min b.fuel work,
      if min b.fuel work < work then rest ++ [(id, work - min b.fuel work)] else rest,
      b.served + min b.fuel work, b.arrived⟩, .dispatch id) := by
  rw [serve, h]

theorem nodup_ids_append {rest : List (ℕ × ℤ)} {id : ℕ} {work : ℤ}
    (hid : id ∉ rest.map Prod.fst) (hnd : (rest.map Prod.fst).Nodup) :
    ((rest ++ [(id, work)]).map Prod.fst).Nodup := by
  rw [List.map_append, List.map_singleton]
  exact hnd.append (List.nodup_singleton id) (List.disjoint_singleton.2 hid)

theorem serve_inv (hb : b.Inv capacity) : b.serve.1.Inv capacity := by
  match h : b.pending with
  | [] => rw [serve, h]; exact hb
  | (id, work) :: rest =>
    have hwork := hb.work_nonneg
    have hnd := hb.ids_nodup
    have hsum := hb.conserved
    rw [h, List.forall_mem_cons] at hwork
    rw [h, List.map_cons, List.nodup_cons] at hnd
    rw [h, List.map_cons, List.sum_cons] at hsum
    have := hb.fuel_nonneg
    have := hb.fuel_le
    have := hb.spent_add_fuel
    have hw : 0 ≤ work := hwork.1
    rw [serve_cons h]
    refine ⟨?_, ?_, ?_, ?_, ?_, ?_⟩ <;> dsimp only
    · omega
    · omega
    · omega
    · split
      · exact List.forall_mem_append.2 ⟨hwork.2, List.forall_mem_singleton.2 (by dsimp only; omega)⟩
      · exact hwork.2
    · split
      · exact nodup_ids_append hnd.1 hnd.2
      · exact hnd.2
    · split
      · rw [List.map_append, List.sum_append, List.map_singleton, List.sum_singleton]
        omega
      · omega

theorem poll_inv (h : 0 ≤ capacity) (hb : b.Inv capacity) : (b.poll capacity).1.Inv capacity :=
  serve_inv (refill_inv h hb)

theorem arrive_inv (bound id : ℕ) {work : ℤ} (hid : id ∉ b.pending.map Prod.fst) (hw : 0 ≤ work)
    (hb : b.Inv capacity) : (b.arrive bound id work).Inv capacity := by
  unfold arrive
  split
  · refine ⟨hb.fuel_nonneg, hb.fuel_le, hb.spent_add_fuel,
      List.forall_mem_append.2 ⟨hb.work_nonneg, List.forall_mem_singleton.2 hw⟩,
      nodup_ids_append hid hb.ids_nodup, ?_⟩
    rw [List.map_append, List.sum_append, List.map_singleton, List.sum_singleton]
    have := hb.conserved
    dsimp only
    omega
  · exact hb

def backlog (b : Budget) : ℤ := (b.pending.map Prod.snd).sum + b.pending.length

@[simp] theorem backlog_refill (b : Budget) : backlog (b.refill capacity) = backlog b := by
  simp [backlog]

theorem work_sum_nonneg (hb : b.Inv capacity) : 0 ≤ (b.pending.map Prod.snd).sum :=
  List.sum_nonneg fun x hx => by
    obtain ⟨p, hp, rfl⟩ := List.mem_map.1 hx
    exact hb.work_nonneg p hp

theorem pending_eq_nil_of_backlog (hb : b.Inv capacity) (h : backlog b ≤ 0) : b.pending = [] := by
  have := work_sum_nonneg hb
  unfold backlog at h
  exact List.eq_nil_of_length_eq_zero (by omega)

theorem refill_fuel_pos (hC : 0 < capacity) (hb : b.Inv capacity) : 0 < (b.refill capacity).fuel := by
  unfold refill
  split
  · exact hC
  · exact lt_of_le_of_ne hb.fuel_nonneg (Ne.symm ‹_›)

theorem serve_backlog_lt (hb : b.Inv capacity) (hf : 0 < b.fuel) (hp : b.pending ≠ []) :
    backlog b.serve.1 < backlog b := by
  obtain ⟨⟨id, work⟩, rest, h⟩ := List.exists_cons_of_ne_nil hp
  have hw : 0 ≤ work := hb.work_nonneg _ (by rw [h]; exact List.mem_cons_self _ _)
  rw [serve_cons h]
  unfold backlog
  rw [h]
  dsimp only
  split
  · rw [List.map_append, List.sum_append, List.map_singleton, List.sum_singleton,
      List.length_append, List.length_singleton, List.map_cons, List.sum_cons, List.length_cons]
    push_cast
    omega
  · rw [List.map_cons, List.sum_cons, List.length_cons]
    push_cast
    omega

theorem poll_backlog_lt (hC : 0 < capacity) (hb : b.Inv capacity) (hp : b.pending ≠ []) :
    backlog (b.poll capacity).1 < backlog b := by
  have h := serve_backlog_lt (refill_inv hC.le hb) (refill_fuel_pos hC hb) (by rwa [refill_pending])
  rwa [backlog_refill] at h

theorem poll_of_nil (h : b.pending = []) : (b.poll capacity).1.pending = [] := by
  rw [poll, serve_nil (by rwa [refill_pending]), refill_pending, h]

end Budget

end HellfireOS
