import HellfireOS.Queue
import HellfireOS.Budget
import Mathlib.Logic.Function.Basic

set_option autoImplicit false

/-!
# The polling server

`polling_server_task` lends `SERVER_CAPACITY`, the capacity of the polling task, to the
aperiodic tasks waiting in `krnl_aperiodic_queue`. A pass of its loop refills the fuel
when it is exhausted, yields when the queue is empty, and otherwise takes the head
(`polling_server_scheduler`), charges it what the fuel allows, puts an entry it cannot
finish back at the tail, and switches into it.

The loop is modelled pass by pass over `int16_t` fuel and the `capacity` field of each
task's entry; aperiodic arrivals between passes are the other events of a run. A state
`Refines` the `Budget` it stands for, one pass is one `Budget.poll` (`iteration_refines`)
and one arrival one `Budget.arrive` (`arrive_refines`), so every invariant of a run is
proved on the budget and read back on the loop (`run_refines`).
-/
namespace HellfireOS.PollingServer

structure Server where
  serverFuel : BitVec 16
  queue : Queue ℕ
  capacity : ℕ → BitVec 16

def Server.start (serverCapacity : BitVec 16) (maxTasks : ℕ) : Server :=
  ⟨serverCapacity, Queue.create maxTasks, fun _ => 0⟩

/-- `if (server_fuel == 0) server_fuel = SERVER_CAPACITY;` at the loop head. -/
def refuel (serverCapacity serverFuel : BitVec 16) : BitVec 16 :=
  if serverFuel = 0 then serverCapacity else serverFuel

/-- Modelled from the spec: `polling_server_scheduler` is not in the sources; it removes
and returns the head of the aperiodic queue. -/
def pollingServerScheduler (q : Queue ℕ) : Option (ℕ × Queue ℕ) := q.remhead

/-- One pass of the loop of `polling_server_task`. `server_fuel >= next_aperiodic->capacity`
compares `int16_t`s; the result of `hf_queue_addtail` is not checked, so a failed
re-enqueue would drop the entry. -/
def pollingServerIteration (serverCapacity : BitVec 16) (s : Server) : Server × Outcome :=
  let serverFuel := refuel serverCapacity s.serverFuel
  if s.queue.count = 0 then (⟨serverFuel, s.queue, s.capacity⟩, .yield)
  else
    match pollingServerScheduler s.queue with
    -- not reached: the queue is not empty
    | none => (⟨serverFuel, s.queue, s.capacity⟩, .yield)
    | some (next, queue) =>
      if (s.capacity next).sle serverFuel then
        (⟨serverFuel - s.capacity next, queue, s.capacity⟩, .dispatch next)
      else
        let capacity := Function.update s.capacity next (s.capacity next - serverFuel)
        (⟨0, (queue.addtail next).getD queue, capacity⟩, .dispatch next)

/-- Modelled from the spec: an aperiodic task arrives with its `capacity` at the tail of
the queue, and is dropped when the queue is full. -/
def arrive (id : ℕ) (capacity : BitVec 16) (s : Server) : Server :=
  match s.queue.addtail id with
  | some queue => ⟨s.serverFuel, queue, Function.update s.capacity id capacity⟩
  | none => s

inductive Event where
  | poll
  | arrive (id : ℕ) (capacity : BitVec 16)

def serverRun (serverCapacity : BitVec 16) : List Event → Server → Server × List Outcome
  | [], s => (s, [])
  | .poll :: evs, s =>
    let r := pollingServerIteration serverCapacity s
    let t := serverRun serverCapacity evs r.1
    (t.1, r.2 :: t.2)
  | .arrive id c :: evs, s => serverRun serverCapacity evs (arrive id c s)

def Admissible (serverCapacity : BitVec 16) : List Event → Server → Prop
  | [], _ => True
  | .poll :: evs, s => Admissible serverCapacity evs (pollingServerIteration serverCapacity s).1
  | .arrive id c :: evs, s =>
    id ∉ s.queue.items ∧ 0 ≤ c.toInt ∧ Admissible serverCapacity evs (arrive id c s)

def budgetRun (capacity : ℤ) (bound : ℕ) : List Event → Budget → Budget × List Outcome
  | [], b => (b, [])
  | .poll :: evs, b =>
    let r := b.poll capacity
    let t := budgetRun capacity bound evs r.1
    (t.1, r.2 :: t.2)
  | .arrive id c :: evs, b => budgetRun capacity bound evs (b.arrive bound id c.toInt)

def Refines (bound : ℕ) (s : Server) (b : Budget) : Prop :=
  b.fuel = s.serverFuel.toInt ∧
    b.pending = s.queue.items.map (fun i => (i, (s.capacity i).toInt)) ∧ s.queue.capacity = bound

theorem toInt_bounds16 (a : BitVec 16) : -2 ^ 15 ≤ a.toInt ∧ a.toInt < 2 ^ 15 := by
  have := a.isLt
  rw [BitVec.toInt_eq_toNat_cond]
  split <;> omega

theorem toInt_sub_of_le (a b : BitVec 16) (h0 : 0 ≤ b.toInt) (h : b.toInt ≤ a.toInt) :
    (a - b).toInt = a.toInt - b.toInt := by
  have := toInt_bounds16 a
  rw [BitVec.toInt_sub, Int.bmod_def]
  split <;> omega

theorem eq_zero_iff_toInt (f : BitVec 16) : f = 0 ↔ f.toInt = 0 := by
  rw [← BitVec.toInt_inj]
  rfl

theorem refuel_toInt (serverCapacity f : BitVec 16) :
    (refuel serverCapacity f).toInt = if f.toInt = 0 then serverCapacity.toInt else f.toInt := by
  unfold refuel
  by_cases h : f = 0
  · rw [if_pos h, if_pos ((eq_zero_iff_toInt f).1 h)]
  · rw [if_neg h, if_neg (mt (eq_zero_iff_toInt f).2 h)]

theorem refuel_refuel (serverCapacity f : BitVec 16) :
    refuel serverCapacity (refuel serverCapacity f) = refuel serverCapacity f := by
  unfold refuel
  split_ifs <;> simp_all

section Pass

variable (serverCapacity : BitVec 16) (s : Server)

theorem iteration_of_nil (h : s.queue.items = []) :
    pollingServerIteration serverCapacity s =
      (⟨refuel serverCapacity s.serverFuel, s.queue, s.capacity⟩, .yield) := by
  simp [pollingServerIteration, Queue.count, h]

theorem iteration_of_remhead {next : ℕ} {q : Queue ℕ} (h : s.queue.remhead = some (next, q)) :
    pollingServerIteration serverCapacity s =
      if (s.capacity next).sle (refuel serverCapacity s.serverFuel) then
        (⟨refuel serverCapacity s.serverFuel - s.capacity next, q, s.capacity⟩, .dispatch next)
      else
        (⟨0, (q.addtail next).getD q, Function.update s.capacity next
          (s.capacity next - refuel serverCapacity s.serverFuel)⟩, .dispatch next) := by
  have hc : s.queue.count ≠ 0 := mt Queue.remhead_eq_none.2 (by rw [h]; exact Option.some_ne_none _)
  simp only [pollingServerIteration, pollingServerScheduler, if_neg hc, h]

theorem iteration_head {next : ℕ} {rest : List ℕ} (hq : s.queue.items = next :: rest)
    (hf : 0 ≤ (refuel serverCapacity s.serverFuel).toInt) (hw : 0 ≤ (s.capacity next).toInt) :
    let f := (refuel serverCapacity s.serverFuel).toInt
    let w := (s.capacity next).toInt
    let r := pollingServerIteration serverCapacity s
    r.2 = .dispatch next ∧ r.1.serverFuel.toInt = f - min f w ∧
      r.1.queue.items = (if f < w then rest ++ [next] else rest) ∧
      r.1.queue.capacity = s.queue.capacity ∧
      (f < w → (r.1.capacity next).toInt = w - f) ∧
      (∀ i, (i ≠ next ∨ w ≤ f) → r.1.capacity i = s.capacity i) := by
  obtain ⟨q, hr, hqi, hqc⟩ := Queue.remhead_of_cons hq
  rw [iteration_of_remhead serverCapacity s hr]
  by_cases hle : (s.capacity next).toInt ≤ (refuel serverCapacity s.serverFuel).toInt
  · rw [if_pos (show (s.capacity next).sle _ = true from decide_eq_true hle)]
    refine ⟨rfl, ?_, by rw [if_neg (by omega), hqi], hqc, fun h => absurd h (by omega),
      fun _ _ => rfl⟩
    dsimp only
    rw [toInt_sub_of_le _ _ hw hle]
    omega
  · rw [if_neg (by simpa [BitVec.sle] using hle)]
    obtain ⟨q', hq', hq'i, hq'c⟩ := Queue.addtail_after_remhead hr next
    rw [hq', Option.getD_some]
    refine ⟨rfl, ?_, by rw [if_pos (by omega), hq'i, hqi], hq'c, fun _ => ?_, ?_⟩
    · show (0 : BitVec 16).toInt = _
      rw [show (0 : BitVec 16).toInt = 0 from rfl]
      omega
    · dsimp only
      rw [Function.update_same, toInt_sub_of_le _ _ hf (by omega)]
    · rintro i (hi | hi)
      · exact Function.update_noteq hi _ _
      · omega

end Pass

section Refinement

variable {bound : ℕ} {s : Server} {b : Budget}

theorem ids_eq (hr : Refines bound s b) : b.pending.map Prod.fst = s.queue.items := by
  rw [hr.2.1, List.map_map]
  exact List.map_id _

theorem refill_refines (serverCapacity : BitVec 16) (hr : Refines bound s b) :
    (b.refill serverCapacity.toInt).fuel = (refuel serverCapacity s.serverFuel).toInt := by
  rw [refuel_toInt, ← hr.1, Budget.refill]
  by_cases h : b.fuel = 0 <;> simp [h]

theorem iteration_refines (serverCapacity : BitVec 16) (hC : 0 ≤ serverCapacity.toInt)
    (hr : Refines bound s b) (hb : b.Inv serverCapacity.toInt) :
    Refines bound (pollingServerIteration serverCapacity s).1 (b.poll serverCapacity.toInt).1 ∧
      (pollingServerIteration serverCapacity s).2 = (b.poll serverCapacity.toInt).2 := by
  have hfuel := refill_refines serverCapacity hr
  have hf : 0 ≤ (refuel serverCapacity s.serverFuel).toInt :=
    hfuel ▸ (Budget.refill_inv hC hb).fuel_nonneg
  unfold Budget.poll
  match hq : s.queue.items with
  | [] =>
    have hp : (b.refill serverCapacity.toInt).pending = [] := by
      rw [Budget.refill_pending, hr.2.1, hq, List.map_nil]
    rw [iteration_of_nil serverCapacity s hq, Budget.serve_nil hp]
    refine ⟨⟨hfuel, ?_, hr.2.2⟩, rfl⟩
    dsimp only
    rw [Budget.refill_pending, hr.2.1]
  | next :: rest =>
    have hw : 0 ≤ (s.capacity next).toInt :=
      hb.work_nonneg (next, _) (by rw [hr.2.1, hq]; exact List.mem_cons_self _ _)
    have hnd : s.queue.items.Nodup := ids_eq hr ▸ hb.ids_nodup
    rw [hq, List.nodup_cons] at hnd
    have hp : (b.refill serverCapacity.toInt).pending =
        (next, (s.capacity next).toInt) :: rest.map (fun i => (i, (s.capacity i).toInt)) := by
      rw [Budget.refill_pending, hr.2.1, hq, List.map_cons]
    obtain ⟨ho, hfu, hqi, hqc, hcap, hframe⟩ := iteration_head serverCapacity s hq hf hw
    rw [Budget.serve_cons hp, hfuel]
    refine ⟨⟨hfu.symm, ?_, hqc.trans hr.2.2⟩, ho⟩
    dsimp only
    rw [hqi]
    by_cases hlt : (refuel serverCapacity s.serverFuel).toInt < (s.capacity next).toInt
    · rw [if_pos (by omega), if_pos hlt, List.map_append, List.map_singleton, hcap hlt,
        min_eq_left hlt.le]
      exact congrArg (· ++ _) (List.map_congr_left fun i hi =>
        by rw [hframe i (.inl (ne_of_mem_of_not_mem hi hnd.1))])
    · rw [if_neg (by omega), if_neg hlt]
      exact List.map_congr_left fun i _ => by rw [hframe i (.inr (by omega))]

theorem arrive_refines (id : ℕ) (c : BitVec 16) (hid : id ∉ s.queue.items)
    (hr : Refines bound s b) : Refines bound (arrive id c s) (b.arrive bound id c.toInt) := by
  have hlen : b.pending.length = s.queue.items.length := by rw [hr.2.1, List.length_map]
  unfold arrive Budget.arrive
  match h : s.queue.addtail id with
  | some q =>
    obtain ⟨hlt, hqi, hqc⟩ := Queue.addtail_eq_some h
    rw [if_pos (by rw [hlen, ← hr.2.2]; exact hlt)]
    refine ⟨hr.1, ?_, hqc.trans hr.2.2⟩
    dsimp only
    rw [hqi, List.map_append, List.map_singleton, Function.update_same, hr.2.1]
    exact congrArg (· ++ _) (List.map_congr_left fun i hi =>
      by rw [Function.update_noteq (ne_of_mem_of_not_mem hi hid)])
  | none =>
    rw [if_neg (by rw [hlen, ← hr.2.2]; exact not_lt.2 (Queue.addtail_eq_none.1 h))]
    exact hr

theorem run_refines (serverCapacity : BitVec 16) (hC : 0 ≤ serverCapacity.toInt) (bound : ℕ) :
    ∀ (evs : List Event) (s : Server) (b : Budget), Admissible serverCapacity evs s →
      Refines bound s b → b.Inv serverCapacity.toInt →
      Refines bound (serverRun serverCapacity evs s).1
          (budgetRun serverCapacity.toInt bound evs b).1 ∧
        (budgetRun serverCapacity.toInt bound evs b).1.Inv serverCapacity.toInt ∧
        (serverRun serverCapacity evs s).2 = (budgetRun serverCapacity.toInt bound evs b).2
  | [], _, _, _, hr, hb => ⟨hr, hb, rfl⟩
  | .poll :: evs, s, b, ha, hr, hb => by
    obtain ⟨hr', ho⟩ := iteration_refines serverCapacity hC hr hb
    obtain ⟨hr'', hb'', ho''⟩ :=
      run_refines serverCapacity hC bound evs _ _ ha hr' (Budget.poll_inv hC hb)
    exact ⟨hr'', hb'', by simp only [serverRun, budgetRun, ho, ho'']⟩
  | .arrive id c :: evs, s, b, ⟨hid, hc, ha⟩, hr, hb =>
    run_refines serverCapacity hC bound evs _ _ ha (arrive_refines id c hid hr)
      (Budget.arrive_inv bound id (ids_eq hr ▸ hid) hc hb)

end Refinement

/-- For every run whose arrivals are of tasks not already waiting with capacities `≥ 0`,
and `SERVER_CAPACITY > 0`: the fuel stays within `[0, SERVER_CAPACITY]` and adds up with
what the budget spent since the last refill to `SERVER_CAPACITY`; no task waits twice,
and the work waiting plus the work served is the work that arrived. The next pass
charges the head `min f w` for fuel `f` and capacity `w`, puts it back at the tail, with
its capacity less the charge and still `> 0`, exactly when `f < w`, and changes no other
entry. -/
theorem polling_server_accounting (serverCapacity : BitVec 16) (maxTasks : ℕ)
    (hC : 0 < serverCapacity.toInt) (evs : List Event)
    (h : Admissible serverCapacity evs (Server.start serverCapacity maxTasks)) :
    let s := (serverRun serverCapacity evs (Server.start serverCapacity maxTasks)).1
    let b := (budgetRun serverCapacity.toInt maxTasks evs (Budget.start serverCapacity.toInt)).1
    0 ≤ s.serverFuel.toInt ∧ s.serverFuel.toInt ≤ serverCapacity.toInt ∧
      b.spent + s.serverFuel.toInt = serverCapacity.toInt ∧
      b.pending = s.queue.items.map (fun i => (i, (s.capacity i).toInt)) ∧
      s.queue.items.Nodup ∧ (b.pending.map Prod.snd).sum + b.served = b.arrived ∧
      ∀ next rest, s.queue.items = next :: rest →
        let f := (refuel serverCapacity s.serverFuel).toInt
        let w := (s.capacity next).toInt
        let r := pollingServerIteration serverCapacity s
        r.2 = .dispatch next ∧ r.1.serverFuel.toInt = f - min f w ∧
          r.1.queue.items = (if f < w then rest ++ [next] else rest) ∧
          (f < w → 0 < (r.1.capacity next).toInt ∧ (r.1.capacity next).toInt = w - min f w) ∧
          ∀ i, (i ≠ next ∨ w ≤ f) → r.1.capacity i = s.capacity i := by
  intro s b
  obtain ⟨hr, hb, -⟩ : Refines maxTasks s b ∧ b.Inv serverCapacity.toInt ∧ _ :=
    run_refines serverCapacity hC.le maxTasks evs _ _ h ⟨rfl, rfl, rfl⟩ (Budget.start_inv hC.le)
  have hfuel := hb.fuel_nonneg
  rw [hr.1] at hfuel
  refine ⟨hfuel, hr.1 ▸ hb.fuel_le, hr.1 ▸ hb.spent_add_fuel, hr.2.1, ids_eq hr ▸ hb.ids_nodup,
    hb.conserved, fun next rest hq => ?_⟩
  have hf : 0 ≤ (refuel serverCapacity s.serverFuel).toInt := by
    rw [refuel_toInt]
    split <;> omega
  have hw : 0 ≤ (s.capacity next).toInt :=
    hb.work_nonneg (next, _) (by rw [hr.2.1, hq]; exact List.mem_cons_self _ _)
  obtain ⟨ho, hfu, hqi, -, hcap, hframe⟩ := iteration_head serverCapacity s hq hf hw
  exact ⟨ho, hfu, hqi, fun hlt => have := hcap hlt; ⟨by omega, by omega⟩, hframe⟩

theorem polling_server_accounting_two :
    0 < (6 : BitVec 16).toInt ∧ Admissible 6 [.arrive 1 2, .poll] (Server.start 6 4) ∧
      0 ≤ (serverRun 6 [.arrive 1 2, .poll] (Server.start 6 4)).1.serverFuel.toInt := by
  have h : Admissible 6 [.arrive 1 2, .poll] (Server.start 6 4) := by
    simp only [Admissible]
    exact ⟨List.not_mem_nil 1, by decide, trivial⟩
  exact ⟨by decide, h, (polling_server_accounting 6 4 (by decide) _ h).1⟩

theorem iteration_yield_fuel (serverCapacity : BitVec 16) (s : Server)
    (h : (pollingServerIteration serverCapacity s).2 = .yield) :
    (pollingServerIteration serverCapacity s).1.serverFuel = refuel serverCapacity s.serverFuel := by
  match hq : s.queue.items with
  | [] => rw [iteration_of_nil serverCapacity s hq]
  | next :: rest =>
    obtain ⟨q, hr, -⟩ := Queue.remhead_of_cons hq
    rw [iteration_of_remhead serverCapacity s hr] at h
    split at h <;> cases h

theorem arrive_serverFuel (id : ℕ) (c : BitVec 16) (s : Server) :
    (arrive id c s).serverFuel = s.serverFuel := by
  unfold arrive
  split <;> rfl

/-- An empty poll keeps the fuel: over any stretch of the loop whose passes all find the
queue empty, the fuel the next pass starts from does not change, so a pass that serves
after it starts from the fuel left before it, and from `SERVER_CAPACITY` only when that
was exhausted. -/
theorem refuel_after_empty_polls (serverCapacity : BitVec 16) :
    ∀ (evs : List Event) (s : Server), (∀ o ∈ (serverRun serverCapacity evs s).2, o = .yield) →
      refuel serverCapacity (serverRun serverCapacity evs s).1.serverFuel =
        refuel serverCapacity s.serverFuel
  | [], _, _ => rfl
  | .poll :: evs, s, h => by
    simp only [serverRun, List.forall_mem_cons] at h
    simp only [serverRun]
    rw [refuel_after_empty_polls serverCapacity evs _ h.2, iteration_yield_fuel serverCapacity s h.1,
      refuel_refuel]
  | .arrive id c :: evs, s, h => by
    rw [serverRun, refuel_after_empty_polls serverCapacity evs _ h, arrive_serverFuel]

theorem refuel_after_empty_polls_four :
    (∀ o ∈ (serverRun 6 [.poll, .poll] ⟨4, Queue.create 4, fun _ => 0⟩).2, o = .yield) ∧
      refuel 6 (serverRun 6 [.poll, .poll] ⟨4, Queue.create 4, fun _ => 0⟩).1.serverFuel =
        refuel 6 4 :=
  ⟨by decide, refuel_after_empty_polls 6 _ _ (by decide)⟩

theorem empty_poll_keeps_leftover :
    (serverRun 6 [.arrive 1 2, .poll, .poll, .arrive 2 5] (Server.start 6 4)).2 =
        [.dispatch 1, .yield] ∧
      refuel 6 (serverRun 6 [.arrive 1 2, .poll, .poll, .arrive 2 5]
        (Server.start 6 4)).1.serverFuel = 4 ∧
      (serverRun 6 [.arrive 1 2, .poll, .poll, .arrive 2 5, .poll]
        (Server.start 6 4)).1.queue.items = [2] ∧
      (serverRun 6 [.arrive 1 2, .poll, .poll, .arrive 2 5, .poll]
        (Server.start 6 4)).1.capacity 2 = 1 := by
  decide

theorem serverRun_append (serverCapacity : BitVec 16) :
    ∀ (evs evs' : List Event) (s : Server),
      (serverRun serverCapacity (evs ++ evs') s).1 =
        (serverRun serverCapacity evs' (serverRun serverCapacity evs s).1).1
  | [], _, _ => rfl
  | .poll :: evs, evs', _ => serverRun_append serverCapacity evs evs' _
  | .arrive _ _ :: evs, evs', _ => serverRun_append serverCapacity evs evs' _

theorem budgetRun_append (capacity : ℤ) (bound : ℕ) :
    ∀ (evs evs' : List Event) (b : Budget),
      (budgetRun capacity bound (evs ++ evs') b).1 =
        (budgetRun capacity bound evs' (budgetRun capacity bound evs b).1).1
  | [], _, _ => rfl
  | .poll :: evs, evs', _ => budgetRun_append capacity bound evs evs' _
  | .arrive _ _ :: evs, evs', _ => budgetRun_append capacity bound evs evs' _

theorem admissible_append (serverCapacity : BitVec 16) :
    ∀ (evs evs' : List Event) (s : Server), Admissible serverCapacity evs s →
      Admissible serverCapacity evs' (serverRun serverCapacity evs s).1 →
      Admissible serverCapacity (evs ++ evs') s
  | [], _, _, _, h' => h'
  | .poll :: evs, evs', _, h, h' => admissible_append serverCapacity evs evs' _ h h'
  | .arrive _ _ :: evs, evs', _, ⟨hid, hc, h⟩, h' =>
    ⟨hid, hc, admissible_append serverCapacity evs evs' _ h h'⟩

theorem admissible_polls (serverCapacity : BitVec 16) :
    ∀ (n : ℕ) (s : Server), Admissible serverCapacity (List.replicate n .poll) s
  | 0, _ => trivial
  | n + 1, _ => admissible_polls serverCapacity n _

theorem budgetRun_polls_drain (capacity : ℤ) (hC : 0 < capacity) (bound : ℕ) :
    ∀ (n : ℕ) (b : Budget), b.Inv capacity → b.backlog ≤ n →
      (budgetRun capacity bound (List.replicate n .poll) b).1.pending = []
  | 0, _, hb, hn => Budget.pending_eq_nil_of_backlog hb (by exact_mod_cast hn)
  | n + 1, b, hb, hn => by
    refine budgetRun_polls_drain capacity hC bound n _ (Budget.poll_inv hC.le hb) ?_
    by_cases hp : b.pending = []
    · rw [Budget.backlog, Budget.poll_of_nil hp, List.map_nil, List.sum_nil, List.length_nil]
      omega
    · have := Budget.poll_backlog_lt hC hb hp
      push_cast at hn
      omega

/-- With `SERVER_CAPACITY > 0`, once arrivals stop every waiting task is served to
completion: from any state a run reaches, as many passes as the capacity still owed plus
the number of waiting tasks empty the aperiodic queue, every pass of the run dispatches as
the budget that charges each waiting task its whole capacity, and that budget has then
served all the work that arrived. -/
theorem polling_server_drains (serverCapacity : BitVec 16) (maxTasks : ℕ)
    (hC : 0 < serverCapacity.toInt) (evs : List Event)
    (h : Admissible serverCapacity evs (Server.start serverCapacity maxTasks)) (n : ℕ)
    (hn : let s := (serverRun serverCapacity evs (Server.start serverCapacity maxTasks)).1
      (s.queue.items.map (fun i => (s.capacity i).toInt)).sum + s.queue.items.length ≤ n) :
    (let r := serverRun serverCapacity (evs ++ List.replicate n .poll)
        (Server.start serverCapacity maxTasks)
     let b := budgetRun serverCapacity.toInt maxTasks (evs ++ List.replicate n .poll)
        (Budget.start serverCapacity.toInt)
     r.1.queue.items = [] ∧ r.2 = b.2 ∧ b.1.served = b.1.arrived) := by
  obtain ⟨hr, hb, -⟩ :=
    run_refines serverCapacity hC.le maxTasks evs _ _ h ⟨rfl, rfl, rfl⟩ (Budget.start_inv hC.le)
  have hback : Budget.backlog (budgetRun serverCapacity.toInt maxTasks evs
      (Budget.start serverCapacity.toInt)).1 ≤ n := by
    rw [Budget.backlog, hr.2.1, List.map_map, List.length_map]
    exact hn
  obtain ⟨hr', hb', ho⟩ := run_refines serverCapacity hC.le maxTasks _ _ _
    (admissible_append serverCapacity _ _ _ h (admissible_polls serverCapacity n _))
    ⟨rfl, rfl, rfl⟩ (Budget.start_inv hC.le)
  have hnil : (budgetRun serverCapacity.toInt maxTasks (evs ++ List.replicate n .poll)
      (Budget.start serverCapacity.toInt)).1.pending = [] := by
    rw [budgetRun_append]
    exact budgetRun_polls_drain _ hC maxTasks n _ hb hback
  have hq := hr'.2.1
  have hw := hb'.conserved
  rw [hnil] at hq hw
  exact ⟨List.map_eq_nil_iff.1 hq.symm, ho, by simpa using hw⟩

theorem polling_server_drains_nine :
    0 < (6 : BitVec 16).toInt ∧
      Admissible 6 [.arrive 1 2, .arrive 2 5] (Server.start 6 4) ∧
      (let r := serverRun 6 ([.arrive 1 2, .arrive 2 5] ++ List.replicate 9 .poll)
          (Server.start 6 4)
       let b := budgetRun (6 : BitVec 16).toInt 4 ([.arrive 1 2, .arrive 2 5] ++ List.replicate 9 .poll)
          (Budget.start (6 : BitVec 16).toInt)
       r.1.queue.items = [] ∧ r.2 = b.2 ∧ b.1.served = b.1.arrived) := by
  have h : Admissible 6 [.arrive 1 2, .arrive 2 5] (Server.start 6 4) := by
    simp only [Admissible]
    exact ⟨List.not_mem_nil 1, by decide, by decide, by decide, trivial⟩
  exact ⟨by decide, h, polling_server_drains 6 4 (by decide) _ h 9 (by decide)⟩

end HellfireOS.PollingServer
