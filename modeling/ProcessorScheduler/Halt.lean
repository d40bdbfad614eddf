import ProcessorScheduler.Termination
import ProcessorScheduler.Countdown

/-!
# What the loop leaves when it ends

The loop of `__do_simulation` breaks when nothing is to run, the ready queue is empty and no
process is left to fork. Under FIFO and Round-Robin, with lifespans of at least one tick,
every process of the script has then exited or waits in the wait queue of a resource whose
owner is a process of the script in the same position: the processes left are deadlocked
(`fcfs_halt_deadlocked`). With `fcfs_loop_ends`, a run of FIFO or Round-Robin ends within
`roundBound script + 1` rounds in a fault, with every process exited, or in a deadlock.

Two facts carry the argument besides the invariants of the earlier modules: the round that
leaves the loop keeps every process in one list with nothing in the running slot
(`doRound_halt_placed`), and a process the script does not load never holds a resource
(`holding_unloaded`), so every owner is a process of the script.
-/

namespace ProcessorScheduler

open Sys

/-- An empty plan stays empty: a step takes only entries of the plan. -/
theorem Plan.Step.empty {x y : Plan} (step : x.Step y) (pending : x.toAcquire = [])
    (held : x.holding = []) : y.toAcquire = [] ∧ y.holding = [] := by
  have none : ∀ {taken : List ResourceSchedule}, (∀ e ∈ taken, e ∈ x.toAcquire ∧ e.at = x.age) →
      taken = [] := fun due =>
    List.eq_nil_iff_forall_not_mem.2 fun e he => by simpa [pending] using (due e he).1
  cases step with
  | idle => exact ⟨pending, held⟩
  | blocked sub due =>
    exact ⟨List.eq_nil_of_subset_nil (pending ▸ sub), by simp [held, none due]⟩
  | ran sub due =>
    exact ⟨List.eq_nil_of_subset_nil (pending ▸ sub), by simp [held, none due, countDown]⟩

section Runs

variable {sched : Scheduler} {nr : Nat} {script : List Descriptor} {s s' : Sys}

/-- A process the script does not load never holds a resource. -/
theorem holding_unloaded (lawful : sched.Lawful) (reach : Reachable sched (load nr script) s) {o : Nat}
    (unloaded : script.length ≤ o) : (s.procs o).resourcesHolding = [] := by
  suffices empty : (s.ledger.plan o).toAcquire = [] ∧ (s.ledger.plan o).holding = [] from empty.2
  induction reach with
  | init =>
    exact ⟨by simp [Ledger.plan, ledger, load, List.getElem?_eq_none unloaded, Process.blank],
      load_resourcesHolding⟩
  | next reach h ih =>
    exact (doRound_plan lawful (ownershipInv_of_reachable lawful reach) h o).empty ih.1 ih.2

/-- The state a run leaves the loop in is what a round leaves from a reachable state. -/
theorem Reachable.of_run_halt : ∀ {n : Nat} {s₀ : Sys}, run sched n s₀ = .ok (.halt s') →
    ∃ s, Reachable sched s₀ s ∧ doRound sched s = .ok (.halt s')
  | 0, _, h => by cases h
  | n + 1, s₀, h => by
    obtain ⟨o, h₁, h⟩ := bind_eq_ok.1 h
    cases o with
    | next s₁ =>
      obtain ⟨s, reach, halt⟩ := of_run_halt h
      exact ⟨s, .head h₁ reach, halt⟩
    | halt s₁ => cases h; exact ⟨s₀, .init, h₁⟩

/-- FIFO and Round-Robin: the round that leaves the loop keeps every process in one list,
with nothing in the running slot. -/
theorem doRound_halt_placed (lists : sched.FcfsLists) {n : Nat}
    (inv : Placed n s s.running.toList) (h : doRound sched s = .ok (.halt s')) : Placed n s' [] := by
  obtain ⟨r, s', hr, h₂, h⟩ := doRound_ok h
  obtain ⟨none, rfl, -, -⟩ := dispatch_halt h
  obtain ⟨k, pick⟩ := lists.2 hr
  have placed := (pick.retire_placed (t := { forkOnSchedule s with ticksCnt := k })
    (inv.forkOnSchedule.setTicksCnt k)).post h₂
  rwa [none] at placed

/-- FIFO and Round-Robin: when a round from a reachable state leaves the loop, every process
of the script that has not exited waits in a wait queue, and every resource with waiters is
held by a process of the script that has not exited either and waits in a wait queue too. -/
theorem doRound_halt_waits (lawful : sched.Lawful) (lists : sched.FcfsLists)
    (keeps : sched.KeepsReady) (life : ∀ d ∈ script, 1 ≤ d.lifespan)
    (reach : Reachable sched (load nr script) s) (h : doRound sched s = .ok (.halt s')) :
    (∀ p < script.length, (s'.procs p).status ≠ .exit → ∃ r < nr, p ∈ (s'.resources r).waitqueue) ∧
      ∀ r < nr, (s'.resources r).waitqueue ≠ [] → ∃ o < script.length,
        (s'.resources r).owner = some o ∧ (s'.procs o).status ≠ .exit ∧
          ∃ q < nr, o ∈ (s'.resources q).waitqueue := by
  have placed := doRound_halt_placed lists (placed_of_reachable lawful lists life reach) h
  obtain ⟨-, -, owned⟩ :=
    doRound_halt_owned lawful keeps (wakeable_of_reachable lawful lists.1 keeps reach) h
  obtain ⟨r₁, s₂, hr, h₂, h⟩ := doRound_ok h
  obtain ⟨-, rfl, empty, forks⟩ := dispatch_halt h
  have own := retirePrev_ownership lawful (ownershipInv_of_reachable lawful reach) hr h₂
  have led : s'.ledger = s.ledger := retirePrev_ledger_of_schedule lawful hr h₂
  -- a live process of the script is in no queue but a wait queue
  have waits : ∀ p < script.length, (s'.procs p).status ≠ .exit →
      ∃ r < nr, p ∈ (s'.resources r).waitqueue := fun p hp alive => by
    have once := placed.places p
    rw [if_pos ⟨hp, alive⟩] at once
    simp only [links, empty, forks, List.count_nil, zero_add, add_zero] at once
    obtain ⟨r, hr, mem⟩ := waitCount_pos.1 (by omega : 0 < s'.waitCount p)
    exact ⟨r, own.nrResources ▸ hr, mem⟩
  refine ⟨waits, fun r hr ne => ?_⟩
  have hr' : r < s'.nrResources := own.nrResources.symm ▸ hr
  obtain ⟨o, ho⟩ := Option.ne_none_iff_exists'.1 (owned r hr' ne)
  -- the owner holds an entry for `r`, so it is a live process of the script
  have holding : (s'.procs o).resourcesHolding ≠ [] := fun e => by
    simpa [Ledger.heldIds, ledger, e] using (own.owned.owner_iff r hr' o).1 ho
  have loaded : o < script.length := by
    by_contra! out
    exact holding ((congrArg (Ledger.holding · o) led).trans (holding_unloaded lawful reach out))
  have live : (s'.procs o).status ≠ .exit := fun e => holding (own.exited o e)
  exact ⟨o, loaded, ho, live, waits o loaded live⟩

end Runs

/-- For FIFO and Round-Robin and every script whose lifespans are at least one tick: when a
run leaves the loop, every process of the script that has not exited waits in the wait queue
of a resource held by a process of the script that has not exited either and waits in a wait
queue too. The processes left are deadlocked. -/
theorem fcfs_halt_deadlocked (maxPrio : Int) (pol : Policy) (fcfs : pol = .fifo ∨ pol = .rr)
    (nr : Nat) (script : List Descriptor) (life : ∀ d ∈ script, 1 ≤ d.lifespan) {fuel : Nat}
    {s' : Sys} (halt : run (pol.scheduler maxPrio) fuel (load nr script) = .ok (.halt s')) :
    ∀ p < script.length, (s'.procs p).status ≠ .exit →
      ∃ r < nr, p ∈ (s'.resources r).waitqueue ∧ ∃ o < script.length,
        (s'.resources r).owner = some o ∧ (s'.procs o).status ≠ .exit ∧
          ∃ q < nr, o ∈ (s'.resources q).waitqueue := by
  have lists : (pol.scheduler maxPrio).FcfsLists ∧ (pol.scheduler maxPrio).KeepsReady := by
    rcases fcfs with rfl | rfl
    exacts [⟨fifoScheduler_fcfsLists, fifoScheduler_keepsReady⟩,
      ⟨rrScheduler_fcfsLists, rrScheduler_keepsReady⟩]
  obtain ⟨s, reach, h⟩ := Reachable.of_run_halt halt
  obtain ⟨waits, owned⟩ := doRound_halt_waits (Policy.lawful maxPrio pol) lists.1 lists.2 life reach h
  intro p hp alive
  obtain ⟨r, hr, mem⟩ := waits p hp alive
  exact ⟨r, hr, mem, owned r hr (List.ne_nil_of_mem mem)⟩

/-- Round-Robin, two processes that take two resources in opposite orders: the run leaves the
loop after five rounds with neither process exited, each waiting for the other. -/
theorem rr_crossed_acquisitions_deadlock : ∃ s', run (Policy.rr.scheduler 0) 5
      (load 2 [⟨0, 3, 0, 0, [⟨0, 0, 3⟩, ⟨1, 1, 1⟩]⟩, ⟨1, 3, 0, 0, [⟨1, 0, 3⟩, ⟨0, 1, 1⟩]⟩]) =
        .ok (.halt s') ∧ (s'.procs 0).status ≠ .exit ∧ (s'.procs 1).status ≠ .exit ∧
      ∀ p < 2, (s'.procs p).status ≠ .exit →
      ∃ r < 2, p ∈ (s'.resources r).waitqueue ∧ ∃ o < 2,
        (s'.resources r).owner = some o ∧ (s'.procs o).status ≠ .exit ∧
          ∃ q < 2, o ∈ (s'.resources q).waitqueue := by
  refine ⟨_, rfl, by decide, by decide, ?_⟩
  exact fcfs_halt_deadlocked 0 .rr (.inr rfl) 2
    [⟨0, 3, 0, 0, [⟨0, 0, 3⟩, ⟨1, 1, 1⟩]⟩, ⟨1, 3, 0, 0, [⟨1, 0, 3⟩, ⟨0, 1, 1⟩]⟩] (by decide)
    (rfl : run _ 5 _ = _)

end ProcessorScheduler
