import ProcessorScheduler.Halt

/-!
# FIFO and Round-Robin never fault

Under FIFO and Round-Robin, take a script whose processes live at least one tick, and whose
`acquire` lines name a resource of the table, fall due at an age of at least `0`, last at
least one tick and end within the lifespan. Such a script never makes the simulation fail.
No round of any run fails an assertion, gives `list_add` a node that is still linked, uses
a freed record or reaches outside the resource table (`fcfs_run_never_faults`). The run leaves the loop within
`roundBound script + 1` rounds (`fcfs_run_halts`). The lists then stay as `Placed` has
them, with no check on them ever firing (`fcfs_lists_consistent`). Under Round-Robin, with
the fault branch of the dispatch law of `RoundRobin` gone, the process at position `k` of
the ready queue runs `k` rounds later, and the queue is no longer than the script
(`rr_bounded_wait`).

Each fault is ruled out by the invariant that bears on it.

* `Placed` rules out the faults on the lists and on freed records. The process in the slot
  is linked nowhere, so blocking it, or linking it back behind the head of the ready queue,
  finds its node free. The head waiter a release wakes is linked once, so it is free once it
  has left its wait queue. The process in the slot has not exited either.
* `OwnershipInv` puts every held id inside the table and makes the caller the owner of what
  it releases.
* The plan invariant of `Countdown` keeps every pending entry one of the script's, so inside
  the table too, and empties both plan lists by the end of the lifespan.

`doRound_error_exitPlan` puts the first two together for one round. What it leaves, the
checks of `__exit_process` on the plan lists, is `doRound_ne_exitPlan`.
-/

namespace ProcessorScheduler

open Sys

/-! ## Where the callbacks of FIFO and Round-Robin fail -/

section Callbacks

variable {s : Sys} {i : Int} {c : Nat} {e : Fault}

theorem resourceIndex_ne_error (hi : 0 ≤ i ∧ i < s.nrResources) : s.resourceIndex i ≠ .error e := by
  simp [resourceIndex, hi]

/-- `fcfs_acquire` fails only outside the table, or when the caller it blocks is still
linked. -/
theorem fcfsAcquire_error (h : fcfsAcquire i c s = .error e) :
    s.resourceIndex i = .error e ∨ s.Linked c := by
  rcases bind_eq_error.1 h with h | ⟨r, -, h⟩
  · exact .inl h
  · split at h
    · cases h
    · have block := bind_ok_eq_error.1 h
      unfold blockOn linkWaitTail at block
      split at block
      · exact .inr (linked_setStatus.1 ‹_›)
      · cases block

/-- `fcfs_release` fails only outside the table, on a resource the caller does not own, on
a head waiter that is not `PROCESS_WAIT`, or on a head waiter still linked once it has left
the wait queue. -/
theorem fcfsRelease_error (h : fcfsRelease i c s = .error e) :
    s.resourceIndex i = .error e ∨ ∃ r, s.resourceIndex i = .ok r ∧
      ((s.resources r).owner ≠ some c ∨ ∃ w rest, (s.resources r).waitqueue = w :: rest ∧
        ((s.procs w).status ≠ .wait ∨
          (((s.setOwner r none).unlinkWait r w).setStatus w .ready).Linked w)) := by
  rcases bind_eq_error.1 h with h | ⟨r, hr, h⟩
  · exact .inl h
  refine .inr ⟨r, hr, ?_⟩
  dsimp only at h
  split at h
  · exact .inl ‹_›
  have wait : ((s.setOwner r none).resources r).waitqueue = (s.resources r).waitqueue := by
    simp [setOwner]
  split at h
  · cases h
  · rename_i w rest head
    refine .inr ⟨w, rest, by rw [← wait]; exact head, ?_⟩
    split at h
    · exact .inl (by simpa [setOwner] using ‹_›)
    · unfold wake linkReadyTail at h
      split at h
      · exact .inr ‹_›
      · cases h

end Callbacks

/-- The head waiter of `r`, linked once, is linked nowhere once it has left the wait
queue. -/
theorem Placed.unlinkWait_head {n r w : Nat} {S rest : List Nat} {s : Sys} (inv : Placed n s S)
    (hr : r < s.nrResources) (head : (s.resources r).waitqueue = w :: rest) :
    ¬ (s.unlinkWait r w).Linked w := by
  have count := waitCount_setResource hr (fun x => { x with waitqueue := x.waitqueue.erase w }) w
  simp only [head, List.erase_cons_head, List.count_cons_self] at count
  have once := inv.links_le w
  rw [linked_iff_links]
  simp only [links, unlinkWait, setResource_forkqueue, setResource_readyqueue] at once ⊢
  omega

/-! ## The process in the slot -/

section Slot

variable {sched : Scheduler} {n c nr : Nat} {cur : Option Nat} {e : Fault}

/-- Under `fcfs_acquire`, the acquisitions of the process in the slot, all inside the table,
fail nowhere: each one is granted, and the process runs on, or refused, and it blocks. -/
theorem Running.acquireLoop_safe (fcfs : sched.Fcfs) {l : List ResourceSchedule} {x : Sys}
    (run : Running n c cur x) (young : (x.procs c).age < (x.procs c).lifespan)
    (ids : ∀ rs ∈ l, 0 ≤ rs.resourceId ∧ rs.resourceId < x.nrResources) :
    Spec (fun _ => False) (fun r : Bool × Sys => cond r.1
      (Running n c cur r.2 ∧ (r.2.procs c).age < (r.2.procs c).lifespan) (Blocked n c cur r.2))
      (acquireLoop sched c l x) := by
  refine (acquireLoop_spec (fun l y => (Running n c cur y ∧ (y.procs c).age < (y.procs c).lifespan) ∧
      ∀ rs ∈ l, 0 ≤ rs.resourceId ∧ rs.resourceId < y.nrResources) (Blocked n c cur)
    (fun _ ⟨hy, ids⟩ => ⟨hy, fun rs h => ids rs (.tail _ h)⟩)
    (fun {rs rest y} _ ⟨⟨run, young⟩, ids⟩ => ?_) ⟨⟨run, young⟩, ids⟩).mono fun ⟨b, _⟩ h => ?_
  · refine Spec.of_cases (fun ⟨b, y'⟩ h => ?_) fun e h => ?_
    · have post := (run.acquire fcfs young).post h
      cases b
      · exact post
      · obtain ⟨r, -, ⟨-, -, rfl⟩ | ⟨-, ⟨⟩, -⟩⟩ := fcfsAcquire_cases (fcfs.1 ▸ h)
        exact ⟨post, fun rs' h' => ids rs' (.tail _ h')⟩
    · rw [fcfs.1] at h
      rcases fcfsAcquire_error h with h | linked
      · exact resourceIndex_ne_error (ids rs (.head _)) h
      · exact run.placed.not_linked (List.mem_singleton_self c) linked
  · cases b
    exacts [h, h.1]

/-- Under `fcfs_release`, releasing a resource the process in the slot holds fails
nowhere. -/
theorem Running.release_ne_error (fcfs : sched.Fcfs) {x : Sys} (run : Running n c cur x)
    (own : OwnershipInv nr x) {rs : ResourceSchedule} (held : rs ∈ (x.procs c).resourcesHolding) :
    sched.release rs.resourceId c x ≠ .error e := by
  rw [fcfs.2]
  intro h
  rcases fcfsRelease_error h with h | ⟨r, idx, notMine | ⟨w, rest, head, notWait | linked⟩⟩
  · exact resourceIndex_ne_error (own.owned.inRange c _ (List.mem_map_of_mem _ held)) h
  · exact notMine (own.owner_of_held idx held)
  · exact notWait (run.placed.waiting r (resourceIndex_ok idx).2 w (by simp [head]))
  · exact run.placed.setOwner.unlinkWait_head (resourceIndex_ok idx).2
      (by simpa [setOwner] using head) (linked_setStatus.1 linked)

/-- Under `fcfs_release`, the releases of the process in the slot fail nowhere. -/
theorem Running.releaseLoop_ne_error (fcfs : sched.Fcfs) (lawful : sched.Lawful) :
    ∀ (kept l : List ResourceSchedule) (x : Sys), Running n c cur x → OwnershipInv nr x →
      (x.procs c).resourcesHolding = kept ++ l → releaseLoop sched c kept l x ≠ .error e
  | _, [], _, _, _, _ => by simp [releaseLoop]
  | kept, rs :: rest, x, run, own, split => by
    have alive : (x.procs c).status ≠ .exit := by rw [run.running]; decide
    unfold releaseLoop
    dsimp only
    split
    · intro h
      rcases bind_eq_error.1 h with h | ⟨x₁, h₁, h⟩
      · exact run.release_ne_error fcfs own (by simp [split]) h
      · exact releaseLoop_ne_error fcfs lawful kept rest (x₁.setHolding c (kept ++ rest))
          ((run.release fcfs).post h₁) (own.release alive split (lawful.release h₁)).1
          (by simp [Sys.setHolding]) h
    · exact releaseLoop_ne_error fcfs lawful _ rest _ run.setHolding
        (own.countDown alive (rs.duration - 1) split).1 (by simp [Sys.setHolding])

/-- Under `fcfs_acquire` and `fcfs_release`, running the process in the slot fails nowhere
when its pending entries are inside the table: it has not exited, it is linked nowhere, and
neither its acquisitions nor its releases fail. -/
theorem runCurrent_ne_error (fcfs : sched.Fcfs) (lawful : sched.Lawful) {s : Sys}
    (inv : Placed n s [c]) (young : (s.procs c).age < (s.procs c).lifespan)
    (own : OwnershipInv nr s)
    (ids : ∀ rs ∈ (s.procs c).resourcesToAcquire, 0 ≤ rs.resourceId ∧ rs.resourceId < nr) :
    runCurrent sched c s ≠ .error e := by
  have run : Running n c s.current (s.setStatus c .running) :=
    ⟨inv.setStatus_slot (List.mem_singleton_self c) (by decide) (by decide), by simp [setStatus], rfl⟩
  have acquire : Spec (fun _ => False) _ (runCurrentAcquire sched c (s.setStatus c .running)) :=
    run.acquireLoop_safe fcfs (by simpa [setStatus] using young) fun rs h => by
      simpa [setStatus, own.nrResources] using ids rs (by simpa [setStatus] using h)
  intro h
  rcases runCurrent_error h with ⟨-, exit⟩ | ⟨-, -, linked⟩ | ⟨-, -, h | ⟨s₁, h₁, h⟩⟩
  · have := inv.places c
    simp [exit] at this
  · exact inv.not_linked (List.mem_singleton_self c) linked
  · exact acquire.fault h
  · obtain ⟨run₁, young₁⟩ := acquire.post h₁
    exact (run₁.incAge young₁).releaseLoop_ne_error fcfs lawful [] _ (s₁.incAge c)
      (runCurrentAcquire_ownership lawful own h₁).1.incAge rfl h

end Slot

/-! ## A round -/

/-- `schedule()` fails only when it links a runnable `current` back at the tail of the ready
queue, behind the head it takes, while `current` is still linked. -/
def Scheduler.RelinkFault (sched : Scheduler) : Prop :=
  ∀ {s : Sys} {e : Fault}, sched.schedule s = .error e → ∃ c p rest, s.runnable = some c ∧
    s.readyqueue = p :: rest ∧ ({ s with readyqueue := rest } : Sys).Linked c

theorem fifoScheduler_relinkFault : fifoScheduler.RelinkFault := fun h => by
  change fifoSchedule _ = _ at h
  unfold fifoSchedule at h
  split at h <;> cases h

theorem rrScheduler_relinkFault : rrScheduler.RelinkFault := fun h => by
  change rrSchedule _ = _ at h
  dsimp only [rrSchedule] at h
  split at h
  · cases h
  split at h
  · split at h
    · cases h
    · have link := bind_ok_eq_error.1 h
      unfold linkReadyTail at link
      split at link
      · exact ⟨_, _, _, ‹_›, ‹_›, ‹_›⟩
      · cases link
  · cases h

section Round

variable {sched : Scheduler} {n nr : Nat} {s : Sys} {e : Fault}

/-- A round of FIFO or Round-Robin fails only on the checks of `__exit_process` on the plan
lists. This holds from a state with its lists placed, its ownership in order and every
pending entry inside the table. -/
theorem doRound_error_exitPlan (lawful : sched.Lawful) (lists : sched.FcfsLists)
    (relink : sched.RelinkFault) (inv : Placed n s s.running.toList) (own : OwnershipInv nr s)
    (ids : ∀ p, ∀ rs ∈ (s.procs p).resourcesToAcquire, 0 ≤ rs.resourceId ∧ rs.resourceId < nr)
    (h : doRound sched s = .error e) : e = .exitHolding ∨ e = .exitPending := by
  have placed := inv.forkOnSchedule
  rcases doRound_error h with h | ⟨r, hr, h | ⟨s₂, h₂, h⟩⟩
  · -- the pick: only Round-Robin links a process back, and its `current` is in no list
    obtain ⟨c, p, rest, hc, ready, linked⟩ := relink h
    obtain ⟨cur, notWait, -⟩ := runnable_eq_some.1 hc
    refine absurd ?_ (placed.not_linked (c := c) (by simp [running_eq_some.2 ⟨cur, notWait⟩]))
    rcases linked with h | h | h
    exacts [.inl (by rw [ready]; exact .tail p h), .inr (.inl h), .inr (.inr h)]
  · -- the retirement of `prev`
    obtain ⟨k, pick⟩ := lists.2 hr
    have onLists := (pick.retire (t := { forkOnSchedule s with ticksCnt := k })
      (placed.setTicksCnt k)).fault h
    cases hc : (forkOnSchedule s).current with
    | none => rw [hc] at h; cases h
    | some q =>
      rw [hc] at h
      obtain ⟨-, ⟨rfl, -⟩ | ⟨rfl, -⟩ | ⟨rfl, -⟩⟩ := retire_error h
      exacts [absurd trivial onLists, .inl rfl, .inr rfl]
  · -- the run of the dispatched process
    obtain ⟨k, pick⟩ := lists.2 hr
    obtain ⟨c, hc, h⟩ := dispatch_error h
    obtain ⟨placed₂, -, young⟩ := (pick.retire (t := { forkOnSchedule s with ticksCnt := k })
      (placed.setTicksCnt k)).post h₂
    rw [hc] at placed₂ young
    have pending : (s₂.procs c).resourcesToAcquire = (s.procs c).resourcesToAcquire :=
      congrArg (Ledger.toAcquire · c) (retirePrev_ledger_of_schedule lawful hr h₂)
    exact absurd h (runCurrent_ne_error lists.1 lawful placed₂ (young c rfl)
      (retirePrev_ownership lawful own hr h₂) fun rs mem => ids c rs (pending ▸ mem))

end Round

/-! ## Every run -/

/-- The fault a run stops with is the fault of a round from a reachable state. -/
theorem Reachable.of_run_error {sched : Scheduler} {e : Fault} :
    ∀ {n : Nat} {s₀ : Sys}, run sched n s₀ = .error e →
      ∃ s, Reachable sched s₀ s ∧ doRound sched s = .error e
  | 0, _, h => by cases h
  | n + 1, s₀, h => by
    rcases bind_eq_error.1 h with h₁ | ⟨o, h₁, h⟩
    · exact ⟨s₀, .init, h₁⟩
    · cases o with
      | next s₁ =>
        obtain ⟨s, reach, err⟩ := of_run_error h
        exact ⟨s, .head h₁ reach, err⟩
      | halt s₁ => cases h

section Runs

variable {maxPrio : Int} {pol : Policy} {nr : Nat} {script : List Descriptor}

/-- FIFO and Round-Robin, a script of the shape above: no round from a reachable state
fails. -/
theorem doRound_ne_error_of_reachable (fcfs : pol = .fifo ∨ pol = .rr)
    (life : ∀ d ∈ script, 1 ≤ d.lifespan)
    (wf : ∀ d ∈ script, ∀ x ∈ d.acquires, 0 ≤ x.resourceId ∧ x.resourceId < nr ∧ 0 ≤ x.at ∧
      1 ≤ x.duration ∧ x.at + x.duration ≤ d.lifespan)
    {s : Sys} (reach : Reachable (pol.scheduler maxPrio) (load nr script) s) (e : Fault) :
    doRound (pol.scheduler maxPrio) s ≠ .error e := by
  have lawful := Policy.lawful maxPrio pol
  have laws : (pol.scheduler maxPrio).FcfsLists ∧ (pol.scheduler maxPrio).RelinkFault := by
    rcases fcfs with rfl | rfl
    exacts [⟨fifoScheduler_fcfsLists, fifoScheduler_relinkFault⟩,
      ⟨rrScheduler_fcfsLists, rrScheduler_relinkFault⟩]
  have plan := planInv_of_reachable lawful
    (fun d hd x hx => ⟨(wf d hd x hx).2.2.1, (wf d hd x hx).2.2.2.1⟩) reach
  -- every pending entry is one of the script's
  have ids : ∀ p, ∀ rs ∈ (s.procs p).resourcesToAcquire,
      0 ≤ rs.resourceId ∧ rs.resourceId < nr := fun p rs mem => by
    obtain ⟨d, hd, loaded, -⟩ := load_toAcquire_mem ((plan p).pending rs mem).1
    exact ⟨(wf d hd rs loaded).1, (wf d hd rs loaded).2.1⟩
  have ends : ∀ p, ∀ x ∈ ((load nr script).ledger.plan p).toAcquire,
      x.at + x.duration ≤ ((load nr script).ledger.plan p).lifespan ∧ 1 ≤ x.duration :=
    fun p x hx => by
      obtain ⟨d, hd, hx, life⟩ := load_toAcquire_mem hx
      have lifespan : ((load nr script).ledger.plan p).lifespan = d.lifespan := life
      exact ⟨lifespan ▸ (wf d hd x hx).2.2.2.2, (wf d hd x hx).2.2.2.1⟩
  intro h
  exact doRound_ne_exitPlan lawful plan ends (doRound_error_exitPlan lawful laws.1 laws.2
    (placed_of_reachable lawful laws.1 life reach) (ownershipInv_of_reachable lawful reach) ids h) h

end Runs

/-- For FIFO and Round-Robin and every script of the shape above, in every reachable state:
a loaded process that has not exited is linked exactly once, or is `current` and linked
nowhere; only such processes are linked, none twice; the ready queue holds `ready`
processes and the wait queues `wait` ones; and the next round does not fail. So neither the
loop's check that the dispatched process is detached, nor `__exit_process`'s check that the
exiting process is detached, nor `fcfs_release`'s check that the woken waiter is
`PROCESS_WAIT` fires, and no `list_add` of the round is given a node that is still
linked. -/
theorem fcfs_lists_consistent (maxPrio : Int) (pol : Policy) (fcfs : pol = .fifo ∨ pol = .rr)
    (nr : Nat) (script : List Descriptor) (life : ∀ d ∈ script, 1 ≤ d.lifespan)
    (wf : ∀ d ∈ script, ∀ x ∈ d.acquires, 0 ≤ x.resourceId ∧ x.resourceId < nr ∧ 0 ≤ x.at ∧
      1 ≤ x.duration ∧ x.at + x.duration ≤ d.lifespan) {s : Sys}
    (reach : Reachable (pol.scheduler maxPrio) (load nr script) s) :
    (∀ p < script.length, (s.procs p).status ≠ .exit →
      s.links p = 1 ∨ s.current = some p ∧ s.links p = 0) ∧
    (∀ p, 0 < s.links p → p < script.length ∧ (s.procs p).status ≠ .exit) ∧
    (∀ p, s.links p ≤ 1) ∧
    (∀ p ∈ s.readyqueue, (s.procs p).status = .ready) ∧
    (∀ r < nr, ∀ p ∈ (s.resources r).waitqueue, (s.procs p).status = .wait) ∧
    ∀ e, doRound (pol.scheduler maxPrio) s ≠ .error e := by
  have lists : (pol.scheduler maxPrio).FcfsLists := by
    rcases fcfs with rfl | rfl
    exacts [fifoScheduler_fcfsLists, rrScheduler_fcfsLists]
  have lawful := Policy.lawful maxPrio pol
  have inv := placed_of_reachable lawful lists life reach
  refine ⟨fun p hp alive => ?_, fun p hp => ?_, inv.links_le, fun p hp => inv.ready p (.inr hp),
    fun r hr => inv.waiting r ((ownershipInv_of_reachable lawful reach).nrResources ▸ hr),
    doRound_ne_error_of_reachable fcfs life wf reach⟩
  · have places := inv.places p
    rw [if_pos ⟨hp, alive⟩] at places
    cases h : s.running with
    | none => simp only [h, Option.toList_none, List.count_nil, add_zero] at places; exact .inl places
    | some c =>
      simp only [h, Option.toList_some, List.count_singleton, beq_iff_eq] at places
      by_cases e : c = p
      · subst e
        exact .inr ⟨(running_eq_some.1 h).1, by simp at places; omega⟩
      · simp only [e, if_false, add_zero] at places; exact .inl places
  · have places := inv.places p
    split at places
    · rename_i loaded; exact loaded
    · omega

/-- Two Round-Robin processes after one round: process 0 runs and process 1 waits in the
ready queue, linked once. -/
theorem fcfs_lists_one_round : ∃ s,
    Reachable (Policy.rr.scheduler 0) (load 1 [⟨0, 2, 0, 0, []⟩, ⟨1, 2, 0, 0, []⟩]) s ∧
      s.current = some 0 ∧ s.links 1 = 1 := by
  have reach : Reachable (Policy.rr.scheduler 0) (load 1 [⟨0, 2, 0, 0, []⟩, ⟨1, 2, 0, 0, []⟩]) _ :=
    Reachable.of_run (n := 1) rfl
  have lists := fcfs_lists_consistent 0 .rr (.inr rfl) 1 _ (by decide) (by decide) reach
  refine ⟨_, reach, rfl, ?_⟩
  rcases lists.1 1 (by decide) (by decide) with once | ⟨cur, -⟩
  · exact once
  · cases cur

/-- For FIFO and Round-Robin and every script whose processes live at least one tick and
whose `acquire` lines name a resource of the table, fall due at an age of at least `0`, last
at least one tick and end within the lifespan: however many rounds it runs, the simulation
does not fail, on an assertion, on a list, on a freed record or outside the table. -/
theorem fcfs_run_never_faults (maxPrio : Int) (pol : Policy) (fcfs : pol = .fifo ∨ pol = .rr)
    (nr : Nat) (script : List Descriptor) (life : ∀ d ∈ script, 1 ≤ d.lifespan)
    (wf : ∀ d ∈ script, ∀ x ∈ d.acquires, 0 ≤ x.resourceId ∧ x.resourceId < nr ∧ 0 ≤ x.at ∧
      1 ≤ x.duration ∧ x.at + x.duration ≤ d.lifespan) (fuel : Nat) (e : Fault) :
    run (pol.scheduler maxPrio) fuel (load nr script) ≠ .error e := fun h => by
  obtain ⟨s, reach, h⟩ := Reachable.of_run_error h
  exact doRound_ne_error_of_reachable fcfs life wf reach e h

/-- Round-Robin, two processes that take two resources in opposite orders and deadlock: a
hundred rounds corrupt no list. -/
theorem rr_crossed_acquisitions_never_fault : run (Policy.rr.scheduler 0) 100
    (load 2 [⟨0, 3, 0, 0, [⟨0, 0, 3⟩, ⟨1, 1, 1⟩]⟩, ⟨1, 3, 0, 0, [⟨1, 0, 3⟩, ⟨0, 1, 1⟩]⟩]) ≠
      .error .listCorrupt :=
  fcfs_run_never_faults 0 .rr (.inr rfl) 2 _ (by decide) (by decide) 100 .listCorrupt

/-- For FIFO and Round-Robin and every script of the same shape, the run leaves the loop
within `roundBound script + 1` rounds, without a fault. -/
theorem fcfs_run_halts (maxPrio : Int) (pol : Policy) (fcfs : pol = .fifo ∨ pol = .rr)
    (nr : Nat) (script : List Descriptor) (life : ∀ d ∈ script, 1 ≤ d.lifespan)
    (wf : ∀ d ∈ script, ∀ x ∈ d.acquires, 0 ≤ x.resourceId ∧ x.resourceId < nr ∧ 0 ≤ x.at ∧
      1 ≤ x.duration ∧ x.at + x.duration ≤ d.lifespan) {fuel : Nat}
    (enough : roundBound script < fuel) :
    ∃ s, run (pol.scheduler maxPrio) fuel (load nr script) = .ok (.halt s) := by
  have laws := fcfs_laws maxPrio
    (show pol ∈ [Policy.fifo, .sjf, .srtf, .rr] by rcases fcfs with rfl | rfl <;> decide)
  rcases run_ends laws.1 (Policy.lawful maxPrio pol) laws.2.1 (Policy.keepsForks maxPrio pol)
    laws.2.2 bounded_load (lt_of_le_of_lt rank_load_le enough) with halt | ⟨e, h⟩
  · exact halt
  · obtain ⟨s, reach, h⟩ := Reachable.of_run_error h
    exact absurd h (doRound_ne_error_of_reachable fcfs life wf reach e)

/-- FIFO, three processes sharing one resource: the run leaves the loop within twenty
rounds. -/
theorem fifo_shared_resource_halts : roundBound [⟨0, 2, 0, 0, [⟨0, 0, 2⟩]⟩,
      ⟨1, 2, 0, 0, [⟨0, 0, 1⟩]⟩, ⟨2, 2, 0, 0, [⟨0, 0, 1⟩]⟩] = 19 ∧
    ∃ s, run (Policy.fifo.scheduler 0) 20 (load 1 [⟨0, 2, 0, 0, [⟨0, 0, 2⟩]⟩,
      ⟨1, 2, 0, 0, [⟨0, 0, 1⟩]⟩, ⟨2, 2, 0, 0, [⟨0, 0, 1⟩]⟩]) = .ok (.halt s) :=
  ⟨by decide, fcfs_run_halts 0 .fifo (.inl rfl) 1 _ (by decide) (by decide) (by decide)⟩

/-! ## Round-Robin bounds the wait -/

/-- Every process the ready queue holds is loaded and linked once, so the queue is no longer
than the script. -/
theorem Placed.readyqueue_length_le {n : Nat} {S : List Nat} {s : Sys} (inv : Placed n s S) :
    s.readyqueue.length ≤ n := by
  have once : ∀ p, s.readyqueue.count p ≤ s.links p := fun p => by simp only [links]; omega
  have inRange : s.readyqueue ⊆ List.range n := fun p mem => by
    have places := inv.places p
    have := List.count_pos_iff.2 mem
    split at places
    · exact List.mem_range.2 ‹_ ∧ _›.1
    · have := once p; omega
  have nodup := List.nodup_iff_count_le_one.2 fun p => (once p).trans (inv.links_le p)
  simpa using (List.subperm_of_subset nodup inRange).length_le

/-- Round-Robin and a script of the shape above, from every reachable state: the ready queue
after the round's fork step is no longer than the script, and the process at position `k`
of it is the one dispatched `k` rounds later, no round on the way failing. So a ready
process runs within as many rounds as the script has processes. -/
theorem rr_bounded_wait (nr : Nat) (script : List Descriptor)
    (life : ∀ d ∈ script, 1 ≤ d.lifespan)
    (wf : ∀ d ∈ script, ∀ x ∈ d.acquires, 0 ≤ x.resourceId ∧ x.resourceId < nr ∧ 0 ≤ x.at ∧
      1 ≤ x.duration ∧ x.at + x.duration ≤ d.lifespan)
    {s : Sys} (reach : Reachable rrScheduler (load nr script) s) :
    (forkOnSchedule s).readyqueue.length ≤ script.length ∧
      ∀ k (hk : k < (forkOnSchedule s).readyqueue.length),
        ∃ s', run rrScheduler (k + 1) s = .ok (.next s') ∧
          s'.current = some (forkOnSchedule s).readyqueue[k] := by
  have placed := (placed_of_reachable (Policy.lawful 0 .rr) rrScheduler_fcfsLists life
    reach).forkOnSchedule
  have safe : ∀ s₁, Reachable (Policy.rr.scheduler 0) (load nr script) s₁ → ∀ e,
      doRound (Policy.rr.scheduler 0) s₁ ≠ .error e :=
    fun _ => doRound_ne_error_of_reachable (.inr rfl) life wf
  refine ⟨placed.readyqueue_length_le, fun k hk => ?_⟩
  rcases rr_dispatch_position k (rr_clock_of_reachable reach) (List.prefix_refl _) hk with
    ⟨e, h⟩ | turn
  · obtain ⟨s₁, later, h⟩ := Reachable.of_run_error h
    exact absurd h (safe s₁ (reach.trans later) e)
  · exact turn

/-- Round-Robin, two processes that take two resources in opposite orders: the ready queue of
round 0 holds no more than the two of them, and process 1, second in it, runs in
round 1. -/
theorem rr_second_in_line_runs :
    (forkOnSchedule (load 2 [⟨0, 3, 0, 0, [⟨0, 0, 3⟩, ⟨1, 1, 1⟩]⟩,
        ⟨1, 3, 0, 0, [⟨1, 0, 3⟩, ⟨0, 1, 1⟩]⟩])).readyqueue.length ≤ 2 ∧
      ∃ s', run rrScheduler 2 (load 2 [⟨0, 3, 0, 0, [⟨0, 0, 3⟩, ⟨1, 1, 1⟩]⟩,
        ⟨1, 3, 0, 0, [⟨1, 0, 3⟩, ⟨0, 1, 1⟩]⟩]) = .ok (.next s') ∧ s'.current = some 1 :=
  have wait := rr_bounded_wait 2 [⟨0, 3, 0, 0, [⟨0, 0, 3⟩, ⟨1, 1, 1⟩]⟩,
    ⟨1, 3, 0, 0, [⟨1, 0, 3⟩, ⟨0, 1, 1⟩]⟩] (by decide) (by decide) .init
  ⟨wait.1, wait.2 1 (by decide)⟩

end ProcessorScheduler
