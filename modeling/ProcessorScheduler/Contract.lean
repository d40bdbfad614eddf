import ProcessorScheduler.Ledger

/-!
# What every policy guarantees

`Scheduler.Lawful` collects what the invariants of the later modules need of a policy:
its `schedule()` keeps the ledger and the statuses (`ScheduleFrame`), its acquire
callback at most hands a free resource to the caller (`AcquireStep`), its release
callback frees a resource the caller owned (`ReleaseStep`), and each callback can fail
only in its own ways. `Policy.lawful` checks this of all eight `struct scheduler`s.
-/

namespace ProcessorScheduler

open Sys

/-- The faults a callback can raise, as against the engine's own assertions. -/
def Fault.InCallback : Fault → Prop
  | .releaseNotOwner | .waiterNotWait | .listCorrupt | .nullDeref | .outOfBounds => True
  | _ => False

/-- What an acquire callback does to the ledger: the requested slot `r` is inside the
table, and either the resource was free and now belongs to the caller, or nothing in
the ledger changes. -/
def AcquireStep (resourceId : Int) (c : Nat) (s : Sys) (b : Bool) (s' : Sys) : Prop :=
  ∃ r, s.resourceIndex resourceId = .ok r ∧ NoNewExit s s' ∧
    if b then (s.resources r).owner = none ∧ s'.ledger = s.ledger.setOwner r (some c)
    else s'.ledger = s.ledger

/-- What a release callback does to the ledger: the released slot `r` belonged to the
caller and is now free; nothing else in the ledger changes. -/
def ReleaseStep (resourceId : Int) (c : Nat) (s s' : Sys) : Prop :=
  ∃ r, s.resourceIndex resourceId = .ok r ∧ (s.resources r).owner = some c ∧
    NoNewExit s s' ∧ s'.ledger = s.ledger.setOwner r none

/-- What a release callback can fail with: `releaseNotOwner` only when the caller does
not own the resource. -/
def ReleaseFault (resourceId : Int) (c : Nat) (s : Sys) (e : Fault) : Prop :=
  e.InCallback ∧
    (e = .releaseNotOwner → ∃ r, s.resourceIndex resourceId = .ok r ∧ (s.resources r).owner ≠ some c)

namespace Sys

variable {s s' : Sys} {p r c : Nat} {e : Fault}

theorem resourceIndex_ok {i : Int} (h : s.resourceIndex i = .ok r) :
    i = r ∧ r < s.nrResources := by
  unfold resourceIndex at h
  split at h
  · cases h; omega
  · cases h

theorem resourceIndex_fault {i : Int} (h : s.resourceIndex i = .error e) : e = .outOfBounds := by
  unfold resourceIndex at h; split at h <;> cases h; rfl

theorem linkReadyTail_fault (h : s.linkReadyTail p = .error e) : e = .listCorrupt := by
  unfold linkReadyTail at h; split at h <;> cases h; rfl

theorem linkReadyHead_fault (h : s.linkReadyHead p = .error e) : e = .listCorrupt := by
  unfold linkReadyHead at h; split at h <;> cases h; rfl

theorem linkWaitTail_fault (h : s.linkWaitTail r p = .error e) : e = .listCorrupt := by
  unfold linkWaitTail at h; split at h <;> cases h; rfl

theorem prioWakeup_fault (h : s.prioWakeup r = .error e) :
    e = .nullDeref ∨ e = .waiterNotWait ∨ e = .listCorrupt := by
  dsimp only [prioWakeup] at h
  split at h
  · cases h
  · split at h
    · cases h; simp
    · split at h
      · cases h; simp
      · simp [linkReadyTail_fault h]
end Sys

variable {s s' : Sys} {c : Nat} {resourceId : Int} {b : Bool} {e : Fault}

/-! ## Acquire callbacks -/

theorem fcfsAcquire_step (h : fcfsAcquire resourceId c s = .ok (b, s')) :
    AcquireStep resourceId c s b s' := by
  obtain ⟨r, hr, h⟩ := bind_eq_ok.1 h
  refine ⟨r, hr, ?_⟩
  split at h
  · cases h; exact ⟨.of_procs rfl, by simp_all⟩
  · obtain ⟨s₁, block, e⟩ := bind_ok_eq_ok.1 h
    cases e
    exact ⟨(blockOn_ledger block).2, (blockOn_ledger block).1⟩

theorem prioAcquire_step (h : prioAcquire resourceId c s = .ok (b, s')) :
    AcquireStep resourceId c s b s' := by
  obtain ⟨r, hr, h⟩ := bind_eq_ok.1 h
  refine ⟨r, hr, ?_⟩
  split at h
  · obtain ⟨s₁, link, e⟩ := bind_ok_eq_ok.1 h
    cases e
    have link := linkReadyTail_ledger link
    refine ⟨(noNewExit_setStatus (by decide)).trans (.of_procs link.2), ?_⟩
    simp_all
  · obtain ⟨s₁, block, e⟩ := bind_ok_eq_ok.1 h
    cases e
    exact ⟨(blockOn_ledger block).2, (blockOn_ledger block).1⟩

theorem pcpAcquire_step {maxPrio : Int} (h : pcpAcquire maxPrio resourceId c s = .ok (b, s')) :
    AcquireStep resourceId c s b s' := by
  obtain ⟨r, hr, h⟩ := bind_eq_ok.1 h
  refine ⟨r, hr, ?_⟩
  split at h
  · obtain ⟨s₁, link, e⟩ := bind_ok_eq_ok.1 h
    cases e
    have link := linkReadyTail_ledger link
    refine ⟨fun q hq => ?_, ?_⟩
    · rw [link.2] at hq
      by_cases e : q = c
      · subst e; simp [setStatus] at hq
      · simpa [setStatus, setOwner, e] using hq
    · simp_all [ledger_setProc]
  · obtain ⟨s₁, block, e⟩ := bind_ok_eq_ok.1 h
    cases e
    exact ⟨(blockOn_ledger block).2, (blockOn_ledger block).1⟩

theorem pipAcquire_step (h : pipAcquire resourceId c s = .ok (b, s')) :
    AcquireStep resourceId c s b s' := by
  obtain ⟨r, hr, h⟩ := bind_eq_ok.1 h
  refine ⟨r, hr, ?_⟩
  split at h
  · obtain ⟨s₁, link, e⟩ := bind_ok_eq_ok.1 h
    cases e
    have link := linkReadyTail_ledger link
    refine ⟨(noNewExit_setStatus (by decide)).trans (.of_procs link.2), ?_⟩
    simp_all
  · obtain ⟨s₁, block, e⟩ := bind_ok_eq_ok.1 h
    cases e
    have block := blockOn_ledger block
    split at block
    · exact ⟨(noNewExit_setProc id).trans block.2, block.1.trans (ledger_setProc rfl rfl rfl rfl)⟩
    · exact ⟨block.2, block.1⟩

/-- The shape every acquire callback has: a bounds check, then a branch on the owner. -/
theorem acquire_fault_of {f : Nat → Except Fault (Bool × Sys)}
    (h : (s.resourceIndex resourceId >>= f) = .error e)
    (branch : ∀ r, f r = .error e → e = .outOfBounds ∨ e = .listCorrupt) :
    e = .outOfBounds ∨ e = .listCorrupt := by
  rcases bind_eq_error.1 h with h | ⟨r, -, h⟩
  · exact .inl (resourceIndex_fault h)
  · exact branch r h

theorem fcfsAcquire_fault (h : fcfsAcquire resourceId c s = .error e) :
    e = .outOfBounds ∨ e = .listCorrupt := by
  refine acquire_fault_of h fun r h => ?_
  split at h
  · cases h
  · rcases bind_eq_error.1 h with h | ⟨_, _, h⟩
    · exact .inr (linkWaitTail_fault h)
    · cases h

theorem prioAcquire_fault (h : prioAcquire resourceId c s = .error e) :
    e = .outOfBounds ∨ e = .listCorrupt := by
  refine acquire_fault_of h fun r h => .inr ?_
  split at h
  · exact linkReadyTail_fault (bind_ok_eq_error.1 h)
  · exact linkWaitTail_fault (bind_ok_eq_error.1 h)

theorem pcpAcquire_fault {maxPrio : Int} (h : pcpAcquire maxPrio resourceId c s = .error e) :
    e = .outOfBounds ∨ e = .listCorrupt := by
  refine acquire_fault_of h fun r h => .inr ?_
  split at h
  · exact linkReadyTail_fault (bind_ok_eq_error.1 h)
  · exact linkWaitTail_fault (bind_ok_eq_error.1 h)

theorem pipAcquire_fault (h : pipAcquire resourceId c s = .error e) :
    e = .outOfBounds ∨ e = .listCorrupt := by
  refine acquire_fault_of h fun r h => .inr ?_
  split at h
  · exact linkReadyTail_fault (bind_ok_eq_error.1 h)
  · exact linkWaitTail_fault (bind_ok_eq_error.1 h)

/-! ## Release callbacks -/

theorem fcfsRelease_step (h : fcfsRelease resourceId c s = .ok s') :
    ReleaseStep resourceId c s s' := by
  obtain ⟨r, hr, h⟩ := bind_eq_ok.1 h
  dsimp only at h
  split at h
  · cases h
  · rename_i owner
    refine ⟨r, hr, not_not.1 owner, ?_⟩
    split at h
    · cases h; exact ⟨.of_procs rfl, ledger_setOwner _⟩
    · split at h
      · cases h
      · have wake := wake_ledger h
        exact ⟨(NoNewExit.of_procs rfl).trans wake.2, wake.1.trans (ledger_setOwner _)⟩

theorem prioRelease_step (h : prioRelease resourceId c s = .ok s') :
    ReleaseStep resourceId c s s' := by
  obtain ⟨r, hr, h⟩ := bind_eq_ok.1 h
  split at h
  · cases h
  · rename_i owner
    have wake := prioWakeup_ledger h
    exact ⟨r, hr, not_not.1 owner, (NoNewExit.of_procs rfl).trans wake.2,
      wake.1.trans (ledger_setOwner _)⟩

theorem pcpRelease_step (h : pcpRelease resourceId c s = .ok s') :
    ReleaseStep resourceId c s s' := by
  obtain ⟨r, hr, h⟩ := bind_eq_ok.1 h
  split at h
  · cases h
  · rename_i owner
    have wake := prioWakeup_ledger h
    have restore : NoNewExit s (s.setProc c fun p => { p with prio := p.prioOrig }) :=
      noNewExit_setProc id
    refine ⟨r, hr, not_not.1 owner, restore.trans ((NoNewExit.of_procs rfl).trans wake.2), ?_⟩
    rw [wake.1, ledger_setOwner, ledger_setProc rfl rfl rfl rfl]

theorem release_fault_of {f : Nat → Except Fault Sys}
    (h : (s.resourceIndex resourceId >>= fun r =>
      if (s.resources r).owner ≠ some c then .error .releaseNotOwner else f r) = .error e)
    (branch : ∀ r, f r = .error e → e.InCallback ∧ e ≠ .releaseNotOwner) :
    ReleaseFault resourceId c s e := by
  rcases bind_eq_error.1 h with h | ⟨r, hr, h⟩
  · cases resourceIndex_fault h; exact ⟨trivial, fun h => by cases h⟩
  · split at h
    · cases h; exact ⟨trivial, fun _ => ⟨r, hr, ‹_›⟩⟩
    · exact ⟨(branch r h).1, fun h' => absurd h' (branch r h).2⟩

theorem prioWakeup_fault' {r : Nat} (h : s.prioWakeup r = .error e) :
    e.InCallback ∧ e ≠ .releaseNotOwner := by
  rcases prioWakeup_fault h with rfl | rfl | rfl <;> exact ⟨trivial, by decide⟩

theorem fcfsRelease_fault (h : fcfsRelease resourceId c s = .error e) :
    ReleaseFault resourceId c s e := by
  refine release_fault_of h fun r h => ?_
  dsimp only at h
  split at h
  · cases h
  · split at h
    · cases h; exact ⟨trivial, by decide⟩
    · cases linkReadyTail_fault h; exact ⟨trivial, by decide⟩

theorem prioRelease_fault (h : prioRelease resourceId c s = .error e) :
    ReleaseFault resourceId c s e :=
  release_fault_of h fun _ h => prioWakeup_fault' h

theorem pcpRelease_fault (h : pcpRelease resourceId c s = .error e) :
    ReleaseFault resourceId c s e := by
  refine release_fault_of
    (f := fun r => ((s.setProc c fun p => { p with prio := p.prioOrig }).setOwner r none).prioWakeup r)
    h fun _ h => prioWakeup_fault' h

/-! ## Scheduling -/

theorem fifoSchedule_fault (h : fifoSchedule s = .error e) : e = .listCorrupt ∨ e = .nullDeref := by
  unfold fifoSchedule at h; split at h <;> cases h

theorem sjfSchedule_fault (h : sjfSchedule s = .error e) : e = .listCorrupt ∨ e = .nullDeref := by
  unfold sjfSchedule at h; split at h
  · cases h
  · split at h <;> cases h

theorem prioSchedule_fault (h : prioSchedule s = .error e) : e = .listCorrupt ∨ e = .nullDeref := by
  unfold prioSchedule at h; split at h
  · cases h
  · split at h <;> cases h

theorem srtfSchedule_fault (h : srtfSchedule s = .error e) : e = .listCorrupt ∨ e = .nullDeref := by
  unfold srtfSchedule at h; split at h
  · cases h
  · split at h
    · split at h
      · exact .inl (linkReadyHead_fault (bind_ok_eq_error.1 h))
      · cases h
    · cases h

theorem rrSchedule_fault (h : rrSchedule s = .error e) : e = .listCorrupt ∨ e = .nullDeref := by
  dsimp only [rrSchedule] at h; split at h
  · cases h
  · split at h
    · split at h
      · cases h
      · exact .inl (linkReadyTail_fault (bind_ok_eq_error.1 h))
    · cases h

theorem paPickNext_fault {maxPrio : Int} {cnt : Nat} {max : Int}
    (h : paPickNext maxPrio cnt max s = .error e) : e = .listCorrupt ∨ e = .nullDeref := by
  unfold paPickNext at h; split at h
  · split at h <;> cases h; exact .inr rfl
  · cases h

theorem paSchedule_fault {maxPrio : Int} (h : paSchedule maxPrio s = .error e) :
    e = .listCorrupt ∨ e = .nullDeref := by
  unfold paSchedule at h; split at h
  · exact paPickNext_fault h
  · split at h
    · split at h
      · rcases bind_eq_error.1 h with h | ⟨_, _, h⟩
        · exact .inl (linkReadyTail_fault h)
        · exact paPickNext_fault h
      · cases h
    · cases h

theorem pcpPickNext_fault {cnt : Nat} {max : Int}
    (h : pcpPickNext cnt max s = .error e) : e = .listCorrupt ∨ e = .nullDeref := by
  unfold pcpPickNext at h; split at h
  · split at h <;> cases h; exact .inr rfl
  · cases h

theorem pcpSchedule_fault (h : pcpSchedule s = .error e) : e = .listCorrupt ∨ e = .nullDeref := by
  unfold pcpSchedule at h; split at h
  · exact pcpPickNext_fault h
  · split at h
    · split at h
      · rcases bind_eq_error.1 h with h | ⟨_, _, h⟩
        · exact .inl (linkReadyTail_fault h)
        · exact pcpPickNext_fault h
      · cases h
    · cases h

/-! ## The contract -/

/-- What the invariants need of a policy. -/
structure Scheduler.Lawful (sched : Scheduler) : Prop where
  schedule {s : Sys} {r : Sys × Option Nat} : sched.schedule s = .ok r → ScheduleFrame s r.1
  acquire {resourceId : Int} {c : Nat} {s s' : Sys} {b : Bool} :
    sched.acquire resourceId c s = .ok (b, s') → AcquireStep resourceId c s b s'
  release {resourceId : Int} {c : Nat} {s s' : Sys} :
    sched.release resourceId c s = .ok s' → ReleaseStep resourceId c s s'
  schedule_fault {s : Sys} {e : Fault} :
    sched.schedule s = .error e → e = .listCorrupt ∨ e = .nullDeref
  acquire_fault {resourceId : Int} {c : Nat} {s : Sys} {e : Fault} :
    sched.acquire resourceId c s = .error e → e = .outOfBounds ∨ e = .listCorrupt
  release_fault {resourceId : Int} {c : Nat} {s : Sys} {e : Fault} :
    sched.release resourceId c s = .error e → ReleaseFault resourceId c s e

theorem Policy.lawful (maxPrio : Int) : ∀ pol : Policy, (pol.scheduler maxPrio).Lawful
  | .fifo => ⟨fifoSchedule_frame, fcfsAcquire_step, fcfsRelease_step, fifoSchedule_fault,
      fcfsAcquire_fault, fcfsRelease_fault⟩
  | .sjf => ⟨sjfSchedule_frame, fcfsAcquire_step, fcfsRelease_step, sjfSchedule_fault,
      fcfsAcquire_fault, fcfsRelease_fault⟩
  | .srtf => ⟨srtfSchedule_frame, fcfsAcquire_step, fcfsRelease_step, srtfSchedule_fault,
      fcfsAcquire_fault, fcfsRelease_fault⟩
  | .rr => ⟨rrSchedule_frame, fcfsAcquire_step, fcfsRelease_step, rrSchedule_fault,
      fcfsAcquire_fault, fcfsRelease_fault⟩
  | .prio => ⟨prioSchedule_frame, prioAcquire_step, prioRelease_step, prioSchedule_fault,
      prioAcquire_fault, prioRelease_fault⟩
  | .pa => ⟨paSchedule_frame, prioAcquire_step, prioRelease_step, paSchedule_fault,
      prioAcquire_fault, prioRelease_fault⟩
  | .pcp => ⟨pcpSchedule_frame, pcpAcquire_step, pcpRelease_step, pcpSchedule_fault,
      pcpAcquire_fault, pcpRelease_fault⟩
  | .pip => ⟨pcpSchedule_frame, pipAcquire_step, pcpRelease_step, pcpSchedule_fault,
      pipAcquire_fault, pcpRelease_fault⟩

end ProcessorScheduler
