import ProcessorScheduler.Basic

/-!
# Acquiring and releasing resources

The acquire and release callbacks of `pa2.c`: the defaults `fcfs_acquire` and
`fcfs_release` (used by FIFO, SJF, SRTF and Round-Robin), `prio_acquire` and
`prio_release` (Priority, Priority+Aging), `pcp_acquire` and `pcp_release` (ceiling
protocol) and `pip_acquire` and `pip_release` (inheritance protocol).

The C functions read the global `current`; here it is an argument, and the engine passes
the process it dispatched in the round.
-/

namespace ProcessorScheduler

/-- `max = init; list_for_each(...) if (max < key) max = key;` -/
def scanMax (key : Nat → Int) (init : Int) (q : List Nat) : Int :=
  q.foldl (fun max p => if max < key p then key p else max) init

namespace Sys

/-- `current->status = PROCESS_WAIT; list_add_tail(&current->list, &r->waitqueue)`: the
blocking half that every acquire function shares. -/
def blockOn (s : Sys) (r current : Nat) : Except Fault Sys :=
  (s.setStatus current .wait).linkWaitTail r current

/-- `list_del_init(&waiter->list); waiter->status = PROCESS_READY;
list_add_tail(&waiter->list, &readyqueue)`. -/
def wake (s : Sys) (r waiter : Nat) : Except Fault Sys :=
  ((s.unlinkWait r waiter).setStatus waiter .ready).linkReadyTail waiter

/-- The wake-up that `prio_release`, `pcp_release` and `pip_release` share: the first
waiter in queue order whose priority equals `max`, the larger of `0` and the waiters'
priorities. When every waiter is below `0`, `waiter` stays `NULL`. -/
def prioWakeup (s : Sys) (r : Nat) : Except Fault Sys :=
  let w := (s.resources r).waitqueue
  if w = [] then .ok s else
  let max := scanMax (fun p => (s.procs p).prio) 0 w
  match w.find? (fun p => (s.procs p).prio = max) with
  | none => .error .nullDeref
  | some waiter =>
    if (s.procs waiter).status ≠ .wait then .error .waiterNotWait else s.wake r waiter

end Sys

/-- `fcfs_acquire`: a free resource is taken, a taken one blocks the caller. -/
def fcfsAcquire (resourceId : Int) (current : Nat) (s : Sys) : Except Fault (Bool × Sys) := do
  let r ← s.resourceIndex resourceId
  match (s.resources r).owner with
  | none => .ok (true, s.setOwner r (some current))
  | some _ => do
    let s ← s.blockOn r current
    .ok (false, s)

/-- `fcfs_release`: the resource is freed and the first waiter, if any, goes to the
ready queue without the resource. -/
def fcfsRelease (resourceId : Int) (current : Nat) (s : Sys) : Except Fault Sys := do
  let r ← s.resourceIndex resourceId
  if (s.resources r).owner ≠ some current then .error .releaseNotOwner else
  let s := s.setOwner r none
  match (s.resources r).waitqueue with
  | [] => .ok s
  | waiter :: _ =>
    if (s.procs waiter).status ≠ .wait then .error .waiterNotWait else s.wake r waiter

/-- `prio_acquire`: as `fcfs_acquire`, but a successful caller is also marked
`PROCESS_WAIT` and linked at the tail of the ready queue. -/
def prioAcquire (resourceId : Int) (current : Nat) (s : Sys) : Except Fault (Bool × Sys) := do
  let r ← s.resourceIndex resourceId
  match (s.resources r).owner with
  | none => do
    let s ← ((s.setOwner r (some current)).setStatus current .wait).linkReadyTail current
    .ok (true, s)
  | some _ => do
    let s ← s.blockOn r current
    .ok (false, s)

/-- `prio_release`: the resource is freed and the highest-priority waiter woken. -/
def prioRelease (resourceId : Int) (current : Nat) (s : Sys) : Except Fault Sys := do
  let r ← s.resourceIndex resourceId
  if (s.resources r).owner ≠ some current then .error .releaseNotOwner else
  (s.setOwner r none).prioWakeup r

/-- `pcp_acquire`: as `prio_acquire`, and the new owner's priority becomes `MAX_PRIO`. -/
def pcpAcquire (maxPrio : Int) (resourceId : Int) (current : Nat) (s : Sys) :
    Except Fault (Bool × Sys) := do
  let r ← s.resourceIndex resourceId
  match (s.resources r).owner with
  | none => do
    let s := (s.setOwner r (some current)).setProc current fun p => { p with prio := maxPrio }
    let s ← (s.setStatus current .wait).linkReadyTail current
    .ok (true, s)
  | some _ => do
    let s ← s.blockOn r current
    .ok (false, s)

/-- `pcp_release`: the owner (`current`, by the assertion) gets back `prio_orig`, then
the resource is released as by `prio_release`. -/
def pcpRelease (resourceId : Int) (current : Nat) (s : Sys) : Except Fault Sys := do
  let r ← s.resourceIndex resourceId
  if (s.resources r).owner ≠ some current then .error .releaseNotOwner else
  let s := s.setProc current fun p => { p with prio := p.prioOrig }
  (s.setOwner r none).prioWakeup r

/-- `pip_acquire`: as `prio_acquire`, and a blocked caller of higher priority lends it to
the owner. -/
def pipAcquire (resourceId : Int) (current : Nat) (s : Sys) : Except Fault (Bool × Sys) := do
  let r ← s.resourceIndex resourceId
  match (s.resources r).owner with
  | none => do
    let s ← ((s.setOwner r (some current)).setStatus current .wait).linkReadyTail current
    .ok (true, s)
  | some owner => do
    let s := if (s.procs owner).prio < (s.procs current).prio then
      s.setProc owner fun p => { p with prio := (s.procs current).prio } else s
    let s ← s.blockOn r current
    .ok (false, s)

/-- `pip_release`, whose body is that of `pcp_release`. -/
def pipRelease (resourceId : Int) (current : Nat) (s : Sys) : Except Fault Sys :=
  pcpRelease resourceId current s

end ProcessorScheduler
