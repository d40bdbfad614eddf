import ProcessorScheduler.Policy

/-!
# The simulation loop

One iteration of the `while (true)` loop of `__do_simulation` is `doRound`: fork the
processes that are due, ask the policy for the next process, retire the previous one,
and run the chosen one for a tick (acquire the resources it asks for at its age, then,
when it got all of them, age it and count down what it holds). `load` builds the state
`__load_script` leaves from the list of process descriptors, and `Reachable` is every
state the loop reaches from it at the top of an iteration.
-/

namespace ProcessorScheduler

/-- `p->__starts_at <= ticks`: the `int` start tick is converted to `unsigned int` before
it is compared with the clock. -/
def forkDue (startsAt : Int) (ticks : Nat) : Prop :=
  startsAt % UInt32.size ≤ ((ticks % UInt32.size : Nat) : Int)

instance (startsAt : Int) (ticks : Nat) : Decidable (forkDue startsAt ticks) :=
  inferInstanceAs (Decidable (_ ≤ _))

namespace Sys

/-- `list_move_tail(&p->list, &readyqueue); p->status = PROCESS_READY`. -/
def forkProcess (s : Sys) (p : Nat) : Sys :=
  { s with forkqueue := s.forkqueue.erase p, readyqueue := s.readyqueue ++ [p] }.setStatus p
    .ready

/-- `list_move_tail(&rs->list, &current->__resources_holding)`. The entries before `rs`
still in the plan have another `at`, so `erase` removes `rs` itself. -/
def moveToHolding (s : Sys) (c : Nat) (rs : ResourceSchedule) : Sys :=
  s.setProc c fun p => { p with
    resourcesToAcquire := p.resourcesToAcquire.erase rs
    resourcesHolding := p.resourcesHolding ++ [rs] }

/-- `current->__resources_holding` after a step of the release loop. -/
def setHolding (s : Sys) (c : Nat) (held : List ResourceSchedule) : Sys :=
  s.setProc c fun p => { p with resourcesHolding := held }

/-- `current->age++`. -/
def incAge (s : Sys) (c : Nat) : Sys :=
  s.setProc c fun p => { p with age := p.age + 1 }

end Sys

/-- The body of the loop of `__fork_on_schedule`. -/
def Sys.forkStep (s : Sys) (p : Nat) : Sys :=
  if forkDue (s.procs p).startsAt s.ticks then s.forkProcess p else s

/-- The loop of `__fork_on_schedule` over the fork queue. -/
def forkLoop : List Nat → Sys → Sys
  | [], s => s
  | p :: ps, s => forkLoop ps (s.forkStep p)

/-- `__fork_on_schedule`. None of the schedulers has a `forked` hook. -/
def forkOnSchedule (s : Sys) : Sys :=
  forkLoop s.forkqueue s

/-- `__exit_process`, after `prev->status = PROCESS_EXIT`. `free(p)` leaves the record
with status `exit`; no scheduler has an `exiting` hook. -/
def exitProcess (s : Sys) (p : Nat) : Except Fault Sys :=
  if s.Linked p then .error .exitLinked
  else if (s.procs p).resourcesHolding ≠ [] then .error .exitHolding
  else if (s.procs p).resourcesToAcquire ≠ [] then .error .exitPending
  else .ok s

section Loops

variable (sched : Scheduler) (c : Nat)

/-- The loop of `__run_current_acquire` over the plan as it was on entry: every entry due
at the current age is acquired in order, and the first refusal ends the round. -/
def acquireLoop : List ResourceSchedule → Sys → Except Fault (Bool × Sys)
  | [], s => .ok (true, s)
  | rs :: rest, s =>
    if rs.at = (s.procs c).age then do
      let (ok, s) ← sched.acquire rs.resourceId c s
      if ok then acquireLoop rest (s.moveToHolding c rs) else .ok (false, s)
    else acquireLoop rest s

/-- The loop of `__run_current_release`: `kept` are the entries already counted down and
still held, the list the entries not yet visited. -/
def releaseLoop (kept : List ResourceSchedule) :
    List ResourceSchedule → Sys → Except Fault Sys
  | [], s => .ok s
  | rs :: rest, s =>
    let rs := { rs with duration := rs.duration - 1 }
    if rs.duration = 0 then do
      let s ← sched.release rs.resourceId c s
      releaseLoop kept rest (s.setHolding c (kept ++ rest))
    else releaseLoop (kept ++ [rs]) rest (s.setHolding c (kept ++ rs :: rest))

/-- `__run_current_acquire`. -/
def runCurrentAcquire (s : Sys) : Except Fault (Bool × Sys) :=
  acquireLoop sched c (s.procs c).resourcesToAcquire s

/-- `__run_current_release`. -/
def runCurrentRelease (s : Sys) : Except Fault Sys :=
  releaseLoop sched c [] (s.procs c).resourcesHolding s

/-- The `else` branch of the loop body: run `current` for one tick. The record of a
process freed earlier in the round is written first, by `current->status = ...`. -/
def runCurrent (s : Sys) : Except Fault Sys := do
  if (s.procs c).status = .exit then .error .useAfterFree else
  let s := s.setStatus c .running
  if s.Linked c then .error .dispatchLinked else
  let (ok, s) ← runCurrentAcquire sched c s
  if ok then runCurrentRelease sched c (s.incAge c) else .ok s

end Loops

/-- `if (prev->status == PROCESS_RUNNING) prev->status = PROCESS_READY`. -/
def Sys.demote (s : Sys) (prev : Nat) : Sys :=
  if (s.procs prev).status = .running then s.setStatus prev .ready else s

/-- Demote `prev`, and decommission it if it has lived its lifespan. -/
def retire (s : Sys) (prev : Nat) : Except Fault Sys :=
  let s := s.demote prev
  if (s.procs prev).age = (s.procs prev).lifespan then exitProcess (s.setStatus prev .exit) prev
  else .ok s

/-- The `if (prev)` block of the loop body. -/
def retirePrev (s : Sys) : Option Nat → Except Fault Sys
  | none => .ok s
  | some prev => retire s prev

/-- `ticks++`. -/
def Sys.tick (s : Sys) : Sys := { s with ticks := s.ticks + 1 }

/-- What an iteration of the loop leads to. -/
inductive Outcome
  /-- the loop goes on, the clock one tick later -/
  | next (s : Sys)
  /-- `break`: nothing to run, nothing ready and nothing left to fork -/
  | halt (s : Sys)

/-- The rest of the loop body once `current` is chosen: leave the loop, idle, or run
`current`; then `ticks++`. -/
def dispatch (sched : Scheduler) (s : Sys) : Option Nat → Except Fault Outcome
  | none => if s.readyqueue = [] ∧ s.forkqueue = [] then .ok (.halt s) else .ok (.next s.tick)
  | some c => do
    let s ← runCurrent sched c s
    .ok (.next s.tick)

/-- One iteration of the `while (true)` loop of `__do_simulation`. -/
def doRound (sched : Scheduler) (s : Sys) : Except Fault Outcome := do
  let s := forkOnSchedule s
  let r ← sched.schedule s
  let s' ← retirePrev { r.1 with current := r.2 } s.current
  dispatch sched s' r.2

/-! ## Loading a script -/

/-- A process description of the script, as `__load_script` reads it: the `process`,
`lifespan`, `prio`, `start` and `acquire` lines between `process` and `end`. -/
structure Descriptor where
  pid : Int
  lifespan : Int
  prio : Int
  start : Int
  acquires : List ResourceSchedule
  deriving Repr

/-- The record `__load_script` builds from a descriptor. -/
def Descriptor.toProcess (d : Descriptor) : Process :=
  { Process.blank with
    pid := d.pid, lifespan := d.lifespan, prio := d.prio, prioOrig := d.prio
    startsAt := d.start, resourcesToAcquire := d.acquires }

/-- The state after `__initialize` and `__load_script`: every process in the fork queue
in script order, `ticks = 0` and `ticks_cnt = -1`. -/
def load (nrResources : Nat) (script : List Descriptor) : Sys where
  procs i := match script[i]? with
    | some d => d.toProcess
    | none => Process.blank
  readyqueue := []
  forkqueue := List.range script.length
  resources _ := ⟨none, []⟩
  nrResources := nrResources
  current := none
  ticks := 0
  ticksCnt := -1

/-- The states the loop reaches at the top of an iteration. -/
inductive Reachable (sched : Scheduler) (s₀ : Sys) : Sys → Prop
  | init : Reachable sched s₀ s₀
  | next {s s' : Sys} : Reachable sched s₀ s → doRound sched s = .ok (.next s') →
      Reachable sched s₀ s'

/-- `n` rounds of the loop from `s`, or fewer when it leaves the loop. -/
def run (sched : Scheduler) : Nat → Sys → Except Fault Outcome
  | 0, s => .ok (.next s)
  | n + 1, s => do
    match ← doRound sched s with
    | .next s' => run sched n s'
    | .halt s' => .ok (.halt s')

end ProcessorScheduler
