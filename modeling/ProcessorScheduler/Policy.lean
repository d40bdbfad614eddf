import ProcessorScheduler.Protocol

/-!
# Scheduling policies

The `schedule()` callbacks of `pa2.c` and the eight `struct scheduler` values that pair
them with acquire and release callbacks. A `schedule()` looks at `current` (the process
run in the previous round) and the ready queue, may rewrite both, and returns the process
to run next; the model returns the rewritten state with it.

`MAX_PRIO` (from `process.h`, which is not part of the sources) is the argument
`maxPrio` of the two policies that read it.
-/

namespace ProcessorScheduler

/-- `min = init; list_for_each(...) if (min > key) min = key;` -/
def scanMin (key : Nat → Int) (init : Int) (q : List Nat) : Int :=
  q.foldl (fun min p => if min > key p then key p else min) init

namespace Sys

/-- `p->lifespan`. -/
def lifespanOf (s : Sys) (p : Nat) : Int := (s.procs p).lifespan

/-- `p->prio`. -/
def prioOf (s : Sys) (p : Nat) : Int := (s.procs p).prio

/-- `current`, when it is set, not `PROCESS_WAIT` and younger than its lifespan: the
test every `schedule()` makes before it falls to `pick_next`. -/
def runnable (s : Sys) : Option Nat :=
  match s.current with
  | none => none
  | some c =>
    if (s.procs c).status ≠ .wait ∧ (s.procs c).age < (s.procs c).lifespan then some c
    else none

/-- `list_first_entry` of the ready queue, unlinked; `NULL` when it is empty. -/
def popReady (s : Sys) : Sys × Option Nat :=
  match s.readyqueue with
  | [] => (s, none)
  | p :: rest => ({ s with readyqueue := rest }, some p)

/-- The last scan of `sjf_schedule`, `srtf_schedule` and `prio_schedule`: the first
process of the ready queue whose key is `m`, unlinked. When there is none, the loop
leaves `prc` on the last entry, which is returned still linked. -/
def pickFirst (s : Sys) (key : Nat → Int) (m : Int) : Sys × Option Nat :=
  match s.readyqueue.find? (fun p => key p = m) with
  | some p => (s.unlinkReady p, some p)
  | none => (s, s.readyqueue.getLast?)

/-- `p->prio = p->prio_orig`. -/
def resetPrio (s : Sys) (p : Nat) : Sys :=
  s.setProc p fun q => { q with prio := q.prioOrig }

/-- `if (p->prio < MAX_PRIO) p->prio++`. -/
def agePrio (s : Sys) (maxPrio : Int) (p : Nat) : Sys :=
  if (s.procs p).prio < maxPrio then s.setProc p fun q => { q with prio := q.prio + 1 }
  else s

end Sys

/-- `struct scheduler` without its name and its empty hooks. -/
structure Scheduler where
  acquire : Int → Nat → Sys → Except Fault (Bool × Sys)
  release : Int → Nat → Sys → Except Fault Sys
  schedule : Sys → Except Fault (Sys × Option Nat)

/-! ## FIFO, SJF, SRTF and Round-Robin -/

/-- `fifo_schedule`: keep a runnable `current`, else take the head of the ready queue. -/
def fifoSchedule (s : Sys) : Except Fault (Sys × Option Nat) :=
  match s.runnable with
  | some c => .ok (s, some c)
  | none => .ok s.popReady

/-- `sjf_schedule`: keep a runnable `current`, else the first process of least lifespan,
the scan starting from `min = 1000`. -/
def sjfSchedule (s : Sys) : Except Fault (Sys × Option Nat) :=
  match s.runnable with
  | some c => .ok (s, some c)
  | none =>
    if s.readyqueue.length ≠ 0 then
      .ok (s.pickFirst s.lifespanOf (scanMin s.lifespanOf 1000 s.readyqueue))
    else .ok (s, none)

/-- `min` after the first scans of `srtf_schedule`: the least lifespan of the ready queue,
or the sentinel `1000` when it is empty. -/
def Sys.srtfMin (s : Sys) : Int :=
  if s.readyqueue.length ≠ 0 then scanMin s.lifespanOf 1000 s.readyqueue else 1000

/-- `pick_next` of `srtf_schedule`, whose scan starts again from `min`. -/
def Sys.srtfPickNext (s : Sys) : Sys × Option Nat :=
  if s.readyqueue.length ≠ 0 then
    s.pickFirst s.lifespanOf (scanMin s.lifespanOf s.srtfMin s.readyqueue)
  else (s, none)

/-- `srtf_schedule`: a runnable `current` yields to the first process of least lifespan
when that lifespan is below the time `current` has left, and is linked back at the head
of the ready queue. -/
def srtfSchedule (s : Sys) : Except Fault (Sys × Option Nat) :=
  match s.runnable with
  | none => .ok s.srtfPickNext
  | some c =>
    if s.srtfMin < (s.procs c).lifespan - (s.procs c).age then
      match s.readyqueue.find? (fun p => s.lifespanOf p = s.srtfMin) with
      | some p => do
        let s' ← (s.unlinkReady p).linkReadyHead c
        .ok (s', some p)
      | none => .ok s.srtfPickNext
    else .ok (s, some c)

/-- `rr_schedule`: `ticks_cnt` counts the calls; when it equals `ticks` (compared as
`unsigned int`) a runnable `current` goes to the tail and the head of the ready queue
runs. -/
def rrSchedule (s : Sys) : Except Fault (Sys × Option Nat) :=
  let s := { s with ticksCnt := s.ticksCnt + 1 }
  match s.runnable with
  | none => .ok s.popReady
  | some c =>
    if ((s.ticks % UInt32.size : Nat) : Int) = s.ticksCnt % UInt32.size then
      match s.readyqueue with
      | [] => .ok (s, some c)
      | p :: rest => do
        let s' ← { s with readyqueue := rest }.linkReadyTail c
        .ok (s', some p)
    else .ok (s, some c)

/-! ## Priority policies -/

/-- `prio_schedule`: keep a runnable `current`, else the first process of greatest
priority, the scan starting from `max = 0`. -/
def prioSchedule (s : Sys) : Except Fault (Sys × Option Nat) :=
  match s.runnable with
  | some c => .ok (s, some c)
  | none =>
    if s.readyqueue.length ≠ 0 then
      .ok (s.pickFirst s.prioOf (scanMax s.prioOf 0 s.readyqueue))
    else .ok (s, none)

/-- The `pick_next` loop of `pa_schedule`: the first process whose priority is `max`
becomes `next` (setting `flag`); every other one ages. -/
def agePick (maxPrio max : Int) : List Nat → Option Nat → Sys → Sys × Option Nat
  | [], next, s => (s, next)
  | p :: ps, next, s =>
    if (s.procs p).prio = max ∧ next = none then agePick maxPrio max ps (some p) s
    else agePick maxPrio max ps next (s.agePrio maxPrio p)

/-- `pick_next` of `pa_schedule`, given `cnt` (the length of the ready queue on entry)
and the `max` found so far. -/
def paPickNext (maxPrio : Int) (cnt : Nat) (max : Int) (s : Sys) :
    Except Fault (Sys × Option Nat) :=
  if cnt ≠ 0 then
    match agePick maxPrio (scanMax s.prioOf max s.readyqueue) s.readyqueue none s with
    | (_, none) => .error .nullDeref
    | (s, some next) => .ok ((s.unlinkReady next).resetPrio next, some next)
  else .ok (s, none)

/-- `pa_schedule`: a runnable `current` yields when some ready process has at least its
priority; the process chosen gets back `prio_orig` and every process left in the ready
queue ages. -/
def paSchedule (maxPrio : Int) (s : Sys) : Except Fault (Sys × Option Nat) :=
  match s.runnable with
  | none => paPickNext maxPrio s.readyqueue.length 0 s
  | some c =>
    if s.readyqueue.length ≠ 0 then
      if (s.procs c).prio ≤ scanMax s.prioOf 0 s.readyqueue then do
        let s' ← s.linkReadyTail c
        paPickNext maxPrio s.readyqueue.length (scanMax s.prioOf 0 s.readyqueue) s'
      else .ok ((s.readyqueue.foldl (fun s p => s.agePrio maxPrio p) s).resetPrio c, some c)
    else .ok (s.resetPrio c, some c)

/-- `pick_next` of `pcp_schedule`: the first process whose priority is `max`, unlinked
and given back `prio_orig`. -/
def pcpPickNext (cnt : Nat) (max : Int) (s : Sys) : Except Fault (Sys × Option Nat) :=
  if cnt ≠ 0 then
    match s.readyqueue.find? (fun p => s.prioOf p = scanMax s.prioOf max s.readyqueue) with
    | none => .error .nullDeref
    | some next => .ok ((s.unlinkReady next).resetPrio next, some next)
  else .ok (s, none)

/-- `pcp_schedule` (used by the ceiling and the inheritance policies): `pa_schedule`
without the aging. -/
def pcpSchedule (s : Sys) : Except Fault (Sys × Option Nat) :=
  match s.runnable with
  | none => pcpPickNext s.readyqueue.length 0 s
  | some c =>
    if s.readyqueue.length ≠ 0 then
      if (s.procs c).prio ≤ scanMax s.prioOf 0 s.readyqueue then do
        let s' ← s.linkReadyTail c
        pcpPickNext s.readyqueue.length (scanMax s.prioOf 0 s.readyqueue) s'
      else .ok (s.resetPrio c, some c)
    else .ok (s.resetPrio c, some c)

/-! ## The eight schedulers -/

/-- `fifo_scheduler`. -/
def fifoScheduler : Scheduler := ⟨fcfsAcquire, fcfsRelease, fifoSchedule⟩

/-- `sjf_scheduler`. -/
def sjfScheduler : Scheduler := ⟨fcfsAcquire, fcfsRelease, sjfSchedule⟩

/-- `srtf_scheduler`. -/
def srtfScheduler : Scheduler := ⟨fcfsAcquire, fcfsRelease, srtfSchedule⟩

/-- `rr_scheduler`. -/
def rrScheduler : Scheduler := ⟨fcfsAcquire, fcfsRelease, rrSchedule⟩

/-- `prio_scheduler`. -/
def prioScheduler : Scheduler := ⟨prioAcquire, prioRelease, prioSchedule⟩

/-- `pa_scheduler`. -/
def paScheduler (maxPrio : Int) : Scheduler := ⟨prioAcquire, prioRelease, paSchedule maxPrio⟩

/-- `pcp_scheduler`. -/
def pcpScheduler (maxPrio : Int) : Scheduler := ⟨pcpAcquire maxPrio, pcpRelease, pcpSchedule⟩

/-- `pip_scheduler`. -/
def pipScheduler : Scheduler := ⟨pipAcquire, pipRelease, pcpSchedule⟩

/-- The policies `pa2.c` defines. -/
inductive Policy
  | fifo
  | sjf
  | srtf
  | rr
  | prio
  | pa
  | pcp
  | pip
  deriving DecidableEq, Repr

/-- The `struct scheduler` of each policy, for a given `MAX_PRIO`. -/
def Policy.scheduler (maxPrio : Int) : Policy → Scheduler
  | .fifo => fifoScheduler
  | .sjf => sjfScheduler
  | .srtf => srtfScheduler
  | .rr => rrScheduler
  | .prio => prioScheduler
  | .pa => paScheduler maxPrio
  | .pcp => pcpScheduler maxPrio
  | .pip => pipScheduler

end ProcessorScheduler
