import ProcessorScheduler.Fifo
import Mathlib.Algebra.BigOperators.Fin
import Mathlib.Data.List.MinMax
import Mathlib.Data.Nat.Lattice
import Mathlib.Algebra.Order.Ring.Nat

/-!
# The loop of `__do_simulation` always ends under the FCFS callbacks

Under FIFO, SJF, SRTF and Round-Robin the `while (true)` loop of `__do_simulation` leaves
the loop, or stops on one of the program's faults, within a number of rounds computed
from the script (`fcfs_loop_ends`). No wait queue that is never woken can keep it
going: a process left waiting is not `current`, not ready and not to fork, so the loop
breaks.

The argument is a rank on states (`Sys.rank`) that every round lowers:

* a process costs a round for each tick it can still be run, two for each plan entry it
  still has to take or give back, and one while it waits on no resource (`Sys.cost`);
* the fork queue costs the rounds up to the latest start tick in it (`Sys.idleLeft`).

A round that runs `current` ages it (one tick fewer), and each release it makes can wake
one waiter (one more process waiting on nothing) but drops a held entry (two fewer). A
round whose acquisition blocks links `current` into a wait queue. A round with nothing
to run has processes still to fork, and the clock moves towards their start ticks. The
invariant that makes this work (`Sys.Bounded`) is that every linked process has a tick
left to run and every process still to fork has a start tick not before the clock.
-/

namespace ProcessorScheduler

open Sys

instance (x : Sys) (c : Nat) : Decidable (x.Waiting c) :=
  inferInstanceAs (Decidable (∃ q < x.nrResources, _))

namespace Ledger

variable {l : Ledger} {c r : Nat}

/-- The ticks `p` can still be run for: each age up to `max lifespan 0` once. -/
def ticksLeft (l : Ledger) (p : Nat) : Nat := (max (l.lifespan p) 0 + 1 - l.age p).toNat

/-- The plan entries `p` has still to take or to give back. -/
def entriesLeft (l : Ledger) (p : Nat) : Nat := (l.toAcquire p).length + (l.holding p).length

@[simp]
theorem ticksLeft_setOwner {o : Option Nat} : (l.setOwner r o).ticksLeft = l.ticksLeft := rfl

@[simp]
theorem entriesLeft_setOwner {o : Option Nat} : (l.setOwner r o).entriesLeft = l.entriesLeft := rfl

@[simp]
theorem ticksLeft_moveToHolding {rs : ResourceSchedule} :
    (l.moveToHolding c rs).ticksLeft = l.ticksLeft := rfl

@[simp]
theorem ticksLeft_setHolding {held : List ResourceSchedule} :
    (l.setHolding c held).ticksLeft = l.ticksLeft := rfl

@[simp]
theorem entriesLeft_incAge : (l.incAge c).entriesLeft = l.entriesLeft := rfl

/-- A granted entry of the plan moves to the held list. -/
theorem entriesLeft_moveToHolding {rs : ResourceSchedule} (mem : rs ∈ l.toAcquire c) :
    (l.moveToHolding c rs).entriesLeft = l.entriesLeft := by
  funext p
  by_cases hp : p = c
  · subst hp
    have := List.length_pos_of_mem mem
    simp only [entriesLeft, moveToHolding_toAcquire, moveToHolding_holding, Function.update_same,
      List.length_append, List.length_singleton, List.length_erase_of_mem mem]
    omega
  · simp [entriesLeft, hp]

theorem entriesLeft_setHolding {held : List ResourceSchedule} {p : Nat} :
    (l.setHolding c held).entriesLeft p =
      if p = c then (l.toAcquire c).length + held.length else l.entriesLeft p := by
  by_cases hp : p = c
  · subst hp; simp [entriesLeft]
  · simp [entriesLeft, hp]

theorem ticksLeft_incAge {p : Nat} :
    (l.incAge c).ticksLeft p = if p = c then l.ticksLeft c - 1 else l.ticksLeft p := by
  by_cases hp : p = c
  · subst hp
    simp only [ticksLeft, incAge_age, incAge_lifespan, Function.update_same, if_true]
    omega
  · simp [ticksLeft, hp]

end Ledger

namespace Sys

/-- What process `p` can still cost the loop: a round for each tick it can run, two for
each plan entry (its release can wake a waiter), and one block while it waits on nothing. -/
def cost (s : Sys) (p : Nat) : Nat :=
  s.ledger.ticksLeft p + 2 * s.ledger.entriesLeft p + if s.Waiting p then 0 else 1

/-- The rounds the loop can still idle: up to the latest start tick, as `unsigned int`, of
the fork queue. -/
def idleLeft (s : Sys) : Nat :=
  s.forkqueue.toFinset.sup fun p => ((s.procs p).startsAt % UInt32.size).toNat + 1 - s.ticks

/-- The rank of a state with `n` processes loaded. -/
def rank (n : Nat) (s : Sys) : Nat :=
  s.idleLeft + ∑ p ∈ Finset.range n, s.cost p

end Sys

/-! ## What each write does to the costs -/

section Cost

variable {s s' : Sys} {p c r : Nat}

/-- The cost of `p` when the ledger keeps what the cost reads and `p` waits as before. -/
theorem cost_eq_of (ticks : s'.ledger.ticksLeft p = s.ledger.ticksLeft p)
    (entries : s'.ledger.entriesLeft p = s.ledger.entriesLeft p)
    (waiting : s'.Waiting p ↔ s.Waiting p) : s'.cost p = s.cost p := by
  simp only [cost, ticks, entries, waiting]

/-- A write that keeps the ledger and the wait queues keeps every cost. -/
theorem cost_congr (hl : s'.ledger = s.ledger)
    (waits : ∀ r, (s'.resources r).waitqueue = (s.resources r).waitqueue) : s'.cost = s.cost := by
  have nr : s'.nrResources = s.nrResources := congrArg Ledger.nrResources hl
  funext p
  exact cost_eq_of (by rw [hl]) (by rw [hl]) (by simp only [Waiting, nr, waits])

theorem cost_setStatus {st : Status} : (s.setStatus c st).cost = s.cost :=
  cost_congr (ledger_setStatus st) fun _ => rfl

/-- `r->owner = current` and `list_move_tail(&rs->list, &current->__resources_holding)` for an
entry of the plan. -/
theorem cost_grant {o : Option Nat} {rs : ResourceSchedule}
    (mem : rs ∈ (s.procs c).resourcesToAcquire) :
    ((s.setOwner r o).moveToHolding c rs).cost = s.cost := by
  funext p
  refine cost_eq_of (by simp) (by
    rw [ledger_moveToHolding, ledger_setOwner, Ledger.entriesLeft_moveToHolding (l := s.ledger.setOwner r o) mem]; rfl) ?_
  simp only [Waiting, moveToHolding, setProc_resources, setProc_nrResources, Sys.waitqueue_setOwner]
  exact Iff.rfl

/-- `current->status = PROCESS_WAIT; list_add_tail(&current->list, &r->waitqueue)` for a
`current` that waits on nothing: one block fewer, no other cost changes. -/
theorem cost_block (hr : r < s.nrResources) (free : ¬ s.Waiting c) :
    let s' := (s.setStatus c .wait).setResource r fun x => { x with waitqueue := x.waitqueue ++ [c] }
    (∀ p ≠ c, s'.cost p = s.cost p) ∧ s'.cost c + 1 = s.cost c := by
  intro s'
  have hl : s'.ledger = s.ledger := (ledger_setResource rfl).trans (ledger_setStatus _)
  have waits : ∀ p ≠ c, s'.Waiting p ↔ s.Waiting p := fun p hp => by
    simp only [s', Waiting, setResource_nrResources, setResource_resources, setStatus,
      setProc_nrResources, setProc_resources]
    refine exists_congr fun q => and_congr_right fun _ => ?_
    by_cases hq : q = r
    · subst hq; simp [hp]
    · simp [hq]
  refine ⟨fun p hp => cost_eq_of (by rw [hl]) (by rw [hl]) (waits p hp), ?_⟩
  have blocked : s'.Waiting c := ⟨r, by simpa [s', setStatus] using hr, by simp [s', setStatus]⟩
  simp only [cost, hl, if_pos blocked, if_neg free]

theorem cost_setOwner {o : Option Nat} : (s.setOwner r o).cost = s.cost := by
  funext p
  refine cost_eq_of (by simp) (by simp) ?_
  simp only [Waiting, Sys.waitqueue_setOwner]
  exact Iff.rfl

/-- `current->__resources_holding` rewritten: two per entry it gains or loses. -/
theorem cost_setHolding (held : List ResourceSchedule) :
    (s.setHolding c held).cost c + 2 * (s.procs c).resourcesHolding.length =
      s.cost c + 2 * held.length ∧ ∀ p ≠ c, (s.setHolding c held).cost p = s.cost p := by
  have waiting : ∀ p, (s.setHolding c held).Waiting p ↔ s.Waiting p := fun _ => Iff.rfl
  refine ⟨?_, fun p hp => cost_eq_of (by simp) ?_ (waiting p)⟩
  · simp only [cost, ledger_setHolding, Ledger.ticksLeft_setHolding, Ledger.entriesLeft_setHolding,
      if_true, waiting]
    simp only [Ledger.entriesLeft, ledger]
    omega
  · rw [ledger_setHolding, Ledger.entriesLeft_setHolding, if_neg hp]

/-- `current->age++` for a process with a tick left: one tick fewer. -/
theorem cost_incAge (left : 0 < s.ledger.ticksLeft c) :
    (s.incAge c).cost c + 1 = s.cost c ∧ ∀ p ≠ c, (s.incAge c).cost p = s.cost p := by
  have waiting : ∀ p, (s.incAge c).Waiting p ↔ s.Waiting p := fun _ => Iff.rfl
  refine ⟨?_, fun p hp => cost_eq_of ?_ (by simp) (waiting p)⟩
  · simp only [cost, ledger_incAge, Ledger.ticksLeft_incAge, Ledger.entriesLeft_incAge, if_true,
      waiting]
    omega
  · rw [ledger_incAge, Ledger.ticksLeft_incAge, if_neg hp]

/-- `fcfs_release`: the costs stay, except that the waiter it wakes may wait on nothing
now; nothing new is linked, and the ledger changes only in the owner. -/
theorem cost_fcfsRelease {i : Int} (h : fcfsRelease i c s = .ok s') :
    (∃ w, (∀ p ≠ w, s'.cost p = s.cost p) ∧ s'.cost w ≤ s.cost w + 1) ∧
      (∀ p, s'.Linked p → s.Linked p) ∧ ∃ r, s'.ledger = s.ledger.setOwner r none := by
  obtain ⟨r, hr, -, ⟨-, rfl⟩ | ⟨w, rest, head, -, -, rfl⟩⟩ := fcfsRelease_cases h
  · exact ⟨⟨0, fun p _ => by rw [cost_setOwner], by rw [cost_setOwner]; omega⟩,
      fun p => linked_setOwner.1, r, ledger_setOwner none⟩
  have hl : (((s.setOwner r none).unlinkWait r w).setStatus w .ready).ledger =
      s.ledger.setOwner r none := by simp
  have waits : ∀ p q, p ∈ ((((s.setOwner r none).unlinkWait r w).setStatus w .ready).resources
      q).waitqueue → p ∈ (s.resources q).waitqueue := by
    intro p q mem
    by_cases hq : q = r
    · subst hq
      simp only [setStatus, setProc_resources, unlinkWait, setResource_resources,
        Function.update_same, Sys.waitqueue_setOwner] at mem
      exact List.mem_of_mem_erase mem
    · simpa [setStatus, unlinkWait, hq] using mem
  refine ⟨⟨w, fun p hp => cost_eq_of (by rw [ledger_withReady, hl]; rfl)
    (by rw [ledger_withReady, hl]; rfl) ⟨fun ⟨q, hq, mem⟩ => ⟨q, hq, waits p q mem⟩,
      fun ⟨q, hq, mem⟩ => ⟨q, hq, ?_⟩⟩, ?_⟩, fun p linked => ?_, r, by rw [ledger_withReady, hl]⟩
  · by_cases e : q = r
    · subst e
      simpa [setStatus, unlinkWait, List.mem_erase_of_ne hp] using mem
    · simpa [setStatus, unlinkWait, e] using mem
  · have ticks : (s.ledger.setOwner r none).ticksLeft w = s.ledger.ticksLeft w := rfl
    have entries : (s.ledger.setOwner r none).entriesLeft w = s.ledger.entriesLeft w := rfl
    simp only [cost, ledger_withReady, hl, ticks, entries]
    split <;> split <;> omega
  · rcases linked with ready | fork | ⟨q, hq, mem⟩
    · rcases List.mem_append.1 ready with ready | woken
      · exact .inl ready
      · obtain rfl := List.mem_singleton.1 woken
        exact .inr (.inr ⟨r, (resourceIndex_ok hr).2, by simp [head]⟩)
    · exact .inr (.inl fork)
    · exact .inr (.inr ⟨q, hq, waits p q mem⟩)

end Cost

/-! ## Sums over the loaded processes -/

section Sums

variable {f g : Nat → Nat} {n c : Nat}

/-- Two cost functions that differ only at `c`, summed over the loaded processes. -/
theorem sum_range_update (hc : c < n) (h : ∀ p ≠ c, g p = f p) :
    ∑ p ∈ Finset.range n, g p + f c = ∑ p ∈ Finset.range n, f p + g c := by
  have mem := Finset.mem_range.2 hc
  have split_g : g c + ∑ p ∈ (Finset.range n).erase c, g p = ∑ p ∈ Finset.range n, g p :=
    Finset.add_sum_erase _ _ mem
  have split_f : f c + ∑ p ∈ (Finset.range n).erase c, f p = ∑ p ∈ Finset.range n, f p :=
    Finset.add_sum_erase _ _ mem
  have rest : ∑ p ∈ (Finset.range n).erase c, g p = ∑ p ∈ (Finset.range n).erase c, f p :=
    Finset.sum_congr rfl fun p hp => h p (Finset.ne_of_mem_erase hp)
  omega

/-- A cost that grows by at most `k` at a single process, which need not be loaded. -/
theorem sum_range_le_add {k : Nat} (h : ∀ p ≠ c, g p = f p) (hc : g c ≤ f c + k) :
    ∑ p ∈ Finset.range n, g p ≤ ∑ p ∈ Finset.range n, f p + k := by
  by_cases loaded : c < n
  · have := sum_range_update loaded h
    omega
  · have : ∑ p ∈ Finset.range n, g p = ∑ p ∈ Finset.range n, f p :=
      Finset.sum_congr rfl fun p hp => h p fun e => loaded (e ▸ Finset.mem_range.1 hp)
    omega

end Sums

/-! ## The run of the dispatched process -/

section Run

variable {sched : Scheduler} (fcfs : sched.Fcfs) {c n : Nat}
include fcfs

/-- The acquisitions of `current` under `fcfs_acquire`, with `l` the entries of its plan
left to visit and `done` those passed over: a grant moves an entry of the plan to the held
list and changes no cost; a refusal links `current`, which was linked nowhere, into a wait
queue, one block fewer. No tick count changes, and only `current` can be newly linked. -/
theorem acquireLoop_cost : ∀ (done l : List ResourceSchedule) {x x' : Sys} {b : Bool},
    (x.procs c).resourcesToAcquire = done ++ l → (∀ e ∈ done, e.at ≠ (x.procs c).age) →
    ¬ x.Linked c → acquireLoop sched c l x = .ok (b, x') →
    (∀ p ≠ c, x'.cost p = x.cost p) ∧ x'.ledger.ticksLeft = x.ledger.ticksLeft ∧
      (∀ p, x'.Linked p → x.Linked p ∨ p = c) ∧
      cond b (x'.cost c = x.cost c ∧ ¬ x'.Linked c) (x'.cost c + 1 = x.cost c)
  | _, [], _, _, _, _, _, free, h => by
    cases h; exact ⟨fun _ _ => rfl, rfl, fun _ => .inl, rfl, free⟩
  | done, rs :: rest, x, x', b, pend, passed, free, h => by
    unfold acquireLoop at h
    split at h
    · rename_i due
      obtain ⟨⟨ok, x₁⟩, h₁, h⟩ := bind_eq_ok.1 h
      rw [fcfs.1] at h₁
      obtain ⟨r, hr, ⟨-, rfl, rfl⟩ | ⟨-, rfl, -, rfl⟩⟩ := fcfsAcquire_cases h₁
      · -- granted: the entry moves from the plan to the held list
        have mem : rs ∈ (x.procs c).resourcesToAcquire := by rw [pend]; simp
        have fresh : rs ∉ done := fun m => passed rs m due
        obtain ⟨others, ticks, links, last⟩ := acquireLoop_cost done rest
          (x := (x.setOwner r (some c)).moveToHolding c rs)
          (by simp [moveToHolding, Sys.setOwner, pend, List.erase_append_right _ fresh])
          (by simpa [moveToHolding, Sys.setOwner] using passed) (fun l => free (linked_setOwner.1 l)) h
        rw [cost_grant mem] at others last
        exact ⟨others, by rw [ticks]; simp, fun p l => (links p l).imp_left linked_setOwner.1, last⟩
      · -- refused: `current` blocks on `r`
        cases h
        obtain ⟨others, last⟩ := cost_block (resourceIndex_ok hr).2 fun w => free (.inr (.inr w))
        refine ⟨others, by rw [ledger_setResource rfl, ledger_setStatus], fun p l => ?_, last⟩
        rcases l with ready | fork | ⟨q, hq, mem⟩
        · exact .inl (.inl ready)
        · exact .inl (.inr (.inl fork))
        · by_cases e : q = r
          · subst e
            rcases (by simpa [setStatus] using mem : p ∈ (x.resources q).waitqueue ∨ p = c) with
              mem | rfl
            · exact .inl (.inr (.inr ⟨q, hq, mem⟩))
            · exact .inr rfl
          · exact .inl (.inr (.inr ⟨q, hq, by simpa [setStatus, e] using mem⟩))
    · rename_i later
      exact acquireLoop_cost (done ++ [rs]) rest (by rw [pend]; simp)
        (List.forall_mem_append.2 ⟨passed, List.forall_mem_singleton.2 later⟩) free h

/-- The releases of `current` under `fcfs_release`, with `kept` the held entries already
counted down and `l` those not yet visited: each release wakes at most one waiter and drops a
held entry, so the summed cost does not grow. No tick count changes, and nothing is newly
linked. -/
theorem releaseLoop_cost (hc : c < n) : ∀ (kept l : List ResourceSchedule) {x x' : Sys},
    (x.procs c).resourcesHolding = kept ++ l → releaseLoop sched c kept l x = .ok x' →
    ∑ p ∈ Finset.range n, x'.cost p ≤ ∑ p ∈ Finset.range n, x.cost p ∧
      x'.ledger.ticksLeft = x.ledger.ticksLeft ∧ ∀ p, x'.Linked p → x.Linked p
  | _, [], _, _, _, h => by cases h; exact ⟨le_refl _, rfl, fun _ => id⟩
  | kept, rs :: rest, x, x', held, h => by
    unfold releaseLoop at h
    dsimp only at h
    split at h
    · -- the countdown reaches zero: release, then drop the entry
      obtain ⟨x₁, h₁, h⟩ := bind_eq_ok.1 h
      rw [fcfs.2] at h₁
      obtain ⟨⟨w, others, woken⟩, links₁, r, hl₁⟩ := cost_fcfsRelease h₁
      have held₁ : (x₁.procs c).resourcesHolding = kept ++ rs :: rest :=
        (congrArg (Ledger.holding · c) hl₁).trans held
      obtain ⟨dropped, same⟩ := cost_setHolding (s := x₁) (c := c) (kept ++ rest)
      obtain ⟨sum', ticks', links'⟩ := releaseLoop_cost hc kept rest (by simp [setHolding]) h
      have up := sum_range_le_add (n := n) others woken
      have down := sum_range_update hc same
      simp only [held₁, List.length_append, List.length_cons] at dropped
      refine ⟨by omega, ?_, fun p l => links₁ p (links' p l)⟩
      rw [ticks', ledger_setHolding, Ledger.ticksLeft_setHolding, hl₁]
      rfl
    · -- counted down and kept
      obtain ⟨sum', ticks', links'⟩ := releaseLoop_cost hc _ rest (by simp [setHolding]) h
      obtain ⟨kept', same⟩ := cost_setHolding (s := x) (c := c)
        (kept ++ { rs with duration := rs.duration - 1 } :: rest)
      simp only [held, List.length_append, List.length_cons] at kept'
      have down := sum_range_update hc same
      refine ⟨by omega, ?_, links'⟩
      rw [ticks', ledger_setHolding, Ledger.ticksLeft_setHolding]

/-- Running `current` for a tick under the FCFS callbacks lowers the summed cost: it ages,
one tick fewer, or it blocks, one block fewer. A process linked afterwards was linked before
or is `current`, blocked, and its ticks left are as before. -/
theorem runCurrent_cost {s s' : Sys} (hc : c < n) (left : 0 < s.ledger.ticksLeft c)
    (h : runCurrent sched c s = .ok s') :
    ∑ p ∈ Finset.range n, s'.cost p < ∑ p ∈ Finset.range n, s.cost p ∧
      ∀ p, s'.Linked p → (s.Linked p ∨ p = c) ∧ s'.ledger.ticksLeft p = s.ledger.ticksLeft p := by
  obtain ⟨-, free, b, s₁, h₁, h⟩ := runCurrent_ok h
  obtain ⟨others, ticks, links, last⟩ := acquireLoop_cost fcfs [] _ (x := s.setStatus c .running)
    (List.nil_append _).symm (fun _ => nofun) free h₁
  rw [cost_setStatus] at others last
  have ticks : s₁.ledger.ticksLeft = s.ledger.ticksLeft := by rw [ticks, ledger_setStatus]
  cases b
  · -- blocked: `current` waits on a resource
    have last : s₁.cost c + 1 = s.cost c := last
    cases h
    have := sum_range_update hc others
    exact ⟨by omega, fun p l => ⟨links p l, by rw [ticks]⟩⟩
  · -- ran: `current` ages, then counts down what it holds
    obtain ⟨same, detached⟩ := last
    obtain ⟨aged, others'⟩ := cost_incAge (s := s₁) (c := c) (by rw [ticks]; exact left)
    have h : runCurrentRelease sched c (s₁.incAge c) = .ok s' := h
    obtain ⟨released, ticks', links'⟩ :=
      releaseLoop_cost fcfs hc [] _ (x := s₁.incAge c) (List.nil_append _).symm h
    have before := sum_range_update hc others
    have after := sum_range_update hc others'
    refine ⟨by omega, fun p l => ?_⟩
    have l₁ : s₁.Linked p := links' p l
    have hp : p ≠ c := fun e => detached (e ▸ l₁)
    refine ⟨links p l₁, ?_⟩
    rw [ticks', ledger_incAge, Ledger.ticksLeft_incAge, if_neg hp, ticks]

end Run

/-! ## A round -/

/-- What the rank argument needs of a state with `n` processes loaded: every linked process
is one of them and has a tick left to run, `current` is one of them, and the fork queue has
no repeats and holds only processes whose start tick, as `unsigned int`, is not before the
clock. -/
structure Sys.Bounded (n : Nat) (s : Sys) : Prop where
  linked : ∀ p, s.Linked p → p < n ∧ 0 < s.ledger.ticksLeft p
  current : ∀ c, s.current = some c → c < n
  nodup : s.forkqueue.Nodup
  forks : ∀ p ∈ s.forkqueue, (s.ticks : Int) ≤ (s.procs p).startsAt % UInt32.size

/-- What the rank argument needs of a `schedule()`: it returns `current`, when it may go on,
or a process of the ready queue; it links into the ready queue at most that `current`; and it
returns `NULL` only with the ready queue empty. -/
def Scheduler.PicksQueued (sched : Scheduler) : Prop :=
  ∀ {s r}, sched.schedule s = .ok r →
    (∀ c, r.2 = some c → s.runnable = some c ∨ c ∈ s.readyqueue) ∧
    (∀ p ∈ r.1.readyqueue, p ∈ s.readyqueue ∨ s.runnable = some p) ∧
    (r.2 = none → r.1.readyqueue = [])

namespace Sys

variable {s s' : Sys} {p c : Nat}

/-- A runnable `current` has a tick left. -/
theorem ticksLeft_of_runnable (h : s.runnable = some c) : 0 < s.ledger.ticksLeft c := by
  have := (runnable_eq_some.1 h).2.2
  simp only [Ledger.ticksLeft, ledger]
  omega

theorem linked_congr (ready : s'.readyqueue = s.readyqueue) (fork : s'.forkqueue = s.forkqueue)
    (res : s'.resources = s.resources) (nr : s'.nrResources = s.nrResources) :
    s'.Linked p ↔ s.Linked p := by
  simp only [Linked, ready, fork, res, nr]

end Sys

theorem forkLoop_readyqueue : ∀ (l : List Nat) (s : Sys) {p : Nat},
    p ∈ (forkLoop l s).readyqueue → p ∈ s.readyqueue ∨ p ∈ l
  | [], _, _, h => .inl h
  | q :: qs, s, p, h => by
    rcases forkLoop_readyqueue qs _ h with h | h
    · unfold forkStep at h
      split at h
      · simp only [forkProcess, setStatus, setProc_readyqueue, List.mem_append,
          List.mem_singleton] at h
        rcases h with h | rfl
        · exact .inl h
        · exact .inr (List.mem_cons_self _ _)
      · exact .inl h
    · exact .inr (List.mem_cons_of_mem _ h)

section Phases

variable {s s' : Sys} {p : Nat}

/-- `__fork_on_schedule` links nothing that was not linked: it moves processes from the fork
queue to the ready queue. -/
theorem forkOnSchedule_linked (nodup : s.forkqueue.Nodup) (h : (forkOnSchedule s).Linked p) :
    s.Linked p := by
  rcases h with ready | fork | ⟨r, hr, mem⟩
  · rcases forkLoop_readyqueue _ _ ready with h | h
    exacts [.inl h, .inr (.inl h)]
  · exact .inr (.inl (((forkLoop_forkqueue _ s nodup).2 p).1 fork).1)
  · have nr : (forkOnSchedule s).nrResources = s.nrResources :=
      congrArg Ledger.nrResources (forkLoop_ledger s.forkqueue s).1
    refine .inr (.inr ⟨r, nr ▸ hr, ?_⟩)
    rwa [forkOnSchedule, (forkLoop_queues s.forkqueue s).1] at mem

/-- The retirement of `prev` writes only its status: it links nothing and unlinks nothing. -/
theorem retirePrev_linked {o : Option Nat} (h : retirePrev s o = .ok s') (p : Nat) :
    s'.Linked p ↔ s.Linked p :=
  linked_congr (retirePrev_queues h).2 (retirePrev_forkFrame h).forkqueue (retirePrev_queues h).1
    (congrArg Ledger.nrResources (retirePrev_ledger h))

/-- With nothing chosen, the loop goes on only while the ready queue or the fork queue has
a process. -/
theorem dispatch_none_next {sched : Scheduler} (h : dispatch sched s none = .ok (.next s')) :
    ¬ (s.readyqueue = [] ∧ s.forkqueue = []) ∧ s' = s.tick := by
  simp only [dispatch] at h
  split at h
  · cases h
  · cases h; exact ⟨‹_›, rfl⟩

/-- The fork step and a tick of the clock: the fork queue keeps no repeats and only processes
not yet due, and the rounds left to idle shrink while processes remain to fork. -/
theorem forkqueue_tick (nodup : s.forkqueue.Nodup)
    (forks : ∀ p ∈ s.forkqueue, (s.ticks : Int) ≤ (s.procs p).startsAt % UInt32.size)
    (fq : s'.forkqueue = (forkOnSchedule s).forkqueue)
    (ticks : s'.ticks = s.ticks + 1) (starts : ∀ p, (s'.procs p).startsAt = (s.procs p).startsAt) :
    s'.forkqueue.Nodup ∧ (∀ p ∈ s'.forkqueue, (s'.ticks : Int) ≤ (s'.procs p).startsAt % UInt32.size) ∧
      s'.idleLeft + (if s'.forkqueue = [] then 0 else 1) ≤ s.idleLeft := by
  obtain ⟨nodup, mem⟩ := forkLoop_forkqueue s.forkqueue s nodup
  have later : ∀ p ∈ s'.forkqueue,
      p ∈ s.forkqueue ∧ (s.ticks : Int) < (s.procs p).startsAt % UInt32.size := by
    intro p hp
    rw [fq, forkOnSchedule, mem] at hp
    have le := forks p hp.1
    have bound := Int.emod_lt_of_pos (s.procs p).startsAt (by decide : (0 : Int) < UInt32.size)
    have lt : s.ticks < UInt32.size := by omega
    exact ⟨hp.1, lt_of_not_le fun h => hp.2 hp.1 ((forkDue_iff lt).2 h)⟩
  have shrinks : ∀ p ∈ s'.forkqueue,
      ((s'.procs p).startsAt % UInt32.size).toNat + 1 - s'.ticks + 1 ≤ s.idleLeft := by
    intro p hp
    obtain ⟨queued, lt⟩ := later p hp
    have := Finset.le_sup (f := fun p => ((s.procs p).startsAt % UInt32.size).toNat + 1 - s.ticks)
      (List.mem_toFinset.2 queued)
    simp only [idleLeft] at this ⊢
    rw [starts, ticks]
    omega
  refine ⟨fq ▸ nodup, fun p hp => by rw [ticks, starts]; have := (later p hp).2; omega, ?_⟩
  split
  · rename_i empty
    simp [idleLeft, empty]
  · rename_i queued
    obtain ⟨p, hp⟩ := List.exists_mem_of_ne_nil _ queued
    have bound : s'.idleLeft ≤ s.idleLeft - 1 :=
      Finset.sup_le fun q hq => by have := shrinks q (List.mem_toFinset.1 hq); omega
    have := shrinks p hp
    omega

end Phases

/-! ## The picks of FIFO, SJF, SRTF and Round-Robin -/

section Picks

variable {s t : Sys} {r : Sys × Option Nat}

theorem FcfsPick.picksQueued (pick : FcfsPick t r) :
    (∀ c, r.2 = some c → t.runnable = some c ∨ c ∈ t.readyqueue) ∧
      (∀ p ∈ r.1.readyqueue, p ∈ t.readyqueue ∨ t.runnable = some p) ∧
      (r.2 = none → r.1.readyqueue = []) := by
  cases pick with
  | keep run => exact ⟨fun c e => .inl (by cases e; exact run), fun p hp => .inl hp, nofun⟩
  | take _ ready =>
    exact ⟨fun c e => .inr (by cases e; simp [ready]), fun p hp => .inl (by simp [ready, hp]), nofun⟩
  | rotate run ready _ =>
    refine ⟨fun c e => .inr (by cases e; simp [ready]), fun p hp => ?_, nofun⟩
    rcases List.mem_append.1 hp with hp | hp
    · exact .inl (by simp [ready, hp])
    · exact .inr (List.mem_singleton.1 hp ▸ run)
  | idle _ empty => exact ⟨nofun, fun p hp => .inl hp, fun _ => empty⟩

/-- The last scan of `sjf_schedule` and `srtf_schedule` over a ready queue that is not empty
returns one of its processes, and unlinks at most that one. -/
theorem pickFirst_queued (key : Nat → Int) (m : Int) (queued : s.readyqueue.length ≠ 0) :
    (∀ c, (s.pickFirst key m).2 = some c → c ∈ s.readyqueue) ∧
      (∀ p ∈ (s.pickFirst key m).1.readyqueue, p ∈ s.readyqueue) ∧ (s.pickFirst key m).2 ≠ none := by
  unfold pickFirst
  split
  · rename_i p found
    exact ⟨fun c e => by cases e; exact List.mem_of_find?_eq_some found,
      fun q hq => List.mem_of_mem_erase hq, nofun⟩
  · refine ⟨fun c e => List.mem_of_getLast?_eq_some e, fun q hq => hq, ?_⟩
    simpa using queued

theorem srtfPickNext_queued :
    (∀ c, s.srtfPickNext.2 = some c → c ∈ s.readyqueue) ∧
      (∀ p ∈ s.srtfPickNext.1.readyqueue, p ∈ s.readyqueue) ∧
      (s.srtfPickNext.2 = none → s.srtfPickNext.1.readyqueue = []) := by
  unfold srtfPickNext
  split
  · obtain ⟨chosen, ready, some⟩ := pickFirst_queued _ _ ‹_›
    exact ⟨chosen, ready, fun e => absurd e some⟩
  · rename_i empty
    exact ⟨nofun, fun _ => id, fun _ => by simpa using empty⟩

theorem fifoScheduler_picksQueued : fifoScheduler.PicksQueued :=
  fun h => (fifoSchedule_pick h).picksQueued

theorem rrScheduler_picksQueued : rrScheduler.PicksQueued :=
  fun h => (rrSchedule_pick h).picksQueued

theorem sjfScheduler_picksQueued : sjfScheduler.PicksQueued := by
  intro s r h
  change sjfSchedule s = .ok r at h
  unfold sjfSchedule at h
  split at h
  · cases h; exact ⟨fun c e => .inl (by cases e; assumption), fun p hp => .inl hp, nofun⟩
  · split at h <;> cases h
    · obtain ⟨chosen, ready, some⟩ := pickFirst_queued s.lifespanOf (scanMin s.lifespanOf 1000 s.readyqueue) ‹_›
      exact ⟨fun c e => .inr (chosen c e), fun p hp => .inl (ready p hp), fun e => absurd e some⟩
    · rename_i empty
      exact ⟨nofun, fun p hp => .inl hp, fun _ => by simpa using empty⟩

theorem srtfScheduler_picksQueued : srtfScheduler.PicksQueued := by
  intro s r h
  change srtfSchedule s = .ok r at h
  have next : ∀ {r}, r = s.srtfPickNext →
      (∀ c, r.2 = some c → s.runnable = some c ∨ c ∈ s.readyqueue) ∧
      (∀ p ∈ r.1.readyqueue, p ∈ s.readyqueue ∨ s.runnable = some p) ∧
      (r.2 = none → r.1.readyqueue = []) := by
    rintro r rfl
    obtain ⟨chosen, ready, empty⟩ := srtfPickNext_queued (s := s)
    exact ⟨fun c e => .inr (chosen c e), fun p hp => .inl (ready p hp), empty⟩
  unfold srtfSchedule at h
  split at h
  · cases h; exact next rfl
  · rename_i c run
    split at h
    · split at h
      · rename_i p found
        obtain ⟨s₁, link, rfl⟩ := bind_ok_eq_ok.1 h
        obtain ⟨-, rfl⟩ := linkReadyHead_ok link
        refine ⟨fun q e => .inr (by cases e; exact List.mem_of_find?_eq_some found), fun q hq => ?_, nofun⟩
        rcases List.mem_cons.1 hq with rfl | hq
        · exact .inr run
        · exact .inl (List.mem_of_mem_erase hq)
      · cases h; exact next rfl
    · cases h; exact ⟨fun q e => .inl (by cases e; exact run), fun p hp => .inl hp, nofun⟩

end Picks

section Round

variable {sched : Scheduler} (fcfs : sched.Fcfs) (lawful : sched.Lawful)
  (keeps : sched.KeepsReady) (forks : sched.KeepsForks) (picks : sched.PicksQueued)
  {n : Nat} {s s' : Sys}
include fcfs lawful keeps forks picks

/-- Every round that stays in the loop keeps `Bounded` and lowers the rank. -/
theorem doRound_rank (inv : s.Bounded n) (h : doRound sched s = .ok (.next s')) :
    s'.Bounded n ∧ s'.rank n < s.rank n := by
  obtain ⟨fq, ticks, starts⟩ := doRound_forks forks h
  obtain ⟨nodup, due, idle⟩ := forkqueue_tick inv.nodup inv.forks fq ticks starts
  obtain ⟨r, s₂, hr, h₂, h⟩ := doRound_ok h
  obtain ⟨chosen, ready, empty⟩ := picks hr
  have current₂ : s₂.current = r.2 := (retirePrev_frame h₂).1
  -- the fork step, the pick and the retirement change no cost and link nothing new
  have hl : s₂.ledger = s.ledger :=
    (retirePrev_ledger h₂).trans ((lawful.schedule hr).ledger.trans (forkLoop_ledger _ s).1)
  have cost₂ : s₂.cost = s.cost := cost_congr hl fun q => by
    rw [(retirePrev_queues h₂).1]
    exact congrArg (fun t => (t q).waitqueue) ((keeps hr).1.trans (forkLoop_queues _ s).1)
  have able : ∀ p, (forkOnSchedule s).Linked p ∨ (forkOnSchedule s).runnable = some p →
      p < n ∧ 0 < s₂.ledger.ticksLeft p := by
    rintro p (linked | run)
    · rw [hl]; exact inv.linked p (forkOnSchedule_linked inv.nodup linked)
    · refine ⟨inv.current p ?_, ?_⟩
      · rw [← forkLoop_current s.forkqueue s]; exact (runnable_eq_some.1 run).1
      · rw [hl, ← (forkLoop_ledger s.forkqueue s).1]; exact ticksLeft_of_runnable run
  have linked : ∀ p, s₂.Linked p → p < n ∧ 0 < s₂.ledger.ticksLeft p := by
    intro p l
    rcases (retirePrev_linked h₂ p).1 l with l | l | ⟨q, hq, mem⟩
    · rcases ready p l with l | run
      exacts [able p (.inl (.inl l)), able p (.inr run)]
    · exact able p (.inl (.inr (.inl ((forks.schedule hr).forkqueue ▸ l))))
    · have nr : r.1.nrResources = (forkOnSchedule s).nrResources :=
        congrArg Ledger.nrResources (lawful.schedule hr).ledger
      refine able p (.inl (.inr (.inr ⟨q, by rw [← nr]; exact hq, ?_⟩)))
      rw [← (keeps hr).1]; exact mem
  cases hc : r.2 with
  | none =>
    -- nothing to run: the fork queue still has a process, and the clock moves on
    rw [hc] at h current₂
    obtain ⟨going, rfl⟩ := dispatch_none_next h
    have queued : s₂.tick.forkqueue ≠ [] := fun e =>
      going ⟨by rw [(retirePrev_queues h₂).2]; exact empty hc, e⟩
    rw [if_neg queued] at idle
    refine ⟨⟨linked, fun c e => (by rw [tick, current₂] at e; cases e), nodup, due⟩, ?_⟩
    have same : s₂.tick.cost = s.cost := cost₂
    simp only [rank, same]
    omega
  | some c =>
    -- `c` runs for a tick
    rw [hc] at h current₂
    obtain ⟨s₃, h₃, e⟩ := dispatch_some h
    cases e
    have run₂ : c < n ∧ 0 < s₂.ledger.ticksLeft c := by
      rcases chosen c hc with run | l
      exacts [able c (.inr run), able c (.inl (.inl l))]
    obtain ⟨lower, links₃⟩ := runCurrent_cost fcfs run₂.1 run₂.2 h₃
    have current₃ : s₃.current = some c := by
      rw [((runCurrent_appends fcfs).post h₃).current, current₂]
    refine ⟨⟨fun p l => ?_, fun q e => ?_, nodup, due⟩, ?_⟩
    · obtain ⟨l | rfl, same⟩ := links₃ p l
      · exact (same ▸ linked p l :)
      · exact (same ▸ run₂ :)
    · rw [tick, current₃] at e; cases e; exact run₂.1
    · have same : s₃.tick.cost = s₃.cost := rfl
      have le : s₃.tick.idleLeft ≤ s.idleLeft := by split at idle <;> omega
      simp only [rank, same, cost₂] at lower ⊢
      omega

/-- From a `Bounded` state the loop leaves, or stops on a fault, within `rank + 1` rounds. -/
theorem run_ends : ∀ {fuel : Nat} {s : Sys}, s.Bounded n → s.rank n < fuel →
    (∃ s', run sched fuel s = .ok (.halt s')) ∨ ∃ e, run sched fuel s = .error e
  | 0, _, _, lt => absurd lt (Nat.not_lt_zero _)
  | fuel + 1, s, inv, lt => by
    match h : doRound sched s with
    | .error e => exact .inr ⟨e, run_succ_error h⟩
    | .ok (.halt s') => exact .inl ⟨s', by simp only [run, h]; rfl⟩
    | .ok (.next s') =>
      obtain ⟨inv', lower⟩ := doRound_rank fcfs lawful keeps forks picks inv h
      rw [run_succ_next h]
      exact run_ends inv' (by omega)

end Round

/-! ## The loaded script -/

/-- The rounds a process of the script can keep the loop busy: one for each tick of its
lifespan, two for each acquisition and one to block. -/
def Descriptor.rounds (d : Descriptor) : Nat :=
  (max d.lifespan 0 + 1).toNat + 2 * d.acquires.length + 1

/-- The rounds up to the start tick of a process of the script, as `unsigned int`. -/
def Descriptor.idleRounds (d : Descriptor) : Nat :=
  (d.start % UInt32.size).toNat + 1

/-- The rounds a script can keep the loop going under the FCFS callbacks: up to the latest
start tick, and the rounds of each process. -/
def roundBound (script : List Descriptor) : Nat :=
  (script.map Descriptor.idleRounds).foldr max 0 + (script.map Descriptor.rounds).sum

section Load

variable {nr p : Nat} {script : List Descriptor}

theorem load_procs (hp : p < script.length) : (load nr script).procs p = script[p].toProcess := by
  simp [load, hp]

/-- `__load_script` leaves every process in the fork queue, linked nowhere else, with a tick
to run and a start tick not before the clock. -/
theorem bounded_load : (load nr script).Bounded script.length where
  linked p l := by
    rcases l with ready | fork | ⟨r, -, mem⟩
    · cases ready
    · refine ⟨List.mem_range.1 fork, ?_⟩
      simp only [Ledger.ticksLeft, ledger, load_age]
      omega
    · cases mem
  current _ e := by cases e
  nodup := List.nodup_range _
  forks _ _ := Int.emod_nonneg _ (by decide)

theorem cost_load (hp : p < script.length) : (load nr script).cost p = script[p].rounds := by
  have free : ¬ (load nr script).Waiting p := fun ⟨_, _, mem⟩ => by cases mem
  simp only [cost, Ledger.ticksLeft, Ledger.entriesLeft, ledger, load_age, if_neg free,
    load_procs hp, Descriptor.toProcess, Process.blank, Descriptor.rounds]
  simp

/-- The rank of the loaded script is at most `roundBound`. -/
theorem rank_load_le : (load nr script).rank script.length ≤ roundBound script := by
  have idle : (load nr script).idleLeft ≤ (script.map Descriptor.idleRounds).foldr max 0 :=
    Finset.sup_le fun p hp => by
      have hp := List.mem_range.1 (List.mem_toFinset.1 hp)
      refine List.le_max_of_le (List.mem_map_of_mem _ (List.getElem_mem hp)) ?_
      simp only [load_startsAt hp, Descriptor.idleRounds]
      omega
  have sum : ∑ p ∈ Finset.range script.length, (load nr script).cost p =
      (script.map Descriptor.rounds).sum := by
    rw [Finset.sum_range, ← Fin.sum_univ_get']
    exact Finset.sum_congr rfl fun p _ => cost_load p.2
  simp only [rank, roundBound, sum]
  omega

end Load

/-- FIFO, SJF, SRTF and Round-Robin take the FCFS callbacks, keep the ready queue and pick
from it. -/
theorem fcfs_laws (maxPrio : Int) {pol : Policy} (fcfs : pol ∈ [Policy.fifo, .sjf, .srtf, .rr]) :
    (pol.scheduler maxPrio).Fcfs ∧ (pol.scheduler maxPrio).KeepsReady ∧
      (pol.scheduler maxPrio).PicksQueued := by
  refine ⟨(Policy.fcfs_callbacks maxPrio fcfs).1, (Policy.fcfs_callbacks maxPrio fcfs).2, ?_⟩
  simp only [List.mem_cons, List.mem_singleton, List.not_mem_nil, or_false] at fcfs
  rcases fcfs with rfl | rfl | rfl | rfl
  exacts [fifoScheduler_picksQueued, sjfScheduler_picksQueued, srtfScheduler_picksQueued,
    rrScheduler_picksQueued]

/-- For FIFO, SJF, SRTF and Round-Robin and every script, the loop of `__do_simulation`
leaves the loop, or stops on a fault, within `roundBound script + 1` rounds: no process is
left waiting for a wakeup that never comes while the loop goes on. -/
theorem fcfs_loop_ends (maxPrio : Int) (pol : Policy) (fcfs : pol ∈ [Policy.fifo, .sjf, .srtf, .rr])
    (nr : Nat) (script : List Descriptor) {fuel : Nat} (enough : roundBound script < fuel) :
    (∃ s, run (pol.scheduler maxPrio) fuel (load nr script) = .ok (.halt s)) ∨
      ∃ e, run (pol.scheduler maxPrio) fuel (load nr script) = .error e :=
  have laws := fcfs_laws maxPrio fcfs
  run_ends laws.1 (Policy.lawful maxPrio pol) laws.2.1 (Policy.keepsForks maxPrio pol) laws.2.2
    bounded_load (lt_of_le_of_lt rank_load_le enough)

/-- Round-Robin, three processes sharing one resource: twenty rounds are enough. -/
theorem rr_shared_resource_ends : roundBound [⟨0, 2, 0, 0, [⟨0, 0, 2⟩]⟩, ⟨1, 2, 0, 0, [⟨0, 0, 1⟩]⟩,
      ⟨2, 2, 0, 0, [⟨0, 0, 1⟩]⟩] = 19 ∧
    ((∃ s, run (Policy.rr.scheduler 0) 20 (load 1 [⟨0, 2, 0, 0, [⟨0, 0, 2⟩]⟩,
        ⟨1, 2, 0, 0, [⟨0, 0, 1⟩]⟩, ⟨2, 2, 0, 0, [⟨0, 0, 1⟩]⟩]) = .ok (.halt s)) ∨
      ∃ e, run (Policy.rr.scheduler 0) 20 (load 1 [⟨0, 2, 0, 0, [⟨0, 0, 2⟩]⟩,
        ⟨1, 2, 0, 0, [⟨0, 0, 1⟩]⟩, ⟨2, 2, 0, 0, [⟨0, 0, 1⟩]⟩]) = .error e) :=
  ⟨by decide, fcfs_loop_ends 0 .rr (by decide) 1 _ (by decide)⟩

end ProcessorScheduler
