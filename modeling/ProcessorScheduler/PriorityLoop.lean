import ProcessorScheduler.Termination
import ProcessorScheduler.PriorityPick

/-!
# The loop of `__do_simulation` always ends

Under every policy of `pa2.c`, Priority, Priority+Aging, PCP and PIP included, and within a
number of rounds computed from the script, the `while (true)` loop of `__do_simulation` is
left, or the program stops on one of its faults, or it gives `list_add` a node that is still
linked, past which the model does not follow it (`loop_ends`).

The rank of `Termination` does not decrease under the priority callbacks. `prio_acquire`,
`pcp_acquire` and `pip_acquire` link a granted `current` at the tail of the ready queue
whatever its age, so a process with no tick left can be picked again and run without aging.
The rank used here (`Sys.yieldRank`) adds to the cost of a process one round for each entry
of its plan still to take, since a grant can leave it so (`Sys.Stranded`), and one round
while it is stranded. A round that runs a stranded process pays with the second when the
pick takes it out of the ready queue; a grant pays with the first for the round it may
strand.

The callbacks enter the argument only through what the rank reads of them
(`Scheduler.Yields`): an acquire either grants and links `current` into the ready queue or
blocks it, a release wakes at most one waiter, and `schedule()` returns `current` or a ready
process. The invariant is `Sys.YieldBounded`: `Sys.Bounded` without the ticks of linked
processes, and with the ticks of the processes still to fork.
-/

namespace ProcessorScheduler

open Sys

namespace Sys

/-- `p` sits in the ready queue with no tick left to run. -/
def Stranded (s : Sys) (p : Nat) : Prop :=
  p ∈ s.readyqueue ∧ s.ledger.ticksLeft p = 0

instance (s : Sys) (p : Nat) : Decidable (s.Stranded p) :=
  inferInstanceAs (Decidable (_ ∧ _))

/-- What process `p` can still cost the loop under the priority callbacks: its cost under the
FCFS callbacks, one round more for each entry it has still to take, and one round while it
is stranded. -/
def yieldCost (s : Sys) (p : Nat) : Nat :=
  s.cost p + (s.ledger.toAcquire p).length + if s.Stranded p then 1 else 0

/-- The rank of a state with `n` processes loaded, under the priority callbacks. -/
def yieldRank (n : Nat) (s : Sys) : Nat :=
  s.idleLeft + ∑ p ∈ Finset.range n, s.yieldCost p

end Sys

/-! ## What the rank needs of the callbacks -/

/-- What an acquire callback of the priority family does, as the rank sees it: `current`,
linked nowhere, is granted the resource and linked into the ready queue, or is linked into
a wait queue. The ledger changes at most in an owner, `current` stays, and no other process
moves. -/
structure YieldAcquire (c : Nat) (s : Sys) (b : Bool) (s' : Sys) : Prop where
  free : ¬ s.Linked c
  ledger : ∃ owner, s'.ledger = { s.ledger with owner }
  current : s'.current = s.current
  others : ∀ p ≠ c, (s'.Waiting p ↔ s.Waiting p) ∧ (p ∈ s'.readyqueue ↔ p ∈ s.readyqueue)
  linked : ∀ p, s'.Linked p → s.Linked p ∨ p = c
  placed : cond b (c ∈ s'.readyqueue ∧ ¬ s'.Waiting c) (s'.Waiting c ∧ c ∉ s'.readyqueue)

/-- What a release callback of the priority family does, as the rank sees it: the ledger
changes at most in an owner, `current` stays, nothing is newly linked, and at most one
process, the waiter woken, moves. -/
structure YieldRelease (s s' : Sys) : Prop where
  ledger : ∃ owner, s'.ledger = { s.ledger with owner }
  current : s'.current = s.current
  linked : ∀ p, s'.Linked p → s.Linked p
  moved : ∃ w, ∀ p ≠ w, (s'.Waiting p ↔ s.Waiting p) ∧ (p ∈ s'.readyqueue ↔ p ∈ s.readyqueue)

/-- The callbacks of a scheduler of the priority family, as the rank sees them. -/
structure Scheduler.Yields (sched : Scheduler) : Prop where
  acquire {i : Int} {c : Nat} {s s' : Sys} {b : Bool} :
    sched.acquire i c s = .ok (b, s') → YieldAcquire c s b s'
  release {i : Int} {c : Nat} {s s' : Sys} : sched.release i c s = .ok s' → YieldRelease s s'
  schedule {s : Sys} {r : Sys × Option Nat} : sched.schedule s = .ok r → r.1.resources = s.resources
  picks : sched.PicksQueued

/-! ## The acquire and release callbacks of the priority family -/

/-- `t` is `s` with some priorities changed. -/
structure PrioCopy (s t : Sys) : Prop where
  ledger : t.ledger = s.ledger
  resources : t.resources = s.resources
  readyqueue : t.readyqueue = s.readyqueue
  forkqueue : t.forkqueue = s.forkqueue
  current : t.current = s.current

namespace PrioCopy

variable {s t : Sys} {p : Nat}

theorem refl (s : Sys) : PrioCopy s s := ⟨rfl, rfl, rfl, rfl, rfl⟩

/-- `p->prio = v`, or any write of a record that keeps what the ledger reads. -/
theorem setProc {f : Process → Process} (age : (f (s.procs p)).age = (s.procs p).age)
    (lifespan : (f (s.procs p)).lifespan = (s.procs p).lifespan)
    (toAcquire : (f (s.procs p)).resourcesToAcquire = (s.procs p).resourcesToAcquire)
    (holding : (f (s.procs p)).resourcesHolding = (s.procs p).resourcesHolding) :
    PrioCopy s (s.setProc p f) :=
  ⟨ledger_setProc age lifespan toAcquire holding, rfl, rfl, rfl, rfl⟩

theorem nrResources (copy : PrioCopy s t) : t.nrResources = s.nrResources :=
  congrArg Ledger.nrResources copy.ledger

theorem linked (copy : PrioCopy s t) : t.Linked p ↔ s.Linked p :=
  linked_congr copy.readyqueue copy.forkqueue copy.resources copy.nrResources

end PrioCopy

section Callbacks

variable {s t s' : Sys} {c r p : Nat}

theorem waiting_congr (waits : ∀ q, (s'.resources q).waitqueue = (s.resources q).waitqueue)
    (nr : s'.nrResources = s.nrResources) : s'.Waiting p ↔ s.Waiting p := by
  simp only [Waiting, waits, nr]

/-- The grant of `prio_acquire`, `pcp_acquire` and `pip_acquire`. -/
theorem yieldAcquire_grant (copy : PrioCopy s t)
    (h : ((t.setOwner r (some c)).setStatus c .wait).linkReadyTail c = .ok s') :
    YieldAcquire c s true s' := by
  obtain ⟨free, rfl⟩ := linkReadyTail_ok h
  have free : ¬ s.Linked c := fun l => free (linked_setStatus.2 (linked_setOwner.2 (copy.linked.2 l)))
  have waiting : ∀ q, (((t.setOwner r (some c)).setStatus c .wait).Waiting q ↔ s.Waiting q) :=
    fun q => waiting_congr (fun x => by simp [setStatus, copy.resources]) copy.nrResources
  refine ⟨free, ⟨Function.update s.ledger.owner r (some c), ?_⟩, copy.current,
    fun q ne => ⟨waiting q, by simp [setStatus, setOwner, copy.readyqueue, ne]⟩, fun q l => ?_,
    ⟨by simp, fun w => free (.inr (.inr ((waiting c).1 w)))⟩⟩
  · rw [ledger_withReady, ledger_setStatus, ledger_setOwner, copy.ledger]; rfl
  · rcases l with ready | fork | wait
    · rcases List.mem_append.1 ready with ready | added
      · exact .inl (.inl (by simpa [setStatus, setOwner, copy.readyqueue] using ready))
      · exact .inr (List.mem_singleton.1 added)
    · exact .inl (.inr (.inl (by simpa [setStatus, setOwner, copy.forkqueue] using fork)))
    · exact .inl (.inr (.inr ((waiting q).1 wait)))

/-- The refusal of the three acquires: `current` is linked into `r`'s wait queue. -/
theorem yieldAcquire_block (copy : PrioCopy s t) (hr : r < s.nrResources)
    (h : t.blockOn r c = .ok s') : YieldAcquire c s false s' := by
  obtain ⟨free, rfl⟩ := linkWaitTail_ok h
  have free : ¬ s.Linked c := fun l => free (linked_setStatus.2 (copy.linked.2 l))
  have waits : ∀ q x, x ∈ (((t.setStatus c .wait).setResource r fun x =>
      { x with waitqueue := x.waitqueue ++ [c] }).resources q).waitqueue ↔
        x ∈ (s.resources q).waitqueue ∨ q = r ∧ x = c := fun q x => by
    by_cases e : q = r
    · subst e; simp [setStatus, copy.resources]
    · simp [setStatus, copy.resources, e]
  have nr : ((t.setStatus c .wait).setResource r fun x =>
      { x with waitqueue := x.waitqueue ++ [c] }).nrResources = s.nrResources := copy.nrResources
  refine ⟨free, ⟨s.ledger.owner, ?_⟩, copy.current, fun q ne => ⟨?_, ?_⟩, fun q l => ?_,
    ⟨⟨r, nr ▸ hr, (waits r c).2 (.inr ⟨rfl, rfl⟩)⟩, fun ready => free (.inl ?_)⟩⟩
  · rw [ledger_setResource rfl, ledger_setStatus, copy.ledger]
  · simp only [Waiting, nr, waits, ne, and_false, or_false]
  · simp [setStatus, copy.readyqueue]
  · rcases l with ready | fork | ⟨x, hx, wait⟩
    · exact .inl (.inl (by simpa [setStatus, copy.readyqueue] using ready))
    · exact .inl (.inr (.inl (by simpa [setStatus, copy.forkqueue] using fork)))
    · rcases (waits x q).1 wait with wait | ⟨-, rfl⟩
      · exact .inl (.inr (.inr ⟨x, nr ▸ hx, wait⟩))
      · exact .inr rfl
  · simpa [setStatus, copy.readyqueue] using ready

/-- The wake-up of `prio_release`, `pcp_release` and `pip_release`, after `r->owner = NULL`. -/
theorem yieldRelease_wakeup (copy : PrioCopy s t) (hr : r < s.nrResources)
    (h : (t.setOwner r none).prioWakeup r = .ok s') : YieldRelease s s' := by
  have free : YieldRelease s (t.setOwner r none) :=
    ⟨⟨Function.update s.ledger.owner r none, by rw [ledger_setOwner, copy.ledger]; rfl⟩,
      copy.current, fun p l => copy.linked.1 (linked_setOwner.1 l),
      ⟨0, fun p _ => ⟨waiting_congr (fun q => by simp [copy.resources]) copy.nrResources,
        by simp [setOwner, copy.readyqueue]⟩⟩⟩
  unfold prioWakeup at h
  dsimp only at h
  split at h
  · cases h; exact free
  split at h
  · cases h
  rename_i w found
  split at h
  · cases h
  obtain ⟨-, rfl⟩ := linkReadyTail_ok h
  have mem : w ∈ (s.resources r).waitqueue := by
    simpa [copy.resources] using List.mem_of_find?_eq_some found
  have waits : ∀ q p, p ∈ ((((t.setOwner r none).unlinkWait r w).setStatus w .ready).resources
      q).waitqueue → p ∈ (s.resources q).waitqueue := fun q p => by
    by_cases e : q = r
    · subst e; simpa [setStatus, unlinkWait, copy.resources] using List.mem_of_mem_erase
    · simp [setStatus, unlinkWait, copy.resources, e]
  have stays : ∀ q p, p ≠ w → p ∈ (s.resources q).waitqueue →
      p ∈ ((((t.setOwner r none).unlinkWait r w).setStatus w .ready).resources q).waitqueue :=
    fun q p ne => by
      by_cases e : q = r
      · subst e; simp [setStatus, unlinkWait, copy.resources, List.mem_erase_of_ne ne]
      · simp [setStatus, unlinkWait, copy.resources, e]
  have nr : (((t.setOwner r none).unlinkWait r w).setStatus w .ready).nrResources = s.nrResources :=
    copy.nrResources
  refine ⟨⟨Function.update s.ledger.owner r none, ?_⟩, copy.current, fun p l => ?_,
    ⟨w, fun p ne => ⟨?_, by simp [setStatus, unlinkWait, setOwner, copy.readyqueue, ne]⟩⟩⟩
  · rw [ledger_withReady, ledger_setStatus, ledger_unlinkWait, ledger_setOwner, copy.ledger]; rfl
  · rcases l with ready | fork | ⟨q, hq, wait⟩
    · rcases List.mem_append.1 ready with ready | woken
      · exact .inl (by simpa [setStatus, unlinkWait, setOwner, copy.readyqueue] using ready)
      · exact List.mem_singleton.1 woken ▸ .inr (.inr ⟨r, hr, mem⟩)
    · exact .inr (.inl (by simpa [setStatus, unlinkWait, setOwner, copy.forkqueue] using fork))
    · exact .inr (.inr ⟨q, nr ▸ hq, waits q p wait⟩)
  · exact ⟨fun ⟨q, hq, wait⟩ => ⟨q, nr ▸ hq, waits q p wait⟩,
      fun ⟨q, hq, wait⟩ => ⟨q, nr.symm ▸ hq, stays q p ne wait⟩⟩

end Callbacks

section Family

variable {s s' : Sys} {c : Nat} {i : Int} {b : Bool}

theorem prioAcquire_yields (h : prioAcquire i c s = .ok (b, s')) : YieldAcquire c s b s' := by
  obtain ⟨r, hr, h⟩ := bind_eq_ok.1 h
  split at h <;> obtain ⟨s₁, h₁, e⟩ := bind_ok_eq_ok.1 h <;> cases e
  · exact yieldAcquire_grant (.refl s) h₁
  · exact yieldAcquire_block (.refl s) (resourceIndex_ok hr).2 h₁

theorem pcpAcquire_yields (maxPrio : Int) (h : pcpAcquire maxPrio i c s = .ok (b, s')) :
    YieldAcquire c s b s' := by
  obtain ⟨r, hr, h⟩ := bind_eq_ok.1 h
  split at h <;> obtain ⟨s₁, h₁, e⟩ := bind_ok_eq_ok.1 h <;> cases e
  · exact yieldAcquire_grant (t := s.setProc c fun p => { p with prio := maxPrio })
      (.setProc rfl rfl rfl rfl) h₁
  · exact yieldAcquire_block (.refl s) (resourceIndex_ok hr).2 h₁

theorem pipAcquire_yields (h : pipAcquire i c s = .ok (b, s')) : YieldAcquire c s b s' := by
  obtain ⟨r, hr, h⟩ := bind_eq_ok.1 h
  split at h <;> obtain ⟨s₁, h₁, e⟩ := bind_ok_eq_ok.1 h <;> cases e
  · exact yieldAcquire_grant (.refl s) h₁
  · split at h₁
    · exact yieldAcquire_block (.setProc rfl rfl rfl rfl) (resourceIndex_ok hr).2 h₁
    · exact yieldAcquire_block (.refl s) (resourceIndex_ok hr).2 h₁

theorem prioRelease_yields (h : prioRelease i c s = .ok s') : YieldRelease s s' := by
  obtain ⟨r, hr, h⟩ := bind_eq_ok.1 h
  split at h
  · cases h
  · exact yieldRelease_wakeup (.refl s) (resourceIndex_ok hr).2 h

theorem pcpRelease_yields (h : pcpRelease i c s = .ok s') : YieldRelease s s' := by
  obtain ⟨r, hr, h⟩ := bind_eq_ok.1 h
  split at h
  · cases h
  · exact yieldRelease_wakeup (.setProc rfl rfl rfl rfl) (resourceIndex_ok hr).2 h

end Family

/-! ## The picks of Priority, Priority+Aging, PCP and PIP -/

section Picks

variable {s : Sys} {r : Sys × Option Nat} {maxPrio : Int} {p : Nat}

/-- The writes of the priority picks other than the unlink: only priorities change. -/
theorem agePrio_queues : (s.agePrio maxPrio p).readyqueue = s.readyqueue ∧
    (s.agePrio maxPrio p).resources = s.resources := by
  unfold agePrio; split <;> exact ⟨rfl, rfl⟩

theorem ageAll_queues : ∀ (l : List Nat) (s : Sys),
    (l.foldl (fun s p => s.agePrio maxPrio p) s).readyqueue = s.readyqueue ∧
      (l.foldl (fun s p => s.agePrio maxPrio p) s).resources = s.resources
  | [], _ => ⟨rfl, rfl⟩
  | _ :: ps, s => by
    obtain ⟨ready, res⟩ := ageAll_queues ps (s.agePrio maxPrio _)
    exact ⟨ready.trans agePrio_queues.1, res.trans agePrio_queues.2⟩

/-- The `pick_next` loop of `pa_schedule` returns what it had or a process of the list it
scans, and changes only priorities. -/
theorem agePick_queues (maxPrio max : Int) : ∀ (l : List Nat) (next : Option Nat) (s : Sys),
    (agePick maxPrio max l next s).1.readyqueue = s.readyqueue ∧
      (agePick maxPrio max l next s).1.resources = s.resources ∧
      ∀ c, (agePick maxPrio max l next s).2 = some c → next = some c ∨ c ∈ l
  | [], _, _ => ⟨rfl, rfl, fun _ => .inl⟩
  | q :: qs, next, s => by
    unfold agePick
    split
    · obtain ⟨ready, res, found⟩ := agePick_queues maxPrio max qs (some q) s
      refine ⟨ready, res, fun c e => ?_⟩
      rcases found c e with e | mem
      · cases e; exact .inr (List.mem_cons_self _ _)
      · exact .inr (List.mem_cons_of_mem _ mem)
    · obtain ⟨ready, res, found⟩ := agePick_queues maxPrio max qs next (s.agePrio maxPrio q)
      exact ⟨ready.trans agePrio_queues.1, res.trans agePrio_queues.2,
        fun c e => (found c e).imp_right (List.mem_cons_of_mem _)⟩

/-- `pick_next` of `pa_schedule`: with `cnt` not zero it unlinks and returns a process of the
ready queue, or faults; with `cnt` zero it returns `NULL` and changes nothing. -/
theorem paPickNext_queued {cnt : Nat} {max : Int} (h : paPickNext maxPrio cnt max s = .ok r) :
    (∀ c, r.2 = some c → c ∈ s.readyqueue) ∧ (∀ p ∈ r.1.readyqueue, p ∈ s.readyqueue) ∧
      (r.2 = none → cnt = 0 ∧ r.1 = s) ∧ r.1.resources = s.resources := by
  unfold paPickNext at h
  split at h
  · split at h
    · cases h
    · rename_i s₁ next e
      cases h
      obtain ⟨ready, res, found⟩ := agePick_queues maxPrio
        (scanMax s.prioOf max s.readyqueue) s.readyqueue none s
      rw [e] at ready res found
      refine ⟨fun c e' => ?_, fun p hp => ?_, nofun, res⟩
      · cases e'; exact (found _ rfl).resolve_left nofun
      · exact ready ▸ List.mem_of_mem_erase hp
  · cases h; exact ⟨nofun, fun _ => id, fun _ => ⟨by omega, rfl⟩, rfl⟩

/-- `pick_next` of `pcp_schedule`, as `paPickNext_queued`. -/
theorem pcpPickNext_queued {cnt : Nat} {max : Int} (h : pcpPickNext cnt max s = .ok r) :
    (∀ c, r.2 = some c → c ∈ s.readyqueue) ∧ (∀ p ∈ r.1.readyqueue, p ∈ s.readyqueue) ∧
      (r.2 = none → cnt = 0 ∧ r.1 = s) ∧ r.1.resources = s.resources := by
  unfold pcpPickNext at h
  split at h
  · split at h
    · cases h
    · rename_i next found
      cases h
      exact ⟨fun c e => by cases e; exact List.mem_of_find?_eq_some found,
        fun p hp => List.mem_of_mem_erase hp, nofun, rfl⟩
  · cases h; exact ⟨nofun, fun _ => id, fun _ => ⟨by omega, rfl⟩, rfl⟩

theorem prioScheduler_picksQueued : prioScheduler.PicksQueued := by
  intro s r h
  change prioSchedule s = .ok r at h
  unfold prioSchedule at h
  split at h
  · cases h; exact ⟨fun c e => .inl (by cases e; assumption), fun p hp => .inl hp, nofun⟩
  · split at h <;> cases h
    · obtain ⟨chosen, ready, some⟩ :=
        pickFirst_queued s.prioOf (scanMax s.prioOf 0 s.readyqueue) ‹_›
      exact ⟨fun c e => .inr (chosen c e), fun p hp => .inl (ready p hp), fun e => absurd e some⟩
    · rename_i empty
      exact ⟨nofun, fun p hp => .inl hp, fun _ => by simpa using empty⟩

theorem prioSchedule_resources (h : prioSchedule s = .ok r) : r.1.resources = s.resources := by
  unfold prioSchedule at h
  split at h
  · cases h; rfl
  · split at h <;> cases h
    · unfold pickFirst; split <;> rfl
    · rfl

/-- `pa_schedule` and `pcp_schedule` share their shape: `pick` is their `pick_next`, `age`
what they do to the ready queue when `current` is kept. -/
theorem preemptSchedule_queued
    (pick : Nat → Int → Sys → Except Fault (Sys × Option Nat)) (age : Sys → Sys)
    (picks : ∀ {cnt max t r}, pick cnt max t = .ok r →
      (∀ c, r.2 = some c → c ∈ t.readyqueue) ∧ (∀ p ∈ r.1.readyqueue, p ∈ t.readyqueue) ∧
        (r.2 = none → cnt = 0 ∧ r.1 = t) ∧ r.1.resources = t.resources)
    (ages : ∀ t, (age t).readyqueue = t.readyqueue ∧ (age t).resources = t.resources)
    (h : (match s.runnable with
      | none => pick s.readyqueue.length 0 s
      | some c =>
        if s.readyqueue.length ≠ 0 then
          if (s.procs c).prio ≤ scanMax s.prioOf 0 s.readyqueue then do
            let s' ← s.linkReadyTail c
            pick s.readyqueue.length (scanMax s.prioOf 0 s.readyqueue) s'
          else .ok ((age s).resetPrio c, some c)
        else .ok (s.resetPrio c, some c)) = .ok r) :
    ((∀ c, r.2 = some c → s.runnable = some c ∨ c ∈ s.readyqueue) ∧
      (∀ p ∈ r.1.readyqueue, p ∈ s.readyqueue ∨ s.runnable = some p) ∧
      (r.2 = none → r.1.readyqueue = [])) ∧ r.1.resources = s.resources := by
  split at h
  · rename_i idle
    obtain ⟨chosen, ready, none, res⟩ := picks h
    refine ⟨⟨fun c e => .inr (chosen c e), fun p hp => .inl (ready p hp), fun e => ?_⟩, res⟩
    obtain ⟨empty, rfl⟩ := none e
    simpa using empty
  · rename_i c run
    split at h
    · rename_i queued
      split at h
      · obtain ⟨s₁, link, pick⟩ := bind_eq_ok.1 h
        obtain ⟨-, rfl⟩ := linkReadyTail_ok link
        obtain ⟨chosen, ready, none, res⟩ := picks pick
        have back : ∀ q ∈ s.readyqueue ++ [c], q ∈ s.readyqueue ∨ s.runnable = some q :=
          fun q hq => (List.mem_append.1 hq).imp_right fun e => by rw [run, List.mem_singleton.1 e]
        exact ⟨⟨fun q e => (back q (chosen q e)).symm, fun q hq => back q (ready q hq),
          fun e => absurd (none e).1 queued⟩, res⟩
      · cases h
        exact ⟨⟨fun q e => .inl (by cases e; exact run), fun q hq => .inl (by
          simpa [resetPrio, (ages s).1] using hq), nofun⟩, (ages s).2⟩
    · cases h; exact ⟨⟨fun q e => .inl (by cases e; exact run), fun q hq => .inl hq, nofun⟩, rfl⟩

theorem paSchedule_queued (h : paSchedule maxPrio s = .ok r) :
    ((∀ c, r.2 = some c → s.runnable = some c ∨ c ∈ s.readyqueue) ∧
      (∀ p ∈ r.1.readyqueue, p ∈ s.readyqueue ∨ s.runnable = some p) ∧
      (r.2 = none → r.1.readyqueue = [])) ∧ r.1.resources = s.resources := by
  unfold paSchedule at h
  exact preemptSchedule_queued (paPickNext maxPrio)
    (fun t => t.readyqueue.foldl (fun s p => s.agePrio maxPrio p) t) paPickNext_queued
    (fun t => ageAll_queues t.readyqueue t) h

theorem pcpSchedule_queued (h : pcpSchedule s = .ok r) :
    ((∀ c, r.2 = some c → s.runnable = some c ∨ c ∈ s.readyqueue) ∧
      (∀ p ∈ r.1.readyqueue, p ∈ s.readyqueue ∨ s.runnable = some p) ∧
      (r.2 = none → r.1.readyqueue = [])) ∧ r.1.resources = s.resources := by
  unfold pcpSchedule at h
  exact preemptSchedule_queued pcpPickNext id pcpPickNext_queued (fun _ => ⟨rfl, rfl⟩) h

end Picks

theorem prioScheduler_yields : prioScheduler.Yields :=
  ⟨prioAcquire_yields, prioRelease_yields, prioSchedule_resources, prioScheduler_picksQueued⟩

theorem paScheduler_yields (maxPrio : Int) : (paScheduler maxPrio).Yields :=
  ⟨prioAcquire_yields, prioRelease_yields, fun h => (paSchedule_queued h).2,
    fun h => (paSchedule_queued h).1⟩

theorem pcpScheduler_yields (maxPrio : Int) : (pcpScheduler maxPrio).Yields :=
  ⟨pcpAcquire_yields maxPrio, pcpRelease_yields, fun h => (pcpSchedule_queued h).2,
    fun h => (pcpSchedule_queued h).1⟩

theorem pipScheduler_yields : pipScheduler.Yields :=
  ⟨pipAcquire_yields, pcpRelease_yields, fun h => (pcpSchedule_queued h).2,
    fun h => (pcpSchedule_queued h).1⟩

/-! ## What each step does to the costs -/

section YieldCost

variable {s s' : Sys} {p c : Nat}

/-- A step that changes at most owners in the ledger and keeps `p`'s place in the queues. -/
theorem yieldCost_eq_of (ledger : ∃ owner, s'.ledger = { s.ledger with owner })
    (waiting : s'.Waiting p ↔ s.Waiting p) (ready : p ∈ s'.readyqueue ↔ p ∈ s.readyqueue) :
    s'.yieldCost p = s.yieldCost p := by
  obtain ⟨owner, hl⟩ := ledger
  have ticks : s'.ledger.ticksLeft p = s.ledger.ticksLeft p := by rw [hl]; rfl
  have pending : s'.ledger.toAcquire p = s.ledger.toAcquire p := by rw [hl]
  have cost : s'.cost p = s.cost p := cost_eq_of ticks (by rw [hl]; rfl) waiting
  simp only [yieldCost, Stranded, cost, ticks, ready, pending]

/-- A step that changes at most owners in the ledger moves `p` by at most two rounds: one
for the wait queue it may leave, one for the ready queue it may join. -/
theorem yieldCost_le_of (ledger : ∃ owner, s'.ledger = { s.ledger with owner }) :
    s'.yieldCost p ≤ s.yieldCost p + 2 := by
  obtain ⟨owner, hl⟩ := ledger
  have ticks : s'.ledger.ticksLeft p = s.ledger.ticksLeft p := by rw [hl]; rfl
  have entries : s'.ledger.entriesLeft p = s.ledger.entriesLeft p := by rw [hl]; rfl
  have pending : s'.ledger.toAcquire p = s.ledger.toAcquire p := by rw [hl]
  simp only [yieldCost, cost, ticks, entries, pending]
  split_ifs <;> omega

theorem yieldCost_setStatus {st : Status} : (s.setStatus c st).yieldCost = s.yieldCost :=
  funext fun _ => yieldCost_eq_of ⟨s.ledger.owner, ledger_setStatus st⟩ Iff.rfl Iff.rfl

/-- `list_move_tail(&rs->list, &current->__resources_holding)` for an entry of the plan: one
entry fewer to take. -/
theorem yieldCost_moveToHolding {rs : ResourceSchedule}
    (mem : rs ∈ (s.procs c).resourcesToAcquire) :
    (s.moveToHolding c rs).yieldCost c + 1 = s.yieldCost c ∧
      ∀ p ≠ c, (s.moveToHolding c rs).yieldCost p = s.yieldCost p := by
  have ticks : (s.moveToHolding c rs).ledger.ticksLeft = s.ledger.ticksLeft := by
    rw [ledger_moveToHolding, Ledger.ticksLeft_moveToHolding]
  have cost : (s.moveToHolding c rs).cost = s.cost := by
    funext p
    refine cost_eq_of (by rw [ticks]) ?_ Iff.rfl
    rw [ledger_moveToHolding, Ledger.entriesLeft_moveToHolding mem]
  have stranded : ∀ p, (s.moveToHolding c rs).Stranded p ↔ s.Stranded p := fun p => by
    simp only [Stranded, ticks]; exact Iff.rfl
  have taken : ((s.procs c).resourcesToAcquire.erase rs).length + 1 =
      (s.procs c).resourcesToAcquire.length := by
    have := List.length_pos_of_mem mem
    rw [List.length_erase_of_mem mem]; omega
  refine ⟨?_, fun p hp => ?_⟩
  · simp only [yieldCost, cost, stranded, ledger_moveToHolding, Ledger.moveToHolding_toAcquire,
      Function.update_same]
    simp only [Ledger.toAcquire, ledger]
    omega
  · simp only [yieldCost, cost, stranded, ledger_moveToHolding, Ledger.moveToHolding_toAcquire,
      Function.update_noteq hp]

/-- `current->age++`: one tick fewer if it had one, and stranded if that was its last tick
and it sits in the ready queue. -/
theorem yieldCost_incAge :
    (s.incAge c).yieldCost c + (if 0 < s.ledger.ticksLeft c then 1 else 0) =
        s.yieldCost c + (if c ∈ s.readyqueue ∧ s.ledger.ticksLeft c = 1 then 1 else 0) ∧
      ∀ p ≠ c, (s.incAge c).yieldCost p = s.yieldCost p := by
  have ticks := fun p => Ledger.ticksLeft_incAge (l := s.ledger) (c := c) (p := p)
  have waiting : ∀ p, (s.incAge c).Waiting p ↔ s.Waiting p := fun _ => Iff.rfl
  refine ⟨?_, fun p hp => ?_⟩
  · have := ticks c
    simp only [yieldCost, cost, Stranded, ledger_incAge, Ledger.entriesLeft_incAge, waiting,
      if_true] at this ⊢
    simp only [incAge, setProc_readyqueue, Ledger.incAge_toAcquire, this, if_true]
    by_cases ready : c ∈ s.readyqueue <;> simp only [ready, true_and, false_and, if_false] <;>
      split_ifs <;> omega
  · have := ticks p
    rw [if_neg hp] at this
    simp only [yieldCost, cost, Stranded, ledger_incAge, Ledger.entriesLeft_incAge, waiting,
      this, Ledger.incAge_toAcquire]
    rfl

/-- `current->__resources_holding` rewritten: two per entry it gains or loses. -/
theorem yieldCost_setHolding (held : List ResourceSchedule) :
    (s.setHolding c held).yieldCost c + 2 * (s.procs c).resourcesHolding.length =
        s.yieldCost c + 2 * held.length ∧
      ∀ p ≠ c, (s.setHolding c held).yieldCost p = s.yieldCost p := by
  obtain ⟨holds, others⟩ := cost_setHolding (s := s) (c := c) held
  have ticks : (s.setHolding c held).ledger.ticksLeft = s.ledger.ticksLeft := by
    rw [ledger_setHolding, Ledger.ticksLeft_setHolding]
  have pending : (s.setHolding c held).ledger.toAcquire = s.ledger.toAcquire := by
    funext p; by_cases hp : p = c <;> simp [hp, ledger, setHolding]
  have stranded : ∀ p, (s.setHolding c held).Stranded p ↔ s.Stranded p := fun p => by
    simp only [Stranded, ticks]; exact Iff.rfl
  refine ⟨?_, fun p hp => ?_⟩
  · simp only [yieldCost, pending, stranded]; omega
  · simp only [yieldCost, pending, stranded, others p hp]

/-- The costs after an acquire callback of the priority family: a grant leaves `current`'s
cost but may strand it, a refusal takes away its block. -/
theorem YieldAcquire.costs {b : Bool} (step : YieldAcquire c s b s') :
    (∀ p ≠ c, s'.yieldCost p = s.yieldCost p) ∧ s'.ledger.ticksLeft = s.ledger.ticksLeft ∧
      (s'.procs c).resourcesToAcquire = (s.procs c).resourcesToAcquire ∧
      cond b (s'.yieldCost c = s.yieldCost c + (if s'.Stranded c then 1 else 0))
        (s'.yieldCost c + 1 = s.yieldCost c) := by
  obtain ⟨owner, hl⟩ := step.ledger
  have ticks : s'.ledger.ticksLeft = s.ledger.ticksLeft := by rw [hl]; rfl
  have entries : s'.ledger.entriesLeft = s.ledger.entriesLeft := by rw [hl]; rfl
  have pending : s'.ledger.toAcquire = s.ledger.toAcquire := by rw [hl]
  have idle : ¬ s.Waiting c := fun w => step.free (.inr (.inr w))
  have stranded : ¬ s.Stranded c := fun st => step.free (.inl st.1)
  refine ⟨fun p hp => yieldCost_eq_of step.ledger (step.others p hp).1 (step.others p hp).2,
    ticks, congrFun pending c, ?_⟩
  have placed := step.placed
  cases b
  · simp only [yieldCost, Sys.cost, ticks, entries, pending, if_pos placed.1, if_neg idle,
      if_neg stranded, if_neg fun st : s'.Stranded c => placed.2 st.1, cond_false]
    omega
  · simp only [yieldCost, Sys.cost, ticks, entries, pending, if_neg placed.2, if_neg idle,
      if_neg stranded, cond_true]
    omega

end YieldCost

/-! ## The run of the dispatched process -/

section Run

variable {sched : Scheduler} (yields : sched.Yields) {c n : Nat}
include yields

/-- Once a grant has linked `current`, any further acquisition of the round would find it
linked: the rest of the loop passes over entries not due. -/
theorem acquireLoop_linked : ∀ (l : List ResourceSchedule) {x x' : Sys} {b : Bool},
    x.Linked c → acquireLoop sched c l x = .ok (b, x') → b = true ∧ x' = x
  | [], _, _, _, _, h => by cases h; exact ⟨rfl, rfl⟩
  | rs :: rest, x, x', b, linked, h => by
    unfold acquireLoop at h
    split at h
    · obtain ⟨_, h₁, -⟩ := bind_eq_ok.1 h
      exact absurd linked (yields.acquire h₁).free
    · exact acquireLoop_linked rest linked h

/-- The acquisitions of `current` under the priority callbacks, with `l` the entries of its
plan left to visit and `done` those passed over. A grant moves an entry of the plan to the
held list and links `current` into the ready queue: one entry fewer to take, and possibly
stranded. A refusal links it into a wait queue, one block fewer. No tick count changes, and
only `current` can be newly linked. -/
theorem acquireLoop_yield : ∀ (done l : List ResourceSchedule) {x x' : Sys} {b : Bool},
    (x.procs c).resourcesToAcquire = done ++ l → (∀ e ∈ done, e.at ≠ (x.procs c).age) →
    ¬ x.Linked c → acquireLoop sched c l x = .ok (b, x') →
    (∀ p ≠ c, x'.yieldCost p = x.yieldCost p) ∧ x'.ledger.ticksLeft = x.ledger.ticksLeft ∧
      (∀ p, x'.Linked p → x.Linked p ∨ p = c) ∧ x'.current = x.current ∧
      cond b (¬ x'.Waiting c ∧ x'.yieldCost c + (if c ∈ x'.readyqueue then 1 else 0) =
          x.yieldCost c + (if x'.Stranded c then 1 else 0))
        (x'.yieldCost c + 1 = x.yieldCost c)
  | _, [], x, _, _, _, _, free, h => by
    cases h
    have absent : c ∉ x.readyqueue := fun ready => free (.inl ready)
    refine ⟨fun _ _ => rfl, rfl, fun _ => .inl, rfl, fun w => free (.inr (.inr w)), ?_⟩
    simp only [if_neg absent, if_neg fun st : x.Stranded c => absent st.1]
  | done, rs :: rest, x, x', b, pend, passed, free, h => by
    unfold acquireLoop at h
    split at h
    · rename_i due
      obtain ⟨⟨ok, x₁⟩, h₁, h⟩ := bind_eq_ok.1 h
      have step := yields.acquire h₁
      obtain ⟨others, ticks, pending, last⟩ := step.costs
      cases ok
      · -- refused: `current` blocks
        cases h
        exact ⟨others, ticks, step.linked, step.current, last⟩
      · -- granted: the entry moves to the held list, and the rest of the loop passes
        have placed := step.placed
        have h : acquireLoop sched c rest (x₁.moveToHolding c rs) = .ok (b, x') := h
        obtain ⟨rfl, rfl⟩ := acquireLoop_linked yields rest (x := x₁.moveToHolding c rs) (.inl placed.1) h
        have mem : rs ∈ (x₁.procs c).resourcesToAcquire := by rw [pending, pend]; simp
        obtain ⟨taken, kept⟩ := yieldCost_moveToHolding mem
        have stranded : (x₁.moveToHolding c rs).Stranded c ↔ x₁.Stranded c := by
          simp only [Stranded, ledger_moveToHolding, Ledger.ticksLeft_moveToHolding]; exact Iff.rfl
        refine ⟨fun p hp => (kept p hp).trans (others p hp), by
          rw [ledger_moveToHolding, Ledger.ticksLeft_moveToHolding, ticks], step.linked,
          step.current, placed.2, ?_⟩
        have ready : c ∈ (x₁.moveToHolding c rs).readyqueue := placed.1
        simp only [if_pos ready, stranded]
        simp only [cond_true] at last
        omega
    · rename_i later
      exact acquireLoop_yield (done ++ [rs]) rest (by rw [pend]; simp)
        (List.forall_mem_append.2 ⟨passed, List.forall_mem_singleton.2 later⟩) free h

/-- The releases of `current` under the priority callbacks, with `kept` the held entries
already counted down and `l` those not yet visited: each release wakes at most one waiter,
two rounds at most, and drops a held entry, two rounds fewer. No tick count changes, and
nothing is newly linked. -/
theorem releaseLoop_yield (hc : c < n) : ∀ (kept l : List ResourceSchedule) {x x' : Sys},
    (x.procs c).resourcesHolding = kept ++ l → releaseLoop sched c kept l x = .ok x' →
    ∑ p ∈ Finset.range n, x'.yieldCost p ≤ ∑ p ∈ Finset.range n, x.yieldCost p ∧
      x'.ledger.ticksLeft = x.ledger.ticksLeft ∧ (∀ p, x'.Linked p → x.Linked p) ∧
      x'.current = x.current
  | _, [], _, _, _, h => by cases h; exact ⟨le_refl _, rfl, fun _ => id, rfl⟩
  | kept, rs :: rest, x, x', held, h => by
    unfold releaseLoop at h
    dsimp only at h
    split at h
    · -- the countdown reaches zero: release, then drop the entry
      obtain ⟨x₁, h₁, h⟩ := bind_eq_ok.1 h
      have step := yields.release h₁
      obtain ⟨owner, hl⟩ := step.ledger
      obtain ⟨w, moved⟩ := step.moved
      have held₁ : (x₁.procs c).resourcesHolding = kept ++ rs :: rest :=
        (congrArg (Ledger.holding · c) hl).trans held
      obtain ⟨dropped, same⟩ := yieldCost_setHolding (s := x₁) (c := c) (kept ++ rest)
      obtain ⟨sum', ticks', links', current'⟩ := releaseLoop_yield hc kept rest (by simp [setHolding]) h
      have up := sum_range_le_add (n := n) (fun p hp => yieldCost_eq_of step.ledger (moved p hp).1
        (moved p hp).2) (yieldCost_le_of (p := w) step.ledger)
      have down := sum_range_update hc same
      simp only [held₁, List.length_append, List.length_cons] at dropped
      refine ⟨by omega, ?_, fun p l => step.linked p (links' p l), current'.trans step.current⟩
      rw [ticks', ledger_setHolding, Ledger.ticksLeft_setHolding, hl]
      rfl
    · -- counted down and kept
      obtain ⟨sum', ticks', links', current'⟩ := releaseLoop_yield hc _ rest (by simp [setHolding]) h
      obtain ⟨kept', same⟩ := yieldCost_setHolding (s := x) (c := c)
        (kept ++ { rs with duration := rs.duration - 1 } :: rest)
      simp only [held, List.length_append, List.length_cons] at kept'
      have down := sum_range_update hc same
      refine ⟨by omega, ?_, links', current'⟩
      rw [ticks', ledger_setHolding, Ledger.ticksLeft_setHolding]

/-- Running `current` for a tick under the priority callbacks: the summed cost falls by one
if `current` had a tick left, and does not grow otherwise. A process linked afterwards was
linked before or is `current`, and only `current`'s ticks change. -/
theorem runCurrent_yield {s s' : Sys} (hc : c < n) (h : runCurrent sched c s = .ok s') :
    ∑ p ∈ Finset.range n, s'.yieldCost p + (if 0 < s.ledger.ticksLeft c then 1 else 0) ≤
        ∑ p ∈ Finset.range n, s.yieldCost p ∧
      (∀ p, s'.Linked p → s.Linked p ∨ p = c) ∧
      (∀ p ≠ c, s'.ledger.ticksLeft p = s.ledger.ticksLeft p) ∧ s'.current = s.current := by
  obtain ⟨-, free, b, s₁, h₁, h⟩ := runCurrent_ok h
  obtain ⟨others, ticks, links, current₁, last⟩ := acquireLoop_yield yields [] _
    (x := s.setStatus c .running) (List.nil_append _).symm (fun _ => nofun) free h₁
  rw [yieldCost_setStatus] at others last
  have ticks : s₁.ledger.ticksLeft = s.ledger.ticksLeft := by rw [ticks, ledger_setStatus]
  cases b
  · -- blocked: `current` waits on a resource
    have last : s₁.yieldCost c + 1 = s.yieldCost c := last
    cases h
    have := sum_range_update hc others
    exact ⟨by split <;> omega, links, fun p _ => by rw [ticks], current₁⟩
  · -- ran: `current` ages, then counts down what it holds
    obtain ⟨-, last⟩ := last
    obtain ⟨aged, others'⟩ := yieldCost_incAge (s := s₁) (c := c)
    have h : runCurrentRelease sched c (s₁.incAge c) = .ok s' := h
    obtain ⟨released, ticks', links', current'⟩ :=
      releaseLoop_yield yields hc [] _ (x := s₁.incAge c) (List.nil_append _).symm h
    -- the grant, if any, strands `current` only if the aging does not pay for it
    have paid : (s₁.incAge c).yieldCost c + (if 0 < s.ledger.ticksLeft c then 1 else 0) ≤
        s.yieldCost c := by
      simp only [Stranded, ticks] at aged last
      by_cases ready : c ∈ s₁.readyqueue <;>
        simp only [ready, true_and, false_and, if_true, if_false] at aged last <;>
        split_ifs at aged last ⊢ <;> omega
    have before := sum_range_update hc others
    have after := sum_range_update hc others'
    refine ⟨by omega, fun p l => links p (links' p l), fun p hp => ?_, current'.trans current₁⟩
    rw [ticks', ledger_incAge, Ledger.ticksLeft_incAge, if_neg hp, ticks]

end Run

/-! ## A round -/

/-- What the rank argument needs under the priority callbacks: every linked process and
`current` is one of the `n` loaded, and the fork queue has no repeats and holds only
processes with a tick left whose start tick, as `unsigned int`, is not before the clock. -/
structure Sys.YieldBounded (n : Nat) (s : Sys) : Prop where
  linked : ∀ p, s.Linked p → p < n
  current : ∀ c, s.current = some c → c < n
  nodup : s.forkqueue.Nodup
  forks : ∀ p ∈ s.forkqueue, (s.ticks : Int) ≤ (s.procs p).startsAt % UInt32.size
  fresh : ∀ p ∈ s.forkqueue, 0 < s.ledger.ticksLeft p

/-- A cost that falls by `k` at a loaded process and grows nowhere. -/
theorem sum_range_add_le {f g : Nat → Nat} {n c k : Nat} (hc : c < n) (h : ∀ p, g p ≤ f p)
    (hk : g c + k ≤ f c) : ∑ p ∈ Finset.range n, g p + k ≤ ∑ p ∈ Finset.range n, f p := by
  have mem := Finset.mem_range.2 hc
  rw [← Finset.add_sum_erase _ g mem, ← Finset.add_sum_erase _ f mem]
  have := Finset.sum_le_sum fun p (_ : p ∈ (Finset.range n).erase c) => h p
  omega

section Phases

variable {s t u : Sys}

/-- `__fork_on_schedule` keeps every cost: the processes it moves to the ready queue have a
tick left. -/
theorem forkOnSchedule_yieldCost (fresh : ∀ p ∈ s.forkqueue, 0 < s.ledger.ticksLeft p) :
    (forkOnSchedule s).yieldCost = s.yieldCost := by
  have hl : (forkOnSchedule s).ledger = s.ledger := (forkLoop_ledger s.forkqueue s).1
  have cost : (forkOnSchedule s).cost = s.cost :=
    cost_congr hl fun q => by rw [forkOnSchedule, (forkLoop_queues s.forkqueue s).1]
  funext p
  have stranded : (forkOnSchedule s).Stranded p ↔ s.Stranded p := by
    simp only [Stranded, hl]
    refine ⟨fun ⟨ready, spent⟩ => ⟨?_, spent⟩, fun ⟨ready, spent⟩ =>
      ⟨(forkLoop_queues s.forkqueue s).2 ready, spent⟩⟩
    rcases forkLoop_readyqueue _ _ ready with ready | fork
    · exact ready
    · exact absurd spent (Nat.pos_iff_ne_zero.1 (fresh p fork))
  simp only [yieldCost, cost, hl, stranded]

/-- `schedule()` and the retirement of `prev` keep every cost, but a process taken out of the
ready queue is no longer stranded: what is in the ready queue afterwards was there before or
is a runnable `current`, which has a tick left. -/
theorem yieldCost_pick (hl : u.ledger = t.ledger)
    (waits : ∀ q, (u.resources q).waitqueue = (t.resources q).waitqueue)
    (ready : ∀ p ∈ u.readyqueue, p ∈ t.readyqueue ∨ t.runnable = some p) (p : Nat) :
    u.yieldCost p + (if p ∉ u.readyqueue ∧ t.Stranded p then 1 else 0) ≤ t.yieldCost p := by
  have cost : u.cost = t.cost := cost_congr hl waits
  have stranded : u.Stranded p → t.Stranded p := fun ⟨mem, spent⟩ => by
    rw [hl] at spent
    refine ⟨(ready p mem).resolve_right fun run => ?_, spent⟩
    exact absurd spent (Nat.pos_iff_ne_zero.1 (ticksLeft_of_runnable run))
  simp only [yieldCost, cost, hl]
  by_cases su : u.Stranded p
  · rw [if_pos su, if_pos (stranded su), if_neg fun h => h.1 su.1]
  · rw [if_neg su]
    by_cases st : t.Stranded p
    · rw [if_pos st]; split_ifs <;> omega
    · rw [if_neg st, if_neg fun h => st h.2]

end Phases

section Round

variable {sched : Scheduler} (yields : sched.Yields) (lawful : sched.Lawful)
  (forks : sched.KeepsForks) {n : Nat} {s s' : Sys}
include yields lawful forks

/-- Every round that stays in the loop keeps `YieldBounded` and lowers the rank. -/
theorem doRound_yieldRank (inv : s.YieldBounded n) (h : doRound sched s = .ok (.next s')) :
    s'.YieldBounded n ∧ s'.yieldRank n < s.yieldRank n := by
  obtain ⟨fq, ticks, starts⟩ := doRound_forks forks h
  obtain ⟨nodup, due, idle⟩ := forkqueue_tick inv.nodup inv.forks fq ticks starts
  obtain ⟨r, s₂, hr, h₂, h⟩ := doRound_ok h
  obtain ⟨chosen, ready, empty⟩ := yields.picks hr
  have current₂ : s₂.current = r.2 := (retirePrev_frame h₂).1
  have hl₀ : (forkOnSchedule s).ledger = s.ledger := (forkLoop_ledger _ s).1
  have hl : s₂.ledger = s.ledger := retirePrev_ledger_of_schedule lawful hr h₂
  have picked := yieldCost_pick (t := forkOnSchedule s) (u := s₂) (hl.trans hl₀.symm)
    (fun q => by rw [(retirePrev_queues h₂).1, yields.schedule hr])
    (fun p hp => ready p (by rwa [(retirePrev_queues h₂).2] at hp))
  rw [forkOnSchedule_yieldCost inv.fresh] at picked
  -- every linked process and the runnable `current` is loaded
  have able : ∀ p, (forkOnSchedule s).Linked p ∨ (forkOnSchedule s).runnable = some p →
      p < n := by
    rintro p (linked | run)
    · exact inv.linked p (forkOnSchedule_linked inv.nodup linked)
    · exact inv.current p (forkLoop_current s.forkqueue s ▸ (runnable_eq_some.1 run).1)
  have linked₂ : ∀ p, s₂.Linked p → p < n := by
    intro p l
    rcases (retirePrev_linked h₂ p).1 l with l | l | ⟨q, hq, mem⟩
    · rcases ready p l with l | run
      exacts [able p (.inl (.inl l)), able p (.inr run)]
    · exact able p (.inl (.inr (.inl ((forks.schedule hr).forkqueue ▸ l))))
    · have nr : r.1.nrResources = (forkOnSchedule s).nrResources :=
        congrArg Ledger.nrResources (lawful.schedule hr).ledger
      refine able p (.inl (.inr (.inr ⟨q, by rw [← nr]; exact hq, ?_⟩)))
      rw [← yields.schedule hr]; exact mem
  -- the processes still to fork come from the old fork queue, with their ticks
  have fresh : ∀ p ∈ (forkOnSchedule s).forkqueue, 0 < s₂.ledger.ticksLeft p := fun p hp => by
    rw [hl]; exact inv.fresh p (((forkLoop_forkqueue _ s inv.nodup).2 p).1 hp).1
  have fq₂ : s₂.forkqueue = (forkOnSchedule s).forkqueue :=
    (retirePrev_forkFrame h₂).forkqueue.trans (forks.schedule hr).forkqueue
  cases hc : r.2 with
  | none =>
    -- nothing to run: the fork queue still has a process, and the clock moves on
    rw [hc] at h current₂
    obtain ⟨going, rfl⟩ := dispatch_none_next h
    have queued : s₂.tick.forkqueue ≠ [] := fun e =>
      going ⟨by rw [(retirePrev_queues h₂).2]; exact empty hc, e⟩
    rw [if_neg queued] at idle
    refine ⟨⟨linked₂, fun c e => (by rw [tick, current₂] at e; cases e), nodup, due,
      fun p hp => fresh p (fq ▸ hp)⟩, ?_⟩
    have le : ∑ p ∈ Finset.range n, s₂.yieldCost p ≤ ∑ p ∈ Finset.range n, s.yieldCost p :=
      Finset.sum_le_sum fun p _ => le_trans (Nat.le_add_right _ _) (picked p)
    have same : s₂.tick.yieldCost = s₂.yieldCost := rfl
    simp only [yieldRank, same]
    omega
  | some c =>
    -- `c` runs for a tick
    rw [hc] at h current₂
    obtain ⟨s₃, h₃, e⟩ := dispatch_some h
    cases e
    obtain ⟨-, free, -⟩ := runCurrent_ok h₃
    have hc' : c < n := by
      rcases chosen c hc with run | l
      exacts [able c (.inr run), able c (.inl (.inl l))]
    obtain ⟨lower, links₃, ticks₃, current₃⟩ := runCurrent_yield yields hc' h₃
    -- the pick takes a stranded `c` out of the ready queue
    have taken : s₂.yieldCost c + (if 0 < s₂.ledger.ticksLeft c then 0 else 1) ≤
        s.yieldCost c := by
      have := picked c
      by_cases left : 0 < s₂.ledger.ticksLeft c
      · rw [if_pos left]; split_ifs at this <;> omega
      · have st : (forkOnSchedule s).Stranded c := by
          refine ⟨(chosen c hc).resolve_left fun run => left ?_, ?_⟩
          · rw [hl, ← hl₀]; exact ticksLeft_of_runnable run
          · rw [hl₀, ← hl]; omega
        have taken : c ∉ s₂.readyqueue ∧ (forkOnSchedule s).Stranded c :=
          ⟨fun mem => free (.inl mem), st⟩
        rw [if_pos taken] at this
        rwa [if_neg left]
    have sum₂ := sum_range_add_le hc' (fun p => le_trans (Nat.le_add_right _ _) (picked p)) taken
    refine ⟨⟨fun p l => ?_, fun q e => ?_, nodup, due, fun p hp => ?_⟩, ?_⟩
    · rcases links₃ p l with l | rfl
      exacts [linked₂ p l, hc']
    · rw [tick, current₃, current₂] at e; cases e; exact hc'
    · have hp₀ : p ∈ (forkOnSchedule s).forkqueue := fq ▸ hp
      have ne : p ≠ c := fun e => free (.inr (.inl (fq₂ ▸ e ▸ hp₀)))
      show 0 < s₃.ledger.ticksLeft p
      rw [ticks₃ p ne]; exact fresh p hp₀
    · have same : s₃.tick.yieldCost = s₃.yieldCost := rfl
      have le : s₃.tick.idleLeft ≤ s.idleLeft := by split at idle <;> omega
      simp only [yieldRank, same]
      split_ifs at lower sum₂ <;> omega

/-- From a `YieldBounded` state the loop leaves, or stops on a fault, within `yieldRank + 1`
rounds. -/
theorem run_ends_of_yields : ∀ {fuel : Nat} {s : Sys}, s.YieldBounded n → s.yieldRank n < fuel →
    (∃ s', run sched fuel s = .ok (.halt s')) ∨ ∃ e, run sched fuel s = .error e
  | 0, _, _, lt => absurd lt (Nat.not_lt_zero _)
  | fuel + 1, s, inv, lt => by
    match h : doRound sched s with
    | .error e => exact .inr ⟨e, run_succ_error h⟩
    | .ok (.halt s') => exact .inl ⟨s', by simp only [run, h]; rfl⟩
    | .ok (.next s') =>
      obtain ⟨inv', lower⟩ := doRound_yieldRank yields lawful forks inv h
      rw [run_succ_next h]
      exact run_ends_of_yields inv' (by omega)

end Round

/-! ## The loaded script -/

/-- The rounds a script can keep the loop going under any of the callbacks: those of
`roundBound`, and one more for each acquire line. -/
def yieldBound (script : List Descriptor) : Nat :=
  roundBound script + (script.map fun d => d.acquires.length).sum

section Load

variable {nr : Nat} {script : List Descriptor}

/-- `__load_script` leaves every process in the fork queue, with a tick to run. -/
theorem yieldBounded_load : (load nr script).YieldBounded script.length where
  linked p l := (bounded_load.linked p l).1
  current := bounded_load.current
  nodup := bounded_load.nodup
  forks := bounded_load.forks
  fresh p hp := (bounded_load.linked p (.inr (.inl hp))).2

/-- The rank of the loaded script is at most `yieldBound`: nothing is in the ready queue, and
each process has its acquire lines still to take. -/
theorem yieldRank_load_le : (load nr script).yieldRank script.length ≤ yieldBound script := by
  have pending : ∑ p ∈ Finset.range script.length, ((load nr script).ledger.toAcquire p).length =
      (script.map fun d => d.acquires.length).sum := by
    rw [Finset.sum_range, ← Fin.sum_univ_get']
    exact Finset.sum_congr rfl fun p _ => by simp [ledger, load_procs p.2, Descriptor.toProcess]
  have split : (load nr script).yieldRank script.length = (load nr script).rank script.length +
      ∑ p ∈ Finset.range script.length, ((load nr script).ledger.toAcquire p).length := by
    have idle : ∀ p, ¬ (load nr script).Stranded p := fun p st => by cases st.1
    simp only [yieldRank, rank, yieldCost, if_neg (idle _), add_zero, Finset.sum_add_distrib]
    omega
  have := (rank_load_le : (load nr script).rank script.length ≤ roundBound script)
  rw [split, pending, yieldBound]
  omega

end Load

/-- Priority, Priority+Aging, PCP and PIP meet what the rank needs of their callbacks. -/
theorem Policy.yields (maxPrio : Int) {pol : Policy}
    (family : pol ∈ [Policy.prio, .pa, .pcp, .pip]) : (pol.scheduler maxPrio).Yields := by
  simp only [List.mem_cons, List.mem_singleton, List.not_mem_nil, or_false] at family
  rcases family with rfl | rfl | rfl | rfl
  exacts [prioScheduler_yields, paScheduler_yields maxPrio, pcpScheduler_yields maxPrio,
    pipScheduler_yields]

/-- For every policy of `pa2.c` and every script, within `yieldBound script + 1` rounds the
loop of `__do_simulation` is left, or the program stops on one of its faults (a failed
assertion, a freed record, a `NULL` or out-of-table dereference), or a `list_add` is given
a node that is still linked, past which C goes on with corrupted lists that the model does
not follow. -/
theorem loop_ends (maxPrio : Int) (pol : Policy) (nr : Nat) (script : List Descriptor)
    {fuel : Nat} (enough : yieldBound script < fuel) :
    (∃ s, run (pol.scheduler maxPrio) fuel (load nr script) = .ok (.halt s)) ∨
      (∃ e, e ≠ .listCorrupt ∧ run (pol.scheduler maxPrio) fuel (load nr script) = .error e) ∨
        run (pol.scheduler maxPrio) fuel (load nr script) = .error .listCorrupt := by
  have ends : (∃ s, run (pol.scheduler maxPrio) fuel (load nr script) = .ok (.halt s)) ∨
      ∃ e, run (pol.scheduler maxPrio) fuel (load nr script) = .error e := by
    by_cases fcfs : pol ∈ [Policy.fifo, .sjf, .srtf, .rr]
    · have laws := fcfs_laws maxPrio fcfs
      have := (rank_load_le : (load nr script).rank script.length ≤ roundBound script)
      exact run_ends laws.1 (Policy.lawful maxPrio pol) laws.2.1 (Policy.keepsForks maxPrio pol)
        laws.2.2 bounded_load (by unfold yieldBound at enough; omega)
    · have family : pol ∈ [Policy.prio, .pa, .pcp, .pip] := by revert fcfs; cases pol <;> decide
      exact run_ends_of_yields (Policy.yields maxPrio family) (Policy.lawful maxPrio pol)
        (Policy.keepsForks maxPrio pol) yieldBounded_load (lt_of_le_of_lt yieldRank_load_le enough)
  rcases ends with halt | ⟨e, h⟩
  · exact .inl halt
  · by_cases corrupt : e = .listCorrupt
    · exact .inr (.inr (corrupt ▸ h))
    · exact .inr (.inl ⟨e, corrupt, h⟩)

/-- Priority, two processes that take two resources in opposite orders: twenty-four rounds
are enough. -/
theorem prio_crossed_acquisitions_end :
    yieldBound [⟨0, 3, 0, 0, [⟨0, 0, 3⟩, ⟨1, 1, 1⟩]⟩, ⟨1, 3, 0, 0, [⟨1, 0, 3⟩, ⟨0, 1, 1⟩]⟩] = 23 ∧
      ((∃ s, run (Policy.prio.scheduler 0) 24 (load 2 [⟨0, 3, 0, 0, [⟨0, 0, 3⟩, ⟨1, 1, 1⟩]⟩,
          ⟨1, 3, 0, 0, [⟨1, 0, 3⟩, ⟨0, 1, 1⟩]⟩]) = .ok (.halt s)) ∨
        (∃ e, e ≠ .listCorrupt ∧ run (Policy.prio.scheduler 0) 24 (load 2
          [⟨0, 3, 0, 0, [⟨0, 0, 3⟩, ⟨1, 1, 1⟩]⟩, ⟨1, 3, 0, 0, [⟨1, 0, 3⟩, ⟨0, 1, 1⟩]⟩]) = .error e) ∨
        run (Policy.prio.scheduler 0) 24 (load 2 [⟨0, 3, 0, 0, [⟨0, 0, 3⟩, ⟨1, 1, 1⟩]⟩,
          ⟨1, 3, 0, 0, [⟨1, 0, 3⟩, ⟨0, 1, 1⟩]⟩]) = .error .listCorrupt) :=
  ⟨by decide, loop_ends 0 .prio 2 _ (by decide)⟩

end ProcessorScheduler
