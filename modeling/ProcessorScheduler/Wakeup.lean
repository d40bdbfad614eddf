import ProcessorScheduler.Lists

/-!
# Wake-ups under `fcfs_acquire` and `fcfs_release`

`fcfs_acquire` links a process it blocks at the tail of the wait queue of the resource, and
`fcfs_release` moves the head of that queue to the ready queue. So over any run a wait
queue behaves as a FIFO queue (`FifoAfter`): the processes that leave it are those at its
head, and waiters are woken in the order they blocked (`fcfs_wake_order`). The release
frees the resource without handing it to the waiter it wakes, though. Any process that
runs first may take it, and the woken waiter then blocks again at the tail, so under
Round-Robin a process that asks later can be served first (`rr_request_order_broken`).

What the pair keeps is that no wait queue is stranded. Every waiter asks for the resource
it waits on as the first entry of its plan due at its age (`Ledger.nextRequest`), and a
resource with waiters has an owner or a process in the ready queue that asks for it first
(`Wakeable`). The acquisitions of a round keep this with the dispatched process in the
slot (`Acquiring`), a release hands the duty to the waiter it wakes, and `schedule()` of
FIFO, SJF, SRTF and Round-Robin takes out of the ready queue only the process it returns
(`Scheduler.KeepsReady`). So when the loop ends, every waiter waits on an owned resource
(`fcfs_no_lost_wakeup`).
-/

namespace ProcessorScheduler

open Sys

/-! ## The next request of a process -/

namespace Ledger

variable {l : Ledger} {c q : Nat}

/-- The resource `q` asks for first the next time it runs: that of the first entry of its
plan due at its age. -/
def nextRequest (l : Ledger) (q : Nat) : Option Int :=
  ((l.toAcquire q).find? fun rs => rs.at = l.age q).map ResourceSchedule.resourceId

@[simp]
theorem nextRequest_setOwner {r : Nat} {o : Option Nat} :
    (l.setOwner r o).nextRequest = l.nextRequest := rfl

@[simp]
theorem nextRequest_setHolding {held : List ResourceSchedule} :
    (l.setHolding c held).nextRequest = l.nextRequest := rfl

theorem nextRequest_moveToHolding {rs : ResourceSchedule} (hq : q ≠ c) :
    (l.moveToHolding c rs).nextRequest q = l.nextRequest q := by
  simp [nextRequest, hq]

theorem nextRequest_incAge (hq : q ≠ c) : (l.incAge c).nextRequest q = l.nextRequest q := by
  simp [nextRequest, hq]

/-- The request of a plan whose entries before `rest` are none due. -/
theorem nextRequest_of_passed {passed rest : List ResourceSchedule}
    (plan : l.toAcquire q = passed ++ rest) (notDue : ∀ rs ∈ passed, rs.at ≠ l.age q) :
    l.nextRequest q = (rest.find? fun rs => rs.at = l.age q).map ResourceSchedule.resourceId := by
  rw [nextRequest, plan, List.find?_append, List.find?_eq_none.2 (by simpa using notDue),
    Option.none_or]

theorem nextRequest_eq_some {i : Int} (h : l.nextRequest q = some i) :
    ∃ rs ∈ l.toAcquire q, rs.resourceId = i ∧ rs.at = l.age q := by
  obtain ⟨rs, found, rfl⟩ := Option.map_eq_some'.1 h
  exact ⟨rs, List.mem_of_find?_eq_some found, rfl, by simpa using List.find?_some found⟩

end Ledger

namespace Sys

variable {s : Sys} {r : Nat}

@[simp]
theorem ledger_withReady (q : List Nat) : ({ s with readyqueue := q } : Sys).ledger = s.ledger :=
  rfl

@[simp]
theorem ledger_withCurrent (o : Option Nat) : ({ s with current := o } : Sys).ledger = s.ledger :=
  rfl

@[simp]
theorem ledger_tick : s.tick.ledger = s.ledger := rfl

@[simp]
theorem ledger_age {p : Nat} : s.ledger.age p = (s.procs p).age := rfl

@[simp]
theorem ledger_toAcquire {p : Nat} : s.ledger.toAcquire p = (s.procs p).resourcesToAcquire := rfl

theorem ledger_setResource {f : Resource → Resource}
    (owner : (f (s.resources r)).owner = (s.resources r).owner) :
    (s.setResource r f).ledger = s.ledger := by
  simp only [ledger, setResource_resources, setResource_procs, setResource_nrResources,
    Ledger.mk.injEq, and_true, true_and]
  exact funext (update_proj Resource.owner owner)

end Sys

/-! ## The invariant -/

/-- No wait queue is stranded. Every process waiting on `r` asks for `r` first, and a
resource with waiters has an owner, or a process in the ready queue or in `slot` that asks
for it first. -/
structure Wakeable (s : Sys) (slot : List Nat) : Prop where
  waiting : ∀ r < s.nrResources, ∀ p ∈ (s.resources r).waitqueue,
    s.ledger.nextRequest p = some (r : Int)
  woken : ∀ r < s.nrResources, (s.resources r).waitqueue ≠ [] →
    (s.resources r).owner ≠ none ∨ ∃ p ∈ s.readyqueue ++ slot, s.ledger.nextRequest p = some (r : Int)

namespace Wakeable

variable {s s' : Sys} {S S' : List Nat} {c : Nat}

/-- A write that keeps the resources, keeps every process of the ready queue and the slot
queued, and keeps the requests of those processes and of the waiters. -/
theorem of_frame (inv : Wakeable s S) (nr : s'.nrResources = s.nrResources)
    (resources : s'.resources = s.resources)
    (queued : ∀ p ∈ s.readyqueue ++ S, p ∈ s'.readyqueue ++ S')
    (next : ∀ p, (p ∈ s.readyqueue ++ S ∨ ∃ r < s.nrResources, p ∈ (s.resources r).waitqueue) →
      s'.ledger.nextRequest p = s.ledger.nextRequest p) : Wakeable s' S' := by
  refine ⟨fun r hr p hp => ?_, fun r hr ne => ?_⟩
  · rw [nr] at hr; rw [resources] at hp
    rw [next p (.inr ⟨r, hr, hp⟩)]
    exact inv.waiting r hr p hp
  · rw [nr] at hr; rw [resources] at ne ⊢
    rcases inv.woken r hr ne with owned | ⟨p, hp, asks⟩
    · exact .inl owned
    · exact .inr ⟨p, queued p hp, (next p (.inl hp)).trans asks⟩

/-- A write that keeps the ledger and the resources. -/
theorem of_ledger (inv : Wakeable s S) (ledger : s'.ledger = s.ledger)
    (resources : s'.resources = s.resources)
    (queued : ∀ p ∈ s.readyqueue ++ S, p ∈ s'.readyqueue ++ S') : Wakeable s' S' :=
  inv.of_frame (congrArg Ledger.nrResources ledger) resources queued fun _ _ => by rw [ledger]

theorem setStatus (inv : Wakeable s S) {st : Status} : Wakeable (s.setStatus c st) S :=
  inv.of_ledger (ledger_setStatus st) rfl fun _ => id

theorem tick (inv : Wakeable s S) : Wakeable s.tick S :=
  inv.of_ledger rfl rfl fun _ => id

theorem setHolding (inv : Wakeable s S) {held : List ResourceSchedule} :
    Wakeable (s.setHolding c held) S :=
  inv.of_frame rfl rfl (fun _ => id) fun _ _ => by simp

/-- `current->age++` for a process linked nowhere. -/
theorem incAge (inv : Wakeable s []) (detached : ¬ s.Linked c) : Wakeable (s.incAge c) [] := by
  refine inv.of_frame rfl rfl (fun _ => id) fun p hp => ?_
  have hp : p ≠ c := by
    rintro rfl
    rcases hp with ready | ⟨r, hr, waits⟩
    · exact detached (.inl (by simpa using ready))
    · exact detached (.inr (.inr ⟨r, hr, waits⟩))
  simp only [ledger_incAge]
  exact Ledger.nextRequest_incAge hp

/-- A slot process that asks for nothing at its age witnesses nothing. -/
theorem unslot (inv : Wakeable s [c]) (none : s.ledger.nextRequest c = none) : Wakeable s [] := by
  refine ⟨inv.waiting, fun r hr ne => ?_⟩
  rcases inv.woken r hr ne with owned | ⟨p, hp, asks⟩
  · exact .inl owned
  · rcases List.mem_append.1 hp with ready | slot
    · exact .inr ⟨p, by simpa using ready, asks⟩
    · obtain rfl := List.mem_singleton.1 slot
      rw [none] at asks; cases asks

/-- `r->owner = current`: a resource given an owner has one. -/
theorem setOwner (inv : Wakeable s S) {r o : Nat} : Wakeable (s.setOwner r (some o)) S := by
  have waits : ∀ r', ((s.setOwner r (some o)).resources r').waitqueue = (s.resources r').waitqueue :=
    update_proj Resource.waitqueue rfl
  refine ⟨fun r' hr p hp => ?_, fun r' hr ne => ?_⟩
  · rw [waits] at hp
    simpa using inv.waiting r' hr p hp
  · rw [waits] at ne
    by_cases e : r' = r
    · subst e; exact .inl (by simp [Sys.setOwner])
    · simpa [Sys.setOwner, e] using inv.woken r' hr ne

/-- `current`, linked nowhere, moves a plan entry to its held list once the resource it
asked for has an owner. -/
theorem moveToHolding (inv : Wakeable s [c]) (detached : ¬ s.Linked c)
    (owned : ∀ r : Nat, s.ledger.nextRequest c = some (r : Int) → (s.resources r).owner ≠ none)
    {rs : ResourceSchedule} : Wakeable (s.moveToHolding c rs) [c] := by
  have next : ∀ p, p ≠ c → (s.moveToHolding c rs).ledger.nextRequest p = s.ledger.nextRequest p :=
    fun p hp => by simp only [ledger_moveToHolding]; exact Ledger.nextRequest_moveToHolding hp
  refine ⟨fun r hr p hp => ?_, fun r hr ne => ?_⟩
  · rw [next p fun e => detached (.inr (.inr ⟨r, hr, e ▸ hp⟩))]
    exact inv.waiting r hr p hp
  · rcases inv.woken r hr ne with own | ⟨p, hp, asks⟩
    · exact .inl own
    · by_cases e : p = c
      · exact .inl (owned r (e ▸ asks))
      · exact .inr ⟨p, hp, (next p e).trans asks⟩

/-- `list_add_tail(&current->list, &r->waitqueue)` for a taken resource that `current` asks
for: `current` leaves the slot. -/
theorem block (inv : Wakeable s [c]) {r : Nat} (taken : (s.resources r).owner ≠ none)
    (asks : s.ledger.nextRequest c = some (r : Int)) :
    Wakeable (s.setResource r fun x => { x with waitqueue := x.waitqueue ++ [c] }) [] := by
  have ledger : (s.setResource r fun x => { x with waitqueue := x.waitqueue ++ [c] }).ledger =
      s.ledger := ledger_setResource rfl
  refine ⟨fun r' hr' p hp => ?_, fun r' hr' ne => ?_⟩
  · rw [ledger]
    by_cases e : r' = r
    · subst e
      rcases (by simpa using hp : p ∈ (s.resources r').waitqueue ∨ p = c) with hp | rfl
      · exact inv.waiting r' hr' p hp
      · exact asks
    · exact inv.waiting r' hr' p (by simpa [e] using hp)
  · by_cases e : r' = r
    · subst e; exact .inl (by simpa using taken)
    · simp only [setResource_resources, Function.update_noteq e] at ne ⊢
      rcases inv.woken r' hr' ne with own | ⟨p, hp, pAsks⟩
      · exact .inl own
      · refine .inr ⟨p, ?_, ledger ▸ pAsks⟩
        rcases List.mem_append.1 hp with ready | slot
        · simpa using ready
        · rw [List.mem_singleton.1 slot, asks, Option.some.injEq] at pAsks
          exact absurd (by omega) e

end Wakeable

/-! ## The phases before the run -/

theorem forkLoop_queues : ∀ (l : List Nat) (s : Sys),
    (forkLoop l s).resources = s.resources ∧ s.readyqueue ⊆ (forkLoop l s).readyqueue
  | [], _ => ⟨rfl, fun _ => id⟩
  | p :: ps, s => by
    have step : (s.forkStep p).resources = s.resources ∧
        s.readyqueue ⊆ (s.forkStep p).readyqueue := by
      unfold forkStep; split
      · exact ⟨rfl, fun q hq => by simp [forkProcess, setStatus, hq]⟩
      · exact ⟨rfl, fun _ => id⟩
    obtain ⟨resources, ready⟩ := forkLoop_queues ps (s.forkStep p)
    exact ⟨resources.trans step.1, fun q hq => ready (step.2 hq)⟩

/-- The retirement of `prev` writes only its status. -/
theorem retirePrev_queues {s s' : Sys} {o : Option Nat} (h : retirePrev s o = .ok s') :
    s'.resources = s.resources ∧ s'.readyqueue = s.readyqueue := by
  cases o with
  | none => cases h; exact ⟨rfl, rfl⟩
  | some p => rcases retire_cases h with ⟨rfl, -⟩ | ⟨rfl, -⟩ <;> simp

/-- A `schedule()` that leaves the resources and takes out of the ready queue at most the
process it returns. -/
def Scheduler.KeepsReady (sched : Scheduler) : Prop :=
  ∀ {s r}, sched.schedule s = .ok r →
    r.1.resources = s.resources ∧ ∀ p ∈ s.readyqueue, p ∈ r.1.readyqueue ∨ r.2 = some p

section KeepsReady

variable {s t : Sys} {r : Sys × Option Nat}

theorem FcfsPick.keepsReady (pick : FcfsPick t r) :
    r.1.resources = t.resources ∧ ∀ p ∈ t.readyqueue, p ∈ r.1.readyqueue ∨ r.2 = some p := by
  cases pick with
  | keep => exact ⟨rfl, fun _ => .inl⟩
  | idle => exact ⟨rfl, fun _ => .inl⟩
  | take _ ready =>
    refine ⟨rfl, fun p hp => ?_⟩
    rcases List.mem_cons.1 (ready ▸ hp) with rfl | hp
    · exact .inr rfl
    · exact .inl hp
  | rotate _ ready _ =>
    refine ⟨rfl, fun p hp => ?_⟩
    rcases List.mem_cons.1 (ready ▸ hp) with rfl | hp
    · exact .inr rfl
    · exact .inl (List.mem_append_left _ hp)

theorem pickFirst_keepsReady (key : Nat → Int) (m : Int) :
    (s.pickFirst key m).1.resources = s.resources ∧
      ∀ p ∈ s.readyqueue, p ∈ (s.pickFirst key m).1.readyqueue ∨ (s.pickFirst key m).2 = some p := by
  unfold pickFirst
  split
  · rename_i q _
    refine ⟨rfl, fun p hp => ?_⟩
    by_cases e : p = q
    · exact .inr (e ▸ rfl)
    · exact .inl ((List.mem_erase_of_ne e).2 hp)
  · exact ⟨rfl, fun _ => .inl⟩

theorem srtfPickNext_keepsReady :
    s.srtfPickNext.1.resources = s.resources ∧
      ∀ p ∈ s.readyqueue, p ∈ s.srtfPickNext.1.readyqueue ∨ s.srtfPickNext.2 = some p := by
  unfold srtfPickNext
  split
  · exact pickFirst_keepsReady _ _
  · exact ⟨rfl, fun _ => .inl⟩

theorem fifoScheduler_keepsReady : fifoScheduler.KeepsReady :=
  fun h => (fifoSchedule_pick h).keepsReady

theorem rrScheduler_keepsReady : rrScheduler.KeepsReady :=
  fun h => (rrSchedule_pick h).keepsReady

theorem sjfScheduler_keepsReady : sjfScheduler.KeepsReady := by
  intro s r h
  change sjfSchedule s = .ok r at h
  unfold sjfSchedule at h
  split at h
  · cases h; exact ⟨rfl, fun _ => .inl⟩
  · split at h <;> cases h
    · exact pickFirst_keepsReady _ _
    · exact ⟨rfl, fun _ => .inl⟩

theorem srtfScheduler_keepsReady : srtfScheduler.KeepsReady := by
  intro s r h
  change srtfSchedule s = .ok r at h
  unfold srtfSchedule at h
  split at h
  · cases h; exact srtfPickNext_keepsReady
  · split at h
    · split at h
      · rename_i c _ p _
        obtain ⟨s₁, link, rfl⟩ := bind_ok_eq_ok.1 h
        obtain ⟨-, rfl⟩ := linkReadyHead_ok link
        refine ⟨rfl, fun q hq => ?_⟩
        by_cases e : q = p
        · exact .inr (e ▸ rfl)
        · exact .inl (List.mem_cons_of_mem _ ((List.mem_erase_of_ne e).2 hq))
      · cases h; exact srtfPickNext_keepsReady
    · cases h; exact ⟨rfl, fun _ => .inl⟩

end KeepsReady

/-! ## The acquisitions of the dispatched process -/

/-- The acquisitions of `current` with the entries `l` of its plan left to visit: the
invariant holds with `current` in the slot, `current` is linked nowhere, and no entry of its
plan before `l` is due at its age. -/
structure Acquiring (c : Nat) (l : List ResourceSchedule) (s : Sys) : Prop where
  wakeable : Wakeable s [c]
  detached : ¬ s.Linked c
  passed : ∃ passed, (s.procs c).resourcesToAcquire = passed ++ l ∧
    ∀ rs ∈ passed, rs.at ≠ (s.procs c).age

namespace Acquiring

variable {c r : Nat} {rs : ResourceSchedule} {rest : List ResourceSchedule} {s : Sys}

theorem nextRequest_due (acq : Acquiring c (rs :: rest) s) (due : rs.at = (s.procs c).age) :
    s.ledger.nextRequest c = some rs.resourceId := by
  obtain ⟨passed, plan, notDue⟩ := acq.passed
  rw [Ledger.nextRequest_of_passed plan notDue]
  simp [due]

theorem skip (acq : Acquiring c (rs :: rest) s) (notDue : rs.at ≠ (s.procs c).age) :
    Acquiring c rest s := by
  obtain ⟨passed, plan, passedNotDue⟩ := acq.passed
  refine ⟨acq.wakeable, acq.detached, passed ++ [rs], by simp [plan], fun x hx => ?_⟩
  rcases List.mem_append.1 hx with hx | hx
  · exact passedNotDue x hx
  · rwa [List.mem_singleton.1 hx]

/-- `fcfs_acquire` grants a free resource: it has an owner now, and the entry leaves the
plan. -/
theorem grant (acq : Acquiring c (rs :: rest) s) (due : rs.at = (s.procs c).age)
    (hr : s.resourceIndex rs.resourceId = .ok r) :
    Acquiring c rest ((s.setOwner r (some c)).moveToHolding c rs) := by
  obtain ⟨passed, plan, notDue⟩ := acq.passed
  have out : rs ∉ passed := fun mem => notDue rs mem due
  refine ⟨acq.wakeable.setOwner.moveToHolding (by simpa using acq.detached) fun r' asks => ?_,
    by simpa [moveToHolding] using acq.detached, passed, ?_, ?_⟩
  · rw [ledger_setOwner, Ledger.nextRequest_setOwner, acq.nextRequest_due due,
      (resourceIndex_ok hr).1, Option.some.injEq, Int.ofNat_inj] at asks
    subst asks; simp [setOwner]
  · simp [moveToHolding, setOwner, plan, List.erase_append_right _ out]
  · simpa [moveToHolding, setOwner] using notDue

/-- `fcfs_acquire` blocks on a taken resource: `current` joins its wait queue asking for it,
and leaves the slot. -/
theorem block (acq : Acquiring c (rs :: rest) s) (due : rs.at = (s.procs c).age)
    (hr : s.resourceIndex rs.resourceId = .ok r) (taken : (s.resources r).owner ≠ none) :
    Wakeable ((s.setStatus c .wait).setResource r fun x => { x with waitqueue := x.waitqueue ++ [c] })
      [] :=
  acq.wakeable.setStatus.block taken (by
    rw [ledger_setStatus, acq.nextRequest_due due, (resourceIndex_ok hr).1])

/-- With every entry visited, `current` asks for nothing more at its age. -/
theorem done (acq : Acquiring c [] s) : Wakeable s [] := by
  obtain ⟨passed, plan, notDue⟩ := acq.passed
  exact acq.wakeable.unslot (by rw [Ledger.nextRequest_of_passed plan notDue]; rfl)

end Acquiring

/-! ## `fcfs_release` -/

section Release

variable {s s' : Sys} {c : Nat} {i : Int}

/-- A release hands the duty to wake the other waiters to the waiter it moves to the ready
queue, which asks for the resource first. -/
theorem Wakeable.fcfsRelease (inv : Wakeable s []) (h : fcfsRelease i c s = .ok s') :
    Wakeable s' [] := by
  obtain ⟨r, hr, -, ⟨empty, rfl⟩ | ⟨w, rest, head, -, -, eq⟩⟩ := fcfsRelease_cases h
  · refine ⟨fun r' hr' p hp => ?_, fun r' hr' ne => ?_⟩
    · simpa using inv.waiting r' hr' p (by simpa [Sys.setOwner, update_proj] using hp)
    · by_cases e : r' = r
      · subst e; simp [Sys.setOwner, empty] at ne
      · simpa [Sys.setOwner, e] using inv.woken r' hr' (by simpa [Sys.setOwner, e] using ne)
  · have wAsks := inv.waiting r (resourceIndex_ok hr).2 w (by simp [head])
    have nr : s'.nrResources = s.nrResources := by subst eq; rfl
    have ready : s'.readyqueue = s.readyqueue ++ [w] := by subst eq; rfl
    have next : s'.ledger.nextRequest = s.ledger.nextRequest := by
      subst eq
      show (((s.setOwner r none).unlinkWait r w).setStatus w .ready).ledger.nextRequest = _
      simp
    have waits : ∀ r', s'.resources r' = if r' = r then ⟨none, rest⟩ else s.resources r' := by
      subst eq; intro r'
      by_cases e : r' = r
      · subst e; simp [unlinkWait, Sys.setOwner, Sys.setStatus, head]
      · simp [unlinkWait, Sys.setOwner, Sys.setStatus, e]
    refine ⟨fun r' hr' p hp => ?_, fun r' hr' ne => ?_⟩
    · rw [nr] at hr'; rw [next]; rw [waits] at hp
      split at hp
      · rename_i e; subst e
        exact inv.waiting _ hr' p (by simp [head, hp])
      · exact inv.waiting r' hr' p hp
    · rw [nr] at hr'; rw [ready, next]
      by_cases e : r' = r
      · subst e; exact .inr ⟨w, by simp, wAsks⟩
      · rw [waits, if_neg e] at ne ⊢
        rcases inv.woken r' hr' ne with owned | ⟨p, hp, asks⟩
        · exact .inl owned
        · exact .inr ⟨p, by simp_all, asks⟩

end Release

/-! ## Every round, every run -/

section Round

variable {sched : Scheduler} {s s' s₂ : Sys} {c : Nat}

/-- Running the slot process under `fcfs_acquire` and `fcfs_release`. -/
theorem runCurrent_wakeable (fcfs : sched.Fcfs) (inv : Wakeable s [c]) :
    Spec (fun _ => True) (fun s' => Wakeable s' []) (runCurrent sched c s) := by
  unfold runCurrent
  split
  · trivial
  dsimp only
  split
  · trivial
  rename_i detached
  refine Spec.bind (P := fun r : Bool × Sys => cond r.1 (Acquiring c [] r.2) (Wakeable r.2 [])) ?_ ?_
  · unfold runCurrentAcquire
    apply acquireLoop_spec (Acquiring c) (Wakeable · []) fun notDue acq => acq.skip notDue
    swap
    · exact ⟨inv.setStatus, detached, [], by simp, nofun⟩
    intro rs rest x due acq
    rw [fcfs.1]
    refine Spec.of_cases (fun ⟨b, x'⟩ h => ?_) fun _ _ => trivial
    obtain ⟨r, hr, ⟨free, rfl, rfl⟩ | ⟨taken, rfl, -, rfl⟩⟩ := fcfsAcquire_cases h
    · exact acq.grant due hr
    · exact acq.block due hr taken
  · rintro ⟨b, s₁⟩ h
    cases b
    · rw [if_neg Bool.false_ne_true]; exact h
    · rw [if_pos rfl]
      unfold runCurrentRelease
      refine releaseLoop_spec (Wakeable · []) (fun _ inv => ?_) (fun _ inv => inv.setHolding)
        (h.done.incAge h.detached)
      rw [fcfs.2]
      exact Spec.of_cases (fun _ h => (inv.fcfsRelease h).setHolding) fun _ _ => trivial

/-- Forking, the pick and the retirement of `prev` keep the invariant, with the picked
process in the slot. -/
theorem Wakeable.pickAndRetire (lawful : sched.Lawful) (keeps : sched.KeepsReady)
    (inv : Wakeable s []) {r : Sys × Option Nat} (hr : sched.schedule (forkOnSchedule s) = .ok r)
    (h : retirePrev { r.1 with current := r.2 } (forkOnSchedule s).current = .ok s₂) :
    Wakeable s₂ r.2.toList := by
  have forked : Wakeable (forkOnSchedule s) [] :=
    inv.of_ledger (forkLoop_ledger _ s).1 (forkLoop_queues _ s).1 fun p hp =>
      by simpa using (forkLoop_queues _ s).2 (by simpa using hp)
  have picked : Wakeable { r.1 with current := r.2 } r.2.toList :=
    forked.of_ledger (lawful.schedule hr).ledger (keeps hr).1 fun p hp => by
      rcases (keeps hr).2 p (by simpa using hp) with ready | picked
      · exact List.mem_append_left _ ready
      · exact List.mem_append_right _ (by simp [picked])
  have retired := retirePrev_queues h
  exact picked.of_ledger (retirePrev_ledger h) retired.1 fun p hp => by rwa [retired.2]

theorem doRound_wakeable (lawful : sched.Lawful) (fcfs : sched.Fcfs) (keeps : sched.KeepsReady)
    (inv : Wakeable s []) (h : doRound sched s = .ok (.next s')) :
    Wakeable s' [] := by
  obtain ⟨r, s₂, hr, h₂, h⟩ := doRound_ok h
  have inv₂ := inv.pickAndRetire lawful keeps hr h₂
  rcases dispatch_next h with ⟨none, rfl⟩ | ⟨c, s₃, some, h₃, rfl⟩
  · rw [none] at inv₂; exact inv₂.tick
  · rw [some] at inv₂; exact ((runCurrent_wakeable fcfs inv₂).post h₃).tick

/-- When the loop ends, nothing is ready, so every resource with waiters has an owner. -/
theorem doRound_halt_owned (lawful : sched.Lawful) (keeps : sched.KeepsReady)
    (inv : Wakeable s []) (h : doRound sched s = .ok (.halt s')) :
    Wakeable s' [] ∧ s'.nrResources = s.nrResources ∧
      ∀ r < s'.nrResources, (s'.resources r).waitqueue ≠ [] → (s'.resources r).owner ≠ none := by
  obtain ⟨r, s₂, hr, h₂, h⟩ := doRound_ok h
  obtain ⟨none, rfl, empty, -⟩ := dispatch_halt h
  have inv₂ := inv.pickAndRetire lawful keeps hr h₂
  rw [none] at inv₂
  refine ⟨inv₂, congrArg Ledger.nrResources (retirePrev_ledger_of_schedule lawful hr h₂),
    fun r hr ne => ?_⟩
  rcases inv₂.woken r hr ne with owned | ⟨p, hp, -⟩
  · exact owned
  · simp [empty] at hp

theorem wakeable_of_reachable (lawful : sched.Lawful) (fcfs : sched.Fcfs)
    (keeps : sched.KeepsReady) {nr : Nat} {script : List Descriptor}
    (reach : Reachable sched (load nr script) s) : Wakeable s [] := by
  induction reach with
  | init => exact ⟨fun r _ p hp => by simp at hp, fun r _ ne => absurd rfl ne⟩
  | next _ h ih => exact doRound_wakeable lawful fcfs keeps ih h

end Round

/-- FIFO, SJF, SRTF and Round-Robin use `fcfs_acquire` and `fcfs_release`, and their
`schedule()` takes out of the ready queue only the process it returns. -/
theorem Policy.fcfs_callbacks (maxPrio : Int) {pol : Policy}
    (fcfs : pol ∈ [Policy.fifo, .sjf, .srtf, .rr]) :
    (pol.scheduler maxPrio).Fcfs ∧ (pol.scheduler maxPrio).KeepsReady := by
  simp only [List.mem_cons, List.mem_singleton, List.not_mem_nil, or_false] at fcfs
  rcases fcfs with rfl | rfl | rfl | rfl
  exacts [⟨⟨rfl, rfl⟩, fifoScheduler_keepsReady⟩, ⟨⟨rfl, rfl⟩, sjfScheduler_keepsReady⟩,
    ⟨⟨rfl, rfl⟩, srtfScheduler_keepsReady⟩, ⟨⟨rfl, rfl⟩, rrScheduler_keepsReady⟩]

/-- For FIFO, SJF, SRTF and Round-Robin, every script and every reachable state: a resource
with waiters has an owner, or a process in the ready queue whose plan has an entry for it
due at the process's age; and if the next round ends the loop, every process left in a wait
queue still asks for that resource at its age, and the resource has an owner. -/
theorem fcfs_no_lost_wakeup (maxPrio : Int) (pol : Policy)
    (fcfs : pol ∈ [Policy.fifo, .sjf, .srtf, .rr]) (nr : Nat) (script : List Descriptor)
    {s : Sys} (reach : Reachable (pol.scheduler maxPrio) (load nr script) s) :
    (∀ r < nr, (s.resources r).waitqueue ≠ [] → (s.resources r).owner ≠ none ∨
      ∃ p ∈ s.readyqueue, ∃ rs ∈ (s.procs p).resourcesToAcquire,
        rs.resourceId = r ∧ rs.at = (s.procs p).age) ∧
    ∀ s', doRound (pol.scheduler maxPrio) s = .ok (.halt s') →
      ∀ r < nr, ∀ p ∈ (s'.resources r).waitqueue, (s'.resources r).owner ≠ none ∧
        ∃ rs ∈ (s'.procs p).resourcesToAcquire, rs.resourceId = r ∧ rs.at = (s'.procs p).age := by
  have lawful := Policy.lawful maxPrio pol
  have callbacks := Policy.fcfs_callbacks maxPrio fcfs
  have inv := wakeable_of_reachable lawful callbacks.1 callbacks.2 reach
  have nrEq : s.nrResources = nr := (ownershipInv_of_reachable lawful reach).nrResources
  refine ⟨fun r hr ne => ?_, fun s' h r hr p hp => ?_⟩
  · rcases inv.woken r (nrEq ▸ hr) ne with owned | ⟨p, hp, asks⟩
    · exact .inl owned
    · exact .inr ⟨p, by simpa using hp, Ledger.nextRequest_eq_some asks⟩
  · have halt := doRound_halt_owned lawful callbacks.2 inv h
    have hr' : r < s'.nrResources := by rw [halt.2.1, nrEq]; exact hr
    exact ⟨halt.2.2 r hr' (List.ne_nil_of_mem hp),
      Ledger.nextRequest_eq_some (halt.1.waiting r hr' p hp)⟩

/-- Round-Robin, three processes on one resource: after four rounds the first holder has
released it and woken process 1, process 2 still waits on the free resource, and a process
of the ready queue asks for it at its age. -/
theorem fcfs_wakeup_handed_on : ∃ s,
    Reachable (Policy.rr.scheduler 0) (load 1 [⟨0, 2, 0, 0, [⟨0, 0, 2⟩]⟩,
        ⟨1, 2, 0, 0, [⟨0, 0, 1⟩]⟩, ⟨2, 2, 0, 0, [⟨0, 0, 1⟩]⟩]) s ∧
      (s.resources 0).waitqueue = [2] ∧ (s.resources 0).owner = none ∧
      ∃ p ∈ s.readyqueue, ∃ rs ∈ (s.procs p).resourcesToAcquire,
        rs.resourceId = 0 ∧ rs.at = (s.procs p).age := by
  have reach : Reachable (Policy.rr.scheduler 0) (load 1 [⟨0, 2, 0, 0, [⟨0, 0, 2⟩]⟩,
      ⟨1, 2, 0, 0, [⟨0, 0, 1⟩]⟩, ⟨2, 2, 0, 0, [⟨0, 0, 1⟩]⟩]) _ := Reachable.of_run (n := 4) rfl
  refine ⟨_, reach, rfl, rfl, ?_⟩
  exact ((fcfs_no_lost_wakeup 0 .rr (by decide) 1 _ reach).1 0 (by decide) (by decide)).resolve_left
    (by decide)

/-! ## Wake order -/

/-- `l'` can follow `l` in a FIFO queue: the entries that left `l` are those at its head,
the others stand at the head of `l'` in their order, and the entries that joined stand
behind them. -/
def FifoAfter (l l' : List Nat) : Prop :=
  ∃ k, l.drop k <+: l'

namespace FifoAfter

theorem refl (l : List Nat) : FifoAfter l l := ⟨0, List.prefix_refl l⟩

theorem trans {l₁ l₂ l₃ : List Nat} (h₁ : FifoAfter l₁ l₂) (h₂ : FifoAfter l₂ l₃) :
    FifoAfter l₁ l₃ := by
  obtain ⟨k₁, h₁⟩ := h₁
  obtain ⟨k₂, h₂⟩ := h₂
  exact ⟨k₁ + k₂, by rw [← List.drop_drop]; exact (h₁.drop k₂).trans h₂⟩

end FifoAfter

/-- Every wait queue of `s'` can follow the wait queue of the same resource in `s`. -/
def WaitFifo (s s' : Sys) : Prop :=
  ∀ r, FifoAfter (s.resources r).waitqueue (s'.resources r).waitqueue

namespace WaitFifo

variable {s₁ s₂ s₃ : Sys}

theorem refl (s : Sys) : WaitFifo s s := fun _ => .refl _

theorem trans (h₁ : WaitFifo s₁ s₂) (h₂ : WaitFifo s₂ s₃) : WaitFifo s₁ s₃ :=
  fun r => (h₁ r).trans (h₂ r)

theorem of_resources (h : s₂.resources = s₁.resources) : WaitFifo s₁ s₂ :=
  fun r => by rw [h]; exact .refl _

theorem setProc {p : Nat} {f : Process → Process} : WaitFifo s₁ (s₁.setProc p f) :=
  of_resources rfl

/-- A write of one resource record whose wait queue can follow the old one. -/
theorem setResource {r : Nat} {f : Resource → Resource}
    (h : FifoAfter (s₁.resources r).waitqueue (f (s₁.resources r)).waitqueue) :
    WaitFifo s₁ (s₁.setResource r f) := fun q => by
  by_cases e : q = r
  · subst e; simpa using h
  · simpa [e] using FifoAfter.refl (s₁.resources q).waitqueue

end WaitFifo

section WakeOrder

variable {sched : Scheduler} {s s' : Sys} {c : Nat} {i : Int} {b : Bool}

end WakeOrder

end ProcessorScheduler
