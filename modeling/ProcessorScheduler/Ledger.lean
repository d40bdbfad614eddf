import ProcessorScheduler.Engine

/-!
# The resource ledger and what each operation does to it

`Sys.ledger` is the part of the state that resource ownership and the acquisition plans
live in: `NR_RESOURCES`, each resource's owner, and each process's age, lifespan, pending
plan entries and held entries. Queues, statuses, priorities and the clocks are outside it.

Every `schedule()` and `__fork_on_schedule` leave the ledger as it is; an acquire
callback changes at most the owner of the requested resource (from none to the caller),
a release callback only clears the owner of the released resource (which must be the
caller). Each fact is stated once here, for every policy, and the invariants of
`Ownership` and `Countdown` are built on them alone. No operation but `retire` gives a
process the status `exit` (`NoNewExit`).
-/

namespace ProcessorScheduler

/-- Resource owners and the per-process age and plan lists. -/
structure Ledger where
  nrResources : Nat
  owner : Nat → Option Nat
  age : Nat → Int
  lifespan : Nat → Int
  toAcquire : Nat → List ResourceSchedule
  holding : Nat → List ResourceSchedule

/-- `r->owner = owner` on a ledger. -/
@[simps]
def Ledger.setOwner (l : Ledger) (r : Nat) (owner : Option Nat) : Ledger :=
  { l with owner := Function.update l.owner r owner }

/-- `list_move_tail(&rs->list, &current->__resources_holding)` on a ledger. -/
@[simps]
def Ledger.moveToHolding (l : Ledger) (c : Nat) (rs : ResourceSchedule) : Ledger :=
  { l with
    toAcquire := Function.update l.toAcquire c ((l.toAcquire c).erase rs)
    holding := Function.update l.holding c (l.holding c ++ [rs]) }

/-- `current->__resources_holding` rewritten on a ledger. -/
@[simps]
def Ledger.setHolding (l : Ledger) (c : Nat) (held : List ResourceSchedule) : Ledger :=
  { l with holding := Function.update l.holding c held }

/-- `current->age++` on a ledger. -/
@[simps]
def Ledger.incAge (l : Ledger) (c : Nat) : Ledger :=
  { l with age := Function.update l.age c (l.age c + 1) }

theorem ledger_ext {l₁ l₂ : Ledger} (nr : l₁.nrResources = l₂.nrResources)
    (owner : ∀ r, l₁.owner r = l₂.owner r) (age : ∀ p, l₁.age p = l₂.age p)
    (lifespan : ∀ p, l₁.lifespan p = l₂.lifespan p)
    (toAcquire : ∀ p, l₁.toAcquire p = l₂.toAcquire p)
    (holding : ∀ p, l₁.holding p = l₂.holding p) : l₁ = l₂ := by
  cases l₁; cases l₂
  simp only [Ledger.mk.injEq] at *
  exact ⟨nr, funext owner, funext age, funext lifespan, funext toAcquire, funext holding⟩

namespace Sys

/-- The ledger of a state. -/
def ledger (s : Sys) : Ledger :=
  ⟨s.nrResources, fun r => (s.resources r).owner, fun p => (s.procs p).age,
    fun p => (s.procs p).lifespan,
    fun p => (s.procs p).resourcesToAcquire, fun p => (s.procs p).resourcesHolding⟩

/-- No process has the status `exit` after that did not have it before. -/
def NoNewExit (s s' : Sys) : Prop :=
  ∀ p, (s'.procs p).status = .exit → (s.procs p).status = .exit

theorem NoNewExit.refl (s : Sys) : NoNewExit s s := fun _ => id

theorem NoNewExit.trans {s₁ s₂ s₃ : Sys} (h₁ : NoNewExit s₁ s₂) (h₂ : NoNewExit s₂ s₃) :
    NoNewExit s₁ s₃ := fun p h => h₁ p (h₂ p h)

variable {s s' : Sys} {p q r : Nat}

/-! ## Elementary writes -/

theorem ledger_setProc {f : Process → Process}
    (age : (f (s.procs p)).age = (s.procs p).age)
    (lifespan : (f (s.procs p)).lifespan = (s.procs p).lifespan)
    (toAcquire : (f (s.procs p)).resourcesToAcquire = (s.procs p).resourcesToAcquire)
    (holding : (f (s.procs p)).resourcesHolding = (s.procs p).resourcesHolding) :
    (s.setProc p f).ledger = s.ledger := by
  simp only [ledger, setProc_procs, setProc_resources, setProc_nrResources, Ledger.mk.injEq,
    true_and]
  exact ⟨funext (update_proj Process.age age), funext (update_proj _ lifespan),
    funext (update_proj _ toAcquire), funext (update_proj _ holding)⟩

theorem noNewExit_setProc {f : Process → Process}
    (status : (f (s.procs p)).status = .exit → (s.procs p).status = .exit) :
    NoNewExit s (s.setProc p f) := by
  intro q hq
  by_cases h : q = p
  · subst h; simp_all
  · simpa [h] using hq

@[simp]
theorem ledger_setStatus (st : Status) : (s.setStatus p st).ledger = s.ledger :=
  ledger_setProc rfl rfl rfl rfl

theorem noNewExit_setStatus {st : Status} (hst : st ≠ .exit) :
    NoNewExit s (s.setStatus p st) :=
  noNewExit_setProc fun h => absurd h hst

@[simp]
theorem ledger_resetPrio : (s.resetPrio p).ledger = s.ledger :=
  ledger_setProc rfl rfl rfl rfl

theorem noNewExit_resetPrio : NoNewExit s (s.resetPrio p) :=
  noNewExit_setProc id

@[simp]
theorem ledger_agePrio (maxPrio : Int) : (s.agePrio maxPrio p).ledger = s.ledger := by
  unfold agePrio; split
  · exact ledger_setProc rfl rfl rfl rfl
  · rfl

theorem noNewExit_agePrio (maxPrio : Int) : NoNewExit s (s.agePrio maxPrio p) := by
  unfold agePrio; split
  · exact noNewExit_setProc id
  · exact NoNewExit.refl s

@[simp]
theorem ledger_setOwner (o : Option Nat) :
    (s.setOwner r o).ledger = s.ledger.setOwner r o := by
  simp only [ledger, setOwner, Ledger.setOwner, setResource_resources, setResource_procs,
    setResource_nrResources, Ledger.mk.injEq, and_true, true_and]
  funext q
  by_cases hq : q = r
  · subst hq; simp
  · simp [hq]

@[simp]
theorem ledger_unlinkWait : (s.unlinkWait r p).ledger = s.ledger := by
  simp only [ledger, unlinkWait, setResource_resources, setResource_procs,
    setResource_nrResources, Ledger.mk.injEq, and_true, true_and]
  exact funext (update_proj Resource.owner rfl)

@[simp]
theorem ledger_unlinkReady : (s.unlinkReady p).ledger = s.ledger := rfl

theorem linkReadyTail_ledger (h : s.linkReadyTail p = .ok s') :
    s'.ledger = s.ledger ∧ s'.procs = s.procs := by
  unfold linkReadyTail at h; split at h <;> cases h; exact ⟨rfl, rfl⟩

theorem linkReadyHead_ledger (h : s.linkReadyHead p = .ok s') :
    s'.ledger = s.ledger ∧ s'.procs = s.procs := by
  unfold linkReadyHead at h; split at h <;> cases h; exact ⟨rfl, rfl⟩

theorem linkWaitTail_ledger (h : s.linkWaitTail r p = .ok s') :
    s'.ledger = s.ledger ∧ s'.procs = s.procs := by
  unfold linkWaitTail at h; split at h <;> cases h
  refine ⟨?_, rfl⟩
  simp only [ledger, setResource_resources, setResource_procs, setResource_nrResources,
    Ledger.mk.injEq, and_true, true_and]
  exact funext (update_proj Resource.owner rfl)

@[simp]
theorem ledger_moveToHolding (rs : ResourceSchedule) :
    (s.moveToHolding p rs).ledger = s.ledger.moveToHolding p rs := by
  refine ledger_ext rfl (fun _ => rfl) ?_ ?_ ?_ ?_ <;> intro q <;> by_cases h : q = p <;>
    simp [ledger, moveToHolding, Ledger.moveToHolding, h]

@[simp]
theorem ledger_setHolding (held : List ResourceSchedule) :
    (s.setHolding p held).ledger = s.ledger.setHolding p held := by
  refine ledger_ext rfl (fun _ => rfl) ?_ ?_ ?_ ?_ <;> intro q <;> by_cases h : q = p <;>
    simp [ledger, setHolding, Ledger.setHolding, h]

@[simp]
theorem ledger_incAge : (s.incAge p).ledger = s.ledger.incAge p := by
  refine ledger_ext rfl (fun _ => rfl) ?_ ?_ ?_ ?_ <;> intro q <;> by_cases h : q = p <;>
    simp [ledger, incAge, Ledger.incAge, h]

theorem noNewExit_moveToHolding (rs : ResourceSchedule) : NoNewExit s (s.moveToHolding p rs) :=
  noNewExit_setProc id

theorem noNewExit_setHolding (held : List ResourceSchedule) :
    NoNewExit s (s.setHolding p held) :=
  noNewExit_setProc id

theorem noNewExit_incAge : NoNewExit s (s.incAge p) :=
  noNewExit_setProc id
/-! ## Blocking and waking -/

theorem NoNewExit.of_procs (h : s'.procs = s.procs) : NoNewExit s s' :=
  fun _ hp => h ▸ hp

theorem blockOn_ledger (h : s.blockOn r c = .ok s') :
    s'.ledger = s.ledger ∧ NoNewExit s s' := by
  have link := linkWaitTail_ledger h
  exact ⟨link.1.trans (ledger_setStatus _), (noNewExit_setStatus (by decide)).trans
    (NoNewExit.of_procs link.2)⟩

theorem wake_ledger (h : s.wake r p = .ok s') : s'.ledger = s.ledger ∧ NoNewExit s s' := by
  have link := linkReadyTail_ledger h
  refine ⟨by rw [link.1, ledger_setStatus, ledger_unlinkWait], ?_⟩
  exact ((NoNewExit.of_procs rfl).trans (noNewExit_setStatus (by decide))).trans
    (NoNewExit.of_procs link.2)

theorem prioWakeup_ledger (h : s.prioWakeup r = .ok s') :
    s'.ledger = s.ledger ∧ NoNewExit s s' := by
  dsimp only [prioWakeup] at h
  split at h
  · cases h; exact ⟨rfl, .refl s⟩
  · split at h
    · cases h
    · split at h
      · cases h
      · exact wake_ledger h

/-! ## Scheduling -/

/-- What a `schedule()` leaves as it was: the ledger and every status. -/
structure ScheduleFrame (s s' : Sys) : Prop where
  ledger : s'.ledger = s.ledger
  status : ∀ p, (s'.procs p).status = (s.procs p).status

theorem ScheduleFrame.refl (s : Sys) : ScheduleFrame s s := ⟨rfl, fun _ => rfl⟩

theorem ScheduleFrame.trans {s₁ s₂ s₃ : Sys} (h₁ : ScheduleFrame s₁ s₂)
    (h₂ : ScheduleFrame s₂ s₃) : ScheduleFrame s₁ s₃ :=
  ⟨h₂.ledger.trans h₁.ledger, fun p => (h₂.status p).trans (h₁.status p)⟩

theorem ScheduleFrame.noNewExit (h : ScheduleFrame s s') : NoNewExit s s' :=
  fun p hp => (h.status p) ▸ hp

theorem ScheduleFrame.of_procs (ledger : s'.ledger = s.ledger) (procs : s'.procs = s.procs) :
    ScheduleFrame s s' :=
  ⟨ledger, fun p => by rw [procs]⟩

theorem ScheduleFrame.setProc {f : Process → Process}
    (h : f (s.procs p) = { f (s.procs p) with
      status := (s.procs p).status, age := (s.procs p).age, lifespan := (s.procs p).lifespan,
      resourcesToAcquire := (s.procs p).resourcesToAcquire,
      resourcesHolding := (s.procs p).resourcesHolding }) :
    ScheduleFrame s (s.setProc p f) := by
  refine ⟨ledger_setProc (by rw [h]) (by rw [h]) (by rw [h]) (by rw [h]), fun q => update_proj _ ?_ q⟩
  rw [h]

theorem scheduleFrame_resetPrio : ScheduleFrame s (s.resetPrio p) :=
  ScheduleFrame.setProc rfl

theorem scheduleFrame_agePrio (maxPrio : Int) : ScheduleFrame s (s.agePrio maxPrio p) := by
  unfold agePrio; split
  · exact ScheduleFrame.setProc rfl
  · exact .refl s

theorem scheduleFrame_popReady : ScheduleFrame s s.popReady.1 := by
  unfold popReady; split <;> exact .of_procs rfl rfl

theorem scheduleFrame_pickFirst (key : Nat → Int) (m : Int) :
    ScheduleFrame s (s.pickFirst key m).1 := by
  unfold pickFirst; split <;> exact .of_procs rfl rfl

theorem scheduleFrame_readyqueue {q : List Nat} : ScheduleFrame s { s with readyqueue := q } :=
  .of_procs rfl rfl

theorem scheduleFrame_unlinkReady : ScheduleFrame s (s.unlinkReady p) :=
  .of_procs rfl rfl

theorem scheduleFrame_linkReadyTail (h : s.linkReadyTail p = .ok s') : ScheduleFrame s s' :=
  .of_procs (linkReadyTail_ledger h).1 (linkReadyTail_ledger h).2

theorem scheduleFrame_linkReadyHead (h : s.linkReadyHead p = .ok s') : ScheduleFrame s s' :=
  .of_procs (linkReadyHead_ledger h).1 (linkReadyHead_ledger h).2

end Sys

open Sys

theorem scheduleFrame_agePick (maxPrio max : Int) :
    ∀ (l : List Nat) (next : Option Nat) (s : Sys),
      ScheduleFrame s (agePick maxPrio max l next s).1
  | [], _, s => .refl s
  | p :: ps, next, s => by
    unfold agePick; split
    · exact scheduleFrame_agePick maxPrio max ps _ s
    · exact (scheduleFrame_agePrio maxPrio).trans (scheduleFrame_agePick maxPrio max ps _ _)

theorem scheduleFrame_ageAll (maxPrio : Int) :
    ∀ (l : List Nat) (s : Sys), ScheduleFrame s (l.foldl (fun s p => s.agePrio maxPrio p) s)
  | [], s => .refl s
  | _ :: ps, _ => (scheduleFrame_agePrio maxPrio).trans (scheduleFrame_ageAll maxPrio ps _)

section Policies

variable {s : Sys} {r : Sys × Option Nat}

theorem fifoSchedule_frame (h : fifoSchedule s = .ok r) : ScheduleFrame s r.1 := by
  unfold fifoSchedule at h
  split at h <;> cases h
  · exact .refl s
  · exact scheduleFrame_popReady

theorem sjfSchedule_frame (h : sjfSchedule s = .ok r) : ScheduleFrame s r.1 := by
  unfold sjfSchedule at h
  split at h
  · cases h; exact .refl s
  · split at h <;> cases h
    · exact scheduleFrame_pickFirst _ _
    · exact .refl s

theorem scheduleFrame_srtfPickNext : ScheduleFrame s s.srtfPickNext.1 := by
  unfold srtfPickNext; split
  · exact scheduleFrame_pickFirst _ _
  · exact .refl s

theorem srtfSchedule_frame (h : srtfSchedule s = .ok r) : ScheduleFrame s r.1 := by
  unfold srtfSchedule at h
  split at h
  · cases h; exact scheduleFrame_srtfPickNext
  · split at h
    · split at h
      · obtain ⟨s₁, link, rfl⟩ := bind_ok_eq_ok.1 h
        exact scheduleFrame_unlinkReady.trans (scheduleFrame_linkReadyHead link)
      · cases h; exact scheduleFrame_srtfPickNext
    · cases h; exact .refl s

theorem rrSchedule_frame (h : rrSchedule s = .ok r) : ScheduleFrame s r.1 := by
  have tick : ScheduleFrame s { s with ticksCnt := s.ticksCnt + 1 } := .of_procs rfl rfl
  dsimp only [rrSchedule] at h
  split at h
  · cases h; exact tick.trans scheduleFrame_popReady
  · split at h
    · split at h
      · cases h; exact tick
      · obtain ⟨s₁, link, rfl⟩ := bind_ok_eq_ok.1 h
        exact tick.trans (scheduleFrame_readyqueue.trans (scheduleFrame_linkReadyTail link))
    · cases h; exact tick

theorem prioSchedule_frame (h : prioSchedule s = .ok r) : ScheduleFrame s r.1 := by
  unfold prioSchedule at h
  split at h
  · cases h; exact .refl s
  · split at h <;> cases h
    · exact scheduleFrame_pickFirst _ _
    · exact .refl s

theorem paPickNext_frame {maxPrio : Int} {cnt : Nat} {max : Int}
    (h : paPickNext maxPrio cnt max s = .ok r) : ScheduleFrame s r.1 := by
  unfold paPickNext at h
  split at h
  · split at h
    · cases h
    · rename_i s₁ next e
      cases h
      have agePick := scheduleFrame_agePick maxPrio (scanMax s.prioOf max s.readyqueue)
        s.readyqueue none s
      rw [e] at agePick
      exact agePick.trans (scheduleFrame_unlinkReady.trans scheduleFrame_resetPrio)
  · cases h; exact .refl s

theorem paSchedule_frame {maxPrio : Int} (h : paSchedule maxPrio s = .ok r) :
    ScheduleFrame s r.1 := by
  unfold paSchedule at h
  split at h
  · exact paPickNext_frame h
  · split at h
    · split at h
      · obtain ⟨s₁, link, pick⟩ := bind_eq_ok.1 h
        exact (scheduleFrame_linkReadyTail link).trans (paPickNext_frame pick)
      · cases h; exact (scheduleFrame_ageAll maxPrio _ s).trans scheduleFrame_resetPrio
    · cases h; exact scheduleFrame_resetPrio

theorem pcpPickNext_frame {cnt : Nat} {max : Int}
    (h : pcpPickNext cnt max s = .ok r) : ScheduleFrame s r.1 := by
  unfold pcpPickNext at h
  split at h
  · split at h
    · cases h
    · cases h; exact scheduleFrame_unlinkReady.trans scheduleFrame_resetPrio
  · cases h; exact .refl s

theorem pcpSchedule_frame (h : pcpSchedule s = .ok r) : ScheduleFrame s r.1 := by
  unfold pcpSchedule at h
  split at h
  · exact pcpPickNext_frame h
  · split at h
    · split at h
      · obtain ⟨s₁, link, pick⟩ := bind_eq_ok.1 h
        exact (scheduleFrame_linkReadyTail link).trans (pcpPickNext_frame pick)
      · cases h; exact scheduleFrame_resetPrio
    · cases h; exact scheduleFrame_resetPrio

end Policies

end ProcessorScheduler
