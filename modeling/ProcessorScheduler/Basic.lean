import Mathlib.Logic.Function.Basic
import Mathlib.Tactic.Basic

/-!
# Processes, resources and the simulator state

The records of `process.h` and `resource.h`, the globals of `sched3.c`, and the
`list_head.h` operations the simulator applies to them.

A `struct process *` is an index into an arena of processes kept in load order. The
intrusive `list` node of a process is represented by the queues themselves: a process is
*linked* when it occurs in the ready queue, the fork queue or a resource's wait queue.
`list_add` of a node that is still linked rewires its old neighbours into a cycle; the
model stops there with `Fault.listCorrupt` rather than follow the corrupted lists. Every
other way the C program stops short of leaving its loop (a failed `assert`, a `NULL`
dereference, an index past `resources[NR_RESOURCES]`, a write to a freed process) is a
`Fault` as well.
-/

namespace ProcessorScheduler

/-- `enum process_status`; the `memset` of `__load_script` leaves a process `ready`. -/
inductive Status
  | ready
  | running
  | wait
  | exit
  deriving DecidableEq, Repr

/-- `struct resource_schedule`: take `resourceId` once the process is `at` ticks old and
keep it `duration` ticks. In a held entry `duration` is the remaining countdown. -/
structure ResourceSchedule where
  resourceId : Int
  «at» : Int
  duration : Int
  deriving DecidableEq, Repr

/-- `struct process`, without its `list` node (see the module note). -/
structure Process where
  pid : Int
  status : Status
  age : Int
  lifespan : Int
  prio : Int
  prioOrig : Int
  startsAt : Int
  resourcesToAcquire : List ResourceSchedule
  resourcesHolding : List ResourceSchedule
  deriving Repr

/-- A record as `malloc` and `memset(p, 0x00, ...)` leave it. -/
def Process.blank : Process :=
  ⟨0, .ready, 0, 0, 0, 0, 0, [], []⟩

/-- `struct resource`: the owning process and the processes blocked on it. -/
structure Resource where
  owner : Option Nat
  waitqueue : List Nat
  deriving DecidableEq, Repr

/-- Where a run of the model ends other than by leaving the simulation loop. Most are where
the C program stops, on a failed assertion, or where its behaviour is undefined. The one
exception is `listCorrupt`: C goes on there, with lists the model does not represent. -/
inductive Fault
  /-- `assert(list_empty(&current->list))` in `__do_simulation` -/
  | dispatchLinked
  /-- `assert(list_empty(&p->list))` in `__exit_process` -/
  | exitLinked
  /-- `assert(list_empty(&p->__resources_holding))` in `__exit_process` -/
  | exitHolding
  /-- `assert(list_empty(&p->__resources_to_acquire))` in `__exit_process` -/
  | exitPending
  /-- `assert(r->owner == current)` in a release function -/
  | releaseNotOwner
  /-- `assert(waiter->status == PROCESS_WAIT)` in a release function -/
  | waiterNotWait
  /-- `list_add` of a node that is still linked. C does not stop: it rewrites the pointers
  of the node and goes on with corrupted lists (a node added behind itself points to itself,
  and the next `list_for_each` over that list never ends). The model does not follow the
  program past this point. -/
  | listCorrupt
  /-- `current` was freed by `__exit_process` in the same round -/
  | useAfterFree
  /-- a priority scan left `next` or `waiter` at `NULL` and dereferences it -/
  | nullDeref
  /-- `resources + resource_id` outside `[0, NR_RESOURCES)` -/
  | outOfBounds
  deriving DecidableEq, Repr

/-- The globals `readyqueue`, `__forkqueue`, `resources`, `current` and `ticks` of
`sched3.c`, `ticks_cnt` of `pa2.c`, and the loaded processes. `nrResources` is
`NR_RESOURCES` (from `resource.h`, which is not part of the sources). -/
structure Sys where
  procs : Nat → Process
  readyqueue : List Nat
  forkqueue : List Nat
  resources : Nat → Resource
  nrResources : Nat
  current : Option Nat
  ticks : Nat
  ticksCnt : Int

namespace Sys

/-- Rewrite the record of process `p`. -/
@[simps]
def setProc (s : Sys) (p : Nat) (f : Process → Process) : Sys :=
  { s with procs := Function.update s.procs p (f (s.procs p)) }

/-- `p->status = status`. -/
def setStatus (s : Sys) (p : Nat) (status : Status) : Sys :=
  s.setProc p fun q => { q with status }

/-- Rewrite resource slot `r`. -/
@[simps]
def setResource (s : Sys) (r : Nat) (f : Resource → Resource) : Sys :=
  { s with resources := Function.update s.resources r (f (s.resources r)) }

/-- `r->owner = owner`. -/
def setOwner (s : Sys) (r : Nat) (owner : Option Nat) : Sys :=
  s.setResource r fun x => { x with owner }

/-- `resources + resource_id`, defined only inside the table. -/
def resourceIndex (s : Sys) (resourceId : Int) : Except Fault Nat :=
  if 0 ≤ resourceId ∧ resourceId < s.nrResources then .ok resourceId.toNat
  else .error .outOfBounds

/-- `!list_empty(&p->list)`: the node of `p` is in one of the lists. -/
def Linked (s : Sys) (p : Nat) : Prop :=
  p ∈ s.readyqueue ∨ p ∈ s.forkqueue ∨ ∃ r < s.nrResources, p ∈ (s.resources r).waitqueue

instance (s : Sys) (p : Nat) : Decidable (s.Linked p) :=
  inferInstanceAs (Decidable (_ ∨ _ ∨ _))

/-- `list_add_tail(&p->list, &readyqueue)`. For a node still linked, C corrupts the lists and
goes on; the model ends the run there with `listCorrupt`. -/
def linkReadyTail (s : Sys) (p : Nat) : Except Fault Sys :=
  if s.Linked p then .error .listCorrupt else .ok { s with readyqueue := s.readyqueue ++ [p] }

/-- `list_add(&p->list, &readyqueue)`: at the head. For a node still linked, C corrupts the
lists and goes on; the model ends the run there with `listCorrupt`. -/
def linkReadyHead (s : Sys) (p : Nat) : Except Fault Sys :=
  if s.Linked p then .error .listCorrupt else .ok { s with readyqueue := p :: s.readyqueue }

/-- `list_add_tail(&p->list, &r->waitqueue)`. For a node still linked, C corrupts the lists
and goes on; the model ends the run there with `listCorrupt`. -/
def linkWaitTail (s : Sys) (r p : Nat) : Except Fault Sys :=
  if s.Linked p then .error .listCorrupt
  else .ok (s.setResource r fun x => { x with waitqueue := x.waitqueue ++ [p] })

/-- `list_del_init(&p->list)` for a member of the ready queue. -/
def unlinkReady (s : Sys) (p : Nat) : Sys :=
  { s with readyqueue := s.readyqueue.erase p }

/-- `list_del_init(&p->list)` for a member of `r`'s wait queue. -/
def unlinkWait (s : Sys) (r p : Nat) : Sys :=
  s.setResource r fun x => { x with waitqueue := x.waitqueue.erase p }

variable {s s' : Sys} {p r : Nat}

theorem linkReadyTail_ok (h : s.linkReadyTail p = .ok s') :
    ¬ s.Linked p ∧ s' = { s with readyqueue := s.readyqueue ++ [p] } := by
  unfold linkReadyTail at h; split at h <;> cases h; exact ⟨‹_›, rfl⟩

theorem linkReadyHead_ok (h : s.linkReadyHead p = .ok s') :
    ¬ s.Linked p ∧ s' = { s with readyqueue := p :: s.readyqueue } := by
  unfold linkReadyHead at h; split at h <;> cases h; exact ⟨‹_›, rfl⟩

theorem linkWaitTail_ok (h : s.linkWaitTail r p = .ok s') :
    ¬ s.Linked p ∧ s' = s.setResource r fun x => { x with waitqueue := x.waitqueue ++ [p] } := by
  unfold linkWaitTail at h; split at h <;> cases h; exact ⟨‹_›, rfl⟩

end Sys

/-- A field that a write leaves as it was is the same after `Function.update`. -/
theorem update_proj {α β γ : Type} [DecidableEq α] {f : α → β} {a : α} {b : β} (g : β → γ)
    (h : g b = g (f a)) (x : α) : g (Function.update f a b x) = g (f x) := by
  by_cases hx : x = a
  · subst hx; simpa using h
  · simp [hx]

/-! ## Evaluating `Except` -/

theorem bind_eq_ok {ε α β : Type} {x : Except ε α} {f : α → Except ε β} {b : β} :
    x >>= f = .ok b ↔ ∃ a, x = .ok a ∧ f a = .ok b := by
  cases x <;> simp [bind, Except.bind]

theorem bind_ok_eq_ok {ε α β : Type} {x : Except ε α} {g : α → β} {b : β} :
    (x >>= fun a => Except.ok (g a)) = .ok b ↔ ∃ a, x = .ok a ∧ g a = b := by
  cases x <;> simp [bind, Except.bind]

theorem bind_eq_error {ε α β : Type} {x : Except ε α} {f : α → Except ε β} {e : ε} :
    x >>= f = .error e ↔ x = .error e ∨ ∃ a, x = .ok a ∧ f a = .error e := by
  cases x <;> simp [bind, Except.bind]

theorem bind_ok_eq_error {ε α β : Type} {x : Except ε α} {g : α → β} {e : ε} :
    (x >>= fun a => Except.ok (g a)) = .error e ↔ x = .error e := by
  cases x <;> simp [bind, Except.bind]

@[simp]
theorem ok_bind {ε α β : Type} (a : α) (f : α → Except ε β) :
    (Except.ok a >>= f) = f a := rfl

@[simp]
theorem error_bind {ε α β : Type} (e : ε) (f : α → Except ε β) :
    (Except.error e >>= f) = .error e := rfl

/-! ## Triples for computations that can fail -/

/-- `x` ends in a value that `post` admits, or stops with a fault that `allowed` admits. -/
def Spec {α : Type} (allowed : Fault → Prop) (post : α → Prop) : Except Fault α → Prop
  | .ok a => post a
  | .error e => allowed e

section Spec

variable {α β : Type} {allowed : Fault → Prop} {P P' : α → Prop} {Q : β → Prop}
  {x : Except Fault α}

theorem Spec.bind {f : α → Except Fault β} (hx : Spec allowed P x)
    (hf : ∀ a, P a → Spec allowed Q (f a)) : Spec allowed Q (x >>= f) := by
  cases x with
  | ok a => exact hf a hx
  | error e => exact hx

theorem Spec.of_cases (ok : ∀ a, x = .ok a → P a) (error : ∀ e, x = .error e → allowed e) :
    Spec allowed P x := by
  cases x with
  | ok a => exact ok a rfl
  | error e => exact error e rfl

theorem Spec.post {a : α} (h : Spec allowed P x) (hx : x = .ok a) : P a := by
  subst hx; exact h

theorem Spec.fault {e : Fault} (h : Spec allowed P x) (hx : x = .error e) : allowed e := by
  subst hx; exact h

theorem Spec.mono (h : Spec allowed P x) (hP : ∀ a, P a → P' a) : Spec allowed P' x := by
  cases x with
  | ok a => exact hP a h
  | error e => exact h

/-- A fact about every value `x` can end in joins the postcondition. -/
theorem Spec.and_ok {R : α → Prop} (h : Spec allowed P x) (hR : ∀ a, x = .ok a → R a) :
    Spec allowed (fun a => P a ∧ R a) x := by
  cases x with
  | ok a => exact ⟨h, hR a rfl⟩
  | error e => exact h

end Spec

end ProcessorScheduler
