import ProcessorScheduler.Placed
import ProcessorScheduler.Ownership

/-!
# The lists of the FIFO and Round-Robin policies

`FcfsPick` is what `fifo_schedule` and `rr_schedule` do to the lists. Each phase of a round
under `fcfs_acquire` and `fcfs_release` keeps `Placed` and cannot fail on one of the
program's checks on its lists (`Fault.OnLists`): the pick and the retirement of `prev`
(`FcfsPick.retire`), the run of the dispatched process (`runCurrent_placed`), and the round
put together as a triple (`doRound_placed`). `placed_of_reachable` carries the invariant over
every run from a script whose lifespans are positive; `fcfs_lists_consistent`, in `Safety`,
reads off it what the program's assertions on its lists need.
-/

namespace ProcessorScheduler

open Sys

/-! ## The engine around the lists -/

/-- The checks of the program on its lists: the dispatched process is linked nowhere, so is
the process `__exit_process` frees, and the waiter a release wakes is `PROCESS_WAIT`. -/
def Fault.OnLists : Fault → Prop
  | .dispatchLinked | .exitLinked | .waiterNotWait => True
  | _ => False

namespace Sys

variable {s : Sys} {c : Nat}

theorem runnable_eq_some : s.runnable = some c ↔
    s.current = some c ∧ (s.procs c).status ≠ .wait ∧ (s.procs c).age < (s.procs c).lifespan := by
  cases hc : s.current with
  | none => simp [runnable, hc]
  | some c' =>
    simp only [runnable, hc, Option.some.injEq]
    by_cases h : (s.procs c').status ≠ .wait ∧ (s.procs c').age < (s.procs c').lifespan
    · rw [if_pos h]
      exact ⟨by rintro ⟨⟩; exact ⟨rfl, h⟩, by rintro ⟨rfl, -⟩; rfl⟩
    · rw [if_neg h]
      exact ⟨nofun, by rintro ⟨rfl, h'⟩; exact absurd h' h⟩

theorem runnable_eq_none : s.runnable = none ↔ ∀ c, s.current = some c →
    (s.procs c).status ≠ .wait → (s.procs c).lifespan ≤ (s.procs c).age := by
  cases hc : s.current with
  | none => simp [runnable, hc]
  | some c' =>
    simp only [runnable, hc, Option.some.injEq, forall_eq']
    by_cases h : (s.procs c').status ≠ .wait ∧ (s.procs c').age < (s.procs c').lifespan
    · rw [if_pos h]
      exact ⟨nofun, fun h' => absurd (h' h.1) (not_le.2 h.2)⟩
    · rw [if_neg h]
      exact ⟨fun _ wait => not_lt.1 fun lt => h ⟨wait, lt⟩, fun _ => rfl⟩

end Sys

theorem forkLoop_current : ∀ (l : List Nat) (s : Sys), (forkLoop l s).current = s.current
  | [], _ => rfl
  | p :: ps, s => by
    rw [forkLoop, forkLoop_current ps]
    unfold forkStep; split <;> rfl

theorem forkLoop_procs : ∀ (l : List Nat) (s : Sys) {p : Nat}, p ∉ l →
    (forkLoop l s).procs p = s.procs p
  | [], _, _, _ => rfl
  | q :: qs, s, p, hp => by
    rw [forkLoop, forkLoop_procs qs _ fun h => hp (.tail _ h)]
    unfold forkStep; split
    · simp [forkProcess, setStatus, List.ne_of_not_mem_cons hp]
    · rfl

section Retire

variable {u s₂ : Sys} {c : Nat} {e : Fault}

/-- The retirement of `prev` writes only statuses. -/
theorem retire_frame (h : retire u c = .ok s₂) : s₂.current = u.current ∧
    ∀ q, (s₂.procs q).age = (u.procs q).age ∧ (s₂.procs q).lifespan = (u.procs q).lifespan := by
  rcases retire_cases h with ⟨rfl, -⟩ | ⟨rfl, -⟩
  · simp
  · refine ⟨by simp, fun q => ?_⟩
    by_cases hq : q = c
    · subst hq; simp [setStatus]
    · simp [setStatus, hq]

theorem retirePrev_frame {o : Option Nat} (h : retirePrev u o = .ok s₂) : s₂.current = u.current ∧
    ∀ q, (s₂.procs q).age = (u.procs q).age ∧ (s₂.procs q).lifespan = (u.procs q).lifespan := by
  cases o with
  | none => cases h; exact ⟨rfl, fun _ => ⟨rfl, rfl⟩⟩
  | some c => exact retire_frame h

/-- The retirement of `prev` fails on the lists only for a `prev` that has lived its
lifespan and is still linked. -/
theorem retire_onLists (h : retire u c = .error e) (lists : e.OnLists) :
    (u.procs c).age = (u.procs c).lifespan ∧ u.Linked c := by
  obtain ⟨done, why⟩ := retire_error h
  rcases why with ⟨-, linked⟩ | ⟨rfl, -⟩ | ⟨rfl, -⟩
  · exact ⟨done, linked⟩
  all_goals exact lists.elim

/-- A retirement that cannot reach a linked `prev` at the end of its lifespan. -/
theorem retire_spec {P : Sys → Prop}
    (safe : (u.procs c).age = (u.procs c).lifespan → ¬ u.Linked c)
    (ok : ∀ s₂, retire u c = .ok s₂ → P s₂) : Spec (fun e => ¬ e.OnLists) P (retire u c) :=
  Spec.of_cases ok fun _ h lists => safe (retire_onLists h lists).1 (retire_onLists h lists).2

end Retire

namespace Placed

variable {n : Nat} {s : Sys} {S : List Nat}

theorem tick (inv : Placed n s S) : Placed n s.tick S :=
  inv.of_frame rfl (fun _ => id) rfl (fun _ => rfl) fun _ => ⟨rfl, rfl, rfl⟩

theorem setTicksCnt (inv : Placed n s S) (k : Int) : Placed n { s with ticksCnt := k } S :=
  inv.of_frame rfl (fun _ => id) rfl (fun _ => rfl) fun _ => ⟨rfl, rfl, rfl⟩

/-- `__fork_on_schedule` keeps the invariant and the slot at the top of the round: `current`
is in no fork queue. -/
theorem forkOnSchedule (inv : Placed n s s.running.toList) :
    Placed n (forkOnSchedule s) (forkOnSchedule s).running.toList := by
  have nodup : s.forkqueue.Nodup := List.nodup_iff_count_le_one.2 fun p => by
    have := inv.links_le p; simp only [links] at this; omega
  have same : (ProcessorScheduler.forkOnSchedule s).running = s.running := by
    simp only [running, ProcessorScheduler.forkOnSchedule, forkLoop_current]
    cases hc : s.current with
    | none => rfl
    | some c =>
      have out : c ∉ s.forkqueue := fun mem => by
        have ready := inv.ready c (.inl mem)
        have : s.running = some c := running_eq_some.2 ⟨hc, by simp [ready]⟩
        exact inv.not_linked (by simp [this]) (.inr (.inl mem))
      simp only [forkLoop_procs _ _ out]
  rw [same]
  exact inv.forkLoop s.forkqueue nodup fun _ => id

end Placed

/-! ## The pick of FIFO and Round-Robin -/

/-- What `fifo_schedule` and `rr_schedule` do to the lists: keep a runnable `current`; take
the head of the ready queue when `current` is not runnable; or, Round-Robin only, link a
runnable `current` at the tail and take the head; or find nothing to run. -/
inductive FcfsPick (s : Sys) : Sys × Option Nat → Prop
  | keep {c : Nat} : s.runnable = some c → FcfsPick s (s, some c)
  | take {p : Nat} {rest : List Nat} : s.runnable = none → s.readyqueue = p :: rest →
      FcfsPick s ({ s with readyqueue := rest }, some p)
  | rotate {c p : Nat} {rest : List Nat} : s.runnable = some c → s.readyqueue = p :: rest →
      ¬ ({ s with readyqueue := rest } : Sys).Linked c →
      FcfsPick s ({ s with readyqueue := rest ++ [c] }, some p)
  | idle : s.runnable = none → s.readyqueue = [] → FcfsPick s (s, none)

section Pick

variable {s : Sys} {r : Sys × Option Nat}

theorem fifoSchedule_pick (h : fifoSchedule s = .ok r) : FcfsPick s r := by
  unfold fifoSchedule at h
  split at h
  · cases h; exact .keep ‹_›
  · cases h
    unfold popReady
    split
    · exact .idle ‹_› ‹_›
    · exact .take ‹_› ‹_›

/-- `rr_schedule` counts the call in `ticks_cnt` first; the lists are those of the counted
state. -/
theorem rrSchedule_pick (h : rrSchedule s = .ok r) :
    FcfsPick { s with ticksCnt := s.ticksCnt + 1 } r := by
  dsimp only [rrSchedule] at h
  split at h
  · cases h
    unfold popReady
    split
    · exact .idle ‹_› ‹_›
    · exact .take ‹_› ‹_›
  · split at h
    · split at h
      · cases h; exact .keep ‹_›
      · obtain ⟨s₁, link, rfl⟩ := bind_ok_eq_ok.1 h
        obtain ⟨fresh, rfl⟩ := linkReadyTail_ok link
        exact .rotate ‹_› ‹_› fresh
    · cases h; exact .keep ‹_›

variable {n : Nat} {t : Sys}

/-- The process a pick returns is younger than its lifespan. -/
theorem FcfsPick.young (inv : Placed n t t.running.toList) (pick : FcfsPick t r) :
    ∀ c, r.2 = some c → (r.1.procs c).age < (r.1.procs c).lifespan := by
  cases pick with
  | keep hc => rintro c ⟨⟩; exact (runnable_eq_some.1 hc).2.2
  | take _ hready => rintro c ⟨⟩; exact inv.young _ (.inl (by simp [hready]))
  | rotate _ hready _ => rintro c ⟨⟩; exact inv.young _ (.inl (by simp [hready]))
  | idle => nofun

/-- Retiring a `prev` that the pick did not keep: it was blocked, or it has lived its
lifespan and is decommissioned. `u` is the state after the pick, whose new slot processes
`S` are younger than their lifespans. -/
theorem Placed.retire_unkept {u : Sys} {S : List Nat} (inv : Placed n t t.running.toList)
    (hnone : t.runnable = none) (inv' : Placed n u (t.running.toList ++ S))
    (procs : u.procs = t.procs) (linked : ∀ q, u.Linked q → t.Linked q)
    (fresh : ∀ q ∈ S, (t.procs q).age < (t.procs q).lifespan) :
    Spec (fun e => ¬ e.OnLists) (fun s₂ => Placed n s₂ S) (retirePrev u t.current) := by
  cases hc : t.current with
  | none =>
    rw [show t.running = none by simp [running, hc]] at inv'
    exact inv'
  | some c =>
    by_cases wait : (t.procs c).status = .wait
    · rw [show t.running = none by simp [running, hc, wait]] at inv'
      refine retire_spec (fun done l => ?_) fun s₂ h => inv'.retire h fun mem => ?_
      · rw [procs] at done; exact absurd done (inv.young c (linked c l)).ne
      · rw [procs]; exact (fresh c mem).ne
    · rw [show t.running = some c from running_eq_some.2 ⟨hc, wait⟩] at inv inv'
      have done : (u.procs c).age = (u.procs c).lifespan := by
        have := runnable_eq_none.1 hnone c hc wait
        have := (inv.slot c (List.mem_singleton_self c)).2
        rw [procs]; omega
      exact retire_spec (fun _ l => inv'.not_linked (List.mem_cons_self c S) l) fun s₂ h =>
        inv'.retire_exit h done

/-- After the pick, the retirement of `prev` keeps the invariant with the picked process in
the slot and does not fail on the lists. A `prev` that is not kept or linked back has lived
its lifespan and is decommissioned. -/
theorem FcfsPick.retire_placed (inv : Placed n t t.running.toList) (pick : FcfsPick t r) :
    Spec (fun e => ¬ e.OnLists) (fun s₂ => Placed n s₂ r.2.toList)
      (retirePrev { r.1 with current := r.2 } t.current) := by
  cases pick with
  | keep hc =>
    rename_i c
    obtain ⟨cur, notWait, young⟩ := runnable_eq_some.1 hc
    rw [show t.running = some c from running_eq_some.2 ⟨cur, notWait⟩] at inv
    rw [cur]
    exact retire_spec (fun done => absurd done young.ne) fun s₂ h =>
      (inv.setCurrent _).retire h fun _ => young.ne
  | take hnone hready =>
    refine inv.retire_unkept hnone ((inv.take hready).setCurrent _) rfl (fun q l => ?_) fun q hq => ?_
    · rcases l with h | h | h
      exacts [.inl (by simp [hready, h]), .inr (.inl h), .inr (.inr h)]
    · obtain rfl := List.mem_singleton.1 hq
      exact inv.young q (.inl (by simp [hready]))
  | rotate hc hready fresh =>
    rename_i c p rest
    obtain ⟨cur, notWait, young⟩ := runnable_eq_some.1 hc
    rw [show t.running = some c from running_eq_some.2 ⟨cur, notWait⟩] at inv
    rw [cur]
    exact retire_spec (fun done => absurd done young.ne) fun s₂ h =>
      Placed.retire_linkedTail (u := { ({ t with readyqueue := rest ++ [c] } : Sys) with
        current := some p }) (l := rest) ((inv.take hready).setCurrent (some p)) rfl young h
  | idle hnone _ =>
    exact inv.retire_unkept (S := []) hnone (by simpa using inv.setCurrent none) rfl
      (fun _ => id) nofun

/-- After the pick, the retirement of `prev` keeps the invariant with the picked process in
the slot, younger than its lifespan, and does not fail on the lists. -/
theorem FcfsPick.retire (inv : Placed n t t.running.toList) (pick : FcfsPick t r) :
    Spec (fun e => ¬ e.OnLists) (fun s₂ => Placed n s₂ r.2.toList ∧ s₂.current = r.2 ∧
      ∀ c, r.2 = some c → (s₂.procs c).age < (s₂.procs c).lifespan)
      (retirePrev { r.1 with current := r.2 } t.current) :=
  (pick.retire_placed inv).and_ok fun _ h => by
    obtain ⟨current, ages⟩ := retirePrev_frame h
    exact ⟨current, fun c hc => by rw [(ages c).1, (ages c).2]; exact pick.young inv c hc⟩

end Pick

/-! ## `fcfs_acquire` and `fcfs_release` -/

/-- The acquire and release callbacks of FIFO, SJF, SRTF and Round-Robin. -/
def Scheduler.Fcfs (sched : Scheduler) : Prop :=
  sched.acquire = fcfsAcquire ∧ sched.release = fcfsRelease

section Fcfs

variable {s s' : Sys} {c : Nat} {i : Int} {b : Bool} {e : Fault}

/-- `fcfs_acquire` grants a free resource, and links the caller at the tail of a taken
one's wait queue as `wait`. -/
theorem fcfsAcquire_cases (h : fcfsAcquire i c s = .ok (b, s')) :
    ∃ r, s.resourceIndex i = .ok r ∧
      ((s.resources r).owner = none ∧ b = true ∧ s' = s.setOwner r (some c) ∨
        (s.resources r).owner ≠ none ∧ b = false ∧ ¬ s.Linked c ∧
          s' = (s.setStatus c .wait).setResource r fun x => { x with waitqueue := x.waitqueue ++ [c] }) := by
  obtain ⟨r, hr, h⟩ := bind_eq_ok.1 h
  refine ⟨r, hr, ?_⟩
  split at h
  · cases h; exact .inl ⟨‹_›, rfl, rfl⟩
  · obtain ⟨s₁, block, e⟩ := bind_ok_eq_ok.1 h
    cases e
    obtain ⟨fresh, rfl⟩ := linkWaitTail_ok block
    exact .inr ⟨by simp_all, rfl, by simpa using fresh, rfl⟩

/-- `fcfs_release` frees a resource of the caller and, when its wait queue is not empty,
moves the head waiter, which must be `wait`, to the tail of the ready queue as `ready`. -/
theorem fcfsRelease_cases (h : fcfsRelease i c s = .ok s') :
    ∃ r, s.resourceIndex i = .ok r ∧ (s.resources r).owner = some c ∧
      ((s.resources r).waitqueue = [] ∧ s' = s.setOwner r none ∨
        ∃ w rest, (s.resources r).waitqueue = w :: rest ∧ (s.procs w).status = .wait ∧
          ¬ (((s.setOwner r none).unlinkWait r w).setStatus w .ready).Linked w ∧
          s' = { ((s.setOwner r none).unlinkWait r w).setStatus w .ready with
            readyqueue := (((s.setOwner r none).unlinkWait r w).setStatus w .ready).readyqueue ++ [w] }) := by
  obtain ⟨r, hr, h⟩ := bind_eq_ok.1 h
  dsimp only at h
  split at h
  · cases h
  · refine ⟨r, hr, not_not.1 ‹_›, ?_⟩
    have wait : ((s.setOwner r none).resources r).waitqueue = (s.resources r).waitqueue := by
      simp [setOwner]
    split at h
    · rename_i empty
      cases h; exact .inl ⟨by rw [← wait]; exact empty, rfl⟩
    · rename_i w rest head
      split at h
      · cases h
      · rename_i waiting
        obtain ⟨fresh, rfl⟩ := linkReadyTail_ok h
        exact .inr ⟨w, rest, by rw [← wait]; exact head, by simpa [setOwner] using waiting, fresh, rfl⟩

/-- `fcfs_release` fails on the lists only when the head waiter is not `wait`. -/
theorem fcfsRelease_onLists (h : fcfsRelease i c s = .error e) (lists : e.OnLists) :
    ∃ r w rest, s.resourceIndex i = .ok r ∧ (s.resources r).waitqueue = w :: rest ∧
      (s.procs w).status ≠ .wait := by
  rcases bind_eq_error.1 h with h | ⟨r, hr, h⟩
  · cases resourceIndex_fault h; exact lists.elim
  · dsimp only at h
    split at h
    · cases h; exact lists.elim
    · have wait : ((s.setOwner r none).resources r).waitqueue = (s.resources r).waitqueue := by
        simp [setOwner]
      split at h
      · cases h
      · rename_i w rest head
        split at h
        · rename_i notWait
          exact ⟨r, w, rest, hr, by rw [← wait]; exact head, by simpa [setOwner] using notWait⟩
        · cases linkReadyTail_fault h; exact lists.elim

end Fcfs

/-! ## Running the slot -/

section Dispatch

variable {sched : Scheduler} {n c : Nat} {s : Sys}

/-- The slot process `c` while it runs: in the slot, `running`, and `current` as
dispatched. -/
structure Running (n c : Nat) (cur : Option Nat) (x : Sys) : Prop where
  placed : Placed n x [c]
  running : (x.procs c).status = .running
  current : x.current = cur

/-- The slot process `c` once it has blocked: in a wait queue and `wait`. -/
structure Blocked (n c : Nat) (cur : Option Nat) (x : Sys) : Prop where
  placed : Placed n x []
  waiting : (x.procs c).status = .wait
  current : x.current = cur

namespace Running

variable {cur : Option Nat} {x : Sys}

theorem setHolding (run : Running n c cur x) {held : List ResourceSchedule} :
    Running n c cur (x.setHolding c held) :=
  ⟨run.placed.setProc fun _ => ⟨rfl, rfl, rfl⟩, by simpa [Sys.setHolding] using run.running,
    run.current⟩

theorem incAge (run : Running n c cur x) (young : (x.procs c).age < (x.procs c).lifespan) :
    Running n c cur (x.incAge c) :=
  ⟨run.placed.incAge young, by simpa [Sys.incAge] using run.running, run.current⟩

/-- One acquisition: a grant keeps `c` running in the slot, a refusal blocks it; neither
fails on the lists. -/
theorem acquire (fcfs : sched.Fcfs) (run : Running n c cur x)
    (young : (x.procs c).age < (x.procs c).lifespan) {rs : ResourceSchedule} :
    Spec (fun e => ¬ e.OnLists) (fun r : Bool × Sys => cond r.1
      (Running n c cur (r.2.moveToHolding c rs) ∧
        ((r.2.moveToHolding c rs).procs c).age < ((r.2.moveToHolding c rs).procs c).lifespan)
      (Blocked n c cur r.2)) (sched.acquire rs.resourceId c x) := by
  rw [fcfs.1]
  refine Spec.of_cases (fun ⟨b, x'⟩ h => ?_) fun e h => ?_
  · obtain ⟨r, hr, ⟨-, rfl, rfl⟩ | ⟨-, rfl, -, rfl⟩⟩ := fcfsAcquire_cases h
    · exact ⟨⟨run.placed.setOwner.setProc fun _ => ⟨rfl, rfl, rfl⟩,
        by simpa [moveToHolding, setOwner] using run.running, run.current⟩,
        by simpa [moveToHolding, setOwner] using young⟩
    · exact ⟨run.placed.block (resourceIndex_ok hr).2 young, by simp [setStatus], run.current⟩
  · rcases fcfsAcquire_fault h with rfl | rfl <;> exact id

/-- One release keeps `c` running in the slot; the waiter it wakes is `wait`. -/
theorem release (fcfs : sched.Fcfs) (run : Running n c cur x) {i : Int}
    {held : List ResourceSchedule} :
    Spec (fun e => ¬ e.OnLists) (fun x' => Running n c cur (x'.setHolding c held))
      (sched.release i c x) := by
  rw [fcfs.2]
  refine Spec.of_cases (fun x' h => ?_) fun e h lists => ?_
  · obtain ⟨r, hr, -, ⟨-, rfl⟩ | ⟨w, rest, head, -, fresh, rfl⟩⟩ := fcfsRelease_cases h
    · exact ⟨run.placed.setOwner.setProc fun _ => ⟨rfl, rfl, rfl⟩,
        by simpa [Sys.setHolding, setOwner] using run.running, run.current⟩
    · have hr' := (resourceIndex_ok hr).2
      have ne : c ≠ w := fun e => run.placed.not_linked (List.mem_singleton_self c)
        (e ▸ .inr (.inr ⟨r, hr', by simp [head]⟩))
      refine ⟨(run.placed.setOwner.wake (by simpa using hr')
        (by simpa [setOwner] using head) fresh).setProc fun _ => ⟨rfl, rfl, rfl⟩, ?_, run.current⟩
      simpa [Sys.setHolding, setStatus, unlinkWait, setOwner, ne] using run.running
  · obtain ⟨r, w, rest, hr, head, notWait⟩ := fcfsRelease_onLists h lists
    exact notWait (run.placed.waiting r (resourceIndex_ok hr).2 w (by simp [head]))

end Running

/-- Running the process in the slot under `fcfs_acquire` and `fcfs_release`: it is linked
nowhere, and either runs and stays in the slot or blocks into a wait queue; no check on the
lists fails. -/
theorem runCurrent_placed (fcfs : sched.Fcfs) (inv : Placed n s [c])
    (young : (s.procs c).age < (s.procs c).lifespan) :
    Spec (fun e => ¬ e.OnLists) (fun s' => s'.current = s.current ∧
      (Placed n s' [c] ∧ (s'.procs c).status ≠ .wait ∨ Placed n s' [] ∧ (s'.procs c).status = .wait))
      (runCurrent sched c s) := by
  have free := inv.not_linked (List.mem_singleton_self c)
  unfold runCurrent
  split
  · exact id
  dsimp only
  split
  · exact absurd (by simpa using ‹_›) free
  refine Spec.bind (P := fun r : Bool × Sys => cond r.1
    (Running n c s.current r.2 ∧ (r.2.procs c).age < (r.2.procs c).lifespan)
    (Blocked n c s.current r.2)) ?_ fun ⟨b, s₁⟩ h => ?_
  · unfold runCurrentAcquire
    apply acquireLoop_spec (fun _ x => Running n c s.current x ∧ (x.procs c).age < (x.procs c).lifespan)
      (Blocked n c s.current) (fun _ h => h)
    swap
    · exact ⟨⟨inv.setStatus_slot (List.mem_singleton_self c) (show Status.running ≠ .wait by decide)
        (by decide), by simp [setStatus], rfl⟩, by simpa [setStatus] using young⟩
    intro rs rest x _ ⟨run, young⟩
    exact run.acquire fcfs young
  · cases b
    · rw [if_neg Bool.false_ne_true]
      exact (show _ ∧ _ from ⟨h.current, .inr ⟨h.placed, h.waiting⟩⟩)
    · rw [if_pos rfl]
      unfold runCurrentRelease
      exact (releaseLoop_spec (Running n c s.current) (fun _ run => run.release fcfs)
        (fun _ run => run.setHolding) (h.1.incAge h.2)).mono
          fun x run => ⟨run.current, .inl ⟨run.placed, by simp [run.running]⟩⟩

end Dispatch

/-! ## Every round, every run -/

/-- FIFO and Round-Robin: the FCFS callbacks, and a pick that `FcfsPick` describes, for
Round-Robin of the state with the call counted in `ticks_cnt`. -/
def Scheduler.FcfsLists (sched : Scheduler) : Prop :=
  sched.Fcfs ∧ ∀ {s r}, sched.schedule s = .ok r → ∃ k : Int, FcfsPick { s with ticksCnt := k } r

theorem fifoScheduler_fcfsLists : fifoScheduler.FcfsLists :=
  ⟨⟨rfl, rfl⟩, fun h => ⟨_, fifoSchedule_pick h⟩⟩

theorem rrScheduler_fcfsLists : rrScheduler.FcfsLists :=
  ⟨⟨rfl, rfl⟩, fun h => ⟨_, rrSchedule_pick h⟩⟩

section Round

variable {sched : Scheduler} {n : Nat} {s : Sys}

/-- A round of FIFO or Round-Robin keeps the invariant, with the unblocked `current` in the
slot, and fails on none of the program's checks on its lists. -/
theorem doRound_placed (lawful : sched.Lawful) (lists : sched.FcfsLists)
    (inv : Placed n s s.running.toList) :
    Spec (fun e => ¬ e.OnLists) (fun o => ∀ s', o = .next s' → Placed n s' s'.running.toList)
      (doRound sched s) := by
  unfold doRound
  refine Spec.bind (P := fun r => ∃ k : Int, FcfsPick { forkOnSchedule s with ticksCnt := k } r)
    (Spec.of_cases (fun r h => lists.2 h) fun e h => by
      rcases lawful.schedule_fault h with rfl | rfl <;> exact id) ?_
  rintro r ⟨k, pick⟩
  refine Spec.bind (pick.retire (t := { forkOnSchedule s with ticksCnt := k })
    (inv.forkOnSchedule.setTicksCnt k)) ?_
  rintro s₂ ⟨placed, cur, young⟩
  rcases hc : r.2 with _ | c
  · rw [hc] at placed cur
    simp only [dispatch]
    split
    · nofun
    · rintro _ ⟨⟩
      rw [show s₂.tick.running = none by simp [running, Sys.tick, cur]]
      exact placed.tick
  · rw [hc] at placed cur young
    refine Spec.bind (runCurrent_placed lists.1 placed (young c rfl)) ?_
    rintro s₃ ⟨cur₃, ⟨placed₃, run⟩ | ⟨placed₃, wait⟩⟩ _ ⟨⟩
    · rw [show s₃.tick.running = some c from running_eq_some.2 ⟨cur₃.trans cur, run⟩]
      exact placed₃.tick
    · rw [show s₃.tick.running = none by simp [running, Sys.tick, cur₃, cur, wait]]
      exact placed₃.tick

/-- The state `__load_script` leaves: every process in the fork queue, once, `ready` and at
age 0, below a lifespan of at least one tick. -/
theorem placed_load {nr : Nat} {script : List Descriptor} (life : ∀ d ∈ script, 1 ≤ d.lifespan) :
    Placed script.length (load nr script) (load nr script).running.toList := by
  have nowait : ∀ p, (load nr script).waitCount p = 0 := fun p => by simp [waitCount]
  have running : (load nr script).running = none := rfl
  rw [running]
  refine ⟨fun p => ?_, fun p _ => load_status, fun r _ p hp => by simp at hp,
    fun p hp => ?_, nofun⟩
  · simp only [links, nowait, load_status, ne_eq, reduceCtorEq, not_false_eq_true, and_true,
      Option.toList_none, List.count_nil, add_zero]
    split
    · exact List.count_eq_one_of_mem (List.nodup_range _) (List.mem_range.2 ‹_›)
    · rename_i out
      exact List.count_eq_zero_of_not_mem (by simpa [load] using out)
  · have hp : p < script.length := by
      rcases hp with h | h | ⟨r, -, h⟩
      · simp [load] at h
      · simpa [load] using h
      · simp at h
    obtain ⟨d, hd, eq⟩ : ∃ d ∈ script, ((load nr script).procs p).lifespan = d.lifespan :=
      load_lifespan hp
    rw [load_age, eq]
    have := life d hd
    omega

/-- In every state FIFO or Round-Robin reaches from a script of positive lifespans. -/
theorem placed_of_reachable (lawful : sched.Lawful) (lists : sched.FcfsLists) {nr : Nat}
    {script : List Descriptor} (life : ∀ d ∈ script, 1 ≤ d.lifespan)
    (reach : Reachable sched (load nr script) s) : Placed script.length s s.running.toList := by
  induction reach with
  | init => exact placed_load life
  | next _ h ih => exact (doRound_placed lawful lists ih).post h _ rfl

end Round

end ProcessorScheduler
