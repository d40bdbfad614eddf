import ProcessorScheduler.Fork

/-!
# First come, first served

Under FIFO the ready queue is a queue. The fork step adds the processes whose fork is due at
its tail, in fork-queue order (`Sys.dueForks`), the wake-ups of `fcfs_release` add at its
tail too (`Appends`), and `fifo_schedule` takes only its head, and only when `current`
cannot go on. So the process taken is the one that entered first among those present, and
those left keep their places ahead of every process that enters later.
A process that ran without blocking and has time left is `current` in the next round, and
`fifo_schedule` keeps it: FIFO never preempts (`fifo_keeps_runner_in_order`).
-/

namespace ProcessorScheduler

open Sys

/-! ## A run that does not block -/

/-- The dispatched process `c` has not blocked: it is `running` and in no wait queue. -/
structure Unblocked (c : Nat) (x : Sys) : Prop where
  running : (x.procs c).status = .running
  free : ∀ q < x.nrResources, c ∉ (x.resources q).waitqueue

/-- `c` is in the wait queue of a resource of the table. -/
def Sys.Waiting (x : Sys) (c : Nat) : Prop :=
  ∃ q < x.nrResources, c ∈ (x.resources q).waitqueue

@[simp]
theorem Sys.waitqueue_setOwner {x : Sys} {r q : Nat} {o : Option Nat} :
    ((x.setOwner r o).resources q).waitqueue = (x.resources q).waitqueue := by
  by_cases h : q = r <;> simp [setOwner, h]

namespace Unblocked

variable {c : Nat} {x : Sys}

/-- A rewrite of `c`'s record that keeps its status. -/
theorem setProc (u : Unblocked c x) {f : Process → Process}
    (hf : (f (x.procs c)).status = (x.procs c).status) : Unblocked c (x.setProc c f) :=
  ⟨by simp [hf, u.running], u.free⟩

theorem setOwner (u : Unblocked c x) {r : Nat} {o : Option Nat} : Unblocked c (x.setOwner r o) :=
  ⟨u.running, fun q hq => by rw [waitqueue_setOwner]; exact u.free q hq⟩

/-- The wake-up of another process `w` from the wait queue of `r`. -/
theorem wake (u : Unblocked c x) {r w : Nat} (ne : w ≠ c) {l : List Nat} :
    Unblocked c { (x.unlinkWait r w).setStatus w .ready with readyqueue := l } := by
  refine ⟨by simpa [setStatus, unlinkWait, Ne.symm ne] using u.running, fun q hq mem => ?_⟩
  by_cases e : q = r
  · subst e
    exact u.free q hq (List.mem_of_mem_erase (by simpa [setStatus, unlinkWait] using mem))
  · exact u.free q hq (by simpa [setStatus, unlinkWait, e] using mem)

variable {sched : Scheduler} (fcfs : sched.Fcfs)
include fcfs

/-- `fcfs_acquire` either grants, and `c` goes on, or links `c` into a wait queue. -/
theorem acquire (u : Unblocked c x) {rs : ResourceSchedule} :
    Spec (fun _ => True) (fun r : Bool × Sys =>
      cond r.1 (Unblocked c (r.2.moveToHolding c rs)) (r.2.Waiting c))
      (sched.acquire rs.resourceId c x) := by
  rw [fcfs.1]
  refine Spec.of_cases (fun ⟨b, x'⟩ h => ?_) fun _ _ => trivial
  obtain ⟨r, hr, ⟨-, rfl, rfl⟩ | ⟨-, rfl, -, rfl⟩⟩ := fcfsAcquire_cases h
  · exact u.setOwner.setProc rfl
  · exact ⟨r, (resourceIndex_ok hr).2, by simp [setStatus]⟩

/-- `fcfs_release` wakes a waiter, which is not `c`. -/
theorem release (u : Unblocked c x) {i : Int} {held : List ResourceSchedule} :
    Spec (fun _ => True) (fun x' => Unblocked c (x'.setHolding c held)) (sched.release i c x) := by
  rw [fcfs.2]
  refine Spec.of_cases (fun x' h => Unblocked.setProc ?_ rfl) fun _ _ => trivial
  obtain ⟨r, hr, -, ⟨-, rfl⟩ | ⟨w, rest, head, -, -, rfl⟩⟩ := fcfsRelease_cases h
  · exact u.setOwner
  · exact u.setOwner.wake fun e => u.free r (resourceIndex_ok hr).2 (by simp [head, e])

end Unblocked

variable {sched : Scheduler} {s : Sys} {c : Nat}

/-- Running the dispatched process under `fcfs_acquire` and `fcfs_release`: at the end of
the round it is `running` and in no wait queue, or it has blocked into one. -/
theorem runCurrent_unblocked (fcfs : sched.Fcfs) :
    Spec (fun _ => True) (fun s' => Unblocked c s' ∨ s'.Waiting c) (runCurrent sched c s) := by
  unfold runCurrent
  split
  · trivial
  dsimp only
  split
  · trivial
  rename_i detached
  refine Spec.bind (P := fun r : Bool × Sys => cond r.1 (Unblocked c r.2) (r.2.Waiting c)) ?_
    fun ⟨b, s₁⟩ h => ?_
  · unfold runCurrentAcquire
    refine acquireLoop_spec (fun _ x => Unblocked c x) (·.Waiting c) (fun _ h => h)
      (fun _ u => u.acquire fcfs)
      ⟨by simp [setStatus], fun q hq mem => detached (.inr (.inr ⟨q, hq, mem⟩))⟩
  · cases b
    · rw [if_neg Bool.false_ne_true]; exact .inr h
    · rw [if_pos rfl]
      unfold runCurrentRelease
      exact (releaseLoop_spec (Unblocked c) (fun _ u => u.release fcfs) (fun _ u => u.setProc rfl)
        (h.setProc rfl)).mono fun _ => .inl

/-! ## A round of FIFO -/

/-- FIFO, every state and every round that stays in the loop, with `r` the pick of the
round. A process the round dispatched that is in no wait queue after the round and younger
than its lifespan is kept by the next round's `fifo_schedule`. When `current` cannot go on,
the pick finds the ready queue of the round's start followed by the processes the fork step
added, in fork-queue order; it takes the head, and the others stay at the head of the ready
queue after the round, with what entered later behind them. When `current` goes on, the
pick keeps it and the ready queue only grows at its tail. -/
theorem fifo_keeps_runner_in_order {s s' : Sys} (round : doRound fifoScheduler s = .ok (.next s'))
    {r : Sys × Option Nat} (pick : fifoSchedule (forkOnSchedule s) = .ok r) :
    (∀ c, r.2 = some c → (∀ q, c ∉ (s'.resources q).waitqueue) →
      (s'.procs c).age < (s'.procs c).lifespan →
        fifoSchedule (forkOnSchedule s') = .ok (forkOnSchedule s', some c)) ∧
    ((forkOnSchedule s).runnable = none →
      r.2 = (s.readyqueue ++ s.dueForks).head? ∧
        (s.readyqueue ++ s.dueForks).tail <+: s'.readyqueue) ∧
    ((forkOnSchedule s).runnable ≠ none →
      r.2 = (forkOnSchedule s).runnable ∧ s.readyqueue ++ s.dueForks <+: s'.readyqueue) := by
  obtain ⟨r', s₂, hr, h₂, h⟩ := doRound_ok round
  obtain rfl : r = r' := Except.ok.inj (pick.symm.trans hr)
  have retired := retirePrev_appends h₂
  obtain ⟨x, ran, after⟩ : ∃ x, Appends s₂ x ∧ s' = x.tick := by
    rcases dispatch_next h with ⟨-, rfl⟩ | ⟨c, s₃, -, h₃, rfl⟩
    · exact ⟨s₂, .refl s₂, rfl⟩
    · exact ⟨s₃, (runCurrent_appends ⟨rfl, rfl⟩).post h₃, rfl⟩
  have later : r.1.readyqueue <+: s'.readyqueue := by
    rw [after]; exact retired.ready.trans ran.ready
  rw [← forkOnSchedule_readyqueue]
  refine ⟨fun c picked unblocked young => ?_, fun none => ?_, fun some => ?_⟩
  · rw [picked] at h
    obtain ⟨s₃, h₃, e⟩ := dispatch_some h
    obtain rfl : s' = s₃.tick := Outcome.next.inj e
    obtain ⟨-, detached, -⟩ := runCurrent_ok h₃
    have running : (s₃.procs c).status = .running := by
      rcases (runCurrent_unblocked ⟨rfl, rfl⟩).post h₃ with u | ⟨q, -, mem⟩
      · exact u.running
      · exact absurd mem (unblocked q)
    have out : c ∉ s₃.forkqueue := by
      rw [((runCurrent_forkFrame ⟨fifoSchedule_forkFrame, fcfsAcquire_forkFrame,
        fcfsRelease_forkFrame⟩).post h₃).forkqueue]
      exact fun mem => detached (.inr (.inl mem))
    have current : s₃.current = some c := by
      rw [((runCurrent_appends ⟨rfl, rfl⟩).post h₃).current, retired.current, picked]
    have runnable : (forkOnSchedule s₃.tick).runnable = some c := by
      refine runnable_eq_some.2 ⟨by rw [forkOnSchedule, forkLoop_current]; exact current, ?_⟩
      rw [forkOnSchedule, forkLoop_procs _ _ (show c ∉ s₃.tick.forkqueue from out)]
      exact ⟨by simp [Sys.tick, running], young⟩
    simp only [fifoSchedule, runnable]
  · simp only [fifoSchedule, none] at pick
    cases Except.ok.inj pick
    cases ready : (forkOnSchedule s).readyqueue with
    | nil => exact ⟨by simp [popReady, ready], List.nil_prefix⟩
    | cons p rest =>
      simp only [popReady, ready] at later ⊢
      exact ⟨rfl, later⟩
  · obtain ⟨c, hc⟩ := Option.ne_none_iff_exists'.1 some
    simp only [fifoSchedule, hc] at pick
    cases Except.ok.inj pick
    exact ⟨hc.symm, later⟩

/-- Two processes under FIFO: the one dispatched in round `0` has a tick left after it and is
kept by the pick of round `1`. -/
theorem fifo_keeps_first_job :
    ∃ s', doRound fifoScheduler (load 1 [⟨0, 2, 0, 0, []⟩, ⟨1, 1, 0, 0, []⟩]) = .ok (.next s') ∧
      fifoSchedule (forkOnSchedule s') = .ok (forkOnSchedule s', some 0) := by
  obtain ⟨s', round, unblocked, young⟩ : ∃ s', doRound fifoScheduler
      (load 1 [⟨0, 2, 0, 0, []⟩, ⟨1, 1, 0, 0, []⟩]) = .ok (.next s') ∧
      (∀ q, 0 ∉ (s'.resources q).waitqueue) ∧ (s'.procs 0).age < (s'.procs 0).lifespan :=
    ⟨_, rfl, fun _ => List.not_mem_nil _, by decide⟩
  exact ⟨s', round, (fifo_keeps_runner_in_order round rfl).1 0 rfl unblocked young⟩

end ProcessorScheduler
