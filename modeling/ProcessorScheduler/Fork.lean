import ProcessorScheduler.RoundRobin

/-!
# When a process is forked

`__fork_on_schedule` tests `p->__starts_at <= ticks`: the `int` start tick is converted to
`unsigned int` before it meets the clock (`forkDue`). The fork step moves exactly the
processes of the fork queue whose fork is due to the tail of the ready queue, as `ready`
(`forkLoop_forkqueue`, `forkLoop_forked`). Nothing else in a round touches the fork queue,
the clock or a start tick, and the round ends with `ticks++` (`ForkFrame`, `doRound_forks`),
under each of the eight policies (`Policy.keepsForks`). So in every state the loop reaches
from a script, a process of the script is in the fork queue exactly when no earlier round
found its fork due (`forkqueue_of_reachable`).

On the clock: a start tick `s` in `[0, 2^32)` is forked in round `s` and in no earlier one
(`fork_round_exact`); a negative one is forked in round `2^32 + s`, and so not in round `0`
(`negative_start_forked_late`).
-/

namespace ProcessorScheduler

open Sys

/-! ## What the rest of a round leaves -/

/-- `s'` has the fork queue, the clock and the start ticks of `s`. -/
structure ForkFrame (s s' : Sys) : Prop where
  forkqueue : s'.forkqueue = s.forkqueue
  ticks : s'.ticks = s.ticks
  startsAt : ∀ p, (s'.procs p).startsAt = (s.procs p).startsAt

namespace ForkFrame

variable {s₁ s₂ s₃ : Sys}

theorem refl (s : Sys) : ForkFrame s s := ⟨rfl, rfl, fun _ => rfl⟩

theorem trans (h₁ : ForkFrame s₁ s₂) (h₂ : ForkFrame s₂ s₃) : ForkFrame s₁ s₃ :=
  ⟨h₂.forkqueue.trans h₁.forkqueue, h₂.ticks.trans h₁.ticks,
    fun p => (h₂.startsAt p).trans (h₁.startsAt p)⟩

/-- A write of the ready queue, the table, `current` or `ticks_cnt`. -/
theorem of_procs (procs : s₂.procs = s₁.procs) (forkqueue : s₂.forkqueue = s₁.forkqueue)
    (ticks : s₂.ticks = s₁.ticks) : ForkFrame s₁ s₂ :=
  ⟨forkqueue, ticks, fun p => by rw [procs]⟩

/-- A write of a process record that keeps its start tick. -/
theorem setProc {p : Nat} {f : Process → Process}
    (h : (f (s₁.procs p)).startsAt = (s₁.procs p).startsAt) : ForkFrame s₁ (s₁.setProc p f) :=
  ⟨rfl, rfl, update_proj Process.startsAt h⟩

end ForkFrame

namespace Sys

variable {s s' : Sys} {p r : Nat}

theorem forkFrame_setStatus {st : Status} : ForkFrame s (s.setStatus p st) := .setProc rfl

theorem forkFrame_resetPrio : ForkFrame s (s.resetPrio p) := .setProc rfl

theorem forkFrame_setOwner {o : Option Nat} : ForkFrame s (s.setOwner r o) := .of_procs rfl rfl rfl

theorem forkFrame_unlinkReady : ForkFrame s (s.unlinkReady p) := .of_procs rfl rfl rfl

theorem forkFrame_unlinkWait : ForkFrame s (s.unlinkWait r p) := .of_procs rfl rfl rfl

theorem forkFrame_withReady {l : List Nat} : ForkFrame s { s with readyqueue := l } :=
  .of_procs rfl rfl rfl

theorem forkFrame_agePrio (maxPrio : Int) : ForkFrame s (s.agePrio maxPrio p) := by
  unfold agePrio; split
  · exact .setProc rfl
  · exact .refl s

theorem forkFrame_popReady : ForkFrame s s.popReady.1 := by
  unfold popReady; split <;> exact .of_procs rfl rfl rfl

theorem forkFrame_pickFirst (key : Nat → Int) (m : Int) : ForkFrame s (s.pickFirst key m).1 := by
  unfold pickFirst; split <;> exact .of_procs rfl rfl rfl

theorem forkFrame_linkReadyTail (h : s.linkReadyTail p = .ok s') : ForkFrame s s' := by
  obtain ⟨-, rfl⟩ := linkReadyTail_ok h; exact .of_procs rfl rfl rfl

theorem forkFrame_linkReadyHead (h : s.linkReadyHead p = .ok s') : ForkFrame s s' := by
  obtain ⟨-, rfl⟩ := linkReadyHead_ok h; exact .of_procs rfl rfl rfl

theorem forkFrame_blockOn (h : s.blockOn r p = .ok s') : ForkFrame s s' := by
  obtain ⟨-, rfl⟩ := linkWaitTail_ok h; exact forkFrame_setStatus.trans (.of_procs rfl rfl rfl)

theorem forkFrame_wake (h : s.wake r p = .ok s') : ForkFrame s s' := by
  obtain ⟨-, rfl⟩ := linkReadyTail_ok h
  exact (forkFrame_unlinkWait.trans forkFrame_setStatus).trans forkFrame_withReady

theorem forkFrame_prioWakeup (h : s.prioWakeup r = .ok s') : ForkFrame s s' := by
  dsimp only [prioWakeup] at h
  split at h
  · cases h; exact .refl s
  · split at h
    · cases h
    · split at h
      · cases h
      · exact forkFrame_wake h

theorem forkFrame_demote : ForkFrame s (s.demote p) := by
  unfold demote; split
  · exact forkFrame_setStatus
  · exact .refl s

end Sys

theorem forkFrame_agePick (maxPrio max : Int) :
    ∀ (l : List Nat) (next : Option Nat) (s : Sys), ForkFrame s (agePick maxPrio max l next s).1
  | [], _, s => .refl s
  | p :: ps, next, s => by
    unfold agePick; split
    · exact forkFrame_agePick maxPrio max ps _ s
    · exact (forkFrame_agePrio maxPrio).trans (forkFrame_agePick maxPrio max ps _ _)

theorem forkFrame_ageAll (maxPrio : Int) :
    ∀ (l : List Nat) (s : Sys), ForkFrame s (l.foldl (fun s p => s.agePrio maxPrio p) s)
  | [], s => .refl s
  | _ :: ps, _ => (forkFrame_agePrio maxPrio).trans (forkFrame_ageAll maxPrio ps _)

/-! ## The callbacks of the eight policies -/

section Policies

variable {s s' : Sys} {r : Sys × Option Nat} {i : Int} {c : Nat} {b : Bool}

theorem fifoSchedule_forkFrame (h : fifoSchedule s = .ok r) : ForkFrame s r.1 := by
  unfold fifoSchedule at h
  split at h <;> cases h
  · exact .refl s
  · exact forkFrame_popReady

theorem sjfSchedule_forkFrame (h : sjfSchedule s = .ok r) : ForkFrame s r.1 := by
  unfold sjfSchedule at h
  split at h
  · cases h; exact .refl s
  · split at h <;> cases h
    · exact forkFrame_pickFirst _ _
    · exact .refl s

theorem forkFrame_srtfPickNext : ForkFrame s s.srtfPickNext.1 := by
  unfold srtfPickNext; split
  · exact forkFrame_pickFirst _ _
  · exact .refl s

theorem srtfSchedule_forkFrame (h : srtfSchedule s = .ok r) : ForkFrame s r.1 := by
  unfold srtfSchedule at h
  split at h
  · cases h; exact forkFrame_srtfPickNext
  · split at h
    · split at h
      · obtain ⟨s₁, link, rfl⟩ := bind_ok_eq_ok.1 h
        exact forkFrame_unlinkReady.trans (forkFrame_linkReadyHead link)
      · cases h; exact forkFrame_srtfPickNext
    · cases h; exact .refl s

theorem rrSchedule_forkFrame (h : rrSchedule s = .ok r) : ForkFrame s r.1 := by
  have count : ForkFrame s { s with ticksCnt := s.ticksCnt + 1 } := .of_procs rfl rfl rfl
  dsimp only [rrSchedule] at h
  split at h
  · cases h; exact count.trans forkFrame_popReady
  · split at h
    · split at h
      · cases h; exact count
      · obtain ⟨s₁, link, rfl⟩ := bind_ok_eq_ok.1 h
        exact count.trans (forkFrame_withReady.trans (forkFrame_linkReadyTail link))
    · cases h; exact count

theorem prioSchedule_forkFrame (h : prioSchedule s = .ok r) : ForkFrame s r.1 := by
  unfold prioSchedule at h
  split at h
  · cases h; exact .refl s
  · split at h <;> cases h
    · exact forkFrame_pickFirst _ _
    · exact .refl s

theorem paPickNext_forkFrame {maxPrio : Int} {cnt : Nat} {max : Int}
    (h : paPickNext maxPrio cnt max s = .ok r) : ForkFrame s r.1 := by
  unfold paPickNext at h
  split at h
  · split at h
    · cases h
    · rename_i s₁ next e
      cases h
      have aged := forkFrame_agePick maxPrio (scanMax s.prioOf max s.readyqueue) s.readyqueue none s
      rw [e] at aged
      exact aged.trans (forkFrame_unlinkReady.trans forkFrame_resetPrio)
  · cases h; exact .refl s

theorem paSchedule_forkFrame {maxPrio : Int} (h : paSchedule maxPrio s = .ok r) :
    ForkFrame s r.1 := by
  unfold paSchedule at h
  split at h
  · exact paPickNext_forkFrame h
  · split at h
    · split at h
      · obtain ⟨s₁, link, pick⟩ := bind_eq_ok.1 h
        exact (forkFrame_linkReadyTail link).trans (paPickNext_forkFrame pick)
      · cases h; exact (forkFrame_ageAll maxPrio _ s).trans forkFrame_resetPrio
    · cases h; exact forkFrame_resetPrio

theorem pcpPickNext_forkFrame {cnt : Nat} {max : Int} (h : pcpPickNext cnt max s = .ok r) :
    ForkFrame s r.1 := by
  unfold pcpPickNext at h
  split at h
  · split at h
    · cases h
    · cases h; exact forkFrame_unlinkReady.trans forkFrame_resetPrio
  · cases h; exact .refl s

theorem pcpSchedule_forkFrame (h : pcpSchedule s = .ok r) : ForkFrame s r.1 := by
  unfold pcpSchedule at h
  split at h
  · exact pcpPickNext_forkFrame h
  · split at h
    · split at h
      · obtain ⟨s₁, link, pick⟩ := bind_eq_ok.1 h
        exact (forkFrame_linkReadyTail link).trans (pcpPickNext_forkFrame pick)
      · cases h; exact forkFrame_resetPrio
    · cases h; exact forkFrame_resetPrio

theorem fcfsAcquire_forkFrame (h : fcfsAcquire i c s = .ok (b, s')) : ForkFrame s s' := by
  obtain ⟨r, -, ⟨-, -, rfl⟩ | ⟨-, -, -, rfl⟩⟩ := fcfsAcquire_cases h
  · exact .of_procs rfl rfl rfl
  · exact forkFrame_setStatus.trans (.of_procs rfl rfl rfl)

/-- The grant that `prio_acquire`, `pcp_acquire` and `pip_acquire` share: the new owner is
marked `wait` and linked at the tail of the ready queue. -/
theorem forkFrame_grant {x : Sys} (hx : ForkFrame s x)
    (h : (x.setStatus c .wait).linkReadyTail c = .ok s') : ForkFrame s s' :=
  (hx.trans forkFrame_setStatus).trans (forkFrame_linkReadyTail h)

theorem prioAcquire_forkFrame (h : prioAcquire i c s = .ok (b, s')) : ForkFrame s s' := by
  obtain ⟨r, -, h⟩ := bind_eq_ok.1 h
  split at h
  · obtain ⟨s₁, link, e⟩ := bind_ok_eq_ok.1 h
    cases e
    exact forkFrame_grant forkFrame_setOwner link
  · obtain ⟨s₁, block, e⟩ := bind_ok_eq_ok.1 h
    cases e; exact forkFrame_blockOn block

theorem pcpAcquire_forkFrame {maxPrio : Int} (h : pcpAcquire maxPrio i c s = .ok (b, s')) :
    ForkFrame s s' := by
  obtain ⟨r, -, h⟩ := bind_eq_ok.1 h
  split at h
  · obtain ⟨s₁, link, e⟩ := bind_ok_eq_ok.1 h
    cases e
    exact forkFrame_grant (forkFrame_setOwner.trans (.setProc rfl)) link
  · obtain ⟨s₁, block, e⟩ := bind_ok_eq_ok.1 h
    cases e; exact forkFrame_blockOn block

theorem pipAcquire_forkFrame (h : pipAcquire i c s = .ok (b, s')) : ForkFrame s s' := by
  obtain ⟨r, -, h⟩ := bind_eq_ok.1 h
  split at h
  · obtain ⟨s₁, link, e⟩ := bind_ok_eq_ok.1 h
    cases e
    exact forkFrame_grant forkFrame_setOwner link
  · obtain ⟨s₁, block, e⟩ := bind_ok_eq_ok.1 h
    cases e
    refine ForkFrame.trans ?_ (forkFrame_blockOn block)
    split
    · exact .setProc rfl
    · exact .refl s

theorem fcfsRelease_forkFrame (h : fcfsRelease i c s = .ok s') : ForkFrame s s' := by
  obtain ⟨r, -, -, ⟨-, rfl⟩ | ⟨w, rest, -, -, -, rfl⟩⟩ := fcfsRelease_cases h
  · exact .of_procs rfl rfl rfl
  · exact ((forkFrame_setOwner.trans forkFrame_unlinkWait).trans forkFrame_setStatus).trans
      forkFrame_withReady

theorem prioRelease_forkFrame (h : prioRelease i c s = .ok s') : ForkFrame s s' := by
  obtain ⟨r, -, h⟩ := bind_eq_ok.1 h
  split at h
  · cases h
  · exact forkFrame_setOwner.trans (forkFrame_prioWakeup h)

theorem pcpRelease_forkFrame (h : pcpRelease i c s = .ok s') : ForkFrame s s' := by
  obtain ⟨r, -, h⟩ := bind_eq_ok.1 h
  dsimp only at h
  split at h
  · cases h
  · exact ((ForkFrame.setProc rfl).trans forkFrame_setOwner).trans (forkFrame_prioWakeup h)

end Policies

/-- What the fork law needs of a policy: its callbacks leave the fork queue, the clock and
the start ticks. -/
structure Scheduler.KeepsForks (sched : Scheduler) : Prop where
  schedule {s : Sys} {r : Sys × Option Nat} : sched.schedule s = .ok r → ForkFrame s r.1
  acquire {i : Int} {c : Nat} {s s' : Sys} {b : Bool} :
    sched.acquire i c s = .ok (b, s') → ForkFrame s s'
  release {i : Int} {c : Nat} {s s' : Sys} : sched.release i c s = .ok s' → ForkFrame s s'

theorem Policy.keepsForks (maxPrio : Int) : ∀ pol : Policy, (pol.scheduler maxPrio).KeepsForks
  | .fifo => ⟨fifoSchedule_forkFrame, fcfsAcquire_forkFrame, fcfsRelease_forkFrame⟩
  | .sjf => ⟨sjfSchedule_forkFrame, fcfsAcquire_forkFrame, fcfsRelease_forkFrame⟩
  | .srtf => ⟨srtfSchedule_forkFrame, fcfsAcquire_forkFrame, fcfsRelease_forkFrame⟩
  | .rr => ⟨rrSchedule_forkFrame, fcfsAcquire_forkFrame, fcfsRelease_forkFrame⟩
  | .prio => ⟨prioSchedule_forkFrame, prioAcquire_forkFrame, prioRelease_forkFrame⟩
  | .pa => ⟨paSchedule_forkFrame, prioAcquire_forkFrame, prioRelease_forkFrame⟩
  | .pcp => ⟨pcpSchedule_forkFrame, pcpAcquire_forkFrame, pcpRelease_forkFrame⟩
  | .pip => ⟨pcpSchedule_forkFrame, pipAcquire_forkFrame, pcpRelease_forkFrame⟩

/-! ## The engine's own writes -/

section Engine

variable {s s' : Sys}

theorem retirePrev_forkFrame {o : Option Nat} (h : retirePrev s o = .ok s') : ForkFrame s s' := by
  cases o with
  | none => cases h; exact .refl s
  | some p =>
    rcases retire_cases h with ⟨rfl, -⟩ | ⟨rfl, -⟩
    · exact forkFrame_demote
    · exact forkFrame_demote.trans forkFrame_setStatus

theorem forkStep_frame (q : Nat) :
    (s.forkStep q).ticks = s.ticks ∧
      ∀ p, ((s.forkStep q).procs p).startsAt = (s.procs p).startsAt := by
  unfold forkStep; split
  · exact ⟨rfl, fun p => by simp only [forkProcess]; exact forkFrame_setStatus.startsAt p⟩
  · exact ⟨rfl, fun _ => rfl⟩

theorem forkLoop_startsAt : ∀ (l : List Nat) (s : Sys) (p : Nat),
    ((forkLoop l s).procs p).startsAt = (s.procs p).startsAt
  | [], _, _ => rfl
  | q :: qs, s, p => by rw [forkLoop, forkLoop_startsAt qs, (forkStep_frame q).2]

end Engine

/-! ## A round -/

section Round

variable {sched : Scheduler} (keeps : sched.KeepsForks) {s s' : Sys} {c : Nat}
include keeps

theorem runCurrent_forkFrame : Spec (fun _ => True) (ForkFrame s) (runCurrent sched c s) := by
  unfold runCurrent
  split
  · trivial
  dsimp only
  split
  · trivial
  refine Spec.bind (P := fun r : Bool × Sys => ForkFrame s r.2) ?_ fun ⟨b, s₁⟩ h => ?_
  · unfold runCurrentAcquire
    refine (acquireLoop_spec (fun _ x => ForkFrame s x) (ForkFrame s) (fun _ h => h)
      (fun _ h => ?_) forkFrame_setStatus).mono fun ⟨b, _⟩ h => by cases b <;> exact h
    exact Spec.of_cases (fun ⟨b, _⟩ hx => by
      cases b
      · exact h.trans (keeps.acquire hx)
      · exact (h.trans (keeps.acquire hx)).trans (.setProc rfl)) fun _ _ => trivial
  · cases b
    · rw [if_neg Bool.false_ne_true]; exact h
    · rw [if_pos rfl]
      unfold runCurrentRelease
      refine releaseLoop_spec (ForkFrame s) (fun _ h => ?_) (fun _ h => h.trans (.setProc rfl))
        (h.trans (.setProc rfl))
      exact Spec.of_cases (fun _ hx => (h.trans (keeps.release hx)).trans (.setProc rfl))
        fun _ _ => trivial

/-- Past the fork step, a round that stays in the loop keeps the fork queue and the start
ticks and advances the clock by one. -/
theorem doRound_forks (h : doRound sched s = .ok (.next s')) :
    s'.forkqueue = (forkOnSchedule s).forkqueue ∧ s'.ticks = s.ticks + 1 ∧
      ∀ p, (s'.procs p).startsAt = (s.procs p).startsAt := by
  obtain ⟨r, s₂, hr, h₂, h⟩ := doRound_ok h
  have picked : ForkFrame (forkOnSchedule s) s₂ :=
    (keeps.schedule hr).trans ((ForkFrame.of_procs rfl rfl rfl :
      ForkFrame r.1 { r.1 with current := r.2 }).trans (retirePrev_forkFrame h₂))
  have ran : ∃ s₃, ForkFrame (forkOnSchedule s) s₃ ∧ s' = s₃.tick := by
    rcases dispatch_next h with ⟨-, rfl⟩ | ⟨c, s₃, -, h₃, rfl⟩
    · exact ⟨s₂, picked, rfl⟩
    · exact ⟨s₃, picked.trans ((runCurrent_forkFrame keeps).post h₃), rfl⟩
  obtain ⟨s₃, frame, rfl⟩ := ran
  refine ⟨frame.forkqueue, ?_, fun p => (frame.startsAt p).trans (forkLoop_startsAt _ s p)⟩
  simp only [Sys.tick, frame.ticks, forkOnSchedule, (forkLoop_appends _ s).ticks]

end Round

/-! ## The fork step -/

section ForkStep

variable {s : Sys}

/-- One step of the fork loop: a process whose fork is due leaves the fork queue, the others
stay. -/
theorem forkStep_forkqueue (nodup : s.forkqueue.Nodup) (q : Nat) :
    (s.forkStep q).forkqueue.Nodup ∧ ∀ p, p ∈ (s.forkStep q).forkqueue ↔
      p ∈ s.forkqueue ∧ (p = q → ¬ forkDue (s.procs p).startsAt s.ticks) := by
  unfold forkStep; split
  · rename_i due
    refine ⟨nodup.erase q, fun p => ?_⟩
    simp only [forkProcess, setStatus_forkqueue, nodup.mem_erase_iff]
    exact ⟨fun ⟨ne, mem⟩ => ⟨mem, fun e => absurd e ne⟩,
      fun ⟨mem, h⟩ => ⟨fun e => h e (e ▸ due), mem⟩⟩
  · rename_i due
    exact ⟨nodup, fun p => ⟨fun mem => ⟨mem, fun e => e ▸ due⟩, And.left⟩⟩

/-- The fork loop over `l` takes out of the fork queue exactly the processes of `l` whose
fork is due. -/
theorem forkLoop_forkqueue : ∀ (l : List Nat) (s : Sys), s.forkqueue.Nodup →
    (forkLoop l s).forkqueue.Nodup ∧ ∀ p, p ∈ (forkLoop l s).forkqueue ↔
      p ∈ s.forkqueue ∧ (p ∈ l → ¬ forkDue (s.procs p).startsAt s.ticks)
  | [], s, nodup => ⟨nodup, fun p => by simp [forkLoop]⟩
  | q :: qs, s, nodup => by
    obtain ⟨nodup₁, step⟩ := forkStep_forkqueue nodup q
    obtain ⟨nodup₂, loop⟩ := forkLoop_forkqueue qs _ nodup₁
    refine ⟨nodup₂, fun p => ?_⟩
    rw [forkLoop, loop, step, (forkStep_frame q).1, (forkStep_frame q).2, List.mem_cons, or_imp,
      and_assoc]

/-- A process of `l` whose fork is due ends at the ready queue as `ready`. -/
theorem forkLoop_forked : ∀ (l : List Nat) (s : Sys) {p : Nat}, l.Nodup → p ∈ l →
    forkDue (s.procs p).startsAt s.ticks →
    p ∈ (forkLoop l s).readyqueue ∧ ((forkLoop l s).procs p).status = .ready
  | [], _, _, _, mem, _ => absurd mem (List.not_mem_nil _)
  | q :: qs, s, p, nodup, mem, due => by
    rw [forkLoop]
    rcases List.mem_cons.1 mem with rfl | mem
    · have moved : p ∈ (s.forkStep p).readyqueue ∧ ((s.forkStep p).procs p).status = .ready := by
        simp [forkStep, due, forkProcess, setStatus]
      exact ⟨(forkLoop_appends qs _).ready.subset moved.1,
        by rw [forkLoop_procs qs _ (List.nodup_cons.1 nodup).1]; exact moved.2⟩
    · exact forkLoop_forked qs _ (List.nodup_cons.1 nodup).2 mem
        (by rwa [(forkStep_frame q).1, (forkStep_frame q).2])

/-- The processes the fork step moves to the ready queue: those of the fork queue whose fork
is due, in fork-queue order. -/
def Sys.dueForks (s : Sys) : List Nat :=
  s.forkqueue.filter fun p => forkDue (s.procs p).startsAt s.ticks

theorem forkLoop_readyqueue_eq : ∀ (l : List Nat) (s : Sys),
    (forkLoop l s).readyqueue = s.readyqueue ++ l.filter fun p => forkDue (s.procs p).startsAt s.ticks
  | [], _ => by simp [forkLoop]
  | q :: qs, s => by
    rw [forkLoop, forkLoop_readyqueue_eq qs]
    simp only [(forkStep_frame q).1, (forkStep_frame q).2, List.filter_cons]
    unfold forkStep
    split <;> simp [forkProcess, setStatus, *]

/-- The fork step adds the processes whose fork is due at the tail of the ready queue, in
fork-queue order. -/
theorem forkOnSchedule_readyqueue : (forkOnSchedule s).readyqueue = s.readyqueue ++ s.dueForks :=
  forkLoop_readyqueue_eq s.forkqueue s

end ForkStep

/-! ## Every run -/

section Runs

variable {sched : Scheduler} {nr : Nat} {script : List Descriptor}

theorem load_startsAt {p : Nat} (hp : p < script.length) :
    ((load nr script).procs p).startsAt = script[p].start := by
  simp [load, hp, Descriptor.toProcess]

/-- In every state the loop reaches from a script, a process of the script is in the fork
queue exactly when no round before found its fork due; the start ticks are those loaded. -/
theorem forkqueue_of_reachable (keeps : sched.KeepsForks) {σ : Sys}
    (reach : Reachable sched (load nr script) σ) :
    σ.forkqueue.Nodup ∧ (∀ p, (σ.procs p).startsAt = ((load nr script).procs p).startsAt) ∧
      ∀ p, p ∈ σ.forkqueue ↔
        p < script.length ∧ ∀ t < σ.ticks, ¬ forkDue ((load nr script).procs p).startsAt t := by
  induction reach with
  | init => exact ⟨List.nodup_range _, fun _ => rfl, fun p => by simp [load]⟩
  | next _ h ih =>
    obtain ⟨nodup, starts, mem⟩ := ih
    obtain ⟨fq, ticks, starts'⟩ := doRound_forks keeps h
    obtain ⟨nodup', loop⟩ := forkLoop_forkqueue _ _ nodup
    refine ⟨fq ▸ nodup', fun p => (starts' p).trans (starts p), fun p => ?_⟩
    rw [fq, forkOnSchedule, loop, mem, ticks, starts, Nat.forall_lt_succ]
    exact ⟨fun ⟨queued, due⟩ => ⟨queued.1, queued.2, due queued⟩,
      fun ⟨len, before, now⟩ => ⟨⟨len, before⟩, fun _ => now⟩⟩

/-- `p->__starts_at <= ticks` while the clock is below `2^32`. -/
theorem forkDue_iff {start : Int} {t : Nat} (ht : t < UInt32.size) :
    forkDue start t ↔ start % UInt32.size ≤ t := by
  unfold forkDue; rw [Nat.mod_eq_of_lt ht]

/-- No round before round `T` forks a process exactly when `T` has not passed its start tick
read as `unsigned int`. -/
theorem unforked_iff {start : Int} {T : Nat} (hT : T ≤ UInt32.size) :
    (∀ t < T, ¬ forkDue start t) ↔ (T : Int) ≤ start % UInt32.size := by
  constructor
  · intro h
    cases T with
    | zero => exact Int.emod_nonneg _ (by decide)
    | succ t =>
      have := h t (Nat.lt_succ_self t)
      rw [forkDue_iff (by omega)] at this
      omega
  · intro h t ht due
    rw [forkDue_iff (by omega)] at due
    omega

/-- Every policy, every script: a process whose start tick is negative is still in the fork
queue in every round before round `2^32 + start`, and leaves it then; round
`max(start, 0) = 0` does not fork it. -/
theorem negative_start_forked_late (maxPrio : Int) (pol : Policy) (nr : Nat)
    (script : List Descriptor) {σ : Sys} (reach : Reachable (pol.scheduler maxPrio) (load nr script) σ)
    (p : Nat) (hp : p < script.length) (neg : script[p].start < 0)
    (wide : -(UInt32.size : Int) ≤ script[p].start) (clock : σ.ticks ≤ UInt32.size) :
    p ∈ σ.forkqueue ↔ (σ.ticks : Int) ≤ script[p].start + UInt32.size := by
  have wrap : script[p].start % UInt32.size = script[p].start + UInt32.size := by
    simp only [UInt32.size] at wide ⊢; omega
  rw [(forkqueue_of_reachable (Policy.keepsForks maxPrio pol) reach).2.2 p, load_startsAt hp,
    unforked_iff clock, wrap]
  exact ⟨And.right, fun h => ⟨hp, h⟩⟩

/-- A process starting at `-1` is not forked in round `0`: after it, the loop has idled and
the process is still in the fork queue. -/
theorem negative_start_idles :
    ∃ σ, run fifoScheduler 1 (load 1 [⟨0, 1, 0, -1, []⟩]) = .ok (.next σ) ∧ σ.ticks = 1 ∧
      0 ∈ σ.forkqueue := by
  obtain ⟨σ, ran, tick⟩ : ∃ σ, run fifoScheduler 1 (load 1 [⟨0, 1, 0, -1, []⟩]) =
      .ok (.next σ) ∧ σ.ticks = 1 := ⟨_, rfl, rfl⟩
  exact ⟨σ, ran, tick, (negative_start_forked_late 0 .fifo 1 _ (.of_run ran) 0 (by decide)
    (by decide) (by decide) (by rw [tick]; decide)).2 (by rw [tick]; decide)⟩

/-- Every policy, every script: a process whose start tick `s` is in `[0, 2^32)` is in the
fork queue at the top of round `t` exactly when `t ≤ s`, and the fork step of round `s`
moves it to the ready queue as `ready`. -/
theorem fork_round_exact (maxPrio : Int) (pol : Policy) (nr : Nat) (script : List Descriptor)
    {σ : Sys} (reach : Reachable (pol.scheduler maxPrio) (load nr script) σ) (p : Nat)
    (hp : p < script.length) (nonneg : 0 ≤ script[p].start)
    (fits : script[p].start < UInt32.size) (clock : σ.ticks ≤ UInt32.size) :
    (p ∈ σ.forkqueue ↔ (σ.ticks : Int) ≤ script[p].start) ∧
      ((σ.ticks : Int) = script[p].start → p ∉ (forkOnSchedule σ).forkqueue ∧
        p ∈ (forkOnSchedule σ).readyqueue ∧ ((forkOnSchedule σ).procs p).status = .ready) := by
  obtain ⟨nodup, starts, mem⟩ := forkqueue_of_reachable (Policy.keepsForks maxPrio pol) reach
  have same : script[p].start % UInt32.size = script[p].start := Int.emod_eq_of_lt nonneg fits
  have waiting : p ∈ σ.forkqueue ↔ (σ.ticks : Int) ≤ script[p].start := by
    rw [mem p, load_startsAt hp, unforked_iff clock, same]
    exact ⟨And.right, fun h => ⟨hp, h⟩⟩
  refine ⟨waiting, fun now => ?_⟩
  have due : forkDue (σ.procs p).startsAt σ.ticks := by
    rw [starts, load_startsAt hp, forkDue_iff (by omega), same]; omega
  have inQueue : p ∈ σ.forkqueue := waiting.2 now.le
  refine ⟨fun out => ((forkLoop_forkqueue _ _ nodup).2 p).1 out |>.2 inQueue due, ?_⟩
  exact forkLoop_forked _ _ nodup inQueue due

/-- A process starting at tick `2` waits in the fork queue until round `2`, whose fork step
moves it to the ready queue. -/
theorem fork_at_two :
    ∃ σ, run fifoScheduler 2 (load 1 [⟨0, 1, 0, 2, []⟩]) = .ok (.next σ) ∧ 0 ∈ σ.forkqueue ∧
      0 ∈ (forkOnSchedule σ).readyqueue := by
  obtain ⟨σ, ran, tick⟩ : ∃ σ, run fifoScheduler 2 (load 1 [⟨0, 1, 0, 2, []⟩]) = .ok (.next σ) ∧
      σ.ticks = 2 := ⟨_, rfl, rfl⟩
  have exact := fork_round_exact 0 .fifo 1 [⟨0, 1, 0, 2, []⟩] (.of_run ran) 0 (by decide)
    (by decide) (by decide) (by rw [tick]; decide)
  exact ⟨σ, ran, exact.1.2 (by rw [tick]; decide), (exact.2 (by rw [tick]; rfl)).2.1⟩

end Runs

end ProcessorScheduler
