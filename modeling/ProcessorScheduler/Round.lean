import ProcessorScheduler.Contract

/-!
# A round, phase by phase

`doRound_ok` splits a round into the policy's `schedule()`, the retirement of the previous
process and the dispatch; `runCurrent_ok` splits the run of the dispatched process into
its acquisitions, its aging and its releases; `retire_cases` says when `prev` leaves the
system. Forking keeps the ledger. The invariant proofs of the later modules follow these
phases and never unfold `doRound` themselves.
-/

namespace ProcessorScheduler

open Sys

namespace Sys
variable {s s' : Sys} {p q : Nat}

@[simp]
theorem linked_setProc {f : Process → Process} : (s.setProc p f).Linked q ↔ s.Linked q := Iff.rfl

@[simp]
theorem setStatus_forkqueue {st : Status} : (s.setStatus p st).forkqueue = s.forkqueue := rfl

@[simp]
theorem setStatus_readyqueue {st : Status} : (s.setStatus p st).readyqueue = s.readyqueue := rfl

@[simp]
theorem setStatus_resources {st : Status} : (s.setStatus p st).resources = s.resources := rfl

@[simp]
theorem setStatus_nrResources {st : Status} : (s.setStatus p st).nrResources = s.nrResources := rfl

@[simp]
theorem setStatus_current {st : Status} : (s.setStatus p st).current = s.current := rfl

@[simp]
theorem linked_setStatus {st : Status} : (s.setStatus p st).Linked q ↔ s.Linked q := Iff.rfl

@[simp]
theorem linked_setOwner {o : Option Nat} : (s.setOwner p o).Linked q ↔ s.Linked q := by
  have wait : ∀ x, ((s.setOwner p o).resources x).waitqueue = (s.resources x).waitqueue :=
    update_proj Resource.waitqueue rfl
  unfold Linked
  simp only [wait]
  rfl

@[simp]
theorem ledger_demote : (s.demote p).ledger = s.ledger := by
  unfold demote; split <;> simp

@[simp]
theorem linked_demote : (s.demote q).Linked p ↔ s.Linked p := by
  unfold demote; split <;> simp

@[simp]
theorem demote_age : ((s.demote q).procs p).age = (s.procs p).age := by
  unfold demote; split <;> simp [setStatus, update_proj]

@[simp]
theorem demote_lifespan : ((s.demote q).procs p).lifespan = (s.procs p).lifespan := by
  unfold demote; split <;> simp [setStatus, update_proj]

@[simp]
theorem demote_resourcesHolding :
    ((s.demote q).procs p).resourcesHolding = (s.procs p).resourcesHolding := by
  unfold demote; split <;> simp [setStatus, update_proj]

@[simp]
theorem demote_resourcesToAcquire :
    ((s.demote q).procs p).resourcesToAcquire = (s.procs p).resourcesToAcquire := by
  unfold demote; split <;> simp [setStatus, update_proj]

theorem noNewExit_demote : NoNewExit s (s.demote p) := by
  unfold demote; split
  · exact noNewExit_setStatus (by decide)
  · exact .refl s

@[simp]
theorem ledger_forkProcess : (s.forkProcess p).ledger = s.ledger := by
  simp only [forkProcess, ledger_setStatus]; rfl

theorem noNewExit_forkProcess : NoNewExit s (s.forkProcess p) :=
  (NoNewExit.of_procs rfl).trans (noNewExit_setStatus (by decide))

end Sys

theorem forkLoop_ledger : ∀ (l : List Nat) (s : Sys),
    (forkLoop l s).ledger = s.ledger ∧ NoNewExit s (forkLoop l s)
  | [], s => ⟨rfl, .refl s⟩
  | p :: ps, s => by
    have step : (s.forkStep p).ledger = s.ledger ∧ NoNewExit s (s.forkStep p) := by
      unfold forkStep; split
      · exact ⟨ledger_forkProcess, noNewExit_forkProcess⟩
      · exact ⟨rfl, .refl s⟩
    have rest := forkLoop_ledger ps (s.forkStep p)
    exact ⟨rest.1.trans step.1, step.2.trans rest.2⟩

/-- A retired `prev` is demoted, and given the status `exit` only when it has lived its
lifespan, is linked nowhere and holds and awaits nothing. -/
theorem retire_cases {s s' : Sys} {p : Nat} (h : retire s p = .ok s') :
    s' = s.demote p ∧ (s.procs p).age ≠ (s.procs p).lifespan ∨
      s' = (s.demote p).setStatus p .exit ∧ (s.procs p).age = (s.procs p).lifespan ∧
        ¬ s.Linked p ∧ (s.procs p).resourcesHolding = [] ∧ (s.procs p).resourcesToAcquire = [] := by
  dsimp only [retire] at h
  simp only [demote_age, demote_lifespan] at h
  split at h
  · unfold exitProcess at h
    simp only [setStatus, linked_setProc, linked_demote, setProc_procs, Function.update_same,
      demote_resourcesHolding, demote_resourcesToAcquire] at h
    split at h
    · cases h
    · split at h
      · cases h
      · split at h
        · cases h
        · cases h; exact .inr ⟨rfl, ‹_›, ‹_›, not_not.1 ‹_›, not_not.1 ‹_›⟩
  · cases h; exact .inl ⟨rfl, ‹_›⟩

variable {sched : Scheduler} {s s' : Sys} {c : Nat} {o : Outcome}

/-- A round is a schedule, a retirement and a dispatch. -/
theorem doRound_ok (h : doRound sched s = .ok o) :
    ∃ r s₂, sched.schedule (forkOnSchedule s) = .ok r ∧
      retirePrev { r.1 with current := r.2 } (forkOnSchedule s).current = .ok s₂ ∧
      dispatch sched s₂ r.2 = .ok o := by
  obtain ⟨r, hr, h⟩ := bind_eq_ok.1 h
  obtain ⟨s₂, h₂, h⟩ := bind_eq_ok.1 h
  exact ⟨r, s₂, hr, h₂, h⟩

/-- Running `current`: it was not freed and is linked nowhere; its acquisitions either
all succeed, and it ages and counts down, or one blocks it. -/
theorem runCurrent_ok (h : runCurrent sched c s = .ok s') :
    (s.procs c).status ≠ .exit ∧ ¬ s.Linked c ∧
      ∃ b s₁, runCurrentAcquire sched c (s.setStatus c .running) = .ok (b, s₁) ∧
        if b then runCurrentRelease sched c (s₁.incAge c) = .ok s' else s₁ = s' := by
  unfold runCurrent at h
  split at h
  · cases h
  · rename_i alive
    dsimp only at h
    split at h
    · cases h
    · rename_i detached
      obtain ⟨⟨b, s₁⟩, h₁, h⟩ := bind_eq_ok.1 h
      refine ⟨alive, fun l => detached (by simpa using l), b, s₁, h₁, ?_⟩
      cases b
      · cases h; rfl
      · exact h

theorem dispatch_none (h : dispatch sched s none = .ok o) :
    o = .halt s ∨ o = .next s.tick := by
  simp only [dispatch] at h; split at h <;> cases h <;> simp

theorem dispatch_some (h : dispatch sched s (some c) = .ok o) :
    ∃ s', runCurrent sched c s = .ok s' ∧ o = .next s'.tick := by
  obtain ⟨s', h₁, h⟩ := bind_eq_ok.1 h
  cases h; exact ⟨s', h₁, rfl⟩

/-- Retiring `prev` writes only its status. -/
theorem retirePrev_ledger {o : Option Nat} (h : retirePrev s o = .ok s') :
    s'.ledger = s.ledger := by
  cases o with
  | none => cases h; rfl
  | some p => rcases retire_cases h with ⟨rfl, -⟩ | ⟨rfl, -⟩ <;> simp

/-- Forking, `schedule()` and the retirement of `prev` keep the ledger. -/
theorem retirePrev_ledger_of_schedule (lawful : sched.Lawful) {r : Sys × Option Nat}
    {s₂ : Sys} (hr : sched.schedule (forkOnSchedule s) = .ok r)
    (h : retirePrev { r.1 with current := r.2 } (forkOnSchedule s).current = .ok s₂) :
    s₂.ledger = s.ledger :=
  (retirePrev_ledger h).trans ((lawful.schedule hr).ledger.trans (forkLoop_ledger _ s).1)

/-- A dispatch that stays in the loop idles or runs the chosen process, then ticks. -/
theorem dispatch_next {o : Option Nat} (h : dispatch sched s o = .ok (.next s')) :
    o = none ∧ s' = s.tick ∨ ∃ c s₃, o = some c ∧ runCurrent sched c s = .ok s₃ ∧ s' = s₃.tick := by
  cases o with
  | none => rcases dispatch_none h with h | h <;> cases h; exact .inl ⟨rfl, rfl⟩
  | some c =>
    obtain ⟨s₃, h₃, h⟩ := dispatch_some h
    cases h; exact .inr ⟨c, s₃, rfl, h₃, rfl⟩

/-- The loop is left only when nothing was chosen and both queues are empty. -/
theorem dispatch_halt {o : Option Nat} (h : dispatch sched s o = .ok (.halt s')) :
    o = none ∧ s' = s ∧ s.readyqueue = [] ∧ s.forkqueue = [] := by
  cases o with
  | none =>
    simp only [dispatch] at h
    split at h
    · cases h; exact ⟨rfl, rfl, ‹_›⟩
    · cases h
  | some c => obtain ⟨_, _, h⟩ := dispatch_some h; cases h

/-! ## The loops as triples -/

section LoopSpec

variable {allowed : Fault → Prop}

/-- The acquisitions of a round from one triple per entry: `inv l s` holds while the
entries `l` remain; an entry not yet due is passed over; a due entry is either granted, and
moved to the held list, or refused, which ends the loop in `blocked`. -/
theorem acquireLoop_spec (inv : List ResourceSchedule → Sys → Prop) (blocked : Sys → Prop)
    (skip : ∀ {rs rest s}, rs.at ≠ (s.procs c).age → inv (rs :: rest) s → inv rest s)
    (step : ∀ {rs rest s}, rs.at = (s.procs c).age → inv (rs :: rest) s →
      Spec allowed (fun r : Bool × Sys => cond r.1 (inv rest (r.2.moveToHolding c rs)) (blocked r.2))
        (sched.acquire rs.resourceId c s)) :
    ∀ {l s}, inv l s →
      Spec allowed (fun r : Bool × Sys => cond r.1 (inv [] r.2) (blocked r.2)) (acquireLoop sched c l s)
  | [], _, hi => hi
  | rs :: rest, s, hi => by
    unfold acquireLoop
    split
    · refine (step ‹_› hi).bind fun ⟨b, s₁⟩ h => ?_
      cases b
      · exact h
      · exact acquireLoop_spec inv blocked skip step h
    · exact acquireLoop_spec inv blocked skip step (skip ‹_› hi)

/-- The releases of a round from one triple per release: an invariant that every release
callback keeps, and that rewriting the held list of `current` keeps. -/
theorem releaseLoop_spec (inv : Sys → Prop)
    (release : ∀ {i s} held, inv s → Spec allowed (fun s' => inv (s'.setHolding c held))
      (sched.release i c s))
    (keep : ∀ {s} held, inv s → inv (s.setHolding c held)) :
    ∀ {kept l s}, inv s → Spec allowed inv (releaseLoop sched c kept l s)
  | _, [], _, hi => hi
  | kept, rs :: rest, s, hi => by
    unfold releaseLoop
    dsimp only
    split
    · exact (release _ hi).bind fun _ h => releaseLoop_spec inv release keep h
    · exact releaseLoop_spec inv release keep (keep _ hi)

/-- A relation between the state before the run of `current` and each state of the run: one
that composes, and that a rewrite of a process record and each callback keep. -/
theorem runCurrent_keeps (R : Sys → Sys → Prop) (trans : ∀ {x y z}, R x y → R y z → R x z)
    (setProc : ∀ {x p f}, R x (x.setProc p f))
    (acquire : ∀ {i x b y}, sched.acquire i c x = .ok (b, y) → R x y)
    (release : ∀ {i x y}, sched.release i c x = .ok y → R x y) :
    Spec (fun _ => True) (R s) (runCurrent sched c s) := by
  unfold runCurrent
  split
  · trivial
  dsimp only
  split
  · trivial
  refine Spec.bind (P := fun r : Bool × Sys => R s r.2) ?_ fun ⟨b, s₁⟩ h => ?_
  · unfold runCurrentAcquire
    refine (acquireLoop_spec (fun _ x => R s x) (R s) (fun _ h => h)
      (fun _ h => Spec.of_cases (fun ⟨b, _⟩ hx => ?_) fun _ _ => trivial) setProc).mono
      fun ⟨b, _⟩ h => by cases b <;> exact h
    cases b
    · exact trans h (acquire hx)
    · exact trans (trans h (acquire hx)) setProc
  · cases b
    · rw [if_neg Bool.false_ne_true]; exact h
    · rw [if_pos rfl]
      unfold runCurrentRelease
      exact releaseLoop_spec (R s)
        (fun _ h => Spec.of_cases (fun _ hx => trans (trans h (release hx)) setProc)
          fun _ _ => trivial)
        (fun _ h => trans h setProc) (trans h setProc)

end LoopSpec

/-! ## Who gets the status `exit` -/

section Exit

variable (lawful : sched.Lawful)
include lawful

theorem acquireLoop_noNewExit : ∀ {l : List ResourceSchedule} {s s' : Sys} {b : Bool},
    acquireLoop sched c l s = .ok (b, s') → NoNewExit s s'
  | [], _, _, _, h => by cases h; exact .refl _
  | rs :: rest, s, _, _, h => by
    unfold acquireLoop at h
    split at h
    · obtain ⟨⟨ok, s₁⟩, h₁, h⟩ := bind_eq_ok.1 h
      obtain ⟨-, -, noNew, -⟩ := lawful.acquire h₁
      cases ok
      · cases h; exact noNew
      · exact noNew.trans ((noNewExit_moveToHolding rs).trans (acquireLoop_noNewExit h))
    · exact acquireLoop_noNewExit h

theorem releaseLoop_noNewExit : ∀ {kept l : List ResourceSchedule} {s s' : Sys},
    releaseLoop sched c kept l s = .ok s' → NoNewExit s s'
  | _, [], _, _, h => by cases h; exact .refl _
  | kept, rs :: rest, s, _, h => by
    unfold releaseLoop at h
    dsimp only at h
    split at h
    · obtain ⟨s₁, h₁, h⟩ := bind_eq_ok.1 h
      obtain ⟨-, -, -, noNew, -⟩ := lawful.release h₁
      exact noNew.trans ((noNewExit_setHolding _).trans (releaseLoop_noNewExit h))
    · exact (noNewExit_setHolding _).trans (releaseLoop_noNewExit h)

theorem runCurrent_noNewExit (h : runCurrent sched c s = .ok s') : NoNewExit s s' := by
  obtain ⟨-, -, b, s₁, h₁, h⟩ := runCurrent_ok h
  have acquired := (noNewExit_setStatus (by decide)).trans (acquireLoop_noNewExit lawful h₁)
  cases b
  · cases h; exact acquired
  · exact acquired.trans (noNewExit_incAge.trans (releaseLoop_noNewExit lawful h))

/-- A process gets the status `exit` in a round only as `prev`, having lived its lifespan. -/
theorem doRound_exit (h : doRound sched s = .ok (.next s')) {p : Nat}
    (exited : (s'.procs p).status = .exit) :
    (s.procs p).status = .exit ∨ (s.procs p).age = (s.procs p).lifespan := by
  obtain ⟨r, s₂, hr, h₂, h⟩ := doRound_ok h
  have fork := forkLoop_ledger s.forkqueue s
  have frame := lawful.schedule hr
  have before : NoNewExit s { r.1 with current := r.2 } := fork.2.trans frame.noNewExit
  have ages : ({ r.1 with current := r.2 } : Sys).ledger = s.ledger := frame.ledger.trans fork.1
  have after : NoNewExit s₂ s' := by
    rcases dispatch_next h with ⟨-, rfl⟩ | ⟨c, s₃, -, h₃, rfl⟩
    · exact .of_procs rfl
    · exact (runCurrent_noNewExit lawful h₃).trans (.of_procs rfl)
  have retired := after p exited
  cases hc : (forkOnSchedule s).current with
  | none => rw [hc] at h₂; cases h₂; exact .inl (before p retired)
  | some q =>
    rw [hc] at h₂
    rcases retire_cases h₂ with ⟨rfl, -⟩ | ⟨rfl, age, -⟩
    · exact .inl (before p (noNewExit_demote p retired))
    · by_cases e : p = q
      · subst e
        exact .inr (congrArg (fun l : Ledger => l.age p = l.lifespan p) ages ▸ age)
      · have : ((({ r.1 with current := r.2 } : Sys).demote q).procs p).status = .exit := by
          simpa [setStatus, e] using retired
        exact .inl (before p (noNewExit_demote p this))

end Exit

/-! ## Where a fault comes from -/

variable {e : Fault}

/-- A round fails in the policy's `schedule()`, in the retirement of `prev`, or in the
dispatch. -/
theorem doRound_error (h : doRound sched s = .error e) :
    sched.schedule (forkOnSchedule s) = .error e ∨
      ∃ r, sched.schedule (forkOnSchedule s) = .ok r ∧
        (retirePrev { r.1 with current := r.2 } (forkOnSchedule s).current = .error e ∨
          ∃ s₂, retirePrev { r.1 with current := r.2 } (forkOnSchedule s).current = .ok s₂ ∧
            dispatch sched s₂ r.2 = .error e) := by
  rcases bind_eq_error.1 h with h | ⟨r, hr, h⟩
  · exact .inl h
  · exact .inr ⟨r, hr, bind_eq_error.1 h⟩

theorem dispatch_error {o : Option Nat} (h : dispatch sched s o = .error e) :
    ∃ c, o = some c ∧ runCurrent sched c s = .error e := by
  cases o with
  | none => simp only [dispatch] at h; split at h <;> cases h
  | some c => exact ⟨c, rfl, bind_ok_eq_error.1 h⟩

/-- The checks of `__exit_process` fail only for a process that has lived its lifespan,
each for the reason it names. -/
theorem retire_error {p : Nat} (h : retire s p = .error e) :
    (s.procs p).age = (s.procs p).lifespan ∧
      (e = .exitLinked ∧ s.Linked p ∨ e = .exitHolding ∧ (s.procs p).resourcesHolding ≠ [] ∨
        e = .exitPending ∧ (s.procs p).resourcesToAcquire ≠ []) := by
  dsimp only [retire] at h
  simp only [demote_age, demote_lifespan] at h
  split at h
  · unfold exitProcess at h
    simp only [setStatus, linked_setProc, linked_demote, setProc_procs, Function.update_same,
      demote_resourcesHolding, demote_resourcesToAcquire] at h
    refine ⟨‹_›, ?_⟩
    split at h
    · cases h; exact .inl ⟨rfl, ‹_›⟩
    · split at h
      · cases h; exact .inr (.inl ⟨rfl, ‹_›⟩)
      · split at h
        · cases h; exact .inr (.inr ⟨rfl, ‹_›⟩)
        · cases h
  · cases h

/-- The acquisitions of a round fail only where an acquire callback does. -/
theorem acquireLoop_error (lawful : sched.Lawful) : ∀ {l : List ResourceSchedule} {s : Sys},
    acquireLoop sched c l s = .error e → e = .outOfBounds ∨ e = .listCorrupt
  | [], _, h => by cases h
  | rs :: rest, s, h => by
    unfold acquireLoop at h
    split at h
    · rcases bind_eq_error.1 h with h | ⟨⟨b, s₁⟩, -, h⟩
      · exact lawful.acquire_fault h
      · cases b
        · cases h
        · exact acquireLoop_error lawful h
    · exact acquireLoop_error lawful h

/-- The releases of a round fail only where a release callback does. -/
theorem releaseLoop_error (lawful : sched.Lawful) :
    ∀ {kept l : List ResourceSchedule} {s : Sys}, releaseLoop sched c kept l s = .error e →
      e.InCallback
  | _, [], _, h => by cases h
  | kept, rs :: rest, s, h => by
    unfold releaseLoop at h
    dsimp only at h
    split at h
    · rcases bind_eq_error.1 h with h | ⟨s₁, -, h⟩
      · exact (lawful.release_fault h).1
      · exact releaseLoop_error lawful h
    · exact releaseLoop_error lawful h

/-- Running `current` fails on a freed record, on a node that is still linked, or in a
callback of its acquisitions or releases. -/
theorem runCurrent_error (h : runCurrent sched c s = .error e) :
    e = .useAfterFree ∧ (s.procs c).status = .exit ∨
      e = .dispatchLinked ∧ (s.procs c).status ≠ .exit ∧ s.Linked c ∨
      (s.procs c).status ≠ .exit ∧ ¬ s.Linked c ∧
        (runCurrentAcquire sched c (s.setStatus c .running) = .error e ∨
          ∃ s₁, runCurrentAcquire sched c (s.setStatus c .running) = .ok (true, s₁) ∧
            runCurrentRelease sched c (s₁.incAge c) = .error e) := by
  unfold runCurrent at h
  split at h
  · cases h; exact .inl ⟨rfl, ‹_›⟩
  · rename_i alive
    dsimp only at h
    split at h
    · cases h; exact .inr (.inl ⟨rfl, alive, by simpa using ‹_›⟩)
    · rename_i detached
      refine .inr (.inr ⟨alive, fun l => detached (by simpa using l), ?_⟩)
      rcases bind_eq_error.1 h with h | ⟨⟨b, s₁⟩, h₁, h⟩
      · exact .inl h
      · cases b
        · cases h
        · exact .inr ⟨s₁, h₁, h⟩

/-- The checks of `__exit_process` fail only in the retirement of `prev`. -/
theorem doRound_error_exit (lawful : sched.Lawful) (h : doRound sched s = .error e)
    (exit : e = .exitLinked ∨ e = .exitHolding ∨ e = .exitPending) :
    ∃ r q, sched.schedule (forkOnSchedule s) = .ok r ∧ (forkOnSchedule s).current = some q ∧
      retire { r.1 with current := r.2 } q = .error e := by
  have callback : ¬ e.InCallback := by rcases exit with rfl | rfl | rfl <;> exact id
  rcases doRound_error h with h | ⟨r, hr, h | ⟨s₂, h₂, h⟩⟩
  · rcases lawful.schedule_fault h with rfl | rfl <;> simp at exit
  · cases hc : (forkOnSchedule s).current with
    | none => rw [hc] at h; cases h
    | some q => rw [hc] at h; exact ⟨r, q, hr, rfl, h⟩
  · obtain ⟨c, -, h⟩ := dispatch_error h
    rcases runCurrent_error h with ⟨rfl, -⟩ | ⟨rfl, -⟩ | ⟨-, -, h | ⟨s₁, -, h⟩⟩
    · simp at exit
    · simp at exit
    · rcases acquireLoop_error lawful h with rfl | rfl <;> simp at exit
    · exact absurd (releaseLoop_error lawful h) callback

/-! ## Runs -/

theorem Reachable.head {s₀ s₁ : Sys} (h₀ : doRound sched s₀ = .ok (.next s₁))
    (reach : Reachable sched s₁ s) : Reachable sched s₀ s := by
  induction reach with
  | init => exact .next .init h₀
  | next _ h ih => exact .next ih h

theorem Reachable.trans {s₀ s₁ : Sys} (first : Reachable sched s₀ s₁)
    (second : Reachable sched s₁ s) : Reachable sched s₀ s := by
  induction second with
  | init => exact first
  | next _ h ih => exact .next ih h

theorem run_succ_next {n : Nat} {s₁ : Sys} (h : doRound sched s = .ok (.next s₁)) :
    run sched (n + 1) s = run sched n s₁ := by
  simp only [run, h]; rfl

theorem run_succ_error {n : Nat} {e : Fault} (h : doRound sched s = .error e) :
    run sched (n + 1) s = .error e := by
  simp only [run, h]; rfl

/-- A state that `run` ends in without leaving the loop is reachable. -/
theorem Reachable.of_run : ∀ {n : Nat} {s₀ : Sys}, run sched n s₀ = .ok (.next s) →
    Reachable sched s₀ s
  | 0, _, h => by cases h; exact .init
  | n + 1, s₀, h => by
    obtain ⟨o, h₁, h⟩ := bind_eq_ok.1 h
    cases o with
    | next s₁ => exact .head h₁ (of_run h)
    | halt s₁ => cases h

/-! ## The loaded state -/

section Load

variable {nr : Nat} {script : List Descriptor}

@[simp]
theorem load_resourcesHolding {p : Nat} : ((load nr script).procs p).resourcesHolding = [] := by
  simp only [load]; split <;> rfl

@[simp]
theorem load_age {p : Nat} : ((load nr script).procs p).age = 0 := by
  simp only [load]; split <;> rfl

/-- A loaded plan entry is an `acquire` line of the process's own descriptor. -/
theorem load_toAcquire_mem {p : Nat} {e : ResourceSchedule}
    (h : e ∈ ((load nr script).procs p).resourcesToAcquire) :
    ∃ d ∈ script, e ∈ d.acquires ∧ ((load nr script).procs p).lifespan = d.lifespan := by
  simp only [load] at h ⊢
  split at h
  · rename_i d hd
    exact ⟨d, List.getElem?_mem hd, h, rfl⟩
  · simp [Process.blank] at h

@[simp]
theorem load_status {p : Nat} : ((load nr script).procs p).status = .ready := by
  simp only [load]; split <;> rfl

/-- A loaded process has the lifespan of its descriptor. -/
theorem load_lifespan {p : Nat} (hp : p < script.length) :
    ∃ d ∈ script, ((load nr script).procs p).lifespan = d.lifespan :=
  ⟨script[p], List.getElem_mem hp, by simp [load, hp, Descriptor.toProcess]⟩

@[simp]
theorem load_resources {r : Nat} : (load nr script).resources r = ⟨none, []⟩ := rfl

@[simp]
theorem load_nrResources : (load nr script).nrResources = nr := rfl

end Load

end ProcessorScheduler
