import ProcessorScheduler.Countdown

/-!
# Lifespans

`__do_simulation` retires `prev` when `prev->age == prev->lifespan`, and only then
(`doRound_exit`); a round never lowers an age and keeps every lifespan (`Plan.Step.mono`).
So a process that is past its lifespan and not exited stays so in every later state
(`overrun_persists`).

A process of lifespan 0 is forked with its age already equal to its lifespan. Nothing
retires it before it runs: every policy's pick returns it in the first round, it runs to
age 1, and from then on no round exits it; the next round, with nothing else to run, ends
the loop with its record never freed (`zero_lifespan_never_exits`).
-/

namespace ProcessorScheduler

open Sys

section Overrun

variable {sched : Scheduler} (lawful : sched.Lawful) {nr p : Nat}
include lawful

/-- A round keeps a process past its lifespan and not exited. -/
theorem doRound_overrun {s s' : Sys} (inv : OwnershipInv nr s)
    (h : doRound sched s = .ok (.next s')) (over : (s.procs p).lifespan < (s.procs p).age)
    (alive : (s.procs p).status ≠ .exit) :
    (s'.procs p).lifespan < (s'.procs p).age ∧ (s'.procs p).status ≠ .exit := by
  obtain ⟨life, older⟩ := (doRound_plan lawful inv h p).mono
  have life' : (s'.procs p).lifespan = (s.procs p).lifespan := life
  have older' : (s.procs p).age ≤ (s'.procs p).age := older
  refine ⟨by omega, fun exited => ?_⟩
  rcases doRound_exit lawful h exited with exited | done
  exacts [alive exited, by omega]

/-- A process past its lifespan and not exited stays so in every later state. -/
theorem overrun_persists {s₀ s : Sys} (inv : OwnershipInv nr s₀) (reach : Reachable sched s₀ s)
    (over : (s₀.procs p).lifespan < (s₀.procs p).age) (alive : (s₀.procs p).status ≠ .exit) :
    (s.procs p).lifespan < (s.procs p).age ∧ (s.procs p).status ≠ .exit := by
  suffices OwnershipInv nr s ∧ (s.procs p).lifespan < (s.procs p).age ∧
      (s.procs p).status ≠ .exit from this.2
  induction reach with
  | init => exact ⟨inv, over, alive⟩
  | next _ h ih =>
    exact ⟨doRound_ownership lawful ih.1 h, doRound_overrun lawful ih.1 h ih.2.1 ih.2.2⟩

end Overrun

/-- A process of lifespan 0, under every policy: the first round's pick returns it with its
age equal to its lifespan, the round runs it to age 1, and it is not exited in any later
state: the next round's pick passes it over, and the loop ends with it not exited. -/
theorem zero_lifespan_never_exits (maxPrio : Int) (pol : Policy) :
    ∃ s₀ s₁, (pol.scheduler maxPrio).schedule (forkOnSchedule (load 1 [⟨0, 0, 0, 0, []⟩])) =
        .ok (s₀, some 0) ∧ (s₀.procs 0).age = (s₀.procs 0).lifespan ∧
      run (pol.scheduler maxPrio) 1 (load 1 [⟨0, 0, 0, 0, []⟩]) = .ok (.next s₁) ∧
      (∀ s, Reachable (pol.scheduler maxPrio) s₁ s →
        (s.procs 0).lifespan < (s.procs 0).age ∧ (s.procs 0).status ≠ .exit) ∧
      ∃ s₂, doRound (pol.scheduler maxPrio) s₁ = .ok (.halt s₂) ∧ (s₂.procs 0).status ≠ .exit := by
  have first : ∃ s₀ s₁, (pol.scheduler maxPrio).schedule
        (forkOnSchedule (load 1 [⟨0, 0, 0, 0, []⟩])) = .ok (s₀, some 0) ∧
      (s₀.procs 0).age = (s₀.procs 0).lifespan ∧
      run (pol.scheduler maxPrio) 1 (load 1 [⟨0, 0, 0, 0, []⟩]) = .ok (.next s₁) ∧
      (s₁.procs 0).lifespan < (s₁.procs 0).age ∧ (s₁.procs 0).status ≠ .exit ∧
      ∃ s₂, doRound (pol.scheduler maxPrio) s₁ = .ok (.halt s₂) ∧ (s₂.procs 0).status ≠ .exit := by
    cases pol <;> exact ⟨_, _, rfl, rfl, rfl, by decide, by decide, _, rfl, by decide⟩
  obtain ⟨s₀, s₁, pick, due, ran, over, alive, halts⟩ := first
  have lawful := Policy.lawful maxPrio pol
  exact ⟨s₀, s₁, pick, due, ran, fun s reach =>
    overrun_persists lawful (ownershipInv_of_reachable lawful (.of_run ran)) reach over alive,
    halts⟩

end ProcessorScheduler
