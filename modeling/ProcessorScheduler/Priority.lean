import ProcessorScheduler.Round
import Mathlib.Data.List.Defs

/-!
# The priority family, the ceiling and the inheritance protocol

`prio_acquire`, `pcp_acquire` and `pip_acquire` mark a granted `current` `PROCESS_WAIT` and
link it at the tail of the ready queue while it is still running, and a block links it into
a wait queue as well. So a plan with two entries due at one age links the node of the
process a second time in the round they fall due, and an entry due at the last age leaves
the process in the ready queue, where the next round's pick returns it in the round that
frees it (`granted_current_relinked`).

`pcp_schedule`, the pick of both protocols, gives the process it returns its `prio_orig`
back. Neither the ceiling that `pcp_acquire` sets nor a priority inherited through
`pip_acquire` lasts until the release (`pcp_ceiling_dropped`, `pip_inheritance_dropped`).
-/
namespace ProcessorScheduler

open Sys

variable {s : Sys} {c : Nat}

/-! ## Granted processes are linked -/

/-- Two entries due at one age, and one due at the last age: the second grant of round 0
adds the node of the process, already in the ready queue, to it once more, where C goes on
with a corrupted ready queue; the second leaves the process in the ready queue, where the
pick of round 1 returns it in the round that frees it. -/
theorem granted_current_relinked (maxPrio : Int) :
    [Policy.prio, .pa, .pcp, .pip].Forall fun pol =>
      run (pol.scheduler maxPrio) 1 (load 2 [⟨0, 1, 0, 0, [⟨0, 0, 1⟩, ⟨1, 0, 1⟩]⟩]) =
          .error .listCorrupt ∧
        ∃ s, Reachable (pol.scheduler maxPrio) (load 1 [⟨0, 1, 0, 0, [⟨0, 0, 1⟩]⟩]) s ∧
          (s.procs 0).age = (s.procs 0).lifespan ∧ 0 ∈ s.readyqueue ∧
          doRound (pol.scheduler maxPrio) s = .error .useAfterFree :=
  ⟨⟨rfl, _, .of_run (n := 1) rfl, rfl, List.mem_singleton_self 0, rfl⟩,
    ⟨rfl, _, .of_run (n := 1) rfl, rfl, List.mem_singleton_self 0, rfl⟩,
    ⟨rfl, _, .of_run (n := 1) rfl, rfl, List.mem_singleton_self 0, rfl⟩,
    ⟨rfl, _, .of_run (n := 1) rfl, rfl, List.mem_singleton_self 0, rfl⟩⟩

/-! ## The pick of the two protocols -/

/-- `pcp_schedule` when `current` waits and the ready queue holds one process of
non-negative priority: that process is picked. -/
theorem pcpSchedule_waiting_single {p : Nat} (cur : s.current = some c)
    (waiting : (s.procs c).status = .wait) (ready : s.readyqueue = [p])
    (nonneg : 0 ≤ (s.procs p).prio) :
    pcpSchedule s = .ok ((s.unlinkReady p).resetPrio p, some p) := by
  have max : scanMax s.prioOf 0 [p] = s.prioOf p := by
    simp only [scanMax, List.foldl, prioOf]; split <;> omega
  simp [pcpSchedule, runnable, cur, waiting, pcpPickNext, ready, max]

/-- Under the ceiling protocol, with any positive `MAX_PRIO`: one process takes resource 0
at age 0 for three ticks and has priority `MAX_PRIO`; the next round's pick gives it back
its `prio_orig`, 0, while it still holds the resource. -/
theorem pcp_ceiling_dropped (n : Nat) : ∃ s₁,
    Reachable (Policy.pcp.scheduler (n + 1)) (load 1 [⟨0, 4, 0, 0, [⟨0, 0, 3⟩]⟩]) s₁ ∧
      (s₁.resources 0).owner = some 0 ∧ (s₁.procs 0).prio = n + 1 ∧ ∃ s₂,
        doRound (Policy.pcp.scheduler (n + 1)) s₁ = .ok (.next s₂) ∧
        (s₂.resources 0).owner = some 0 ∧ (s₂.procs 0).prio = 0 := by
  refine ⟨_, .of_run (n := 1) rfl, rfl, rfl, ?_⟩
  refine ⟨?after, ?round, ?owner, ?prio⟩
  case round =>
    rw [doRound, show (Policy.pcp.scheduler (n + 1)).schedule = pcpSchedule from rfl,
      pcpSchedule_waiting_single (c := 0) (p := 0) rfl rfl rfl (show (0 : Int) ≤ n + 1 by omega)]
    exact rfl
  all_goals rfl

/-- Under the inheritance protocol: `o` (priority 1) takes resource 0 at age 0 for three
ticks; `q` (priority 5) blocks on it and lends `o` its priority; the next round's pick gives
`o` back its `prio_orig` while it still holds the resource and `q` still waits. -/
theorem pip_inheritance_dropped : ∃ s₂ s₃,
    run pipScheduler 2 (load 1 [⟨0, 4, 1, 0, [⟨0, 0, 3⟩]⟩, ⟨1, 2, 5, 1, [⟨0, 0, 1⟩]⟩]) =
        .ok (.next s₂) ∧
      (s₂.resources 0).owner = some 0 ∧ (s₂.resources 0).waitqueue = [1] ∧
      (s₂.procs 1).prio ≤ (s₂.procs 0).prio ∧
      doRound pipScheduler s₂ = .ok (.next s₃) ∧
      (s₃.resources 0).owner = some 0 ∧ (s₃.resources 0).waitqueue = [1] ∧
      (s₃.procs 0).prio < (s₃.procs 1).prio :=
  ⟨_, _, rfl, rfl, rfl, by decide, rfl, rfl, rfl, by decide⟩

end ProcessorScheduler
