import ProcessorScheduler.Wakeup

/-!
# The quantum of Round-Robin

`rr_schedule` counts its calls in `ticks_cnt` and rotates when the count, compared as
`unsigned int`, equals `ticks`. `__do_simulation` calls `schedule()` once a round and
advances `ticks` once a round, from `ticks_cnt = -1` and `ticks = 0`, so every call finds
the two equal (`doRound_rr_clock`) and every round with a non-empty ready queue dispatches
its head, with a runnable `current` put behind the rest of the queue (`rrSchedule_turn`).
The rest of a round only adds processes at the tail of the ready queue (`Appends`), so a
process at position `k` after a round's fork step is dispatched `k` rounds later
(`rr_dispatch_position`).
-/

namespace ProcessorScheduler

open Sys

/-! ## Writes that only append to the ready queue -/

/-- `s'` has the ready queue of `s` with entries added at its tail, and the same `current`
and clocks. -/
structure Appends (s s' : Sys) : Prop where
  ready : s.readyqueue <+: s'.readyqueue
  current : s'.current = s.current
  ticks : s'.ticks = s.ticks
  ticksCnt : s'.ticksCnt = s.ticksCnt

namespace Appends

variable {s₁ s₂ s₃ : Sys}

theorem refl (s : Sys) : Appends s s := ⟨List.prefix_refl _, rfl, rfl, rfl⟩

theorem trans (h₁ : Appends s₁ s₂) (h₂ : Appends s₂ s₃) : Appends s₁ s₃ :=
  ⟨h₁.ready.trans h₂.ready, h₂.current.trans h₁.current, h₂.ticks.trans h₁.ticks,
    h₂.ticksCnt.trans h₁.ticksCnt⟩

theorem setProc {p : Nat} {f : Process → Process} : Appends s₁ (s₁.setProc p f) :=
  ⟨List.prefix_refl _, rfl, rfl, rfl⟩

theorem setResource {r : Nat} {f : Resource → Resource} : Appends s₁ (s₁.setResource r f) :=
  ⟨List.prefix_refl _, rfl, rfl, rfl⟩

end Appends

section Appends

variable {s s' : Sys} {c : Nat} {i : Int} {b : Bool}

theorem fcfsAcquire_appends (h : fcfsAcquire i c s = .ok (b, s')) : Appends s s' := by
  obtain ⟨r, -, ⟨-, rfl, rfl⟩ | ⟨-, rfl, -, rfl⟩⟩ := fcfsAcquire_cases h
  · exact .setResource
  · exact Appends.setProc.trans .setResource

theorem fcfsRelease_appends (h : fcfsRelease i c s = .ok s') : Appends s s' := by
  obtain ⟨r, -, -, ⟨-, rfl⟩ | ⟨w, rest, -, -, -, rfl⟩⟩ := fcfsRelease_cases h
  · exact .setResource
  · exact ⟨List.prefix_append _ _, rfl, rfl, rfl⟩

/-- Running the dispatched process under `fcfs_acquire` and `fcfs_release`: a release
adds the waiter it wakes at the tail. -/
theorem runCurrent_appends {sched : Scheduler} (fcfs : sched.Fcfs) :
    Spec (fun _ => True) (Appends s) (runCurrent sched c s) :=
  runCurrent_keeps Appends (fun h₁ h₂ => h₁.trans h₂) .setProc
    (fun h => fcfsAcquire_appends (by rw [← fcfs.1]; exact h))
    (fun h => fcfsRelease_appends (by rw [← fcfs.2]; exact h))

theorem forkLoop_appends : ∀ (l : List Nat) (s : Sys), Appends s (forkLoop l s)
  | [], s => .refl s
  | p :: ps, s => by
    refine Appends.trans ?_ (forkLoop_appends ps _)
    unfold forkStep; split
    · exact ⟨List.prefix_append _ _, rfl, rfl, rfl⟩
    · exact .refl s

/-- The retirement of `prev` writes only its status. -/
theorem retirePrev_appends {o : Option Nat} (h : retirePrev s o = .ok s') : Appends s s' := by
  cases o with
  | none => cases h; exact .refl s
  | some p =>
    rcases retire_cases h with ⟨rfl, -⟩ | ⟨rfl, -⟩ <;> unfold Sys.demote <;> split <;>
      exact ⟨List.prefix_refl _, rfl, rfl, rfl⟩

end Appends

/-! ## The pick of Round-Robin -/

section Pick

variable {s : Sys} {r : Sys × Option Nat}

theorem FcfsPick.clock {t : Sys} (pick : FcfsPick t r) :
    r.1.ticks = t.ticks ∧ r.1.ticksCnt = t.ticksCnt := by
  cases pick <;> exact ⟨rfl, rfl⟩

/-- `rr_schedule` counts the call. -/
theorem rrSchedule_clock (h : rrSchedule s = .ok r) :
    r.1.ticks = s.ticks ∧ r.1.ticksCnt = s.ticksCnt + 1 :=
  (rrSchedule_pick h).clock

/-- When the count reaches `ticks`, a non-empty ready queue gives up its head: a runnable
`current` goes to the tail, behind the rest of the queue; any other is left. -/
theorem rrSchedule_turn {q : Nat} {rest : List Nat} (tick : s.ticksCnt + 1 = s.ticks)
    (ready : s.readyqueue = q :: rest) (h : rrSchedule s = .ok r) :
    r.2 = some q ∧ r.1.readyqueue = rest ++ s.runnable.toList := by
  dsimp only [rrSchedule] at h
  split at h
  · rename_i none
    cases h
    exact ⟨by simp [popReady, ready], by simp [popReady, ready, show s.runnable = _ from none]⟩
  · rename_i c some
    rw [if_pos (by rw [tick]; exact Int.ofNat_emod _ _)] at h
    simp only [ready] at h
    obtain ⟨s₁, link, rfl⟩ := bind_ok_eq_ok.1 h
    obtain ⟨-, rfl⟩ := linkReadyTail_ok link
    exact ⟨rfl, by simp [show s.runnable = _ from some]⟩

end Pick

/-! ## Every round, every run -/

section Round

variable {s s' : Sys} {o : Outcome}

/-- A round of Round-Robin advances `ticks_cnt` and `ticks` by one each. -/
theorem doRound_rr_clock (tick : s.ticksCnt + 1 = s.ticks)
    (h : doRound rrScheduler s = .ok (.next s')) : s'.ticksCnt + 1 = s'.ticks := by
  obtain ⟨r, s₂, hr, h₂, h⟩ := doRound_ok h
  have forked : Appends s (forkOnSchedule s) := forkLoop_appends s.forkqueue s
  have picked := rrSchedule_clock hr
  have retired := retirePrev_appends h₂
  have ticks : s₂.ticks = s.ticks := retired.ticks.trans (picked.1.trans forked.ticks)
  have ticksCnt : s₂.ticksCnt = s.ticksCnt + 1 := by
    rw [retired.ticksCnt]; exact picked.2.trans (by rw [forked.ticksCnt])
  rcases dispatch_next h with ⟨-, rfl⟩ | ⟨c, s₃, -, h₃, rfl⟩
  · simp only [Sys.tick, ticks, ticksCnt]; omega
  · have ran := (runCurrent_appends ⟨rfl, rfl⟩).post h₃
    simp only [Sys.tick, ran.ticks, ran.ticksCnt, ticks, ticksCnt]; omega

/-- A round of Round-Robin that starts from a ready queue `q :: rest` after its fork step
dispatches `q`, and leaves at the head of the ready queue `rest`, followed by the previous
runner if it neither blocked nor finished. -/
theorem doRound_rr_turn {q : Nat} {rest : List Nat} (tick : s.ticksCnt + 1 = s.ticks)
    (ready : (forkOnSchedule s).readyqueue = q :: rest) (h : doRound rrScheduler s = .ok o) :
    ∃ s', o = .next s' ∧ s'.current = some q ∧
      rest ++ (forkOnSchedule s).runnable.toList <+: s'.readyqueue := by
  obtain ⟨r, s₂, hr, h₂, h⟩ := doRound_ok h
  have forked : Appends s (forkOnSchedule s) := forkLoop_appends s.forkqueue s
  obtain ⟨pick, tail⟩ := rrSchedule_turn (by rw [forked.ticksCnt, forked.ticks]; exact tick) ready hr
  have retired := retirePrev_appends h₂
  rw [pick] at h retired
  obtain ⟨s₃, h₃, rfl⟩ := dispatch_some h
  have ran := (runCurrent_appends ⟨rfl, rfl⟩).post h₃
  exact ⟨s₃.tick, rfl, ran.current.trans retired.current,
    tail ▸ retired.ready.trans ran.ready⟩

/-- The position law: a list at the head of the ready queue after the fork step is
dispatched in order, one process a round, unless the run stops with a fault first. -/
theorem rr_dispatch_position : ∀ (k : Nat) {s : Sys} {l : List Nat}, s.ticksCnt + 1 = s.ticks →
    l <+: (forkOnSchedule s).readyqueue → (hk : k < l.length) →
    (∃ e, run rrScheduler (k + 1) s = .error e) ∨
      ∃ s', run rrScheduler (k + 1) s = .ok (.next s') ∧ s'.current = some l[k]
  | _, _, [], _, _, hk => absurd hk (Nat.not_lt_zero _)
  | k, s, q :: l, tick, head, hk => by
    obtain ⟨rest, ready, shorter⟩ : ∃ rest, (forkOnSchedule s).readyqueue = q :: rest ∧ l <+: rest := by
      obtain ⟨t, ht⟩ := head
      exact ⟨l ++ t, ht.symm, List.prefix_append _ _⟩
    cases round : doRound rrScheduler s with
    | error e => exact .inl ⟨e, run_succ_error round⟩
    | ok o =>
      obtain ⟨s', rfl, current, tail⟩ := doRound_rr_turn tick ready round
      rw [run_succ_next round]
      cases k with
      | zero => exact .inr ⟨s', rfl, current⟩
      | succ k =>
        exact rr_dispatch_position k (doRound_rr_clock tick round)
          (shorter.trans ((List.prefix_append _ _).trans (tail.trans (forkLoop_appends _ s').ready)))
          (by simpa using hk)

theorem rr_clock_of_reachable {nr : Nat} {script : List Descriptor}
    (reach : Reachable rrScheduler (load nr script) s) : s.ticksCnt + 1 = s.ticks := by
  induction reach with
  | init => rfl
  | next _ h ih => exact doRound_rr_clock ih h

end Round

/-- Round-Robin, every script and every reachable state: the call of `rr_schedule` of the
next round finds `ticks_cnt`, once incremented, equal to `ticks`; a round that starts, after
its fork step, from a non-empty ready queue dispatches its head and leaves the rest of the
queue at the head of the ready queue, followed by the previous runner if it neither blocked
nor finished; and the process at position `k` of the ready queue after the round's fork
step is the one dispatched `k` rounds later, unless the run stops with a fault first. -/
theorem rr_quantum_positions (nr : Nat) (script : List Descriptor) {s : Sys}
    (reach : Reachable rrScheduler (load nr script) s) :
    (forkOnSchedule s).ticksCnt + 1 = (forkOnSchedule s).ticks ∧
      (∀ q rest o, (forkOnSchedule s).readyqueue = q :: rest → doRound rrScheduler s = .ok o →
        ∃ s', o = .next s' ∧ s'.current = some q ∧
          rest ++ (forkOnSchedule s).runnable.toList <+: s'.readyqueue) ∧
      ∀ k (hk : k < (forkOnSchedule s).readyqueue.length),
        (∃ e, run rrScheduler (k + 1) s = .error e) ∨
          ∃ s', run rrScheduler (k + 1) s = .ok (.next s') ∧
            s'.current = some (forkOnSchedule s).readyqueue[k] := by
  have tick := rr_clock_of_reachable reach
  have forked : Appends s (forkOnSchedule s) := forkLoop_appends s.forkqueue s
  exact ⟨by rw [forked.ticksCnt, forked.ticks]; exact tick,
    fun _ _ _ ready round => doRound_rr_turn tick ready round,
    fun k hk => rr_dispatch_position k tick (List.prefix_refl _) hk⟩

/-- Three processes of two ticks each: the third in the ready queue after the first fork
step runs in round 2, after one turn each of the other two. -/
theorem rr_third_in_line :
    ∃ s', run rrScheduler 3 (load 1 [⟨0, 2, 0, 0, []⟩, ⟨1, 2, 0, 0, []⟩, ⟨2, 2, 0, 0, []⟩]) =
      .ok (.next s') ∧ s'.current = some 2 := by
  rcases (rr_quantum_positions 1 [⟨0, 2, 0, 0, []⟩, ⟨1, 2, 0, 0, []⟩, ⟨2, 2, 0, 0, []⟩]
    .init).2.2 2 (by decide) with ⟨e, fault⟩ | turn
  · cases fault
  · exact turn

end ProcessorScheduler
