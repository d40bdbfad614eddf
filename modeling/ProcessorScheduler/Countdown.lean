import ProcessorScheduler.Ownership

/-!
# Counting down held resources

The plan part of a process (its age, lifespan, pending entries and held entries) moves by
a small machine, `Plan.Step`. In a round where the process is not dispatched its plan
stays as it is. Dispatched and blocked, it keeps its age and holds the entries it took
before the refusal. Dispatched and not blocked, it takes every entry due at its age, ages
by one, and counts every held entry down, dropping those that reach zero (`countDown`).
`doRound_plan` shows that every round of the loop moves the plan of every process by a
step of this machine.

Measured against the plan as loaded, every pending entry is not yet due and every held
entry `(r, at, d')` is a loaded entry `(r, at, d)` with `d' = at + d - age ≥ 1`
(`Plan.Inv`). So an entry is released in exactly the round in which the age becomes
`at + d` (`Plan.Step.released_iff`), and when every loaded entry ends within the lifespan,
both lists are empty by the time `__exit_process` checks them.
-/

namespace ProcessorScheduler

/-- The plan part of a process record: what `__run_current_acquire` and
`__run_current_release` read and write, and the lifespan it is measured against. -/
structure Plan where
  age : Int
  lifespan : Int
  toAcquire : List ResourceSchedule
  holding : List ResourceSchedule

/-- The plan of process `p` in a ledger. -/
def Ledger.plan (l : Ledger) (p : Nat) : Plan :=
  ⟨l.age p, l.lifespan p, l.toAcquire p, l.holding p⟩

/-- `rs->duration--` on every held entry, and the entries that reach zero dropped: the held
list that `__run_current_release` leaves. -/
def countDown (held : List ResourceSchedule) : List ResourceSchedule :=
  (held.map fun rs => { rs with duration := rs.duration - 1 }).filter (·.duration ≠ 0)

theorem countDown_cons (rs : ResourceSchedule) (rest : List ResourceSchedule) :
    countDown (rs :: rest) = if rs.duration - 1 = 0 then countDown rest
      else { rs with duration := rs.duration - 1 } :: countDown rest := by
  by_cases h : rs.duration - 1 = 0 <;> simp [countDown, List.filter_cons, h]

theorem mem_countDown {h' : ResourceSchedule} {held : List ResourceSchedule} :
    h' ∈ countDown held ↔
      ∃ h ∈ held, h.duration - 1 ≠ 0 ∧ h' = { h with duration := h.duration - 1 } := by
  simp only [countDown, List.mem_filter, List.mem_map, decide_eq_true_eq]
  constructor
  · rintro ⟨⟨h, mem, rfl⟩, ne⟩; exact ⟨h, mem, ne, rfl⟩
  · rintro ⟨h, mem, ne, rfl⟩; exact ⟨⟨h, mem, rfl⟩, ne⟩

/-! ## The plan machine -/

/-- What a round does to the plan of a process. -/
inductive Plan.Step (x : Plan) : Plan → Prop
  /-- the process is not dispatched -/
  | idle : Plan.Step x x
  /-- dispatched, and an acquisition blocks: the entries `taken` before it are held, the
  age and the countdowns stay -/
  | blocked {rest taken : List ResourceSchedule} (sub : rest ⊆ x.toAcquire)
      (due : ∀ e ∈ taken, e ∈ x.toAcquire ∧ e.at = x.age) :
      Plan.Step x { x with toAcquire := rest, holding := x.holding ++ taken }
  /-- dispatched and not blocked: every entry due is taken, the process ages by one and
  every held entry counts down -/
  | ran {rest taken : List ResourceSchedule} (sub : rest ⊆ x.toAcquire)
      (due : ∀ e ∈ taken, e ∈ x.toAcquire ∧ e.at = x.age) (notDue : ∀ e ∈ rest, e.at ≠ x.age)
      (distinct : ((x.holding ++ taken).map (·.resourceId)).Nodup) :
      Plan.Step x
        { x with age := x.age + 1, toAcquire := rest, holding := countDown (x.holding ++ taken) }

/-- A step keeps the lifespan and never lowers the age. -/
theorem Plan.Step.mono {x y : Plan} (step : x.Step y) : y.lifespan = x.lifespan ∧ x.age ≤ y.age := by
  cases step with
  | idle | blocked => exact ⟨rfl, le_refl _⟩
  | ran => exact ⟨rfl, Int.le_add_one (le_refl _)⟩

/-- The plan of a process measured against its plan as loaded, `x₀`: the lifespan is the
loaded one, every pending entry is a loaded entry not yet due, and every held entry
`(r, at, d')` is the loaded entry `(r, at, d)` with `d' = at + d - age`, at least one. -/
structure Plan.Inv (x₀ x : Plan) : Prop where
  lifespan : x.lifespan = x₀.lifespan
  pending : ∀ e ∈ x.toAcquire, e ∈ x₀.toAcquire ∧ x.age ≤ e.at
  held : ∀ h ∈ x.holding,
    ⟨h.resourceId, h.at, h.duration + x.age - h.at⟩ ∈ x₀.toAcquire ∧ 1 ≤ h.duration

section Machine

variable {x₀ x y : Plan}

/-- A loaded plan with no entry due before age 0 is its own invariant at age 0. -/
theorem Plan.Inv.loaded (age : x₀.age = 0) (held : x₀.holding = [])
    (ats : ∀ e ∈ x₀.toAcquire, 0 ≤ e.at) : Plan.Inv x₀ x₀ :=
  ⟨rfl, fun e he => ⟨he, age ▸ ats e he⟩, by simp [held]⟩

/-- A held entry is released in the round that brings the age to `age + d'`, with `d'` its
countdown, and in no other. -/
theorem Plan.Step.released_iff (inv : Plan.Inv x₀ x) (step : x.Step y) {h : ResourceSchedule}
    (mem : h ∈ x.holding) :
    h.resourceId ∉ y.holding.map (·.resourceId) ↔ y.age = x.age + h.duration := by
  have pos := (inv.held h mem).2
  cases step with
  | idle => exact iff_of_false (not_not.2 (List.mem_map_of_mem _ mem)) (by omega)
  | blocked =>
    exact iff_of_false (not_not.2 (List.mem_map_of_mem _ (List.mem_append_left _ mem)))
      (by dsimp only; omega)
  | ran _ _ _ distinct =>
    simp only [List.mem_map, not_exists, not_and]
    constructor
    · intro gone
      by_contra ne
      exact gone _ (mem_countDown.2 ⟨h, List.mem_append_left _ mem, by omega, rfl⟩) rfl
    · intro one h' mem' same
      obtain ⟨h'', mem'', ne, rfl⟩ := mem_countDown.1 mem'
      have : h'' = h := List.inj_on_of_nodup_map distinct mem'' (List.mem_append_left _ mem) same
      subst this
      omega

variable (durations : ∀ e ∈ x₀.toAcquire, 1 ≤ e.duration)
include durations

/-- The held entries together with the entries taken at the current age. -/
theorem Plan.Inv.held_append (inv : Plan.Inv x₀ x) {taken : List ResourceSchedule}
    (due : ∀ e ∈ taken, e ∈ x.toAcquire ∧ e.at = x.age) :
    ∀ h ∈ x.holding ++ taken,
      ⟨h.resourceId, h.at, h.duration + x.age - h.at⟩ ∈ x₀.toAcquire ∧ 1 ≤ h.duration := by
  intro h mem
  rcases List.mem_append.1 mem with mem | mem
  · exact inv.held h mem
  · obtain ⟨pending, now⟩ := due h mem
    have loaded := (inv.pending h pending).1
    have same : (⟨h.resourceId, h.at, h.duration + x.age - h.at⟩ : ResourceSchedule) = h := by
      cases h; simp only [ResourceSchedule.mk.injEq, true_and] at now ⊢; omega
    exact ⟨by rw [same]; exact loaded, durations h loaded⟩

theorem Plan.Inv.step (inv : Plan.Inv x₀ x) (step : x.Step y) : Plan.Inv x₀ y := by
  cases step with
  | idle => exact inv
  | blocked sub due =>
    exact ⟨inv.lifespan, fun e he => inv.pending e (sub he), inv.held_append durations due⟩
  | ran sub due notDue _ =>
    refine ⟨inv.lifespan, fun e he => ?_, fun h' mem => ?_⟩ <;> dsimp only at *
    · obtain ⟨loaded, le⟩ := inv.pending e (sub he)
      exact ⟨loaded, by have := notDue e he; omega⟩
    · obtain ⟨h, held, ne, rfl⟩ := mem_countDown.1 mem
      obtain ⟨loaded, pos⟩ := inv.held_append durations due h held
      refine ⟨?_, by dsimp only; omega⟩
      convert loaded using 3
      simp only
      omega

end Machine

/-- With every loaded entry ending within the lifespan, nothing is pending or held once the
age reaches the lifespan. -/
theorem Plan.Inv.empty_at_lifespan {x₀ x : Plan} (inv : Plan.Inv x₀ x)
    (fits : ∀ e ∈ x₀.toAcquire, e.at + e.duration ≤ x₀.lifespan ∧ 1 ≤ e.duration)
    (done : x.age = x.lifespan) : x.toAcquire = [] ∧ x.holding = [] := by
  have life := inv.lifespan
  refine ⟨List.eq_nil_iff_forall_not_mem.2 fun e he => ?_,
    List.eq_nil_iff_forall_not_mem.2 fun h mem => ?_⟩
  · obtain ⟨loaded, le⟩ := inv.pending e he
    have := fits e loaded
    omega
  · obtain ⟨loaded, pos⟩ := inv.held h mem
    have := fits _ loaded
    simp only at this
    omega

/-! ## The loops refine the machine -/

namespace Ledger

variable {l : Ledger} {c : Nat}

@[simp]
theorem plan_setOwner {r : Nat} {o : Option Nat} : (l.setOwner r o).plan = l.plan := rfl

@[simp]
theorem plan_moveToHolding {rs : ResourceSchedule} :
    (l.moveToHolding c rs).plan = Function.update l.plan c
      { l.plan c with toAcquire := (l.plan c).toAcquire.erase rs,
                      holding := (l.plan c).holding ++ [rs] } := by
  funext q
  by_cases h : q = c
  · subst h; simp [plan]
  · simp [plan, h]

@[simp]
theorem plan_setHolding {held : List ResourceSchedule} :
    (l.setHolding c held).plan = Function.update l.plan c { l.plan c with holding := held } := by
  funext q
  by_cases h : q = c
  · subst h; simp [plan]
  · simp [plan, h]

@[simp]
theorem plan_incAge :
    (l.incAge c).plan = Function.update l.plan c { l.plan c with age := (l.plan c).age + 1 } := by
  funext q
  by_cases h : q = c
  · subst h; simp [plan]
  · simp [plan, h]

end Ledger

open Sys

section Loops

variable {sched : Scheduler} (lawful : sched.Lawful) {c : Nat}
include lawful

/-- The acquisitions of a round: the entries `taken` are due at the age and move to the held
list, what stays pending is a part of the plan, and when no acquisition blocks, nothing due
stays pending. `done` are the entries of the plan already passed over. -/
theorem acquireLoop_plan : ∀ (done l : List ResourceSchedule) (s : Sys) {b : Bool} {s' : Sys},
    (s.ledger.plan c).toAcquire = done ++ l → (∀ e ∈ done, e.at ≠ (s.ledger.plan c).age) →
    acquireLoop sched c l s = .ok (b, s') →
    ∃ rest taken, s'.ledger.plan = Function.update s.ledger.plan c
        { s.ledger.plan c with toAcquire := rest, holding := (s.ledger.plan c).holding ++ taken } ∧
      rest ⊆ (s.ledger.plan c).toAcquire ∧ (∀ e ∈ taken, e ∈ l ∧ e.at = (s.ledger.plan c).age) ∧
      (b = true → ∀ e ∈ rest, e.at ≠ (s.ledger.plan c).age)
  | done, [], s, _, _, pend, notDue, h => by
    cases h
    rw [List.append_nil] at pend
    refine ⟨done, [], ?_, by simp [pend], by simp, fun _ => notDue⟩
    rw [← pend, List.append_nil]
    exact (Function.update_eq_self c _).symm
  | done, rs :: rest, s, _, _, pend, notDue, h => by
    unfold acquireLoop at h
    split at h
    · rename_i now
      obtain ⟨⟨ok, s₁⟩, h₁, h⟩ := bind_eq_ok.1 h
      obtain ⟨r, -, -, step⟩ := lawful.acquire h₁
      cases ok
      · cases h
        simp only [Bool.false_eq_true, if_false] at step
        refine ⟨(s.ledger.plan c).toAcquire, [], ?_, fun _ h => h, by simp, by simp⟩
        rw [step, List.append_nil]
        exact (Function.update_eq_self c _).symm
      · obtain ⟨-, led⟩ := step
        have plan₂ : (s₁.moveToHolding c rs).ledger.plan = Function.update s.ledger.plan c
            { s.ledger.plan c with toAcquire := done ++ rest,
                                   holding := (s.ledger.plan c).holding ++ [rs] } := by
          rw [ledger_moveToHolding, led, Ledger.plan_moveToHolding, Ledger.plan_setOwner, pend,
            List.erase_append_right _ (fun m => notDue rs m now), List.erase_cons_head]
        obtain ⟨rest', taken, eq, sub, due, all⟩ :=
          acquireLoop_plan done rest _ (by rw [plan₂]; simp) (by rw [plan₂]; simpa using notDue) h
        simp only [plan₂, Function.update_same] at eq sub due all
        refine ⟨rest', rs :: taken, by simp [eq], fun e he => ?_, ?_, all⟩
        · rw [pend]
          exact (List.mem_append.1 (sub he)).elim (List.mem_append_left _)
            fun h => List.mem_append_right _ (.tail _ h)
        · simp only [List.mem_cons, forall_eq_or_imp]
          exact ⟨⟨.inl trivial, now⟩, fun e he => ⟨.inr (due e he).1, (due e he).2⟩⟩
    · rename_i later
      have passed : ∀ e ∈ done ++ [rs], e.at ≠ (s.ledger.plan c).age := by
        simp only [List.mem_append, List.mem_singleton]
        rintro e (he | rfl)
        exacts [notDue e he, later]
      obtain ⟨rest', taken, eq, sub, due, all⟩ :=
        acquireLoop_plan (done ++ [rs]) rest s (by simp [pend]) passed h
      exact ⟨rest', taken, eq, sub, fun e he => ⟨.tail _ (due e he).1, (due e he).2⟩, all⟩

/-- The releases of a round count every held entry down: `kept` are the entries already
counted, and the held list is `kept ++ l`. -/
theorem releaseLoop_plan : ∀ (kept l : List ResourceSchedule) (s : Sys) {s' : Sys},
    (s.ledger.plan c).holding = kept ++ l → releaseLoop sched c kept l s = .ok s' →
    s'.ledger.plan = Function.update s.ledger.plan c
      { s.ledger.plan c with holding := kept ++ countDown l }
  | kept, [], s, _, held, h => by
    cases h
    rw [List.append_nil] at held
    rw [countDown, List.map_nil, List.filter_nil, List.append_nil, ← held]
    exact (Function.update_eq_self c _).symm
  | kept, rs :: rest, s, _, held, h => by
    unfold releaseLoop at h
    dsimp only at h
    split at h
    · rename_i zero
      obtain ⟨s₁, h₁, h⟩ := bind_eq_ok.1 h
      obtain ⟨r, -, -, -, led⟩ := lawful.release h₁
      have plan₂ : (s₁.setHolding c (kept ++ rest)).ledger.plan =
          Function.update s.ledger.plan c { s.ledger.plan c with holding := kept ++ rest } := by
        rw [ledger_setHolding, led, Ledger.plan_setHolding, Ledger.plan_setOwner]
      rw [releaseLoop_plan kept rest _ (by rw [plan₂]; simp) h, plan₂, countDown_cons,
        if_pos zero]
      simp
    · rename_i nonzero
      rw [releaseLoop_plan _ rest _ (by simp) h, ledger_setHolding, Ledger.plan_setHolding,
        countDown_cons, if_neg nonzero]
      simp

/-- Running `current` moves its plan by a step of the machine and leaves the others. -/
theorem runCurrent_plan {nr : Nat} {s s' : Sys} (inv : OwnershipInv nr s)
    (h : runCurrent sched c s = .ok s') :
    ∃ y, s'.ledger.plan = Function.update s.ledger.plan c y ∧ (s.ledger.plan c).Step y := by
  obtain ⟨-, -, b, s₁, h₁, h⟩ := runCurrent_ok h
  obtain ⟨rest, taken, eq₁, sub, due, all⟩ := acquireLoop_plan lawful []
    ((s.setStatus c .running).procs c).resourcesToAcquire _ rfl (by simp) h₁
  have pend : ((s.setStatus c .running).procs c).resourcesToAcquire =
      (s.ledger.plan c).toAcquire :=
    congrArg (fun l => (l.plan c).toAcquire) (ledger_setStatus _)
  simp only [ledger_setStatus] at eq₁ sub due all
  rw [pend] at due
  cases b
  · cases h
    exact ⟨_, eq₁, .blocked sub due⟩
  · have held : (s₁.procs c).resourcesHolding = (s.ledger.plan c).holding ++ taken :=
      congrArg (fun f => (f c).holding) eq₁ |>.trans (by simp)
    have distinct := (runCurrentAcquire_ownership lawful inv h₁).1.owned.nodup c
    rw [Ledger.heldIds, show s₁.ledger.holding c = _ from held] at distinct
    have eq₂ := releaseLoop_plan lawful [] _ _
      (by rw [ledger_incAge, Ledger.plan_incAge]; simp [eq₁, incAge, held]) h
    refine ⟨_, ?_, .ran sub due (all rfl) distinct⟩
    rw [eq₂, ledger_incAge, Ledger.plan_incAge, eq₁]
    simp [incAge, held]

end Loops

/-- Every round moves the plan of every process by a step of the machine. -/
theorem doRound_plan {sched : Scheduler} (lawful : sched.Lawful) {nr : Nat} {s s' : Sys}
    (inv : OwnershipInv nr s) (h : doRound sched s = .ok (.next s')) (p : Nat) :
    (s.ledger.plan p).Step (s'.ledger.plan p) := by
  obtain ⟨r, s₂, hr, h₂, h⟩ := doRound_ok h
  have led := retirePrev_ledger_of_schedule lawful hr h₂
  cases hc : r.2 with
  | none =>
    rw [hc] at h
    rcases dispatch_none h with h | h <;> cases h
    rw [show s₂.tick.ledger = s.ledger from led]
    exact .idle
  | some c =>
    rw [hc] at h
    obtain ⟨s₃, h₃, h⟩ := dispatch_some h
    cases h
    obtain ⟨y, eq, step⟩ := runCurrent_plan lawful (retirePrev_ownership lawful inv hr h₂) h₃
    rw [show s₃.tick.ledger = s₃.ledger from rfl, eq, ← led]
    by_cases hp : p = c
    · subst hp; simpa using step
    · simpa [hp] using Plan.Step.idle

section Reachable

variable {sched : Scheduler} (lawful : sched.Lawful) {nr : Nat} {script : List Descriptor}
include lawful

/-- In every state reached from a script whose entries start at a non-negative age and
last at least a tick, every plan is measured correctly against the loaded one. -/
theorem planInv_of_reachable
    (wf : ∀ d ∈ script, ∀ e ∈ d.acquires, 0 ≤ e.at ∧ 1 ≤ e.duration) {s : Sys}
    (reach : Reachable sched (load nr script) s) (p : Nat) :
    Plan.Inv ((load nr script).ledger.plan p) (s.ledger.plan p) := by
  have loaded : ∀ e ∈ ((load nr script).ledger.plan p).toAcquire, 0 ≤ e.at ∧ 1 ≤ e.duration :=
    fun e he => by
      obtain ⟨d, hd, he, -⟩ := load_toAcquire_mem he
      exact wf d hd e he
  induction reach with
  | init => exact .loaded load_age load_resourcesHolding fun e he => (loaded e he).1
  | next reach h ih =>
    exact ih.step (fun e he => (loaded e he).2)
      (doRound_plan lawful (ownershipInv_of_reachable lawful reach) h p)

/-- With every plan measured correctly and ending within the lifespan, no round fails on
the checks of `__exit_process` on the two lists. -/
theorem doRound_ne_exitPlan {x₀ : Nat → Plan} {s : Sys}
    (inv : ∀ p, Plan.Inv (x₀ p) (s.ledger.plan p))
    (fits : ∀ p, ∀ e ∈ (x₀ p).toAcquire, e.at + e.duration ≤ (x₀ p).lifespan ∧ 1 ≤ e.duration)
    {e : Fault} (exit : e = .exitHolding ∨ e = .exitPending) :
    doRound sched s ≠ .error e := by
  intro h
  obtain ⟨r, q, hr, -, h⟩ := doRound_error_exit lawful h (.inr exit)
  obtain ⟨done, why⟩ := retire_error h
  have led : ({ r.1 with current := r.2 } : Sys).ledger = s.ledger :=
    (lawful.schedule hr).ledger.trans (forkLoop_ledger _ s).1
  have plan : ({ r.1 with current := r.2 } : Sys).ledger.plan q = s.ledger.plan q := by rw [led]
  have done' : (({ r.1 with current := r.2 } : Sys).ledger.plan q).age =
      (({ r.1 with current := r.2 } : Sys).ledger.plan q).lifespan := done
  rw [plan] at done'
  obtain ⟨pend, held⟩ := (inv q).empty_at_lifespan (fits q) done'
  rw [← plan] at pend held
  rcases why with ⟨rfl, -⟩ | ⟨-, ne⟩ | ⟨-, ne⟩
  · simp at exit
  · exact ne held
  · exact ne pend

end Reachable

/-! ## Countdowns in every run -/

/-- For every policy and every script whose plan entries have `at ≥ 0` and `duration ≥ 1`, in
every reachable state: no pending entry is overdue; every held entry is a loaded entry
`(r, at, d)` whose countdown is `at + d - age ≥ 1`, and the next round releases it exactly
when it brings the age to `at + d`; and when every entry also ends within its process's
lifespan, nothing is pending or held at the end of the lifespan, so the next round does
not fail on the checks of `__exit_process` on the two lists. -/
theorem countdown_exact (maxPrio : Int) (pol : Policy) (nr : Nat) (script : List Descriptor)
    (wf : ∀ d ∈ script, ∀ e ∈ d.acquires, 0 ≤ e.at ∧ 1 ≤ e.duration) {s : Sys}
    (reach : Reachable (pol.scheduler maxPrio) (load nr script) s) :
    (∀ p, ∀ e ∈ (s.procs p).resourcesToAcquire, (s.procs p).age ≤ e.at) ∧
    (∀ p, ∀ h ∈ (s.procs p).resourcesHolding, ∃ d,
      ⟨h.resourceId, h.at, d⟩ ∈ ((load nr script).procs p).resourcesToAcquire ∧
      h.duration = h.at + d - (s.procs p).age ∧ 1 ≤ h.duration ∧
      ∀ s', doRound (pol.scheduler maxPrio) s = .ok (.next s') →
        (h.resourceId ∉ s'.ledger.heldIds p ↔ (s'.procs p).age = h.at + d)) ∧
    ((∀ d ∈ script, ∀ e ∈ d.acquires, e.at + e.duration ≤ d.lifespan) →
      (∀ p, (s.procs p).age = (s.procs p).lifespan →
        (s.procs p).resourcesToAcquire = [] ∧ (s.procs p).resourcesHolding = []) ∧
      doRound (pol.scheduler maxPrio) s ≠ .error .exitHolding ∧
      doRound (pol.scheduler maxPrio) s ≠ .error .exitPending) := by
  have lawful := Policy.lawful maxPrio pol
  have inv := planInv_of_reachable lawful wf reach
  refine ⟨fun p e he => ((inv p).pending e he).2, fun p h mem => ?_, fun fits => ?_⟩
  · obtain ⟨loaded, pos⟩ := (inv p).held h mem
    refine ⟨h.duration + (s.procs p).age - h.at, loaded, by omega, pos, fun s' round => ?_⟩
    have released : h.resourceId ∉ s'.ledger.heldIds p ↔
        (s'.procs p).age = (s.procs p).age + h.duration :=
      (doRound_plan lawful (ownershipInv_of_reachable lawful reach) round p).released_iff
        (inv p) mem
    exact released.trans ⟨fun e => by omega, fun e => by omega⟩
  · have ends : ∀ p, ∀ e ∈ ((load nr script).ledger.plan p).toAcquire,
        e.at + e.duration ≤ ((load nr script).ledger.plan p).lifespan ∧ 1 ≤ e.duration :=
      fun p e he => by
        obtain ⟨d, hd, he, life⟩ := load_toAcquire_mem he
        have lifespan : ((load nr script).ledger.plan p).lifespan = d.lifespan := life
        exact ⟨lifespan ▸ fits d hd e he, (wf d hd e he).2⟩
    exact ⟨fun p done => (inv p).empty_at_lifespan (ends p) done,
      doRound_ne_exitPlan lawful inv ends (.inl rfl), doRound_ne_exitPlan lawful inv ends (.inr rfl)⟩

/-- A state where the process holds resource 0, taken at age 0 for two ticks, one tick into
its countdown. -/
theorem countdown_exact_one_round : ∃ s,
    Reachable (Policy.fifo.scheduler 0) (load 1 [⟨0, 3, 0, 0, [⟨0, 0, 2⟩]⟩]) s ∧
      (s.procs 0).resourcesHolding = [⟨0, 0, 1⟩] ∧
      ∃ d, ⟨0, 0, d⟩ ∈ ((load 1 [⟨0, 3, 0, 0, [⟨0, 0, 2⟩]⟩]).procs 0).resourcesToAcquire ∧
        (1 : Int) = 0 + d - (s.procs 0).age := by
  have reach : Reachable (Policy.fifo.scheduler 0) (load 1 [⟨0, 3, 0, 0, [⟨0, 0, 2⟩]⟩]) _ :=
    Reachable.of_run (n := 1) rfl
  obtain ⟨d, loaded, countdown, -⟩ :=
    (countdown_exact 0 .fifo 1 _ (by decide) reach).2.1 0 ⟨0, 0, 1⟩ (by decide)
  exact ⟨_, reach, by decide, d, loaded, countdown⟩

end ProcessorScheduler
