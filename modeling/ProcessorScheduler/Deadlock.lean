import ProcessorScheduler.Safety

/-!
# Ordered acquisitions do not deadlock

A script takes its resources in order when the `acquire` lines of each process come in the
order of their ages, and a resource still held when a later line falls due has an id below
that line's (`ResourceSchedule.Before`). This is the rule of a global order on locks, in the
timed form the plans of this program take.

Under it every plan keeps what it holds ahead of what it asks for (`Plan.InOrder`). The
entries a process took at its age come, in its plan as loaded, before every entry still due
at that age. The loop of `__run_current_acquire` keeps this because it takes the due entries
in the order of the plan and stops at the first refusal (`acquireLoop_inOrder`). Entries taken
at an earlier age are ordered by the script itself. So a process holds only resources below
those it asks for (`Plan.InOrder.held_lt_due`).

At the end of a FIFO or Round-Robin run, every resource with waiters is held by a process
that waits too (`doRound_halt_waits`), for a resource above the one it holds. Following the
owners, the ids would climb past the table, so no process is left waiting: every process of
the script has exited (`fcfs_ordered_all_exit`).
-/

namespace ProcessorScheduler

open Sys

/-- `e₁` may precede `e₂` in the plan of an ordered script: it falls due no later, and if it
is still held when `e₂` falls due, its resource id is below `e₂`'s. -/
def ResourceSchedule.Before (e₁ e₂ : ResourceSchedule) : Prop :=
  e₁.at ≤ e₂.at ∧ (e₂.at < e₁.at + e₁.duration → e₁.resourceId < e₂.resourceId)

instance (e₁ e₂ : ResourceSchedule) : Decidable (e₁.Before e₂) :=
  inferInstanceAs (Decidable (_ ∧ _))

/-- In an ordered plan an entry due earlier comes first. -/
theorem before_of_at_lt {L : List ResourceSchedule} (ordered : L.Pairwise ResourceSchedule.Before)
    {a b : ResourceSchedule} (ha : a ∈ L) (hb : b ∈ L) (lt : a.at < b.at) : a.Before b := by
  rcases List.Pairwise.forall_of_forall_of_flip (R := fun x y => x = y ∨ x.Before y ∨ y.Before x)
    (fun _ _ => .inl rfl) (ordered.imp (.inr ∘ .inl)) (ordered.imp (.inr ∘ .inr)) ha hb with
    rfl | before | after
  · exact absurd lt (lt_irrefl _)
  · exact before
  · exact absurd after.1 (not_le.2 lt)

/-- The order of a plan measured against its plan as loaded, `L`: the pending entries are
`L` with some taken out, every held entry was taken at the age or earlier, and those taken at
the age hold resources below every entry still due at it. -/
structure Plan.InOrder (L : List ResourceSchedule) (x : Plan) : Prop where
  sublist : x.toAcquire.Sublist L
  taken : ∀ h ∈ x.holding, h.at ≤ x.age
  ahead : ∀ h ∈ x.holding, h.at = x.age → ∀ e ∈ x.toAcquire, e.at = x.age →
    h.resourceId < e.resourceId

/-- In a plan of an ordered script, every held resource is below every resource due. An
entry taken at the age is `Plan.InOrder.ahead`. An entry taken earlier is a loaded entry
still counting down when the due one falls due, so the script orders the two. -/
theorem Plan.InOrder.held_lt_due {x₀ x : Plan} (order : x.InOrder x₀.toAcquire)
    (ordered : x₀.toAcquire.Pairwise ResourceSchedule.Before) (plan : Plan.Inv x₀ x)
    {h e : ResourceSchedule} (held : h ∈ x.holding) (pending : e ∈ x.toAcquire)
    (due : e.at = x.age) : h.resourceId < e.resourceId := by
  rcases (order.taken h held).lt_or_eq with early | now
  · obtain ⟨loaded, pos⟩ := plan.held h held
    refine (before_of_at_lt ordered loaded (plan.pending e pending).1 ?_).2 ?_
    · show h.at < e.at; omega
    · show e.at < h.at + (h.duration + x.age - h.at); omega
  · exact order.ahead h held now e pending due

/-- Aging by one and counting down keeps the order: nothing held was taken at the new age. -/
theorem Plan.InOrder.ran {L : List ResourceSchedule} {x : Plan} (order : x.InOrder L) :
    ({ x with age := x.age + 1, holding := countDown x.holding } : Plan).InOrder L := by
  have taken : ∀ h ∈ countDown x.holding, h.at ≤ x.age := fun h mem => by
    obtain ⟨h', mem', -, rfl⟩ := mem_countDown.1 mem
    exact order.taken h' mem'
  refine ⟨order.sublist, fun h mem => (taken h mem).trans (Int.le_add_one le_rfl),
    fun h mem now => ?_⟩
  have := taken h mem
  simp only at now
  omega

/-! ## The loops keep the order -/

section Loops

variable {sched : Scheduler} (lawful : sched.Lawful) {c : Nat} {L : List ResourceSchedule}
  (ordered : L.Pairwise ResourceSchedule.Before) (last : ∀ e ∈ L, 1 ≤ e.duration)
include lawful ordered last

/-- The acquisitions of a round take the entries due at the age in the order of the plan and
stop at the first refusal, so each entry they take comes before every entry left due. `done`
are the entries of the plan already passed over. -/
theorem acquireLoop_inOrder : ∀ (done l : List ResourceSchedule) (s : Sys) {b : Bool} {s' : Sys},
    (s.ledger.plan c).toAcquire = done ++ l → (∀ e ∈ done, e.at ≠ (s.ledger.plan c).age) →
    (s.ledger.plan c).InOrder L → acquireLoop sched c l s = .ok (b, s') →
    (s'.ledger.plan c).InOrder L
  | _, [], _, _, _, _, _, order, h => by cases h; exact order
  | done, rs :: rest, s, _, _, pend, notDue, order, h => by
    unfold acquireLoop at h
    split at h
    · rename_i now
      obtain ⟨⟨ok, s₁⟩, h₁, h⟩ := bind_eq_ok.1 h
      obtain ⟨r, -, -, step⟩ := lawful.acquire h₁
      cases ok
      · cases h
        simp only [Bool.false_eq_true, if_false] at step
        rwa [step]
      · obtain ⟨-, led⟩ := step
        have plan₂ : (s₁.moveToHolding c rs).ledger.plan c =
            { s.ledger.plan c with toAcquire := done ++ rest,
                                   holding := (s.ledger.plan c).holding ++ [rs] } := by
          rw [ledger_moveToHolding, led, Ledger.plan_moveToHolding, Ledger.plan_setOwner, pend,
            List.erase_append_right _ (fun m => notDue rs m now), List.erase_cons_head]
          simp
        have sub : (done ++ rs :: rest).Sublist L := pend ▸ order.sublist
        -- the entry taken comes before every entry after it in the plan
        have first : ∀ e ∈ rest, rs.Before e := fun _ =>
          List.rel_of_pairwise_cons (List.pairwise_append.1 (ordered.sublist sub)).2.1
        have long := last rs (sub.subset (List.mem_append_right _ (List.mem_cons_self rs rest)))
        refine acquireLoop_inOrder done rest _ (by rw [plan₂]) (by rw [plan₂]; exact notDue) ?_ h
        rw [plan₂]
        have age : (s.ledger.plan c).age = (s.procs c).age := rfl
        refine ⟨(List.Sublist.append_left (List.sublist_cons_self rs rest) done).trans sub,
          fun h mem => ?_, fun h mem hnow e pending due => ?_⟩
        · rcases List.mem_append.1 mem with old | new
          · exact order.taken h old
          · rw [List.mem_singleton.1 new]; exact now.le
        · simp only at hnow due
          have later : e ∈ rest := (List.mem_append.1 pending).resolve_left fun m => notDue e m due
          rcases List.mem_append.1 mem with old | new
          · exact order.ahead h old hnow e (by rw [pend]; exact List.mem_append_right _ (.tail _ later)) due
          · obtain rfl := List.mem_singleton.1 new
            exact (first e later).2 (by omega)
    · rename_i later
      have passed : ∀ e ∈ done ++ [rs], e.at ≠ (s.ledger.plan c).age := by
        simp only [List.mem_append, List.mem_singleton]
        rintro e (he | rfl)
        exacts [notDue e he, later]
      exact acquireLoop_inOrder (done ++ [rs]) rest s (by simp [pend]) passed order h

/-- Running `current` keeps its plan in order: the acquisitions keep it, and when none
blocks, the aging and the countdown keep it too. -/
theorem runCurrent_inOrder {s s' : Sys} (order : (s.ledger.plan c).InOrder L)
    (h : runCurrent sched c s = .ok s') : (s'.ledger.plan c).InOrder L := by
  obtain ⟨-, -, b, s₁, h₁, h⟩ := runCurrent_ok h
  have acquired := acquireLoop_inOrder lawful ordered last []
    ((s.setStatus c .running).procs c).resourcesToAcquire (s.setStatus c .running) rfl (by simp)
    (by rwa [ledger_setStatus]) h₁
  cases b
  · cases h; exact acquired
  · have held : ((s₁.incAge c).procs c).resourcesHolding = (s₁.ledger.plan c).holding := by
      simp [Sys.incAge, Ledger.plan, ledger]
    rw [releaseLoop_plan lawful [] _ _ rfl h, ledger_incAge, Ledger.plan_incAge]
    simpa [held] using acquired.ran

end Loops

section Round

variable {sched : Scheduler} (lawful : sched.Lawful) {L : Nat → List ResourceSchedule}
  (ordered : ∀ p, (L p).Pairwise ResourceSchedule.Before) (last : ∀ p, ∀ e ∈ L p, 1 ≤ e.duration)
include lawful ordered last

/-- Every round keeps every plan in order. -/
theorem doRound_inOrder {nr : Nat} {s s' : Sys} (own : OwnershipInv nr s)
    (order : ∀ p, (s.ledger.plan p).InOrder (L p)) (h : doRound sched s = .ok (.next s'))
    (p : Nat) : (s'.ledger.plan p).InOrder (L p) := by
  obtain ⟨r, s₂, hr, h₂, h⟩ := doRound_ok h
  have led := retirePrev_ledger_of_schedule lawful hr h₂
  rcases dispatch_next h with ⟨-, rfl⟩ | ⟨c, s₃, -, h₃, rfl⟩
  · rw [ledger_tick, led]; exact order p
  · obtain ⟨y, eq, -⟩ := runCurrent_plan lawful (retirePrev_ownership lawful own hr h₂) h₃
    rw [ledger_tick]
    by_cases hp : p = c
    · subst hp
      exact runCurrent_inOrder lawful (ordered p) (last p) (by rw [led]; exact order p) h₃
    · rw [eq, Function.update_noteq hp, led]; exact order p

end Round

section Reachable

variable {nr : Nat} {script : List Descriptor}

/-- The plan `__load_script` leaves a process is the `acquire` lines of its description. -/
theorem load_acquires_ordered (ordered : ∀ d ∈ script, d.acquires.Pairwise ResourceSchedule.Before)
    (p : Nat) : ((load nr script).ledger.plan p).toAcquire.Pairwise ResourceSchedule.Before := by
  show ((load nr script).procs p).resourcesToAcquire.Pairwise _
  simp only [load]
  split
  · exact ordered _ (List.getElem?_mem ‹_›)
  · exact .nil

/-- In every state reached from a script whose entries last at least one tick and which
takes its resources in order, every plan is in order. -/
theorem inOrder_of_reachable {sched : Scheduler} (lawful : sched.Lawful)
    (ordered : ∀ d ∈ script, d.acquires.Pairwise ResourceSchedule.Before)
    (last : ∀ d ∈ script, ∀ e ∈ d.acquires, 1 ≤ e.duration) {s : Sys}
    (reach : Reachable sched (load nr script) s) (p : Nat) :
    (s.ledger.plan p).InOrder ((load nr script).ledger.plan p).toAcquire := by
  induction reach generalizing p with
  | init =>
    have empty : ((load nr script).ledger.plan p).holding = [] := load_resourcesHolding
    exact ⟨.refl _, fun h mem => absurd (empty ▸ mem) (List.not_mem_nil h),
      fun h mem => absurd (empty ▸ mem) (List.not_mem_nil h)⟩
  | next reach h ih =>
    refine doRound_inOrder lawful (load_acquires_ordered ordered) (fun q e he => ?_)
      (ownershipInv_of_reachable lawful reach) ih h p
    obtain ⟨d, hd, he, -⟩ := load_toAcquire_mem he
    exact last d hd e he

end Reachable

/-- For FIFO and Round-Robin and every script whose lifespans are at least one tick, whose
entries fall due at an age of at least `0` and last at least one tick, and which takes its
resources in order: when a run leaves the loop, every process of the script has exited, and
none is left deadlocked. -/
theorem fcfs_ordered_all_exit (maxPrio : Int) (pol : Policy) (fcfs : pol = .fifo ∨ pol = .rr)
    (nr : Nat) (script : List Descriptor) (life : ∀ d ∈ script, 1 ≤ d.lifespan)
    (wf : ∀ d ∈ script, ∀ e ∈ d.acquires, 0 ≤ e.at ∧ 1 ≤ e.duration)
    (ordered : ∀ d ∈ script, d.acquires.Pairwise ResourceSchedule.Before) {fuel : Nat}
    {s' : Sys} (halt : run (pol.scheduler maxPrio) fuel (load nr script) = .ok (.halt s')) :
    ∀ p < script.length, (s'.procs p).status = .exit := by
  have lawful := Policy.lawful maxPrio pol
  have lists : (pol.scheduler maxPrio).FcfsLists ∧ (pol.scheduler maxPrio).KeepsReady := by
    rcases fcfs with rfl | rfl
    exacts [⟨fifoScheduler_fcfsLists, fifoScheduler_keepsReady⟩,
      ⟨rrScheduler_fcfsLists, rrScheduler_keepsReady⟩]
  obtain ⟨s, reach, h⟩ := Reachable.of_run_halt halt
  obtain ⟨waits, owned⟩ := doRound_halt_waits lawful lists.1 lists.2 life reach h
  have asks := (doRound_halt_owned lawful lists.2
    (wakeable_of_reachable lawful lists.1.1 lists.2 reach) h).1.waiting
  obtain ⟨r₁, s₂, hr, h₂, h⟩ := doRound_ok h
  obtain ⟨-, rfl, -, -⟩ := dispatch_halt h
  have own := retirePrev_ownership lawful (ownershipInv_of_reachable lawful reach) hr h₂
  have led : s'.ledger = s.ledger := retirePrev_ledger_of_schedule lawful hr h₂
  -- the owner of a resource with waiters holds it and waits for a resource above it
  have inTable : ∀ r < nr, r < s'.nrResources := fun r hr => by rw [own.nrResources]; exact hr
  have climbs : ∀ r < nr, (s'.resources r).waitqueue ≠ [] →
      ∃ q < nr, r < q ∧ (s'.resources q).waitqueue ≠ [] := fun r hr ne => by
    obtain ⟨o, -, ho, -, q, hq, mem⟩ := owned r hr ne
    obtain ⟨h₀, held, hid⟩ := List.mem_map.1 (show (r : Int) ∈ (s'.ledger.holding o).map (·.resourceId)
      from (own.owned.owner_iff r (inTable r hr) o).1 ho)
    obtain ⟨e, pending, eid, due⟩ := Ledger.nextRequest_eq_some (asks q (inTable q hq) o mem)
    rw [led] at held pending due
    have := (inOrder_of_reachable lawful ordered (fun d hd e he => (wf d hd e he).2) reach o).held_lt_due
      (load_acquires_ordered ordered o) (planInv_of_reachable lawful wf reach o) held pending due
    exact ⟨q, hq, by omega, List.ne_nil_of_mem mem⟩
  -- so no resource has waiters: the ids would climb past the table
  have empty : ∀ k r, r + k = nr → r < nr → (s'.resources r).waitqueue = [] := by
    intro k
    induction k using Nat.strong_induction_on with
    | h k ih =>
      intro r hk hr
      by_contra ne
      obtain ⟨q, hq, lt, ne'⟩ := climbs r hr ne
      exact ne' (ih (nr - q) (by omega) q (by omega) hq)
  intro p hp
  by_contra alive
  obtain ⟨r, hr, mem⟩ := waits p hp alive
  simp [empty (nr - r) r (by omega) hr] at mem

/-- Round-Robin, two processes that both take resource 0 and, while holding it, resource 1:
the run leaves the loop after eight rounds with both processes exited. -/
theorem rr_ordered_acquisitions_exit : ∃ s', run (Policy.rr.scheduler 0) 8
      (load 2 [⟨0, 3, 0, 0, [⟨0, 0, 3⟩, ⟨1, 1, 1⟩]⟩, ⟨1, 3, 0, 0, [⟨0, 0, 3⟩, ⟨1, 1, 1⟩]⟩]) =
        .ok (.halt s') ∧ ∀ p < 2, (s'.procs p).status = .exit := by
  obtain ⟨s', h⟩ : ∃ s', run (Policy.rr.scheduler 0) 8
      (load 2 [⟨0, 3, 0, 0, [⟨0, 0, 3⟩, ⟨1, 1, 1⟩]⟩, ⟨1, 3, 0, 0, [⟨0, 0, 3⟩, ⟨1, 1, 1⟩]⟩]) =
        .ok (.halt s') := ⟨_, rfl⟩
  exact ⟨s', h, fcfs_ordered_all_exit 0 .rr (.inr rfl) 2 _ (by decide) (by decide) (by decide) h⟩

end ProcessorScheduler
