import ProcessorScheduler.Round
import Mathlib.Data.List.Nodup

/-!
# Exclusive ownership of resources

The owner field of a resource and the held lists of the processes record the same thing:
`r`'s owner is `p` exactly when `p` holds an entry for `r`, no held list has two entries for
one resource, and a freed process holds nothing (`OwnershipInv`). The invariant holds in
every state that any of the policies reaches from any script (`ownershipInv_of_reachable`):
the acquire and release callbacks change an owner only as `Scheduler.Lawful` allows, and
`__run_current_acquire` and `__run_current_release` move the plan entry along with it.

So no resource has two holders, and the `assert(r->owner == current)` of the release
callbacks never fails (`doRound_ne_releaseNotOwner`).
-/

namespace ProcessorScheduler

namespace Ledger

/-- The resources `p` holds, by id, in the order it took them. -/
def heldIds (l : Ledger) (p : Nat) : List Int := (l.holding p).map (·.resourceId)

/-- Ownership as the held lists record it: `r`'s owner is the one process with an entry
for `r`, no list has two entries for one resource, and every entry is inside the table. -/
structure Owned (l : Ledger) : Prop where
  owner_iff : ∀ r < l.nrResources, ∀ p, l.owner r = some p ↔ (r : Int) ∈ l.heldIds p
  nodup : ∀ p, (l.heldIds p).Nodup
  inRange : ∀ p, ∀ i ∈ l.heldIds p, 0 ≤ i ∧ i < l.nrResources

variable {l : Ledger} {r c p : Nat} {rs : ResourceSchedule}

theorem Owned.not_mem_of_free (own : l.Owned) (hr : r < l.nrResources) (free : l.owner r = none)
    (q : Nat) : (r : Int) ∉ l.heldIds q := fun mem => by
  simp [(own.owner_iff r hr q).2 mem] at free

theorem heldIds_moveToHolding (q : Nat) : (l.moveToHolding c rs).heldIds q =
    if q = c then l.heldIds c ++ [rs.resourceId] else l.heldIds q := by
  by_cases h : q = c
  · subst h; simp [heldIds]
  · simp [heldIds, h]

theorem heldIds_setHolding {held : List ResourceSchedule} (q : Nat) :
    (l.setHolding c held).heldIds q = if q = c then held.map (·.resourceId) else l.heldIds q := by
  by_cases h : q = c
  · subst h; simp [heldIds]
  · simp [heldIds, h]

@[simp]
theorem heldIds_setOwner {o : Option Nat} : (l.setOwner r o).heldIds = l.heldIds := rfl

/-- A free resource handed to `c`, with its plan entry moved to `c`'s held list. -/
theorem Owned.acquire (own : l.Owned) (hr : r < l.nrResources) (free : l.owner r = none)
    (id : rs.resourceId = r) : ((l.setOwner r (some c)).moveToHolding c rs).Owned := by
  have fresh := own.not_mem_of_free hr free
  refine ⟨fun r' hr' q => ?_, fun q => ?_, fun q i hi => ?_⟩
  · simp only [moveToHolding_owner, setOwner_owner, heldIds_moveToHolding, heldIds_setOwner]
    by_cases e : r' = r
    · subst e
      by_cases hq : q = c
      · subst hq; simp [id]
      · simp [hq, Ne.symm hq, fresh]
    · rw [Function.update_noteq e, own.owner_iff r' hr' q]
      by_cases hq : q = c
      · subst hq; simp [id, e, Int.ofNat_inj]
      · simp [hq]
  · rw [heldIds_moveToHolding]
    split
    · subst ‹q = c›; simpa [id, List.nodup_append] using ⟨own.nodup q, fresh q⟩
    · exact own.nodup q
  · rw [heldIds_moveToHolding] at hi
    split at hi
    · rcases List.mem_append.1 hi with hi | hi
      · exact own.inRange _ i hi
      · obtain rfl := List.mem_singleton.1 hi
        exact ⟨by omega, by simpa [id] using hr⟩
    · exact own.inRange _ i hi

theorem Owned.of_heldIds {l' : Ledger} (own : l.Owned) (nr : l'.nrResources = l.nrResources)
    (owner : l'.owner = l.owner) (held : l'.heldIds = l.heldIds) : l'.Owned := by
  obtain ⟨h₁, h₂, h₃⟩ := own
  exact ⟨by simpa [nr, owner, held] using h₁, by simpa [held] using h₂,
    by simpa [nr, held] using h₃⟩

/-- The held list of `c` rewritten with the same resources, in the same order. -/
theorem Owned.setHolding {held : List ResourceSchedule} (own : l.Owned)
    (ids : held.map (·.resourceId) = l.heldIds c) : (l.setHolding c held).Owned :=
  own.of_heldIds rfl rfl (funext fun q => by rw [heldIds_setHolding]; split <;> simp_all)

theorem Owned.incAge (own : l.Owned) : (l.incAge c).Owned := own.of_heldIds rfl rfl rfl

/-- `c` releases `r`: the owner is cleared and the entry leaves `c`'s held list. -/
theorem Owned.release {kept rest : List ResourceSchedule} (own : l.Owned)
    (hr : r < l.nrResources) (mine : l.owner r = some c)
    (split : l.holding c = kept ++ rs :: rest) (id : rs.resourceId = r) :
    ((l.setOwner r none).setHolding c (kept ++ rest)).Owned := by
  have ids : l.heldIds c = kept.map (·.resourceId) ++ (r : Int) :: rest.map (·.resourceId) := by
    simp [heldIds, split, id]
  have nodup := own.nodup c
  rw [ids] at nodup
  have gone : (r : Int) ∉ kept.map (·.resourceId) ++ rest.map (·.resourceId) := by
    rw [List.nodup_middle] at nodup; exact (List.nodup_cons.1 nodup).1
  have sub : List.Sublist ((kept ++ rest).map (·.resourceId)) (l.heldIds c) := by
    rw [ids, List.map_append]; exact List.Sublist.append_left (List.sublist_cons_self _ _) _
  refine ⟨fun r' hr' q => ?_, fun q => ?_, fun q i hi => ?_⟩
  · simp only [setHolding_owner, setOwner_owner, heldIds_setHolding, heldIds_setOwner]
    by_cases e : r' = r
    · subst e
      by_cases hq : q = c
      · subst hq; simpa using gone
      · rw [Function.update_same, if_neg hq, ← own.owner_iff r' hr q, mine]
        simp [Ne.symm hq]
    · rw [Function.update_noteq e, own.owner_iff r' hr' q]
      by_cases hq : q = c
      · subst hq; simp [ids, id, e, Int.ofNat_inj]
      · simp [hq]
  · rw [heldIds_setHolding]
    split
    · subst ‹q = c›; exact (own.nodup _).sublist sub
    · exact own.nodup q
  · rw [heldIds_setHolding] at hi
    split at hi
    · subst ‹q = c›; exact own.inRange _ i (sub.subset hi)
    · exact own.inRange q i hi

end Ledger

namespace Sys

/-- Ownership in a state with `nr` resources: the ledger is `Owned`, and a freed process
holds nothing. -/
structure OwnershipInv (nr : Nat) (s : Sys) : Prop where
  nrResources : s.nrResources = nr
  owned : s.ledger.Owned
  exited : ∀ p, (s.procs p).status = .exit → (s.procs p).resourcesHolding = []

variable {nr c p r : Nat} {s s' s₁ : Sys}

/-! ## What each write keeps -/

theorem OwnershipInv.of_frame (inv : OwnershipInv nr s) (ledger : s'.ledger = s.ledger)
    (noNew : NoNewExit s s') : OwnershipInv nr s' :=
  ⟨(congrArg Ledger.nrResources ledger).trans inv.nrResources, ledger ▸ inv.owned,
    fun p hp => (congrArg (·.holding p) ledger).trans (inv.exited p (noNew p hp))⟩

/-- A write to the ledger that changes only the held list of `c`, a live process. -/
theorem OwnershipInv.of_writes (inv : OwnershipInv nr s) (own : s'.ledger.Owned)
    (nrEq : s'.nrResources = s.nrResources) (noNew : NoNewExit s s')
    (alive : (s.procs c).status ≠ .exit)
    (others : ∀ p, p ≠ c → s'.ledger.holding p = s.ledger.holding p) : OwnershipInv nr s' :=
  ⟨nrEq.trans inv.nrResources, own, fun p hp => by
    have old := noNew p hp
    have ne : p ≠ c := by rintro rfl; exact alive old
    exact (others p ne).trans (inv.exited p old)⟩

theorem OwnershipInv.incAge (inv : OwnershipInv nr s) : OwnershipInv nr (s.incAge c) :=
  ⟨inv.nrResources, by rw [ledger_incAge]; exact inv.owned.incAge, fun p hp => by
    have held : (s.incAge c).ledger.holding p = s.ledger.holding p := by simp
    exact held.trans (inv.exited p (noNewExit_incAge p hp))⟩

/-- The owner of a resource named by an entry of `c`'s held list is `c`. -/
theorem OwnershipInv.owner_of_held (inv : OwnershipInv nr s) {rs : ResourceSchedule}
    (idx : s.resourceIndex rs.resourceId = .ok r) (mem : rs ∈ (s.procs c).resourcesHolding) :
    (s.resources r).owner = some c := by
  obtain ⟨id, hr⟩ := resourceIndex_ok idx
  exact (inv.owned.owner_iff r hr c).2 (id ▸ List.mem_map_of_mem _ mem)

/-- A successful acquisition by `c`, with its entry moved to the held list. -/
theorem OwnershipInv.acquire (inv : OwnershipInv nr s) (alive : (s.procs c).status ≠ .exit)
    {rs : ResourceSchedule} (step : AcquireStep rs.resourceId c s true s₁) :
    OwnershipInv nr (s₁.moveToHolding c rs) ∧ NoNewExit s (s₁.moveToHolding c rs) := by
  obtain ⟨r, idx, noNew, free, led⟩ := step
  obtain ⟨id, hr⟩ := resourceIndex_ok idx
  have noNew' := noNew.trans (noNewExit_moveToHolding (p := c) rs)
  refine ⟨inv.of_writes ?_ (congrArg Ledger.nrResources led) noNew' alive fun p hp => ?_, noNew'⟩
  · rw [ledger_moveToHolding, led]; exact inv.owned.acquire hr free id
  · rw [ledger_moveToHolding, led]; simp [hp]

/-- A release of the entry `rs` of `c`, with `rs` dropped from the held list. -/
theorem OwnershipInv.release (inv : OwnershipInv nr s) (alive : (s.procs c).status ≠ .exit)
    {kept rest : List ResourceSchedule} {rs : ResourceSchedule}
    (split : (s.procs c).resourcesHolding = kept ++ rs :: rest)
    (step : ReleaseStep rs.resourceId c s s₁) :
    OwnershipInv nr (s₁.setHolding c (kept ++ rest)) ∧
      NoNewExit s (s₁.setHolding c (kept ++ rest)) := by
  obtain ⟨r, idx, mine, noNew, led⟩ := step
  obtain ⟨id, hr⟩ := resourceIndex_ok idx
  have noNew' := noNew.trans (noNewExit_setHolding (p := c) (kept ++ rest))
  refine ⟨inv.of_writes ?_ (congrArg Ledger.nrResources led) noNew' alive fun p hp => ?_, noNew'⟩
  · rw [ledger_setHolding, led]; exact inv.owned.release hr mine split id
  · rw [ledger_setHolding, led]; simp [hp]

/-- The held list of `c` rewritten with one entry counted down. -/
theorem OwnershipInv.countDown (inv : OwnershipInv nr s) (alive : (s.procs c).status ≠ .exit)
    {kept rest : List ResourceSchedule} {rs : ResourceSchedule} (d : Int)
    (split : (s.procs c).resourcesHolding = kept ++ rs :: rest) :
    OwnershipInv nr (s.setHolding c (kept ++ { rs with duration := d } :: rest)) ∧
      NoNewExit s (s.setHolding c (kept ++ { rs with duration := d } :: rest)) := by
  have noNew := noNewExit_setHolding (s := s) (p := c) (kept ++ { rs with duration := d } :: rest)
  refine ⟨inv.of_writes ?_ rfl noNew alive fun p hp => by simp [hp], noNew⟩
  rw [ledger_setHolding]
  exact inv.owned.setHolding (by simp [Ledger.heldIds, ledger, split])

end Sys

open Sys

/-! ## The loops of a round -/

section Loops

variable {sched : Scheduler} (lawful : sched.Lawful) {nr c : Nat}
include lawful

theorem acquireLoop_ownership : ∀ (l : List ResourceSchedule) (s : Sys) {b : Bool} {s' : Sys},
    OwnershipInv nr s → (s.procs c).status ≠ .exit → acquireLoop sched c l s = .ok (b, s') →
      OwnershipInv nr s' ∧ NoNewExit s s'
  | [], s, _, _, inv, _, h => by cases h; exact ⟨inv, .refl s⟩
  | rs :: rest, s, _, _, inv, alive, h => by
    unfold acquireLoop at h
    split at h
    · obtain ⟨⟨ok, s₁⟩, h₁, h⟩ := bind_eq_ok.1 h
      have step := lawful.acquire h₁
      cases ok
      · obtain ⟨r, -, noNew, led⟩ := step
        cases h
        exact ⟨inv.of_frame (by simpa using led) noNew, noNew⟩
      · obtain ⟨inv₁, noNew₁⟩ := inv.acquire alive step
        obtain ⟨inv', noNew'⟩ :=
          acquireLoop_ownership rest _ inv₁ (fun h => alive (noNew₁ c h)) h
        exact ⟨inv', noNew₁.trans noNew'⟩
    · exact acquireLoop_ownership rest s inv alive h

theorem releaseLoop_ownership : ∀ (kept l : List ResourceSchedule) (s : Sys) {s' : Sys},
    OwnershipInv nr s → (s.procs c).status ≠ .exit →
      (s.procs c).resourcesHolding = kept ++ l → releaseLoop sched c kept l s = .ok s' →
        OwnershipInv nr s' ∧ NoNewExit s s'
  | _, [], s, _, inv, _, _, h => by cases h; exact ⟨inv, .refl s⟩
  | kept, rs :: rest, s, _, inv, alive, split, h => by
    unfold releaseLoop at h
    dsimp only at h
    split at h
    · obtain ⟨s₁, h₁, h⟩ := bind_eq_ok.1 h
      obtain ⟨inv₁, noNew₁⟩ := inv.release alive split (lawful.release h₁)
      obtain ⟨inv', noNew'⟩ := releaseLoop_ownership kept rest _ inv₁
        (fun h => alive (noNew₁ c h)) (by simp [setHolding]) h
      exact ⟨inv', noNew₁.trans noNew'⟩
    · obtain ⟨inv₁, noNew₁⟩ := inv.countDown alive (rs.duration - 1) split
      obtain ⟨inv', noNew'⟩ := releaseLoop_ownership _ rest _ inv₁
        (fun h => alive (noNew₁ c h)) (by simp [setHolding]) h
      exact ⟨inv', noNew₁.trans noNew'⟩

/-- No release of the loop finds its caller not the owner. -/
theorem releaseLoop_ne_releaseNotOwner : ∀ (kept l : List ResourceSchedule) (s : Sys),
    OwnershipInv nr s → (s.procs c).status ≠ .exit →
      (s.procs c).resourcesHolding = kept ++ l →
        releaseLoop sched c kept l s ≠ .error .releaseNotOwner
  | _, [], _, _, _, _ => by simp [releaseLoop]
  | kept, rs :: rest, s, inv, alive, split => by
    unfold releaseLoop
    dsimp only
    split
    · intro h
      rcases bind_eq_error.1 h with h | ⟨s₁, h₁, h⟩
      · obtain ⟨r, idx, notMine⟩ := (lawful.release_fault h).2 rfl
        exact notMine (inv.owner_of_held idx (by simp [split]))
      · obtain ⟨inv₁, noNew₁⟩ := inv.release alive split (lawful.release h₁)
        exact releaseLoop_ne_releaseNotOwner kept rest _ inv₁
          (fun h => alive (noNew₁ c h)) (by simp [setHolding]) h
    · obtain ⟨inv₁, noNew₁⟩ := inv.countDown alive (rs.duration - 1) split
      exact releaseLoop_ne_releaseNotOwner _ rest _ inv₁
        (fun h => alive (noNew₁ c h)) (by simp [setHolding])

/-- The acquisitions of `current`, from the status `running` on. -/
theorem runCurrentAcquire_ownership {s s₁ : Sys} {b : Bool} (inv : OwnershipInv nr s)
    (h : runCurrentAcquire sched c (s.setStatus c .running) = .ok (b, s₁)) :
    OwnershipInv nr s₁ ∧ (s₁.procs c).status ≠ .exit := by
  have running : ((s.setStatus c .running).procs c).status ≠ .exit := by simp [setStatus]
  obtain ⟨inv₁, noNew⟩ := acquireLoop_ownership lawful _ _
    (inv.of_frame (ledger_setStatus _) (noNewExit_setStatus (by decide))) running h
  exact ⟨inv₁, fun h => running (noNew c h)⟩

theorem runCurrent_ownership {s s' : Sys} (inv : OwnershipInv nr s)
    (h : runCurrent sched c s = .ok s') : OwnershipInv nr s' := by
  obtain ⟨-, -, b, s₁, h₁, h⟩ := runCurrent_ok h
  obtain ⟨inv₁, alive⟩ := runCurrentAcquire_ownership lawful inv h₁
  cases b
  · cases h; exact inv₁
  · exact (releaseLoop_ownership lawful [] _ _ inv₁.incAge
      (fun h => alive (noNewExit_incAge c h)) rfl h).1

end Loops

variable {nr : Nat} {s s' : Sys}

theorem retire_ownership {p : Nat} (inv : OwnershipInv nr s) (h : retire s p = .ok s') :
    OwnershipInv nr s' := by
  rcases retire_cases h with ⟨rfl, -⟩ | ⟨rfl, -, -, held, -⟩
  · exact inv.of_frame ledger_demote noNewExit_demote
  · have led : ((s.demote p).setStatus p .exit).ledger = s.ledger := by simp
    refine ⟨(congrArg Ledger.nrResources led).trans inv.nrResources, led ▸ inv.owned,
      fun q hq => ?_⟩
    by_cases e : q = p
    · subst e; simpa [setStatus] using held
    · have demoted : ((s.demote p).procs q).status = .exit := by simpa [setStatus, e] using hq
      simpa [setStatus, e] using inv.exited q (noNewExit_demote q demoted)

section Round

variable {sched : Scheduler} (lawful : sched.Lawful)
include lawful

/-- Forking, `schedule()` and the retirement of `prev` keep the invariant. -/
theorem retirePrev_ownership {r : Sys × Option Nat} {s₂ : Sys} (inv : OwnershipInv nr s)
    (hr : sched.schedule (forkOnSchedule s) = .ok r)
    (h : retirePrev { r.1 with current := r.2 } (forkOnSchedule s).current = .ok s₂) :
    OwnershipInv nr s₂ := by
  have fork := forkLoop_ledger s.forkqueue s
  have frame := lawful.schedule hr
  have inv₁ : OwnershipInv nr { r.1 with current := r.2 } :=
    (inv.of_frame fork.1 fork.2).of_frame frame.ledger frame.noNewExit
  cases hc : (forkOnSchedule s).current with
  | none => rw [hc] at h; cases h; exact inv₁
  | some p => rw [hc] at h; exact retire_ownership inv₁ h

theorem doRound_ownership (inv : OwnershipInv nr s) (h : doRound sched s = .ok (.next s')) :
    OwnershipInv nr s' := by
  obtain ⟨r, s₂, hr, h₂, h⟩ := doRound_ok h
  have inv₂ := retirePrev_ownership lawful inv hr h₂
  cases hc : r.2 with
  | none =>
    rw [hc] at h
    rcases dispatch_none h with h | h <;> cases h
    exact inv₂.of_frame rfl (.refl _)
  | some c =>
    rw [hc] at h
    obtain ⟨s₃, h₃, h⟩ := dispatch_some h
    cases h
    exact (runCurrent_ownership lawful inv₂ h₃).of_frame rfl (.refl _)

/-- No round of a state with the invariant fails on `assert(r->owner == current)`. -/
theorem doRound_ne_releaseNotOwner (inv : OwnershipInv nr s) :
    doRound sched s ≠ .error .releaseNotOwner := by
  intro h
  rcases doRound_error h with h | ⟨r, hr, h | ⟨s₂, h₂, h⟩⟩
  · rcases lawful.schedule_fault h with e | e <;> cases e
  · cases hc : (forkOnSchedule s).current with
    | none => simp [hc, retirePrev] at h
    | some p =>
      rw [hc] at h
      obtain ⟨-, ⟨e, -⟩ | ⟨e, -⟩ | ⟨e, -⟩⟩ := retire_error h <;> cases e
  · obtain ⟨c, -, h⟩ := dispatch_error h
    rcases runCurrent_error h with ⟨e, -⟩ | ⟨e, -⟩ | ⟨-, -, h | ⟨s₁, h₁, h⟩⟩
    · cases e
    · cases e
    · rcases acquireLoop_error lawful h with e | e <;> cases e
    · obtain ⟨inv₁, alive⟩ :=
        runCurrentAcquire_ownership lawful (retirePrev_ownership lawful inv hr h₂) h₁
      exact releaseLoop_ne_releaseNotOwner lawful [] _ _ inv₁.incAge
        (fun h => alive (noNewExit_incAge c h)) rfl h

theorem ownershipInv_of_reachable {script : List Descriptor}
    (reach : Reachable sched (load nr script) s) : OwnershipInv nr s := by
  induction reach with
  | init => exact ⟨rfl, ⟨by simp [ledger, Ledger.heldIds], by simp [ledger, Ledger.heldIds],
      by simp [ledger, Ledger.heldIds]⟩, fun p _ => load_resourcesHolding⟩
  | next _ h ih => exact doRound_ownership lawful ih h

end Round

/-! ## Exclusive ownership in every run -/

/-- For every policy and every script, in every reachable state: the owner of a resource
is the live process whose held list names it, a held list names a resource at most once, a
resource nobody holds has no owner, no two processes hold one resource, and the next round
does not fail on the owner assertion of a release callback. -/
theorem exclusive_ownership (maxPrio : Int) (pol : Policy) (nr : Nat) (script : List Descriptor)
    {s : Sys} (reach : Reachable (pol.scheduler maxPrio) (load nr script) s) :
    (∀ r < nr, ∀ p, ((s.resources r).owner = some p ↔
        (s.procs p).status ≠ .exit ∧ (r : Int) ∈ s.ledger.heldIds p) ∧
      (s.ledger.heldIds p).count (r : Int) ≤ 1) ∧
    (∀ r < nr, (s.resources r).owner = none ↔ ∀ p, (r : Int) ∉ s.ledger.heldIds p) ∧
    (∀ r < nr, ∀ p q, (r : Int) ∈ s.ledger.heldIds p → (r : Int) ∈ s.ledger.heldIds q →
      p = q) ∧
    doRound (pol.scheduler maxPrio) s ≠ .error .releaseNotOwner := by
  have inv := ownershipInv_of_reachable (Policy.lawful maxPrio pol) reach
  have owner : ∀ r < nr, ∀ p, (s.resources r).owner = some p ↔ (r : Int) ∈ s.ledger.heldIds p :=
    fun r hr => inv.owned.owner_iff r (hr.trans_eq inv.nrResources.symm)
  refine ⟨fun r hr p => ⟨?_, List.nodup_iff_count_le_one.1 (inv.owned.nodup p) r⟩,
    fun r hr => ?_, fun r hr p q hp hq => ?_, doRound_ne_releaseNotOwner (Policy.lawful _ _) inv⟩
  · rw [owner r hr p]
    refine ⟨fun mem => ⟨fun exited => ?_, mem⟩, And.right⟩
    simp [Ledger.heldIds, ledger, inv.exited p exited] at mem
  · simp only [Option.eq_none_iff_forall_not_mem, Option.mem_def, owner r hr]
  · exact Option.some.inj (((owner r hr p).2 hp).symm.trans ((owner r hr q).2 hq))

/-- A state where resource 0 has an owner: one FIFO round of a process that takes it at
age 0 for two ticks. -/
theorem exclusive_ownership_one_round : ∃ s,
    Reachable (Policy.fifo.scheduler 0) (load 1 [⟨0, 3, 0, 0, [⟨0, 0, 2⟩]⟩]) s ∧
      (s.resources 0).owner = some 0 ∧ (s.procs 0).status ≠ .exit ∧
      (0 : Int) ∈ s.ledger.heldIds 0 := by
  have reach : Reachable (Policy.fifo.scheduler 0) (load 1 [⟨0, 3, 0, 0, [⟨0, 0, 2⟩]⟩]) _ :=
    Reachable.of_run (n := 1) rfl
  exact ⟨_, reach, by decide, ((exclusive_ownership 0 .fifo 1 _ reach).1 0 (by decide) 0).1.1
    (by decide)⟩

end ProcessorScheduler
