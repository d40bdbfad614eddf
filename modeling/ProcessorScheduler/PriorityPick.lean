import ProcessorScheduler.Fifo
import ProcessorScheduler.Selection

/-!
# The priority picks

`prio_schedule`, `pa_schedule` and `pcp_schedule` (the last one also for the inheritance
policy) take the first process of greatest priority of the ready queue, and `prio_release`,
`pcp_release` and `pip_release` wake the first waiter of greatest priority. Every one of
these scans starts from the sentinel `max = 0`, over `int` priorities.

Where some priority of the queue reaches `0`, the scan finds the greatest priority and the
pick is the one the specification describes: `prioSchedule_law`, `paSchedule_law` and
`pcpSchedule_law` (both stated as a `PreemptLaw`), and `prioWakeup_law`. The aging loops of
`pa_schedule` are described process by process (`ageAll_eq`, `agePick_first`).

Where every priority is below `0`, no process matches the sentinel:

* `prio_schedule` returns the last process of the ready queue still linked
  (`prio_sentinel_stale`), and `__do_simulation` stops on its assertion;
* `pa_schedule` and `pcp_schedule` leave `next` at `NULL` and dereference it, also when a
  running process of negative priority is ahead of every ready process and should be kept
  (`pa_sentinel_faults`, `pcp_sentinel_faults`);
* the three releases leave `waiter` at `NULL` and dereference it
  (`release_sentinel_faults`).
-/

namespace ProcessorScheduler

open Sys

/-! ## Aging -/

namespace Sys

/-- Every process of `l` whose priority is below `maxPrio` one higher, nothing else changed:
what the aging loops of `pa_schedule` leave when `l` has no repeats (`ageAll_eq`). -/
def aged (s : Sys) (maxPrio : Int) (l : List Nat) : Sys :=
  { s with procs := fun q =>
      if q ∈ l ∧ (s.procs q).prio < maxPrio then { s.procs q with prio := (s.procs q).prio + 1 }
      else s.procs q }

variable {s : Sys} {maxPrio : Int} {p q : Nat}

theorem agePrio_procs_of_ne (ne : q ≠ p) : (s.agePrio maxPrio p).procs q = s.procs q := by
  unfold agePrio; split
  · simp [ne]
  · rfl

/-- The aging loop `list_for_each(...) if (prc->prio < MAX_PRIO) prc->prio++;` over a queue
without repeats. -/
theorem ageAll_eq : ∀ {l : List Nat} (s : Sys), l.Nodup →
    l.foldl (fun s p => s.agePrio maxPrio p) s = s.aged maxPrio l
  | [], s, _ => by simp [aged]
  | p :: ps, s, nodup => by
    obtain ⟨fresh, nodup⟩ := List.nodup_cons.1 nodup
    rw [List.foldl_cons, ageAll_eq _ nodup]
    unfold agePrio aged
    split
    · rename_i lt
      simp only [setProc]
      congr 1; funext q
      by_cases e : q = p
      · subst e; simp [fresh, lt]
      · simp [e]
    · rename_i ge
      congr 1; funext q
      by_cases e : q = p
      · subst e; simp [fresh, ge]
      · simp [e]

end Sys

section AgePick

variable (maxPrio m : Int)

/-- The `pick_next` loop of `pa_schedule` over processes none of which has priority `m`:
each of them ages and `next` stays `NULL`. -/
theorem agePick_skip : ∀ {l : List Nat} (rest : List Nat) (s : Sys), l.Nodup →
    (∀ b ∈ l, s.prioOf b ≠ m) → agePick maxPrio m (l ++ rest) none s =
      agePick maxPrio m rest none (l.foldl (fun s p => s.agePrio maxPrio p) s)
  | [], _, _, _, _ => rfl
  | b :: l, rest, s, nodup, skip => by
    obtain ⟨fresh, nodup⟩ := List.nodup_cons.1 nodup
    rw [List.cons_append, agePick, if_neg fun h => skip b (List.mem_cons_self b l) h.1,
      List.foldl_cons]
    refine agePick_skip rest _ nodup fun b' mem => ?_
    rw [prioOf, agePrio_procs_of_ne fun e => fresh (by rwa [e] at mem)]
    exact skip b' (List.mem_cons_of_mem b mem)

/-- Once `next` is set, the loop only ages. -/
theorem agePick_found (p : Nat) : ∀ (l : List Nat) (s : Sys),
    agePick maxPrio m l (some p) s = (l.foldl (fun s p => s.agePrio maxPrio p) s, some p)
  | [], _ => rfl
  | b :: l, s => by
    rw [agePick, if_neg fun h => Option.some_ne_none p h.2, List.foldl_cons]
    exact agePick_found p l _

/-- A queue without repeats and without a process of priority `m`: `next` stays `NULL`. -/
theorem agePick_none {l : List Nat} {s : Sys} (nodup : l.Nodup) (miss : ∀ b ∈ l, s.prioOf b ≠ m) :
    agePick maxPrio m l none s = (l.foldl (fun s p => s.agePrio maxPrio p) s, none) := by
  have skip := agePick_skip maxPrio m [] s nodup miss
  rwa [List.append_nil] at skip

/-- A queue without repeats whose first process of priority `m` is `p`: `p` becomes `next`
and every other process ages. -/
theorem agePick_first {q before after : List Nat} {p : Nat} {s : Sys}
    (split : q = before ++ p :: after) (nodup : q.Nodup) (hp : s.prioOf p = m)
    (hb : ∀ b ∈ before, s.prioOf b ≠ m) :
    agePick maxPrio m q none s = (s.aged maxPrio (before ++ after), some p) := by
  subst split
  obtain ⟨nodupBefore, -, disjoint⟩ := List.nodup_append.1 nodup
  have fresh : p ∉ before := fun mem => disjoint mem (List.mem_cons_self p after)
  rw [agePick_skip maxPrio m _ s nodupBefore hb, agePick, ageAll_eq s nodupBefore,
    if_pos ⟨by simpa [aged, fresh] using hp, rfl⟩, agePick_found, ← ageAll_eq s nodupBefore,
    ← List.foldl_append, ageAll_eq s (nodup.sublist (by simp))]

end AgePick

/-! ## `pick_next` of the aging and the protocol policies -/

section PickNext

variable {s : Sys} {max : Int} {cnt : Nat} (maxPrio : Int)

/-- `pick_next` of `pa_schedule` when no priority of the ready queue reaches `max`: `next`
stays `NULL` and `list_del_init(&next->list)` dereferences it. -/
theorem paPickNext_stale (hcnt : cnt ≠ 0) (nodup : s.readyqueue.Nodup)
    (low : ∀ b ∈ s.readyqueue, s.prioOf b < max) :
    paPickNext maxPrio cnt max s = .error .nullDeref := by
  simp only [paPickNext, if_pos hcnt, scanMax_beyond low,
    agePick_none maxPrio max nodup fun b hb => Int.ne_of_lt (low b hb)]

/-- `pick_next` of `pa_schedule` when some priority of the ready queue reaches `max`: the
first process of greatest priority is unlinked and reset, every other process ages. -/
theorem paPickNext_first (hcnt : cnt ≠ 0) (nodup : s.readyqueue.Nodup)
    (reach : ∃ b ∈ s.readyqueue, max ≤ s.prioOf b) :
    ∃ before p after, s.readyqueue = before ++ p :: after ∧
      FirstBest (· > ·) s.prioOf s.readyqueue p ∧
      paPickNext maxPrio cnt max s = .ok
        ({ s.aged maxPrio (before ++ after) with readyqueue := before ++ after }.resetPrio p,
          some p) := by
  obtain ⟨found, greatest⟩ := scanMax_best reach
  obtain ⟨before, p, after, split, hp, hb, -⟩ := find?_key found
  refine ⟨before, p, after, split, .of_key (fun x ne le => by omega)
    (fun b mem => Int.not_lt.2 (greatest b mem)) split hp hb, ?_⟩
  rw [paPickNext, if_pos hcnt, agePick_first maxPrio _ split nodup hp hb]
  simp only [unlinkReady, aged, split, erase_first hp hb]

/-- `pick_next` of `pcp_schedule` when no priority of the ready queue reaches `max`. -/
theorem pcpPickNext_stale (hcnt : cnt ≠ 0) (low : ∀ b ∈ s.readyqueue, s.prioOf b < max) :
    pcpPickNext cnt max s = .error .nullDeref := by
  have none : s.readyqueue.find? (fun p => s.prioOf p = max) = none :=
    List.find?_eq_none.2 fun b hb => by simpa using Int.ne_of_lt (low b hb)
  simp only [pcpPickNext, if_pos hcnt, scanMax_beyond low, none]

/-- `pick_next` of `pcp_schedule` when some priority of the ready queue reaches `max`: the
first process of greatest priority is unlinked and reset, no other priority changes. -/
theorem pcpPickNext_first (hcnt : cnt ≠ 0) (reach : ∃ b ∈ s.readyqueue, max ≤ s.prioOf b) :
    ∃ before p after, s.readyqueue = before ++ p :: after ∧
      FirstBest (· > ·) s.prioOf s.readyqueue p ∧
      pcpPickNext cnt max s =
        .ok ({ s with readyqueue := before ++ after }.resetPrio p, some p) := by
  obtain ⟨found, greatest⟩ := scanMax_best reach
  obtain ⟨before, p, after, split, hp, hb, find⟩ := find?_key found
  refine ⟨before, p, after, split, .of_key (fun x ne le => by omega)
    (fun b mem => Int.not_lt.2 (greatest b mem)) split hp hb, ?_⟩
  rw [pcpPickNext, if_pos hcnt, find]
  simp only [unlinkReady, split, erase_first hp hb]

end PickNext

/-! ## `prio_schedule` -/

section Prio

variable {s : Sys}

/-- `prio_schedule`, where a priority of the ready queue reaches the sentinel `0`: a runnable
`current` is kept; otherwise an empty ready queue gives `NULL`, and another gives up its
first process of greatest priority, the others left in their order. -/
theorem prioSchedule_law (s : Sys) :
    (∀ c, s.runnable = some c → prioSchedule s = .ok (s, some c)) ∧
    (s.runnable = none → s.readyqueue = [] → prioSchedule s = .ok (s, none)) ∧
    (s.runnable = none → (∃ b ∈ s.readyqueue, 0 ≤ s.prioOf b) →
      ∃ before p after, s.readyqueue = before ++ p :: after ∧
        FirstBest (· > ·) s.prioOf s.readyqueue p ∧
        prioSchedule s = .ok ({ s with readyqueue := before ++ after }, some p)) := by
  refine ⟨fun c keep => by simp only [prioSchedule, keep], fun idle empty => by
    simp only [prioSchedule, idle, empty, List.length_nil, ne_eq, not_true_eq_false, if_false],
    fun idle reach => ?_⟩
  obtain ⟨before, p, after, split, best, pick⟩ := pickFirst_greatest reach
  have queued : s.readyqueue.length ≠ 0 := by simp [split]
  exact ⟨before, p, after, split, best, by simp only [prioSchedule, idle, queued, if_true, ne_eq,
    not_false_eq_true, pick]⟩

/-- Priorities `1` and `3` forked together under Priority: the first pick takes the process
of priority `3` out of the ready queue. -/
theorem prio_picks_higher :
    ∃ before p after, [0, 1] = before ++ p :: after ∧
      FirstBest (· > ·) (forkOnSchedule (load 1 [⟨0, 1, 1, 0, []⟩, ⟨1, 1, 3, 0, []⟩])).prioOf
        [0, 1] p ∧
      prioSchedule (forkOnSchedule (load 1 [⟨0, 1, 1, 0, []⟩, ⟨1, 1, 3, 0, []⟩])) =
        .ok ({ forkOnSchedule (load 1 [⟨0, 1, 1, 0, []⟩, ⟨1, 1, 3, 0, []⟩]) with
          readyqueue := before ++ after }, some p) :=
  (prioSchedule_law (forkOnSchedule (load 1 [⟨0, 1, 1, 0, []⟩, ⟨1, 1, 3, 0, []⟩]))).2.2 rfl
    ⟨1, by decide, by decide⟩

/-- `prio_schedule` when `current` cannot go on and every priority of the ready queue is below
the sentinel `0`: it returns the last process of the queue, not the first of greatest
priority, and leaves it linked. -/
theorem prio_sentinel_stale (idle : s.runnable = none)
    (low : ∀ b ∈ s.readyqueue, s.prioOf b < 0) :
    prioSchedule s = .ok (s, s.readyqueue.getLast?) := by
  rw [prioSchedule, idle]
  dsimp only
  split
  · rw [scanMax_beyond low, pickFirst_stale fun b hb => Int.ne_of_lt (low b hb)]
  · rename_i empty
    simp only [ne_eq, List.length_eq_zero, not_not] at empty
    simp [empty]

/-- One process of priority `-1` under Priority: the first pick returns it still in the ready
queue, and the round stops on `assert(list_empty(&current->list))`. -/
theorem prio_negative_job_stays_linked :
    prioSchedule (forkOnSchedule (load 1 [⟨0, 1, -1, 0, []⟩])) =
        .ok (forkOnSchedule (load 1 [⟨0, 1, -1, 0, []⟩]), some 0) ∧
      (forkOnSchedule (load 1 [⟨0, 1, -1, 0, []⟩])).readyqueue = [0] ∧
      doRound prioScheduler (load 1 [⟨0, 1, -1, 0, []⟩]) = .error .dispatchLinked :=
  ⟨prio_sentinel_stale rfl (by decide), rfl, rfl⟩

end Prio

/-! ## `pa_schedule` and `pcp_schedule` -/

/-- What a priority `schedule()` with preemption does from a state whose ready queue has a
priority of at least `0`. A runnable `current` is kept, with its priority reset, when
nothing is ready (`alone`) or when its priority is above every ready process's (`keep`);
otherwise it is linked at the tail of the ready queue and the first process of greatest
priority of that queue is unlinked, reset and returned (`preempt`). When `current` cannot go
on, an empty ready queue gives `NULL` (`idle`) and another gives up its first process of
greatest priority (`pick`). `age s l` is what the scans do to the processes `l` they pass
over: each of them ages under `pa_schedule`, nothing changes under `pcp_schedule`. -/
structure PreemptLaw (schedule : Sys → Except Fault (Sys × Option Nat))
    (age : Sys → List Nat → Sys) (s : Sys) : Prop where
  alone : ∀ c, s.runnable = some c → s.readyqueue = [] →
    schedule s = .ok (s.resetPrio c, some c)
  keep : ∀ c, s.runnable = some c → (∃ b ∈ s.readyqueue, 0 ≤ s.prioOf b) →
    (∀ b ∈ s.readyqueue, s.prioOf b < s.prioOf c) →
    schedule s = .ok ((age s s.readyqueue).resetPrio c, some c)
  preempt : ∀ c, s.runnable = some c → ¬ s.Linked c → (∃ b ∈ s.readyqueue, 0 ≤ s.prioOf b) →
    (∃ b ∈ s.readyqueue, s.prioOf c ≤ s.prioOf b) →
    ∃ before p after, s.readyqueue ++ [c] = before ++ p :: after ∧
      FirstBest (· > ·) s.prioOf (s.readyqueue ++ [c]) p ∧
      schedule s = .ok ({ age s (before ++ after) with readyqueue := before ++ after }.resetPrio p,
        some p)
  idle : s.runnable = none → s.readyqueue = [] → schedule s = .ok (s, none)
  pick : s.runnable = none → (∃ b ∈ s.readyqueue, 0 ≤ s.prioOf b) →
    ∃ before p after, s.readyqueue = before ++ p :: after ∧
      FirstBest (· > ·) s.prioOf s.readyqueue p ∧
      schedule s = .ok ({ age s (before ++ after) with readyqueue := before ++ after }.resetPrio p,
        some p)

section Preempt

variable {s : Sys} {c : Nat}

theorem queued_of_exists {P : Nat → Prop} (h : ∃ b ∈ s.readyqueue, P b) :
    s.readyqueue.length ≠ 0 :=
  let ⟨_, hb, _⟩ := h; Nat.pos_iff_ne_zero.1 (List.length_pos_of_mem hb)

/-- `list_add_tail(&current->list, &readyqueue)` of an unlinked `current`. -/
theorem linkReadyTail_free (free : ¬ s.Linked c) :
    s.linkReadyTail c = .ok { s with readyqueue := s.readyqueue ++ [c] } := by
  rw [linkReadyTail, if_neg free]

theorem nodup_append_current (nodup : s.readyqueue.Nodup) (free : ¬ s.Linked c) :
    (s.readyqueue ++ [c]).Nodup :=
  List.nodup_append.2 ⟨nodup, List.nodup_singleton c,
    List.disjoint_singleton.2 fun mem => free (.inl mem)⟩

/-- The preemption test of `pa_schedule` and `pcp_schedule` when a priority of the ready
queue reaches `0`: `current->prio <= max` holds exactly when some ready process has at
least `current`'s priority. -/
theorem preempts_iff (reach : ∃ b ∈ s.readyqueue, 0 ≤ s.prioOf b) :
    (s.procs c).prio ≤ scanMax s.prioOf 0 s.readyqueue ↔
      ∃ b ∈ s.readyqueue, s.prioOf c ≤ s.prioOf b := by
  obtain ⟨found, greatest⟩ := scanMax_best reach
  constructor
  · intro le
    obtain ⟨b, hb, top⟩ := found
    exact ⟨b, hb, by rw [top]; exact le⟩
  · rintro ⟨b, hb, le⟩
    exact Int.le_trans le (greatest b hb)

/-- A `current` of greater priority than every ready process is not preempted. -/
theorem keeps_of_beats (reach : ∃ b ∈ s.readyqueue, 0 ≤ s.prioOf b)
    (beats : ∀ b ∈ s.readyqueue, s.prioOf b < s.prioOf c) :
    ¬ (s.procs c).prio ≤ scanMax s.prioOf 0 s.readyqueue := fun le =>
  let ⟨b, hb, le'⟩ := (preempts_iff reach).1 le
  Int.not_le.2 (beats b hb) le'

/-- `pa_schedule`, where a priority of the ready queue reaches `0`, over a ready queue
without repeats: the specification's rule, with every process the scans pass over aged. -/
theorem paSchedule_law (maxPrio : Int) (s : Sys) (nodup : s.readyqueue.Nodup) :
    PreemptLaw (paSchedule maxPrio) (fun s l => s.aged maxPrio l) s where
  alone c keep empty := by simp [paSchedule, keep, empty]
  keep c keep reach beats := by
    simp only [paSchedule, keep, queued_of_exists reach, keeps_of_beats reach beats,
      ageAll_eq s nodup, ne_eq, not_false_eq_true, if_true, if_false]
  preempt c keep free reach above := by
    obtain ⟨⟨b, hb, top⟩, -⟩ := scanMax_best reach
    obtain ⟨before, p, after, split, best, pick⟩ := paPickNext_first maxPrio
      (s := { s with readyqueue := s.readyqueue ++ [c] }) (queued_of_exists reach)
      (nodup_append_current nodup free) ⟨b, List.mem_append_left _ hb, Int.le_of_eq top.symm⟩
    refine ⟨before, p, after, split, best, ?_⟩
    simp only [paSchedule, keep, queued_of_exists reach, (preempts_iff reach).2 above,
      linkReadyTail_free free, ok_bind, ne_eq, not_false_eq_true, if_true]
    exact pick
  idle idle empty := by simp [paSchedule, paPickNext, idle, empty]
  pick idle reach := by
    obtain ⟨before, p, after, split, best, pick⟩ :=
      paPickNext_first maxPrio (queued_of_exists reach) nodup reach
    exact ⟨before, p, after, split, best, by rw [paSchedule, idle]; exact pick⟩

/-- `pcp_schedule`, where a priority of the ready queue reaches `0`: the specification's rule,
with no priority changed but that of the process returned. -/
theorem pcpSchedule_law (s : Sys) : PreemptLaw pcpSchedule (fun s _ => s) s where
  alone c keep empty := by simp [pcpSchedule, keep, empty]
  keep c keep reach beats := by
    simp only [pcpSchedule, keep, queued_of_exists reach, keeps_of_beats reach beats, ne_eq,
      not_false_eq_true, if_true, if_false]
  preempt c keep free reach above := by
    obtain ⟨⟨b, hb, top⟩, -⟩ := scanMax_best reach
    obtain ⟨before, p, after, split, best, pick⟩ := pcpPickNext_first
      (s := { s with readyqueue := s.readyqueue ++ [c] }) (queued_of_exists reach)
      ⟨b, List.mem_append_left _ hb, Int.le_of_eq top.symm⟩
    refine ⟨before, p, after, split, best, ?_⟩
    simp only [pcpSchedule, keep, queued_of_exists reach, (preempts_iff reach).2 above,
      linkReadyTail_free free, ok_bind, ne_eq, not_false_eq_true, if_true]
    exact pick
  idle idle empty := by simp [pcpSchedule, pcpPickNext, idle, empty]
  pick idle reach := by
    obtain ⟨before, p, after, split, best, pick⟩ := pcpPickNext_first (queued_of_exists reach) reach
    exact ⟨before, p, after, split, best, by rw [pcpSchedule, idle]; exact pick⟩

/-- Priorities `1` and `3` forked together under PCP, nothing running: the first pick takes
process 1, the first of greatest priority. -/
theorem pcp_law_two_jobs : ∃ s', pcpSchedule
    (forkOnSchedule (load 1 [⟨0, 1, 1, 0, []⟩, ⟨1, 1, 3, 0, []⟩])) = .ok (s', some 1) := by
  obtain ⟨before, p, after, -, best, pick⟩ := (pcpSchedule_law
    (forkOnSchedule (load 1 [⟨0, 1, 1, 0, []⟩, ⟨1, 1, 3, 0, []⟩]))).pick (by decide) (by decide)
  obtain rfl : p = 1 := best.unique ⟨by decide, [0], [], rfl, by decide⟩
  exact ⟨_, pick⟩

/-- Priorities `1` and `3` forked together under Priority+Aging with `MAX_PRIO = 5`, nothing
running: the first pick takes process 1, the first of greatest priority. -/
theorem pa_law_two_jobs : ∃ s', paSchedule 5
    (forkOnSchedule (load 1 [⟨0, 1, 1, 0, []⟩, ⟨1, 1, 3, 0, []⟩])) = .ok (s', some 1) := by
  obtain ⟨before, p, after, -, best, pick⟩ :=
    (paSchedule_law 5 (forkOnSchedule (load 1 [⟨0, 1, 1, 0, []⟩, ⟨1, 1, 3, 0, []⟩]))
      (by decide)).pick (by decide) (by decide)
  obtain rfl : p = 1 := best.unique ⟨by decide, [0], [], rfl, by decide⟩
  exact ⟨_, pick⟩

/-- `pa_schedule` where every ready priority is below the sentinel `0`: when `current` cannot
go on, and also when `current` has a negative priority above every ready process's and
should be kept, `next` stays `NULL` and is dereferenced. -/
theorem pa_sentinel_faults (maxPrio : Int) (s : Sys) (nodup : s.readyqueue.Nodup)
    (queued : s.readyqueue ≠ []) (low : ∀ b ∈ s.readyqueue, s.prioOf b < 0) :
    (s.runnable = none → paSchedule maxPrio s = .error .nullDeref) ∧
    (∀ c, s.runnable = some c → s.prioOf c < 0 → ¬ s.Linked c →
      paSchedule maxPrio s = .error .nullDeref) := by
  have cnt : s.readyqueue.length ≠ 0 := by simpa using queued
  refine ⟨fun idle => ?_, fun c keep neg free => ?_⟩
  · rw [paSchedule, idle]
    exact paPickNext_stale maxPrio cnt nodup low
  · have preempts : (s.procs c).prio ≤ 0 := Int.le_of_lt neg
    simp only [paSchedule, keep, cnt, scanMax_beyond low, preempts, linkReadyTail_free free,
      ok_bind, ne_eq, not_false_eq_true, if_true]
    exact paPickNext_stale maxPrio (s := { s with readyqueue := s.readyqueue ++ [c] }) cnt
      (nodup_append_current nodup free)
      (List.forall_mem_append.2 ⟨low, List.forall_mem_singleton.2 neg⟩)

/-- Three processes under Priority+Aging with `MAX_PRIO = 5`. The first, of priority `-1`,
runs from round `1`; at round `2` the third, of priority `-2`, is forked. `pa_schedule`
should keep the first, whose priority is above the third's: it links it back and
dereferences `NULL`. -/
theorem pa_runner_above_queue_faults :
    ∃ σ, run (paScheduler 5) 2
        (load 1 [⟨0, 2, -1, 0, []⟩, ⟨1, 1, 0, 0, []⟩, ⟨2, 1, -2, 2, []⟩]) = .ok (.next σ) ∧
      (forkOnSchedule σ).runnable = some 0 ∧ (forkOnSchedule σ).readyqueue = [2] ∧
      (forkOnSchedule σ).prioOf 2 < (forkOnSchedule σ).prioOf 0 ∧
      paSchedule 5 (forkOnSchedule σ) = .error .nullDeref := by
  obtain ⟨σ, ran, keep, ready, above, nodup, queued, low, neg, free⟩ : ∃ σ,
      run (paScheduler 5) 2
        (load 1 [⟨0, 2, -1, 0, []⟩, ⟨1, 1, 0, 0, []⟩, ⟨2, 1, -2, 2, []⟩]) = .ok (.next σ) ∧
      (forkOnSchedule σ).runnable = some 0 ∧ (forkOnSchedule σ).readyqueue = [2] ∧
      (forkOnSchedule σ).prioOf 2 < (forkOnSchedule σ).prioOf 0 ∧
      (forkOnSchedule σ).readyqueue.Nodup ∧ (forkOnSchedule σ).readyqueue ≠ [] ∧
      (∀ b ∈ (forkOnSchedule σ).readyqueue, (forkOnSchedule σ).prioOf b < 0) ∧
      (forkOnSchedule σ).prioOf 0 < 0 ∧ ¬ (forkOnSchedule σ).Linked 0 :=
    ⟨_, rfl, rfl, rfl, by decide, by decide, by decide, by decide, by decide, by decide⟩
  exact ⟨σ, ran, keep, ready, above, (pa_sentinel_faults 5 _ nodup queued low).2 0 keep neg free⟩

/-- `pcp_schedule` (of the ceiling and the inheritance policies) where every ready priority is
below the sentinel `0`: when `current` cannot go on, and also when `current` has a negative
priority above every ready process's and should be kept, `next` stays `NULL` and is
dereferenced. -/
theorem pcp_sentinel_faults (s : Sys) (queued : s.readyqueue ≠ [])
    (low : ∀ b ∈ s.readyqueue, s.prioOf b < 0) :
    (s.runnable = none → pcpSchedule s = .error .nullDeref) ∧
    (∀ c, s.runnable = some c → s.prioOf c < 0 → ¬ s.Linked c →
      pcpSchedule s = .error .nullDeref) := by
  have cnt : s.readyqueue.length ≠ 0 := by simpa using queued
  refine ⟨fun idle => ?_, fun c keep neg free => ?_⟩
  · rw [pcpSchedule, idle]
    exact pcpPickNext_stale cnt low
  · have preempts : (s.procs c).prio ≤ 0 := Int.le_of_lt neg
    simp only [pcpSchedule, keep, cnt, scanMax_beyond low, preempts, linkReadyTail_free free,
      ok_bind, ne_eq, not_false_eq_true, if_true]
    exact pcpPickNext_stale (s := { s with readyqueue := s.readyqueue ++ [c] }) cnt
      (List.forall_mem_append.2 ⟨low, List.forall_mem_singleton.2 neg⟩)

/-- Under the ceiling protocol, a running process of priority `-1` and a ready one of
priority `-2`: `pcp_schedule` dereferences `NULL` instead of keeping the first. And one
process of priority `-1` stops the first round of the ceiling and of the inheritance
policies. -/
theorem pcp_negative_jobs_fault :
    pcpSchedule { load 1 [⟨0, 2, -1, 0, []⟩, ⟨1, 1, -2, 0, []⟩] with
        readyqueue := [1], forkqueue := [], current := some 0 } = .error .nullDeref ∧
      doRound (pcpScheduler 5) (load 1 [⟨0, 1, -1, 0, []⟩]) = .error .nullDeref ∧
      doRound pipScheduler (load 1 [⟨0, 1, -1, 0, []⟩]) = .error .nullDeref :=
  ⟨(pcp_sentinel_faults _ (by decide) (by decide)).2 0 rfl (by decide) (by decide), rfl, rfl⟩

end Preempt

/-! ## The wake-up of the priority releases -/

section Wakeup

variable {s : Sys} {r : Nat}

/-- The wake-up over a wait queue whose priorities are all below the sentinel `0`: `waiter`
stays `NULL`, and `assert(waiter->status == PROCESS_WAIT)` dereferences it. -/
theorem prioWakeup_stale (waiting : (s.resources r).waitqueue ≠ [])
    (low : ∀ b ∈ (s.resources r).waitqueue, s.prioOf b < 0) :
    s.prioWakeup r = .error .nullDeref := by
  have top : scanMax (fun p => (s.procs p).prio) 0 (s.resources r).waitqueue = 0 :=
    scanMax_beyond low
  have miss : (s.resources r).waitqueue.find? (fun p => (s.procs p).prio = 0) = none :=
    List.find?_eq_none.2 fun b hb => by simpa using Int.ne_of_lt (low b hb)
  simp only [prioWakeup, if_neg waiting, top, miss]

/-- The wake-up, where some waiter's priority reaches `0`: the first waiter of greatest
priority is taken out of the wait queue, the others left in their order, and woken if it
is waiting. -/
theorem prioWakeup_law (s : Sys) (r : Nat) :
    ((s.resources r).waitqueue = [] → s.prioWakeup r = .ok s) ∧
    ((∃ b ∈ (s.resources r).waitqueue, 0 ≤ s.prioOf b) →
      ∃ before w after, (s.resources r).waitqueue = before ++ w :: after ∧
        FirstBest (· > ·) s.prioOf (s.resources r).waitqueue w ∧
        ((s.unlinkWait r w).resources r).waitqueue = before ++ after ∧
        s.prioWakeup r = if (s.procs w).status ≠ .wait then .error .waiterNotWait
          else s.wake r w) := by
  refine ⟨fun empty => by simp [prioWakeup, empty], fun reach => ?_⟩
  obtain ⟨found, greatest⟩ := scanMax_best reach
  obtain ⟨before, w, after, split, hw, hb, find⟩ := find?_key found
  have waiting : (s.resources r).waitqueue ≠ [] := by simp [split]
  refine ⟨before, w, after, split, .of_key (fun x ne le => by omega)
    (fun b mem => Int.not_lt.2 (greatest b mem)) split hw hb, ?_, ?_⟩
  · simp [unlinkWait, split, erase_first hw hb]
  · have find : (s.resources r).waitqueue.find?
        (fun p => (s.procs p).prio = scanMax (fun p => (s.procs p).prio) 0
          (s.resources r).waitqueue) = some w := find
    simp only [prioWakeup, if_neg waiting, find]

end Wakeup

/-! ## The three releases -/

section Release

variable {s : Sys} {i : Int} {r c : Nat}

/-- `prio_release` past `assert(r->owner == current)`: the resource loses its owner, then
the wake-up. -/
theorem prioRelease_eq (hr : s.resourceIndex i = .ok r) (owner : (s.resources r).owner = some c) :
    prioRelease i c s = (s.setOwner r none).prioWakeup r := by
  simp only [prioRelease, hr, owner, ok_bind, ne_eq, not_true_eq_false, if_false]

/-- `pcp_release`, whose body `pip_release` shares, past its assertion: the owner gets back
`prio_orig`, the resource loses its owner, then the wake-up. -/
theorem pcpRelease_eq (hr : s.resourceIndex i = .ok r) (owner : (s.resources r).owner = some c) :
    pcpRelease i c s =
      ((s.setProc c fun p => { p with prio := p.prioOrig }).setOwner r none).prioWakeup r := by
  simp only [pcpRelease, hr, owner, ok_bind, ne_eq, not_true_eq_false, if_false]

/-- The reset of the owner leaves the priorities of the waiters, which do not include it. -/
theorem prioOf_reset_waiter (hc : c ∉ (s.resources r).waitqueue) {b : Nat}
    (hb : b ∈ (s.resources r).waitqueue) {o : Option Nat} :
    ((s.setProc c fun p => { p with prio := p.prioOrig }).setOwner r o).prioOf b = s.prioOf b := by
  have ne : b ≠ c := fun e => hc (e ▸ hb)
  simp [prioOf, setOwner, ne]

/-- The three releases past their assertion, where some waiter's priority reaches `0`: the
resource loses its owner (and under the two protocols the owner gets back `prio_orig`), and
the first waiter of greatest priority is taken out of the wait queue, the others left in
their order, and woken if it is waiting. `pip_release` is `pcp_release`. -/
theorem release_law (hr : s.resourceIndex i = .ok r) (owner : (s.resources r).owner = some c)
    (hc : c ∉ (s.resources r).waitqueue) :
    ((s.resources r).waitqueue = [] → prioRelease i c s = .ok (s.setOwner r none) ∧
      pcpRelease i c s =
        .ok ((s.setProc c fun p => { p with prio := p.prioOrig }).setOwner r none)) ∧
    ((∃ b ∈ (s.resources r).waitqueue, 0 ≤ s.prioOf b) →
      ∃ before w after, (s.resources r).waitqueue = before ++ w :: after ∧
        FirstBest (· > ·) s.prioOf (s.resources r).waitqueue w ∧
        ((s.unlinkWait r w).resources r).waitqueue = before ++ after ∧
        prioRelease i c s = (if (s.procs w).status ≠ .wait then .error .waiterNotWait
          else (s.setOwner r none).wake r w) ∧
        pcpRelease i c s = (if (s.procs w).status ≠ .wait then .error .waiterNotWait
          else ((s.setProc c fun p => { p with prio := p.prioOrig }).setOwner r none).wake r w)) := by
  rw [prioRelease_eq hr owner, pcpRelease_eq hr owner]
  refine ⟨fun empty => ⟨(prioWakeup_law _ r).1 (by simpa using empty),
    (prioWakeup_law _ r).1 (by simpa using empty)⟩, fun ⟨b, hb, le⟩ => ?_⟩
  obtain ⟨before, w, after, split, best, unlink, wake⟩ :=
    (prioWakeup_law (s.setOwner r none) r).2 ⟨b, by simpa using hb, le⟩
  obtain ⟨-, w', -, -, best', -, wake'⟩ :=
    (prioWakeup_law ((s.setProc c fun p => { p with prio := p.prioOrig }).setOwner r none) r).2
      ⟨b, by simpa using hb, by rw [prioOf_reset_waiter hc hb]; exact le⟩
  simp only [waitqueue_setOwner, setProc_resources] at split best best'
  obtain rfl : w = w' := best.unique (best'.congr fun b hb => prioOf_reset_waiter hc hb)
  have ne : w ≠ c := fun e => hc (e ▸ split ▸ List.mem_append_right _ (List.mem_cons_self w after))
  refine ⟨before, w, after, split, best, by simpa [unlinkWait] using unlink, wake, ?_⟩
  simpa [setOwner, ne] using wake'

/-- Process `0` owns resource `0`, for which processes `1` and `2`, of priorities `1` and `3`,
wait in that order: `prio_release` wakes process `2`. -/
theorem release_wakes_higher_waiter :
    ∃ w, FirstBest (· > ·) { load 1 [⟨0, 1, 0, 0, []⟩, ⟨1, 1, 1, 0, []⟩, ⟨2, 1, 3, 0, []⟩] with
        forkqueue := [], resources := fun _ => ⟨some 0, [1, 2]⟩ }.prioOf [1, 2] w ∧
      prioRelease 0 0 { load 1 [⟨0, 1, 0, 0, []⟩, ⟨1, 1, 1, 0, []⟩, ⟨2, 1, 3, 0, []⟩] with
        forkqueue := [], resources := fun _ => ⟨some 0, [1, 2]⟩ } =
      if ({ load 1 [⟨0, 1, 0, 0, []⟩, ⟨1, 1, 1, 0, []⟩, ⟨2, 1, 3, 0, []⟩] with
          forkqueue := [], resources := fun _ => ⟨some 0, [1, 2]⟩ }.procs w).status ≠ .wait
      then .error .waiterNotWait
      else ({ load 1 [⟨0, 1, 0, 0, []⟩, ⟨1, 1, 1, 0, []⟩, ⟨2, 1, 3, 0, []⟩] with
          forkqueue := [], resources := fun _ => ⟨some 0, [1, 2]⟩ }.setOwner 0 none).wake 0 w := by
  obtain ⟨-, w, -, -, best, -, wake, -⟩ :=
    (release_law (s := { load 1 [⟨0, 1, 0, 0, []⟩, ⟨1, 1, 1, 0, []⟩, ⟨2, 1, 3, 0, []⟩] with
        forkqueue := [], resources := fun _ => ⟨some 0, [1, 2]⟩ }) (i := 0) (r := 0) (c := 0)
      rfl rfl (by decide)).2 ⟨2, by decide, by decide⟩
  exact ⟨w, best, wake⟩

/-- The three releases over a wait queue whose priorities are all below the sentinel `0`:
`waiter` stays `NULL` and is dereferenced. -/
theorem release_sentinel_faults (hr : s.resourceIndex i = .ok r)
    (owner : (s.resources r).owner = some c) (waiting : (s.resources r).waitqueue ≠ [])
    (low : ∀ b ∈ (s.resources r).waitqueue, s.prioOf b < 0) (hc : c ∉ (s.resources r).waitqueue) :
    prioRelease i c s = .error .nullDeref ∧ pcpRelease i c s = .error .nullDeref ∧
      pipRelease i c s = .error .nullDeref := by
  have pcp : pcpRelease i c s = .error .nullDeref := by
    rw [pcpRelease_eq hr owner]
    refine prioWakeup_stale (by simpa using waiting) fun b hb => ?_
    simp only [waitqueue_setOwner, setProc_resources] at hb
    rw [prioOf_reset_waiter hc hb]; exact low b hb
  refine ⟨?_, pcp, pcp⟩
  rw [prioRelease_eq hr owner]
  exact prioWakeup_stale (by simpa using waiting) fun b hb => low b (by simpa using hb)

/-- Process `0` owns resource `0`, and process `1`, of priority `-1`, waits for it: each of the
three releases dereferences `NULL`. Under Priority+Aging with `MAX_PRIO = 5` the same
happens in the third round of a run where process `1` blocks on the resource that process
`0` holds for two ticks. -/
theorem release_negative_waiter_faults :
    (prioRelease 0 0 { load 1 [⟨0, 1, 0, 0, []⟩, ⟨1, 1, -1, 0, []⟩] with
        forkqueue := [], resources := fun _ => ⟨some 0, [1]⟩ } = .error .nullDeref ∧
      pcpRelease 0 0 { load 1 [⟨0, 1, 0, 0, []⟩, ⟨1, 1, -1, 0, []⟩] with
        forkqueue := [], resources := fun _ => ⟨some 0, [1]⟩ } = .error .nullDeref ∧
      pipRelease 0 0 { load 1 [⟨0, 1, 0, 0, []⟩, ⟨1, 1, -1, 0, []⟩] with
        forkqueue := [], resources := fun _ => ⟨some 0, [1]⟩ } = .error .nullDeref) ∧
    run (paScheduler 5) 3
      (load 1 [⟨0, 3, 0, 0, [⟨0, 0, 2⟩]⟩, ⟨1, 2, -1, 0, [⟨0, 0, 1⟩]⟩]) = .error .nullDeref :=
  ⟨release_sentinel_faults (r := 0) rfl rfl (by decide) (by decide) (by decide), rfl⟩

end Release

end ProcessorScheduler
