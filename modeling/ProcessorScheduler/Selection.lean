import ProcessorScheduler.Engine

/-!
# Scans from a sentinel

`sjf_schedule`, `srtf_schedule` and `prio_schedule` find the least lifespan or the greatest
priority of the ready queue by a scan that starts from a sentinel (`min = 1000`, `max = 0`),
and then take the first process whose key equals what the scan found. When some key of the
queue reaches the sentinel, the scan's result is the best key of the queue
(`scanMin_best`, `scanMax_best`) and the pick takes the first best process out of the queue,
leaving the others in their order (`pickFirst_found`, `FirstBest`). When every key is beyond
the sentinel, the scan returns the sentinel, no process matches, and the loop leaves `prc`
on the last process, which is returned still linked (`pickFirst_stale`).

For SJF and SRTF that means: with every lifespan of the queue above `1000`, the pick returns
the last process of the ready queue without unlinking it (`sjf_sentinel_stale`), and
`__do_simulation` then stops on `assert(list_empty(&current->list))`; a running process
with more than `1000` ticks left and an empty ready queue is dropped by `srtf_schedule`
(`srtf_sentinel_drops`). Where the lifespans stay within the sentinel, SJF and SRTF pick as
their specification says (`sjfSchedule_law`, `srtfSchedule_law`).
-/

namespace ProcessorScheduler

open Sys

/-! ## The scans -/

section Scan

variable (key : Nat → Int)

theorem scanMax_spec : ∀ (q : List Nat) (init : Int),
    init ≤ scanMax key init q ∧ (∀ b ∈ q, key b ≤ scanMax key init q) ∧
      (scanMax key init q = init ∨ ∃ b ∈ q, key b = scanMax key init q)
  | [], init => ⟨Int.le_refl _, by simp, .inl rfl⟩
  | p :: ps, init => by
    have step : scanMax key init (p :: ps) =
        scanMax key (if init < key p then key p else init) ps := rfl
    rw [step]
    by_cases lt : init < key p
    · rw [if_pos lt]
      obtain ⟨le, greatest, found⟩ := scanMax_spec ps (key p)
      refine ⟨by omega, fun b hb => ?_, .inr ?_⟩
      · rcases List.mem_cons.1 hb with rfl | hb
        exacts [le, greatest b hb]
      · rcases found with h | ⟨b, hb, h⟩
        exacts [⟨p, List.mem_cons_self p ps, h.symm⟩, ⟨b, List.mem_cons_of_mem p hb, h⟩]
    · rw [if_neg lt]
      obtain ⟨le, greatest, found⟩ := scanMax_spec ps init
      refine ⟨le, fun b hb => ?_, ?_⟩
      · rcases List.mem_cons.1 hb with rfl | hb
        exacts [by omega, greatest b hb]
      · rcases found with h | ⟨b, hb, h⟩
        exacts [.inl h, .inr ⟨b, List.mem_cons_of_mem p hb, h⟩]

/-- The scan for the least key is the scan for the greatest negated key, negated. -/
theorem scanMin_neg : ∀ (q : List Nat) (init : Int),
    scanMin key init q = -scanMax (fun p => -key p) (-init) q
  | [], init => (Int.neg_neg init).symm
  | p :: ps, init => by
    have step : -(if init > key p then key p else init) =
        if -init < -key p then -key p else -init := by
      by_cases lt : init > key p
      · rw [if_pos lt, if_pos (by omega)]
      · rw [if_neg lt, if_neg (by omega)]
    show scanMin key (if init > key p then key p else init) ps =
      -scanMax (fun p => -key p) (if -init < -key p then -key p else -init) ps
    rw [scanMin_neg ps, step]

theorem scanMin_spec (q : List Nat) (init : Int) :
    scanMin key init q ≤ init ∧ (∀ b ∈ q, scanMin key init q ≤ key b) ∧
      (scanMin key init q = init ∨ ∃ b ∈ q, key b = scanMin key init q) := by
  obtain ⟨le, greatest, found⟩ := scanMax_spec (fun p => -key p) q (-init)
  rw [scanMin_neg]
  refine ⟨by omega, fun b hb => by have := greatest b hb; omega, ?_⟩
  rcases found with h | ⟨b, hb, h⟩
  exacts [.inl (by omega), .inr ⟨b, hb, by omega⟩]

variable {key} {q : List Nat} {init : Int}

/-- A queue with a key at or below the sentinel: the scan finds its least key. -/
theorem scanMin_best (reach : ∃ b ∈ q, key b ≤ init) :
    (∃ b ∈ q, key b = scanMin key init q) ∧ ∀ b ∈ q, scanMin key init q ≤ key b := by
  obtain ⟨le, least, found⟩ := scanMin_spec key q init
  refine ⟨?_, least⟩
  rcases found with h | found
  · obtain ⟨b, hb, hle⟩ := reach
    exact ⟨b, hb, by have := least b hb; omega⟩
  · exact found

/-- A queue whose keys are all above the sentinel: the scan returns the sentinel. -/
theorem scanMin_beyond (beyond : ∀ b ∈ q, init < key b) : scanMin key init q = init := by
  obtain ⟨le, -, found⟩ := scanMin_spec key q init
  rcases found with h | ⟨b, hb, h⟩
  · exact h
  · exact absurd (h ▸ le) (Int.not_le.2 (beyond b hb))

/-- A queue with a key at or above the sentinel: the scan finds its greatest key. -/
theorem scanMax_best (reach : ∃ b ∈ q, init ≤ key b) :
    (∃ b ∈ q, key b = scanMax key init q) ∧ ∀ b ∈ q, key b ≤ scanMax key init q := by
  obtain ⟨le, greatest, found⟩ := scanMax_spec key q init
  refine ⟨?_, greatest⟩
  rcases found with h | found
  · obtain ⟨b, hb, hle⟩ := reach
    exact ⟨b, hb, by have := greatest b hb; omega⟩
  · exact found

/-- A queue whose keys are all below the sentinel: the scan returns the sentinel. -/
theorem scanMax_beyond (beyond : ∀ b ∈ q, key b < init) : scanMax key init q = init := by
  obtain ⟨le, -, found⟩ := scanMax_spec key q init
  rcases found with h | ⟨b, hb, h⟩
  · exact h
  · exact absurd (h ▸ le) (Int.not_le.2 (beyond b hb))

end Scan

/-! ## The first best process -/

/-- `p` comes first in `q` among the processes whose key is best for `beats`: no process of
`q` beats it, and it beats every process before it. With `beats` the order `<` on
lifespans it is the first process of least lifespan; with `>` on priorities, the first of
greatest priority. -/
structure FirstBest (beats : Int → Int → Prop) (key : Nat → Int) (q : List Nat) (p : Nat) :
    Prop where
  best : ∀ b ∈ q, ¬ beats (key b) (key p)
  first : ∃ before after, q = before ++ p :: after ∧ ∀ b ∈ before, beats (key p) (key b)

section First

variable {key : Nat → Int} {m : Int} {q : List Nat}

/-- `list_for_each(...) if (key == m)` stops at the first process whose key is `m`. -/
theorem find?_key (found : ∃ b ∈ q, key b = m) :
    ∃ before p after, q = before ++ p :: after ∧ key p = m ∧ (∀ b ∈ before, key b ≠ m) ∧
      q.find? (fun x => key x = m) = some p := by
  cases h : q.find? (fun x => key x = m) with
  | none =>
    obtain ⟨b, hb, e⟩ := found
    exact absurd (by simpa using e) (List.find?_eq_none.1 h b hb)
  | some p =>
    obtain ⟨hp, before, after, split, hb⟩ := List.find?_eq_some.1 h
    exact ⟨before, p, after, split, by simpa using hp, fun b mem => by simpa using hb b mem, rfl⟩

/-- The first process of key `m`, when `m` is best over `q`, is the first best process. -/
theorem FirstBest.of_key {beats : Int → Int → Prop} {before after : List Nat} {p : Nat}
    (total : ∀ x, x ≠ m → ¬ beats x m → beats m x) (extremal : ∀ b ∈ q, ¬ beats (key b) m)
    (split : q = before ++ p :: after) (hp : key p = m) (hb : ∀ b ∈ before, key b ≠ m) :
    FirstBest beats key q p :=
  ⟨fun b mem => hp ▸ extremal b mem, ⟨before, after, split, fun b mem =>
    hp ▸ total _ (hb b mem) (extremal b (split ▸ List.mem_append_left _ mem))⟩⟩

/-- Keys that agree on the queue have the same first best process. -/
theorem FirstBest.congr {beats : Int → Int → Prop} {key' : Nat → Int} {p : Nat}
    (agree : ∀ b ∈ q, key b = key' b) (h : FirstBest beats key q p) : FirstBest beats key' q p := by
  obtain ⟨before, after, split, ahead⟩ := h.first
  have hp : p ∈ q := split ▸ List.mem_append_right _ (List.mem_cons_self p after)
  refine ⟨fun b mem => ?_, before, after, split, fun b mem => ?_⟩
  · rw [← agree b mem, ← agree p hp]; exact h.best b mem
  · rw [← agree b (split ▸ List.mem_append_left _ mem), ← agree p hp]; exact ahead b mem

/-- The first process of greatest key is the first one whose key is its own. -/
theorem FirstBest.find? {p : Nat} (h : FirstBest (· > ·) key q p) :
    q.find? (fun x => key x = key p) = some p := by
  obtain ⟨before, after, split, ahead⟩ := h.first
  exact List.find?_eq_some.2 ⟨by simp, before, after, split,
    fun b mem => by simpa using Int.ne_of_lt (ahead b mem)⟩

/-- There is one first process of greatest key. -/
theorem FirstBest.unique {p p' : Nat} (h : FirstBest (· > ·) key q p)
    (h' : FirstBest (· > ·) key q p') : p = p' := by
  obtain ⟨before', after', split', -⟩ := h'.first
  obtain ⟨before, after, split, -⟩ := h.first
  have same : key p = key p' := by
    have := h.best p' (split' ▸ List.mem_append_right _ (List.mem_cons_self p' after'))
    have := h'.best p (split ▸ List.mem_append_right _ (List.mem_cons_self p after))
    simp only [gt_iff_lt] at *
    omega
  exact Option.some.inj (h.find?.symm.trans (same ▸ h'.find?))

/-- Removing the first process of key `m` leaves the others in their order. -/
theorem erase_first {before after : List Nat} {p : Nat} (hp : key p = m)
    (hb : ∀ b ∈ before, key b ≠ m) : (before ++ p :: after).erase p = before ++ after := by
  rw [List.erase_append_right _ fun mem => hb p mem hp, List.erase_cons_head]

variable {s : Sys}

/-- The last scan of a pick when some process has key `m`: the first one is unlinked and
returned. -/
theorem pickFirst_found (found : ∃ b ∈ s.readyqueue, key b = m) :
    ∃ before p after, s.readyqueue = before ++ p :: after ∧ key p = m ∧
      (∀ b ∈ before, key b ≠ m) ∧
      s.pickFirst key m = ({ s with readyqueue := before ++ after }, some p) := by
  obtain ⟨before, p, after, split, hp, hb, find⟩ := find?_key found
  refine ⟨before, p, after, split, hp, hb, ?_⟩
  unfold pickFirst
  rw [find]
  simp only [unlinkReady, split, erase_first hp hb]

/-- The last scan of a pick when no process has key `m`: `prc` is left on the last process
of the queue, which is returned still linked. -/
theorem pickFirst_stale (none : ∀ b ∈ s.readyqueue, key b ≠ m) :
    s.pickFirst key m = (s, s.readyqueue.getLast?) := by
  have : s.readyqueue.find? (fun x => key x = m) = .none :=
    List.find?_eq_none.2 fun b hb => by simpa using none b hb
  simp only [pickFirst, this]

/-- The first process of least key, once the scan from `init` has found the least key. -/
theorem pickFirst_least {init : Int} (reach : ∃ b ∈ s.readyqueue, key b ≤ init) :
    ∃ before p after, s.readyqueue = before ++ p :: after ∧
      FirstBest (· < ·) key s.readyqueue p ∧
      s.pickFirst key (scanMin key init s.readyqueue) =
        ({ s with readyqueue := before ++ after }, some p) := by
  obtain ⟨found, least⟩ := scanMin_best reach
  obtain ⟨before, p, after, split, hp, hb, pick⟩ := pickFirst_found found
  exact ⟨before, p, after, split, .of_key (fun x ne le => by omega)
    (fun b mem => Int.not_lt.2 (least b mem)) split hp hb, pick⟩

/-- The first process of greatest key, once the scan from `init` has found the greatest key. -/
theorem pickFirst_greatest {init : Int} (reach : ∃ b ∈ s.readyqueue, init ≤ key b) :
    ∃ before p after, s.readyqueue = before ++ p :: after ∧
      FirstBest (· > ·) key s.readyqueue p ∧
      s.pickFirst key (scanMax key init s.readyqueue) =
        ({ s with readyqueue := before ++ after }, some p) := by
  obtain ⟨found, greatest⟩ := scanMax_best reach
  obtain ⟨before, p, after, split, hp, hb, pick⟩ := pickFirst_found found
  exact ⟨before, p, after, split, .of_key (fun x ne le => by omega)
    (fun b mem => Int.not_lt.2 (greatest b mem)) split hp hb, pick⟩

end First

/-! ## Shortest job first -/

section Sjf

variable {s : Sys}

/-- `sjf_schedule`, where the lifespans stay within the sentinel: a runnable `current` is
kept; otherwise an empty ready queue gives `NULL`, and a queue with a lifespan of at most
`1000` gives up its first process of least lifespan, the others left in their order. -/
theorem sjfSchedule_law (s : Sys) :
    (∀ c, s.runnable = some c → sjfSchedule s = .ok (s, some c)) ∧
    (s.runnable = none → s.readyqueue = [] → sjfSchedule s = .ok (s, none)) ∧
    (s.runnable = none → (∃ b ∈ s.readyqueue, s.lifespanOf b ≤ 1000) →
      ∃ before p after, s.readyqueue = before ++ p :: after ∧
        FirstBest (· < ·) s.lifespanOf s.readyqueue p ∧
        sjfSchedule s = .ok ({ s with readyqueue := before ++ after }, some p)) := by
  refine ⟨fun c keep => by simp only [sjfSchedule, keep], fun idle empty => by
    simp only [sjfSchedule, idle, empty, List.length_nil, ne_eq, not_true_eq_false, if_false],
    fun idle reach => ?_⟩
  obtain ⟨before, p, after, split, best, pick⟩ := pickFirst_least reach
  have queued : s.readyqueue.length ≠ 0 := by simp [split]
  exact ⟨before, p, after, split, best, by simp only [sjfSchedule, idle, queued, if_true, ne_eq,
    not_false_eq_true, pick]⟩

/-- The example of the specification, lifespans `5` and `2` forked together: the first pick
takes the first process of least lifespan out of the ready queue. -/
theorem sjf_picks_shorter :
    ∃ before p after, [0, 1] = before ++ p :: after ∧
      FirstBest (· < ·) (forkOnSchedule (load 1 [⟨1, 5, 0, 0, []⟩, ⟨2, 2, 0, 0, []⟩])).lifespanOf
        [0, 1] p ∧
      sjfSchedule (forkOnSchedule (load 1 [⟨1, 5, 0, 0, []⟩, ⟨2, 2, 0, 0, []⟩])) =
        .ok ({ forkOnSchedule (load 1 [⟨1, 5, 0, 0, []⟩, ⟨2, 2, 0, 0, []⟩]) with
          readyqueue := before ++ after }, some p) :=
  (sjfSchedule_law (forkOnSchedule (load 1 [⟨1, 5, 0, 0, []⟩, ⟨2, 2, 0, 0, []⟩]))).2.2 rfl
    ⟨1, by decide, by decide⟩

/-- `sjf_schedule` when `current` cannot go on and every lifespan of the ready queue is above
the sentinel `1000`: it returns the last process of the queue, not the first of least
lifespan, and leaves it linked. -/
theorem sjf_sentinel_stale (idle : s.runnable = none)
    (long : ∀ b ∈ s.readyqueue, 1000 < s.lifespanOf b) :
    sjfSchedule s = .ok (s, s.readyqueue.getLast?) := by
  rw [sjfSchedule, idle]
  dsimp only
  split
  · rw [scanMin_beyond long, pickFirst_stale fun b hb => Int.ne_of_gt (long b hb)]
  · rename_i empty
    simp only [ne_eq, List.length_eq_zero, not_not] at empty
    simp [empty]

/-- One process of lifespan `1001` under SJF: the first pick returns it still in the ready
queue, and the round stops on `assert(list_empty(&current->list))`. -/
theorem sjf_long_job_stays_linked :
    sjfSchedule (forkOnSchedule (load 1 [⟨0, 1001, 0, 0, []⟩])) =
        .ok (forkOnSchedule (load 1 [⟨0, 1001, 0, 0, []⟩]), some 0) ∧
      (forkOnSchedule (load 1 [⟨0, 1001, 0, 0, []⟩])).readyqueue = [0] ∧
      doRound sjfScheduler (load 1 [⟨0, 1001, 0, 0, []⟩]) = .error .dispatchLinked :=
  ⟨sjf_sentinel_stale rfl (by decide), rfl, rfl⟩

end Sjf

/-! ## Shortest remaining time first -/

section Srtf

variable {s : Sys}

/-- The `min` of `srtf_schedule`'s first scans, when some lifespan of the queue is at most
`1000`, is the least lifespan of the queue. -/
theorem srtfMin_best (reach : ∃ b ∈ s.readyqueue, s.lifespanOf b ≤ 1000) :
    (∃ b ∈ s.readyqueue, s.lifespanOf b = s.srtfMin) ∧
      ∀ b ∈ s.readyqueue, s.srtfMin ≤ s.lifespanOf b := by
  have queued : s.readyqueue.length ≠ 0 := by
    obtain ⟨b, hb, -⟩ := reach; have := List.length_pos_of_mem hb; omega
  simp only [srtfMin, queued, ne_eq, not_false_eq_true, if_true]
  exact scanMin_best reach

/-- `srtf_schedule`'s second scan starts from the first one's result and finds it again. -/
theorem srtfPickNext_eq : s.srtfPickNext =
    if s.readyqueue.length ≠ 0 then s.pickFirst s.lifespanOf s.srtfMin else (s, none) := by
  unfold srtfPickNext
  split
  · rename_i queued
    have again : scanMin s.lifespanOf s.srtfMin s.readyqueue = s.srtfMin := by
      obtain ⟨le, least, found⟩ := scanMin_spec s.lifespanOf s.readyqueue s.srtfMin
      rcases found with h | ⟨b, hb, h⟩
      · exact h
      · have first := (scanMin_spec s.lifespanOf s.readyqueue 1000).2.1 b hb
        have : s.srtfMin = scanMin s.lifespanOf 1000 s.readyqueue := by simp [srtfMin, queued]
        omega
    rw [again]
  · rfl

/-- `srtf_schedule`, where a runnable `current` has at most `1000` ticks left and the queue
has a lifespan of at most `1000` when `current` cannot go on: (a) `current` is kept when no
process of the queue has a lifespan below its remaining time; (b) otherwise the first
process of least lifespan is taken and `current` linked back at the head of the ready
queue; (c) a `current` that cannot go on leaves `NULL` for an empty queue and the first
process of least lifespan, unlinked, for another. -/
theorem srtfSchedule_law (s : Sys) :
    (∀ c, s.runnable = some c → (s.procs c).lifespan - (s.procs c).age ≤ 1000 →
      ((∀ b ∈ s.readyqueue, (s.procs c).lifespan - (s.procs c).age ≤ s.lifespanOf b) →
          srtfSchedule s = .ok (s, some c)) ∧
      ((∃ b ∈ s.readyqueue, s.lifespanOf b < (s.procs c).lifespan - (s.procs c).age) →
        ¬ s.Linked c → ∃ before p after, s.readyqueue = before ++ p :: after ∧
          FirstBest (· < ·) s.lifespanOf s.readyqueue p ∧
          srtfSchedule s = .ok ({ s with readyqueue := c :: (before ++ after) }, some p))) ∧
    (s.runnable = none → s.readyqueue = [] → srtfSchedule s = .ok (s, none)) ∧
    (s.runnable = none → (∃ b ∈ s.readyqueue, s.lifespanOf b ≤ 1000) →
      ∃ before p after, s.readyqueue = before ++ p :: after ∧
        FirstBest (· < ·) s.lifespanOf s.readyqueue p ∧
        srtfSchedule s = .ok ({ s with readyqueue := before ++ after }, some p)) := by
  refine ⟨fun c keep within => ⟨fun stays => ?_, fun ⟨b, hb, lt⟩ free => ?_⟩,
    fun idle empty => ?_, fun idle reach => ?_⟩
  · have noPreempt : ¬ s.srtfMin < (s.procs c).lifespan - (s.procs c).age := by
      unfold srtfMin
      split
      · rcases (scanMin_spec s.lifespanOf s.readyqueue 1000).2.2 with h | ⟨b, hb, h⟩
        · omega
        · exact Int.not_lt.2 (h ▸ stays b hb)
      · omega
    simp only [srtfSchedule, keep, noPreempt, if_false]
  · obtain ⟨found, least⟩ := srtfMin_best ⟨b, hb, by omega⟩
    have preempt : s.srtfMin < (s.procs c).lifespan - (s.procs c).age :=
      Int.lt_of_le_of_lt (least b hb) lt
    obtain ⟨before, p, after, split, hp, hbefore, find⟩ := find?_key found
    have free' : ¬ (s.unlinkReady p).Linked c := fun linked => free (by
      rcases linked with mem | mem | mem
      · exact .inl (List.mem_of_mem_erase mem)
      · exact .inr (.inl mem)
      · exact .inr (.inr mem))
    have link : (s.unlinkReady p).linkReadyHead c =
        .ok { s with readyqueue := c :: (before ++ after) } := by
      unfold linkReadyHead
      rw [if_neg free']
      simp only [unlinkReady, split, erase_first hp hbefore]
    refine ⟨before, p, after, split, .of_key (fun x ne le => by omega)
      (fun b mem => Int.not_lt.2 (least b mem)) split hp hbefore, ?_⟩
    simp only [srtfSchedule, keep, preempt, if_true, find, link, ok_bind]
  · simp only [srtfSchedule, idle, srtfPickNext, empty, List.length_nil, ne_eq,
      not_true_eq_false, if_false]
  · obtain ⟨found, least⟩ := srtfMin_best reach
    obtain ⟨before, p, after, split, hp, hbefore, pick⟩ := pickFirst_found found
    have queued : s.readyqueue.length ≠ 0 := by simp [split]
    refine ⟨before, p, after, split, .of_key (fun x ne le => by omega)
      (fun b mem => Int.not_lt.2 (least b mem)) split hp hbefore, ?_⟩
    simp only [srtfSchedule, idle, srtfPickNext_eq, queued, ne_eq, not_false_eq_true, if_true,
      pick]

/-- The example of the specification: a process of lifespan `5` runs alone, one of lifespan
`1` is forked at tick `2`; the pick of round `2` preempts the first for it and links the first
back at the head of the ready queue. -/
theorem srtf_preempts_for_short_job :
    ∃ σ, run srtfScheduler 2 (load 1 [⟨0, 5, 0, 0, []⟩, ⟨1, 1, 0, 2, []⟩]) = .ok (.next σ) ∧
      ∃ before p after, (forkOnSchedule σ).readyqueue = before ++ p :: after ∧
        FirstBest (· < ·) (forkOnSchedule σ).lifespanOf (forkOnSchedule σ).readyqueue p ∧
        srtfSchedule (forkOnSchedule σ) =
          .ok ({ forkOnSchedule σ with readyqueue := 0 :: (before ++ after) }, some p) := by
  obtain ⟨σ, ran, keep, within, short, free⟩ : ∃ σ,
      run srtfScheduler 2 (load 1 [⟨0, 5, 0, 0, []⟩, ⟨1, 1, 0, 2, []⟩]) = .ok (.next σ) ∧
      (forkOnSchedule σ).runnable = some 0 ∧
      ((forkOnSchedule σ).procs 0).lifespan - ((forkOnSchedule σ).procs 0).age ≤ 1000 ∧
      (∃ b ∈ (forkOnSchedule σ).readyqueue, (forkOnSchedule σ).lifespanOf b <
        ((forkOnSchedule σ).procs 0).lifespan - ((forkOnSchedule σ).procs 0).age) ∧
      ¬ (forkOnSchedule σ).Linked 0 :=
    ⟨_, rfl, rfl, by decide, ⟨1, by decide, by decide⟩, by decide⟩
  exact ⟨σ, ran, ((srtfSchedule_law _).1 0 keep within).2 short free⟩

/-- `srtf_schedule` beyond the sentinel `1000`: a runnable `current` with more than `1000`
ticks left and an empty ready queue is neither returned nor linked into the ready queue;
and when `current` cannot go on and every lifespan of the queue is above `1000`, the last
process of the queue is returned still linked. -/
theorem srtf_sentinel_drops (s : Sys) :
    (∀ c, s.runnable = some c → s.readyqueue = [] →
      1000 < (s.procs c).lifespan - (s.procs c).age → srtfSchedule s = .ok (s, none)) ∧
    (s.runnable = none → (∀ b ∈ s.readyqueue, 1000 < s.lifespanOf b) →
      srtfSchedule s = .ok (s, s.readyqueue.getLast?)) := by
  refine ⟨fun c keep empty long => ?_, fun idle long => ?_⟩
  · have min : s.srtfMin = 1000 := by simp [srtfMin, empty]
    simp only [srtfSchedule, keep, min, long, if_true, empty, List.find?_nil, srtfPickNext,
      List.length_nil, ne_eq, not_true_eq_false, if_false]
  · rw [srtfSchedule, idle]
    dsimp only
    rw [srtfPickNext_eq]
    split
    · rename_i queued
      have min : s.srtfMin = 1000 := by simp only [srtfMin, queued, ne_eq, not_false_eq_true,
        if_true, scanMin_beyond long]
      rw [min, pickFirst_stale fun b hb => Int.ne_of_gt (long b hb)]
    · rename_i empty
      simp only [ne_eq, List.length_eq_zero, not_not] at empty
      simp [empty]

/-- Under SRTF: a running process with `1500` ticks left and nothing ready is dropped by the
pick; and one process of lifespan `1001` is returned by the first pick still in the ready
queue, so that the round stops on `assert(list_empty(&current->list))`. -/
theorem srtf_long_jobs_lost :
    srtfSchedule { load 1 [⟨0, 1500, 0, 0, []⟩] with current := some 0 } =
        .ok ({ load 1 [⟨0, 1500, 0, 0, []⟩] with current := some 0 }, none) ∧
      srtfSchedule (forkOnSchedule (load 1 [⟨0, 1001, 0, 0, []⟩])) =
        .ok (forkOnSchedule (load 1 [⟨0, 1001, 0, 0, []⟩]), some 0) ∧
      doRound srtfScheduler (load 1 [⟨0, 1001, 0, 0, []⟩]) = .error .dispatchLinked :=
  ⟨(srtf_sentinel_drops _).1 0 rfl rfl (by decide), (srtf_sentinel_drops _).2 rfl (by decide), rfl⟩

end Srtf

end ProcessorScheduler
