import ProcessorScheduler.Round
import Mathlib.Algebra.Order.BigOperators.Group.Finset

/-!
# Every process in one list

A `list_head` node is consistent only while its process is in one list at a time. `Placed n
s slots` says that every loaded process that has not exited is linked exactly once (in the
fork queue, the ready queue or one wait queue) or sits in the *slots*, the processes taken
out of the lists to run, and that no other process is linked; with the statuses the lists
imply (`ready` in the fork and ready queues, `wait` in the wait queues), an age below the
lifespan for every linked process, and an unblocked process in the slots. `Sys.links` counts
the places a node is linked in.

Each operation of the engine and of `fcfs_acquire` and `fcfs_release` on the lists has its
lemma here: taking the head of the ready queue (`Placed.take`), linking a process back at
its tail (`Placed.retire_linkedTail`), forking, blocking, waking, demoting and
decommissioning `prev`.
-/

namespace ProcessorScheduler

open Sys

namespace Sys

/-- How many times `p` is in the wait queues of the table. -/
def waitCount (s : Sys) (p : Nat) : Nat :=
  ∑ r ∈ Finset.range s.nrResources, (s.resources r).waitqueue.count p

/-- How many times the node of `p` is linked: in the fork queue, in the ready queue and in
the wait queues of the table. -/
def links (s : Sys) (p : Nat) : Nat :=
  s.forkqueue.count p + s.readyqueue.count p + s.waitCount p

/-- `current` when it is not blocked: the process that ran last and is in no list. -/
def running (s : Sys) : Option Nat :=
  match s.current with
  | some c => if (s.procs c).status = .wait then none else some c
  | none => none

variable {s : Sys} {p q r c : Nat}

theorem waitCount_pos : 0 < s.waitCount p ↔ ∃ r < s.nrResources, p ∈ (s.resources r).waitqueue := by
  simp [waitCount, Nat.pos_iff_ne_zero, Finset.sum_eq_zero_iff, List.count_eq_zero]

theorem linked_iff_links : s.Linked p ↔ 0 < s.links p := by
  rw [Linked, ← waitCount_pos, ← List.count_pos_iff, ← List.count_pos_iff, links]
  omega

/-- Rewriting resource slot `r` of the table changes the wait counts by what it changes in
`r`'s wait queue. -/
theorem waitCount_setResource (hr : r < s.nrResources) (f : Resource → Resource) (p : Nat) :
    (s.setResource r f).waitCount p + (s.resources r).waitqueue.count p =
      s.waitCount p + (f (s.resources r)).waitqueue.count p := by
  have mem := Finset.mem_range.2 hr
  have rest : ∑ x ∈ Finset.range s.nrResources \ {r},
      (Function.update s.resources r (f (s.resources r)) x).waitqueue.count p =
      ∑ x ∈ Finset.range s.nrResources \ {r}, (s.resources x).waitqueue.count p :=
    Finset.sum_congr rfl fun x hx => by
      rw [Function.update_noteq (by simpa using (Finset.mem_sdiff.1 hx).2)]
  simp only [waitCount, setResource_nrResources, setResource_resources]
  rw [Finset.sum_eq_sum_diff_singleton_add mem, Finset.sum_eq_sum_diff_singleton_add mem
    (fun x => (s.resources x).waitqueue.count p), rest, Function.update_same]
  omega

theorem waitCount_of_waitqueue {s' : Sys} (nr : s'.nrResources = s.nrResources)
    (wait : ∀ r, (s'.resources r).waitqueue = (s.resources r).waitqueue) :
    s'.waitCount = s.waitCount := by
  funext p; simp only [waitCount, nr, wait]

@[simp]
theorem waitCount_withReady (l : List Nat) : ({ s with readyqueue := l } : Sys).waitCount = s.waitCount :=
  rfl

@[simp]
theorem waitCount_setProc {f : Process → Process} : (s.setProc p f).waitCount = s.waitCount := rfl

@[simp]
theorem waitCount_setStatus {st : Status} : (s.setStatus p st).waitCount = s.waitCount := rfl

@[simp]
theorem waitCount_setOwner {o : Option Nat} : (s.setOwner r o).waitCount = s.waitCount :=
  waitCount_of_waitqueue rfl (update_proj Resource.waitqueue rfl)

@[simp]
theorem links_setProc {f : Process → Process} : (s.setProc p f).links = s.links := rfl

@[simp]
theorem links_setStatus {st : Status} : (s.setStatus p st).links = s.links := rfl

theorem running_eq_some : s.running = some c ↔ s.current = some c ∧ (s.procs c).status ≠ .wait := by
  unfold running
  split
  · split <;> simp_all [eq_comm]
  · simp_all

@[simp]
theorem demote_forkqueue : (s.demote c).forkqueue = s.forkqueue := by
  unfold demote; split <;> rfl

@[simp]
theorem demote_readyqueue : (s.demote c).readyqueue = s.readyqueue := by
  unfold demote; split <;> rfl

@[simp]
theorem demote_resources : (s.demote c).resources = s.resources := by
  unfold demote; split <;> rfl

@[simp]
theorem demote_nrResources : (s.demote c).nrResources = s.nrResources := by
  unfold demote; split <;> rfl

@[simp]
theorem demote_current : (s.demote c).current = s.current := by
  unfold demote; split <;> rfl

theorem demote_status : ((s.demote c).procs q).status =
    if q = c ∧ (s.procs c).status = .running then .ready else (s.procs q).status := by
  unfold demote
  by_cases hq : q = c
  · subst hq; split <;> simp_all [setStatus]
  · split <;> simp [setStatus, hq]

end Sys

/-! ## The invariant -/

/-- The lists of `s` with `slots` the processes out of them: every loaded process that has
not exited is linked exactly once or is in the slots, once, and no other process is linked
or in the slots; fork and ready queues hold `ready` processes and wait queues `wait` ones;
a linked process is younger than its lifespan, and a process in the slots is not blocked
and not older than its lifespan. -/
structure Placed (n : Nat) (s : Sys) (slots : List Nat) : Prop where
  places : ∀ p, s.links p + slots.count p = if p < n ∧ (s.procs p).status ≠ .exit then 1 else 0
  ready : ∀ p, p ∈ s.forkqueue ∨ p ∈ s.readyqueue → (s.procs p).status = .ready
  waiting : ∀ r < s.nrResources, ∀ p ∈ (s.resources r).waitqueue, (s.procs p).status = .wait
  young : ∀ p, s.Linked p → (s.procs p).age < (s.procs p).lifespan
  slot : ∀ c ∈ slots, (s.procs c).status ≠ .wait ∧ (s.procs c).age ≤ (s.procs c).lifespan

namespace Placed

variable {n : Nat} {s s' : Sys} {S : List Nat} {p c : Nat}

theorem links_le (inv : Placed n s S) (p : Nat) : s.links p ≤ 1 := by
  have := inv.places p; split at this <;> omega

theorem not_linked (inv : Placed n s S) (mem : c ∈ S) : ¬ s.Linked c := by
  have := inv.places c
  have := List.count_pos_iff.2 mem
  rw [linked_iff_links]; split at * <;> omega

theorem count_le (inv : Placed n s S) (c : Nat) : S.count c ≤ 1 := by
  have := inv.places c; split at this <;> omega

/-- A linked process is in the fork or the ready queue, `ready`, or in a wait queue, `wait`. -/
theorem status_of_linked (inv : Placed n s S) (linked : s.Linked p) :
    (s.procs p).status = .ready ∨ (s.procs p).status = .wait := by
  rcases linked with h | h | ⟨r, hr, h⟩
  · exact .inl (inv.ready p (.inr h))
  · exact .inl (inv.ready p (.inl h))
  · exact .inr (inv.waiting r hr p h)

/-- A write that keeps every count of the lists, puts no process into the fork and ready
queues that was not in one of them, keeps the wait queues and, for every process, the
status, the age and the lifespan. -/
theorem of_frame (inv : Placed n s S) (links : s'.links = s.links)
    (queued : ∀ p, p ∈ s'.forkqueue ∨ p ∈ s'.readyqueue → p ∈ s.forkqueue ∨ p ∈ s.readyqueue)
    (nr : s'.nrResources = s.nrResources)
    (wait : ∀ r, (s'.resources r).waitqueue = (s.resources r).waitqueue)
    (procs : ∀ p, (s'.procs p).status = (s.procs p).status ∧ (s'.procs p).age = (s.procs p).age ∧
      (s'.procs p).lifespan = (s.procs p).lifespan) : Placed n s' S := by
  have linked : ∀ p, s'.Linked p ↔ s.Linked p := fun p => by simp only [linked_iff_links, links]
  refine ⟨fun p => ?_, fun p hp => ?_, fun r hr p hp => ?_, fun p hp => ?_, fun c hc => ?_⟩
  · rw [links, (procs p).1]; exact inv.places p
  · rw [(procs p).1]; exact inv.ready p (queued p hp)
  · rw [(procs p).1]; exact inv.waiting r (nr ▸ hr) p (wait r ▸ hp)
  · rw [(procs p).2.1, (procs p).2.2]; exact inv.young p ((linked p).1 hp)
  · rw [(procs c).1, (procs c).2.1, (procs c).2.2]; exact inv.slot c hc

/-- A rewrite of one process record that keeps its status, age and lifespan. -/
theorem setProc {f : Process → Process} (inv : Placed n s S)
    (hf : ∀ x, (f x).status = x.status ∧ (f x).age = x.age ∧ (f x).lifespan = x.lifespan) :
    Placed n (s.setProc p f) S :=
  inv.of_frame rfl (fun _ => id) rfl (fun _ => rfl) fun q => ⟨update_proj _ (hf _).1 q,
    update_proj _ (hf _).2.1 q, update_proj _ (hf _).2.2 q⟩

theorem setOwner {r : Nat} {o : Option Nat} (inv : Placed n s S) : Placed n (s.setOwner r o) S :=
  inv.of_frame (by funext q; simp only [links, waitCount_setOwner]; rfl) (fun _ => id) rfl
    (update_proj Resource.waitqueue rfl)
    fun _ => ⟨rfl, rfl, rfl⟩

theorem setCurrent (inv : Placed n s S) (o : Option Nat) : Placed n { s with current := o } S :=
  inv.of_frame rfl (fun _ => id) rfl (fun _ => rfl) fun _ => ⟨rfl, rfl, rfl⟩

/-- The counts of the lists and the slots move together and no process enters or leaves
`exit`: every place is kept. -/
theorem places_of (inv : Placed n s S) {S' : List Nat}
    (count : ∀ q, s'.links q + S'.count q = s.links q + S.count q)
    (exit : ∀ q, (s'.procs q).status = .exit ↔ (s.procs q).status = .exit) (q : Nat) :
    s'.links q + S'.count q = if q < n ∧ (s'.procs q).status ≠ .exit then 1 else 0 := by
  rw [count q, inv.places q]
  simp only [ne_eq, exit q]

/-! ## One lemma per operation on the lists -/

/-- `list_first_entry` of the ready queue, unlinked, goes to the slots. -/
theorem take {rest : List Nat} (inv : Placed n s S) (ready : s.readyqueue = p :: rest) :
    Placed n { s with readyqueue := rest } (S ++ [p]) where
  places := inv.places_of (fun q => by
    simp only [links, waitCount, ready, List.count_cons, List.count_append, List.count_nil,
      beq_iff_eq]
    split <;> omega) fun _ => Iff.rfl
  ready q hq := inv.ready q (hq.imp_right fun h => by rw [ready]; exact .tail p h)
  waiting := inv.waiting
  young q hq := inv.young q (by rcases hq with h | h <;> simp_all [Linked])
  slot q hq := by
    rcases List.mem_append.1 hq with hq | hq
    · exact inv.slot q hq
    · obtain rfl := List.mem_singleton.1 hq
      have linked : s.Linked q := .inl (by simp [ready])
      rw [inv.ready q (.inr (by simp [ready]))]
      exact ⟨by decide, (inv.young q linked).le⟩

/-- `if (prev->status == PROCESS_RUNNING) prev->status = PROCESS_READY`: a linked process is
not `running`, so only a process out of the lists changes, and not to `wait`. -/
theorem demote (inv : Placed n s S) : Placed n (s.demote c) S := by
  have status : ∀ q, ((s.demote c).procs q).status = (s.procs q).status ∨
      q = c ∧ ¬ s.Linked c ∧ ((s.demote c).procs q).status = .ready ∧
        (s.procs c).status = .running := fun q => by
    rw [demote_status]
    split
    · rename_i h
      obtain ⟨rfl, running⟩ := h
      refine .inr ⟨rfl, fun linked => ?_, rfl, running⟩
      rcases inv.status_of_linked linked with h | h <;> simp [h] at running
    · exact .inl rfl
  have links : (s.demote c).links = s.links := by funext q; simp [links, waitCount]
  refine ⟨fun q => ?_, fun q hq => ?_, fun r hr q hq => ?_, fun q hq => ?_, fun q hq => ?_⟩
  · refine inv.places_of (fun q => by rw [links]) (fun q => ?_) q
    rcases status q with h | ⟨rfl, -, h, h'⟩
    · simp [h]
    · simp [h, h']
  · simp only [demote_forkqueue, demote_readyqueue] at hq
    rcases status q with h | ⟨rfl, free, -, -⟩
    · rw [h]; exact inv.ready q hq
    · exact absurd (by rcases hq with h | h <;> simp [Linked, h]) free
  · simp only [demote_nrResources, demote_resources] at hr hq
    rcases status q with h | ⟨rfl, free, -, -⟩
    · rw [h]; exact inv.waiting r hr q hq
    · exact absurd (.inr (.inr ⟨r, hr, hq⟩)) free
  · simpa using inv.young q (by simpa [linked_iff_links, links] using hq)
  · rcases status q with h | ⟨-, -, h, -⟩
    · simpa [h] using inv.slot q hq
    · simpa [h] using (inv.slot q hq).2

/-- `prev->status = PROCESS_EXIT` for a process linked nowhere: it leaves the slots. -/
theorem exit (inv : Placed n s S) (free : ¬ s.Linked c) :
    Placed n (s.setStatus c .exit) (S.erase c) := by
  have unlinked : s.links c = 0 := by simpa [linked_iff_links] using free
  have once := inv.count_le c
  have status : ∀ q, q ≠ c → ((s.setStatus c .exit).procs q).status = (s.procs q).status :=
    fun q hq => by simp [setStatus, hq]
  have ne : ∀ q, s.Linked q → q ≠ c := fun q h e => free (e ▸ h)
  refine ⟨fun q => ?_, fun q hq => ?_, fun r hr q hq => ?_, fun q hq => ?_, fun q hq => ?_⟩
  · by_cases hq : q = c
    · subst hq
      rw [links_setStatus, List.count_erase_self, unlinked]
      simp [setStatus]
      omega
    · rw [links_setStatus, status q hq, List.count_erase_of_ne hq]
      exact inv.places q
  · simp only [setStatus, setProc_forkqueue, setProc_readyqueue] at hq
    rw [status q (ne q (by rcases hq with h | h <;> simp [Linked, h]))]
    exact inv.ready q hq
  · rw [status q (ne q (.inr (.inr ⟨r, hr, hq⟩)))]
    exact inv.waiting r hr q hq
  · simpa [setStatus, update_proj] using inv.young q hq
  · have hq' : q ≠ c := fun e => by
      subst e; have := List.count_pos_iff.2 hq; rw [List.count_erase_self] at this; omega
    rw [status q hq']
    simpa [setStatus, update_proj] using inv.slot q ((List.mem_erase_of_ne hq').1 hq)

/-- The retirement of `prev` keeps the invariant, for a `prev` in the slots only while it
is younger than its lifespan. -/
theorem retire (inv : Placed n s S) (h : ProcessorScheduler.retire s c = .ok s₂)
    (stay : c ∈ S → (s.procs c).age ≠ (s.procs c).lifespan) : Placed n s₂ S := by
  rcases retire_cases h with ⟨rfl, -⟩ | ⟨rfl, done, free, -⟩
  · exact inv.demote
  · have out : c ∉ S := fun mem => stay mem done
    simpa [List.erase_of_not_mem out] using inv.demote.exit (c := c) (by simpa using free)

/-- The retirement of a `prev` in the slots that has lived its lifespan decommissions it. -/
theorem retire_exit (inv : Placed n s (c :: S)) (h : ProcessorScheduler.retire s c = .ok s₂)
    (done : (s.procs c).age = (s.procs c).lifespan) : Placed n s₂ S := by
  rcases retire_cases h with ⟨-, stays⟩ | ⟨rfl, -, free, -⟩
  · exact absurd done stays
  · simpa using inv.demote.exit (c := c) (by simpa using free)

/-- Round-Robin links a runnable `current` back at the tail of the ready queue while it is
still `running`; the retirement of `prev` that follows demotes it to `ready`. -/
theorem retire_linkedTail {u : Sys} {l : List Nat} (inv : Placed n { u with readyqueue := l } (c :: S))
    (ready : u.readyqueue = l ++ [c]) (young : (u.procs c).age < (u.procs c).lifespan)
    (h : ProcessorScheduler.retire u c = .ok s₂) : Placed n s₂ S := by
  rcases retire_cases h with ⟨rfl, -⟩ | ⟨-, done, -⟩
  swap; · exact absurd done young.ne
  have free := inv.not_linked (List.mem_cons_self c S)
  have alive := inv.places c
  have slot := inv.slot c (List.mem_cons_self c S)
  have once := inv.count_le c
  simp only [List.count_cons_self] at alive once
  have cexit : (u.procs c).status ≠ .exit := fun h => by
    simp only [h, ne_eq, not_true_eq_false, and_false, if_false] at alive; omega
  have status : ∀ q, ((u.demote c).procs q).status = if q = c then .ready else (u.procs q).status := by
    intro q
    rw [demote_status]
    by_cases hq : q = c
    · subst hq
      cases hs : (u.procs q).status
      · simp [hs]
      · simp [hs]
      · exact absurd hs slot.1
      · exact absurd hs cexit
    · simp [hq]
  have links : ∀ q, (u.demote c).links q = ({ u with readyqueue := l } : Sys).links q +
      if c = q then 1 else 0 := fun q => by
    simp only [links, waitCount, demote_forkqueue, demote_readyqueue, demote_resources,
      demote_nrResources, ready, List.count_append, List.count_singleton, beq_iff_eq]
    split <;> omega
  have ne : ∀ q, ({ u with readyqueue := l } : Sys).Linked q → q ≠ c := fun q h e => free (e ▸ h)
  refine ⟨inv.places_of (fun q => by rw [links, List.count_cons]; simp only [beq_iff_eq]; omega)
    (fun q => by rw [status]; split; exacts [by subst_vars; simpa using cexit, Iff.rfl]),
    fun q hq => ?_, fun r hr q hq => ?_,
    fun q hq => ?_, fun q hq => ?_⟩
  · rw [status]
    split
    · rfl
    · rename_i hq'
      simp only [demote_forkqueue, demote_readyqueue, ready, List.mem_append,
        List.mem_singleton, hq', or_false] at hq
      exact inv.ready q hq
  · have hq' := ne q (.inr (.inr ⟨r, by simpa using hr, by simpa using hq⟩))
    rw [status, if_neg hq']
    exact inv.waiting r (by simpa using hr) q (by simpa using hq)
  · simp only [demote_age, demote_lifespan]
    by_cases hq' : q = c
    · exact hq' ▸ young
    · refine inv.young q ?_
      rw [linked_iff_links] at hq ⊢
      have := links q
      simp only [show c ≠ q from Ne.symm hq', if_false] at this
      omega
  · have hq' : q ≠ c := fun e => by subst e; have := List.count_pos_iff.2 hq; omega
    rw [status, if_neg hq', demote_age, demote_lifespan]
    exact inv.slot q (List.mem_cons_of_mem c hq)

/-- `list_move_tail(&p->list, &readyqueue); p->status = PROCESS_READY` for a member of the
fork queue, which is `ready` already. -/
theorem forkProcess (inv : Placed n s S) (mem : p ∈ s.forkqueue) : Placed n (s.forkProcess p) S := by
  have status : ∀ q, ((s.forkProcess p).procs q).status = (s.procs q).status := fun q => by
    by_cases hq : q = p
    · subst hq; simp [Sys.forkProcess, setStatus, inv.ready q (.inl mem)]
    · simp [Sys.forkProcess, setStatus, hq]
  refine inv.of_frame (funext fun q => ?_) (fun q hq => ?_) rfl (fun _ => rfl)
    fun q => ⟨status q, by simp [Sys.forkProcess, setStatus, update_proj]⟩
  · have := List.count_pos_iff.2 mem
    simp only [links, waitCount, Sys.forkProcess, setStatus, setProc_forkqueue, setProc_readyqueue,
      setProc_resources, setProc_nrResources, List.count_erase, List.count_append,
      List.count_singleton, beq_iff_eq]
    split
    · subst_vars; omega
    · omega
  · simp only [Sys.forkProcess, setStatus, setProc_forkqueue, setProc_readyqueue, List.mem_append,
      List.mem_singleton] at hq
    rcases hq with hq | hq | rfl
    · exact .inl (List.mem_of_mem_erase hq)
    · exact .inr hq
    · exact .inl mem

/-- A new status for a process in the slots, neither `wait` nor `exit`. -/
theorem setStatus_slot (inv : Placed n s S) (mem : c ∈ S) {st : Status} (wait : st ≠ .wait)
    (exit : st ≠ .exit) : Placed n (s.setStatus c st) S := by
  have free := inv.not_linked mem
  have alive : (s.procs c).status ≠ .exit := fun h => by
    have h₁ := inv.places c; have h₂ := List.count_pos_iff.2 mem
    rw [h] at h₁; simp at h₁; omega
  have status : ∀ q, q ≠ c → ((s.setStatus c st).procs q).status = (s.procs q).status :=
    fun q hq => by simp [setStatus, hq]
  have ne : ∀ q, s.Linked q → q ≠ c := fun q h e => free (e ▸ h)
  refine ⟨inv.places_of (fun _ => rfl) fun q => ?_, fun q hq => ?_, fun r hr q hq => ?_,
    fun q hq => ?_, fun q hq => ?_⟩
  · by_cases hq : q = c
    · subst hq; simp [setStatus, exit, alive]
    · rw [status q hq]
  · simp only [setStatus, setProc_forkqueue, setProc_readyqueue] at hq
    rw [status q (ne q (by rcases hq with h | h <;> simp [Linked, h]))]
    exact inv.ready q hq
  · rw [status q (ne q (.inr (.inr ⟨r, hr, hq⟩)))]
    exact inv.waiting r hr q hq
  · simpa [setStatus, update_proj] using inv.young q hq
  · by_cases hq' : q = c
    · subst hq'; simpa [setStatus, wait] using (inv.slot q hq).2
    · rw [status q hq']; simpa [setStatus, update_proj] using inv.slot q hq

/-- `current->age++` for the process in the slot, younger than its lifespan. -/
theorem incAge (inv : Placed n s [c]) (young : (s.procs c).age < (s.procs c).lifespan) :
    Placed n (s.incAge c) [c] := by
  have free := inv.not_linked (List.mem_singleton_self c)
  refine ⟨inv.places_of (fun _ => rfl) fun q => by simp [Sys.incAge, update_proj], fun q hq => ?_,
    fun r hr q hq => ?_, fun q hq => ?_, fun q hq => ?_⟩
  · simpa [Sys.incAge, update_proj] using inv.ready q hq
  · simpa [Sys.incAge, update_proj] using inv.waiting r hr q hq
  · have hq' : q ≠ c := fun e => free (e ▸ hq)
    simpa [Sys.incAge, hq'] using inv.young q hq
  · obtain rfl := List.mem_singleton.1 hq
    have := inv.slot q hq
    simp only [Sys.incAge, setProc_procs, Function.update_same]
    exact ⟨this.1, by omega⟩

/-- `current->status = PROCESS_WAIT; list_add_tail(&current->list, &r->waitqueue)` for the
process in the slot: it leaves the slot for `r`'s wait queue. -/
theorem block {r : Nat} (inv : Placed n s [c]) (hr : r < s.nrResources)
    (young : (s.procs c).age < (s.procs c).lifespan) :
    Placed n ((s.setStatus c .wait).setResource r fun x => { x with waitqueue := x.waitqueue ++ [c] })
      [] := by
  have free := inv.not_linked (List.mem_singleton_self c)
  have alive : (s.procs c).status ≠ .exit := fun h => by
    have := inv.places c; simp [h] at this
  have status : ∀ q, q ≠ c → ((s.setStatus c .wait).procs q).status = (s.procs q).status :=
    fun q hq => by simp [setStatus, hq]
  have ne : ∀ q, s.Linked q → q ≠ c := fun q h e => free (e ▸ h)
  have links : ∀ q, ((s.setStatus c .wait).setResource r
      fun x => { x with waitqueue := x.waitqueue ++ [c] }).links q = s.links q + if c = q then 1 else 0 := by
    intro q
    have := waitCount_setResource (s := s.setStatus c .wait) hr
      (fun x => { x with waitqueue := x.waitqueue ++ [c] }) q
    simp only [List.count_append, List.count_singleton, beq_iff_eq, waitCount_setStatus,
      setStatus_resources] at this
    simp only [Sys.links, setResource_forkqueue, setResource_readyqueue, setStatus_forkqueue,
      setStatus_readyqueue]
    split at this <;> split <;> omega
  refine ⟨inv.places_of (fun q => ?_) (fun q => ?_), fun q hq => ?_, fun r' hr' q hq => ?_,
    fun q hq => ?_, fun q hq => ?_⟩
  · simp only [links q, List.count_singleton, List.count_nil, beq_iff_eq, add_zero]
  · by_cases hq : q = c
    · subst hq; simp [setStatus, alive]
    · simp only [setResource_procs]; rw [status q hq]
  · simp only [setResource_forkqueue, setResource_readyqueue, setResource_procs,
      setStatus_forkqueue, setStatus_readyqueue] at hq ⊢
    rw [status q (ne q (by rcases hq with h | h <;> simp [Linked, h]))]
    exact inv.ready q hq
  · simp only [setResource_nrResources, setResource_resources, setResource_procs] at hr' hq ⊢
    by_cases hq' : q = c
    · subst hq'; simp [setStatus]
    · rw [status q hq']
      refine inv.waiting r' (by simpa [setStatus] using hr') q ?_
      by_cases e : r' = r
      · subst e; simpa [setStatus, hq'] using hq
      · simpa [setStatus, e] using hq
  · simp only [setResource_procs]
    by_cases hq' : q = c
    · subst hq'; simpa [setStatus] using young
    · have := links q
      rw [if_neg (Ne.symm hq')] at this
      have linked : s.Linked q := by rw [linked_iff_links] at hq ⊢; omega
      simpa [setStatus, hq'] using inv.young q linked
  · simp at hq

/-- `fcfs_release` wakes the head waiter of `r`: it moves from the wait queue to the tail of
the ready queue and becomes `ready`. -/
theorem wake {r w : Nat} {rest : List Nat} (inv : Placed n s S) (hr : r < s.nrResources)
    (head : (s.resources r).waitqueue = w :: rest)
    (fresh : ¬ ((s.unlinkWait r w).setStatus w .ready).Linked w) :
    Placed n { (s.unlinkWait r w).setStatus w .ready with
      readyqueue := ((s.unlinkWait r w).setStatus w .ready).readyqueue ++ [w] } S := by
  have waiter : s.Linked w := .inr (.inr ⟨r, hr, by simp [head]⟩)
  have waiting := inv.waiting r hr w (by simp [head])
  have status : ∀ q, q ≠ w → (((s.unlinkWait r w).setStatus w .ready).procs q).status =
      (s.procs q).status := fun q hq => by simp [setStatus, unlinkWait, hq]
  have links : ∀ q, ({ (s.unlinkWait r w).setStatus w .ready with
      readyqueue := ((s.unlinkWait r w).setStatus w .ready).readyqueue ++ [w] } : Sys).links q =
      s.links q := fun q => by
    have := waitCount_setResource hr (fun x => { x with waitqueue := x.waitqueue.erase w }) q
    simp only [head, List.erase_cons_head, List.count_cons, beq_iff_eq, waitCount,
      setResource_nrResources, setResource_resources] at this
    simp only [Sys.links, waitCount, setStatus_forkqueue, setStatus_readyqueue,
      setStatus_resources, setStatus_nrResources, List.count_append, List.count_singleton,
      beq_iff_eq, unlinkWait, setResource_forkqueue, setResource_readyqueue,
      setResource_nrResources, setResource_resources, head, List.erase_cons_head]
    split at this <;> split <;> omega
  have ne : ∀ q, q ∈ S → q ≠ w := fun q hq e => inv.not_linked hq (e ▸ waiter)
  refine ⟨inv.places_of (fun q => by rw [links]) (fun q => ?_), fun q hq => ?_,
    fun r' hr' q hq => ?_, fun q hq => ?_, fun q hq => ?_⟩
  · by_cases hq : q = w
    · subst hq; simp [setStatus, waiting]
    · rw [status q hq]
  · by_cases hq' : q = w
    · subst hq'; simp [setStatus]
    · rw [status q hq']
      simp only [setStatus_forkqueue, setStatus_readyqueue, List.mem_append, List.mem_singleton,
        hq', or_false] at hq
      exact inv.ready q hq
  · have hq' : q ≠ w := by
      rintro rfl
      exact fresh (.inr (.inr ⟨r', by simpa using hr', by simpa using hq⟩))
    rw [status q hq']
    refine inv.waiting r' (by simpa [unlinkWait] using hr') q ?_
    by_cases e : r' = r
    · subst e; simpa [unlinkWait, setStatus] using List.mem_of_mem_erase (by simpa [unlinkWait, setStatus] using hq)
    · simpa [unlinkWait, setStatus, e] using hq
  · have linked : s.Linked q := by
      rw [linked_iff_links] at hq ⊢; rwa [links] at hq
    simpa [setStatus, unlinkWait, update_proj] using inv.young q linked
  · rw [status q (ne q hq)]
    simpa [setStatus, unlinkWait, update_proj] using inv.slot q hq

/-- The fork loop over members of the fork queue, each once. -/
theorem forkLoop : ∀ (l : List Nat) {s : Sys}, Placed n s S → l.Nodup → (∀ p ∈ l, p ∈ s.forkqueue) →
    Placed n (ProcessorScheduler.forkLoop l s) S
  | [], _, inv, _, _ => inv
  | p :: ps, s, inv, nodup, sub => by
    obtain ⟨out, nodup⟩ := List.nodup_cons.1 nodup
    unfold ProcessorScheduler.forkLoop forkStep
    split
    · refine forkLoop ps (inv.forkProcess (sub p (.head _))) nodup fun q hq => ?_
      simp only [Sys.forkProcess, setStatus_forkqueue]
      exact (List.mem_erase_of_ne (show q ≠ p from fun e => out (e ▸ hq))).2 (sub q (.tail _ hq))
    · exact forkLoop ps inv nodup fun q hq => sub q (.tail _ hq)

end Placed

end ProcessorScheduler
