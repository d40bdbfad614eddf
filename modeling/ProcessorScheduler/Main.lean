import ProcessorScheduler.Termination
import ProcessorScheduler.Script

/-!
# `main`

`main` takes the options `getopt` returns, in order, and picks the scheduler; it loads the
script named by the first argument after them and runs the simulation loop. Three options
of the usage text, `-a`, `-i` and `-c`, have their assignment commented out and leave the
scheduler as it was (`chooseOption`). When the scheduler it picks is FIFO, SJF, SRTF or
Round-Robin, every run on a script the loader accepts leaves the loop, or stops on a fault,
within a number of rounds computed from the script (`main_ends`).

`quiet` only silences output, and `fifo_initialize` returns `0` while the other schedulers
have no `initialize`; neither changes what is simulated.
-/

namespace ProcessorScheduler

/-- The `switch (opt)` of `main` on one option `getopt` returns: the scheduler after it, or
`none` for `__print_usage` and `EXIT_FAILURE`. -/
def chooseOption (sched : Policy) : Char → Option Policy
  | 'q' => some sched
  | 'f' => some .fifo
  | 's' => some .sjf
  | 'S' => some .srtf
  | 'r' => some .rr
  | 'p' => some .prio
  | 'a' => some sched
  | 'i' => some sched
  | 'c' => some sched
  | _ => none

/-- The option loop of `main`, from `static struct scheduler *sched = &fifo_scheduler`. -/
def chooseScheduler (opts : List Char) : Option Policy :=
  opts.foldlM chooseOption .fifo

/-- How `main` ends, with the simulation loop run for `fuel` rounds at most. -/
inductive Exit
  /-- `__print_usage` and `EXIT_FAILURE`: an unknown option, `-h`, or no script file -/
  | usage
  /-- `__load_script` stopped before the end of the file -/
  | badScript (e : LoadError)
  /-- the simulation stopped on a fault -/
  | fault (f : Fault)
  /-- the loop was left, and `main` returns `EXIT_SUCCESS` -/
  | finished (s : Sys)
  /-- the loop is still going after `fuel` rounds -/
  | running (s : Sys)

/-- `main` with the options `getopt` returns and the text of the script file, when there is
one after the options. -/
def main (maxPrio : Int) (nr : Nat) (opts : List Char) (file : Option (List Char)) (fuel : Nat) :
    Exit :=
  match chooseScheduler opts, file with
  | none, _ => .usage
  | _, none => .usage
  | some pol, some text =>
    match loadScript text with
    | .error e => .badScript e
    | .ok script =>
      match run (pol.scheduler maxPrio) fuel (load nr script) with
      | .error f => .fault f
      | .ok (.halt s) => .finished s
      | .ok (.next s) => .running s

/-- Under FIFO, SJF, SRTF or Round-Robin, `main` on a script the loader accepts leaves the
loop, or stops on a fault, within `roundBound script + 1` rounds. -/
theorem main_ends (maxPrio : Int) (nr : Nat) {opts : List Char} {pol : Policy}
    (chosen : chooseScheduler opts = some pol) (fcfs : pol ∈ [Policy.fifo, .sjf, .srtf, .rr])
    {text : List Char} {script : List Descriptor} (loaded : loadScript text = .ok script)
    {fuel : Nat} (enough : roundBound script < fuel) :
    (∃ s, main maxPrio nr opts (some text) fuel = .finished s) ∨
      ∃ f, main maxPrio nr opts (some text) fuel = .fault f := by
  have laws := fcfs_laws maxPrio fcfs
  rcases run_ends laws.1 (Policy.lawful maxPrio pol) laws.2.1 (Policy.keepsForks maxPrio pol)
    laws.2.2 (bounded_load : (load nr script).Bounded _) (lt_of_le_of_lt rank_load_le enough) with
    ⟨s, ran⟩ | ⟨f, ran⟩
  · exact .inl ⟨s, by simp only [main, chosen, loaded, ran]⟩
  · exact .inr ⟨f, by simp only [main, chosen, loaded, ran]⟩

/-- `-r` on a script of two processes that share resource 0: twenty rounds are enough. -/
theorem rr_script_ends :
    loadScript ("process 0\nlifespan 2\nacquire 0 0 2\nend\n" ++
          "process 1\nlifespan 2\nacquire 0 0 1\nend\n").toList =
        .ok [⟨0, 2, 0, 0, [⟨0, 0, 2⟩]⟩, ⟨1, 2, 0, 0, [⟨0, 0, 1⟩]⟩] ∧
      ((∃ s, main 0 1 ['r'] (some ("process 0\nlifespan 2\nacquire 0 0 2\nend\n" ++
          "process 1\nlifespan 2\nacquire 0 0 1\nend\n").toList) 20 =
          .finished s) ∨
        ∃ f, main 0 1 ['r'] (some ("process 0\nlifespan 2\nacquire 0 0 2\nend\n" ++
          "process 1\nlifespan 2\nacquire 0 0 1\nend\n").toList) 20 =
          .fault f) :=
  have loaded : loadScript ("process 0\nlifespan 2\nacquire 0 0 2\nend\n" ++
          "process 1\nlifespan 2\nacquire 0 0 1\nend\n").toList =
      .ok [⟨0, 2, 0, 0, [⟨0, 0, 2⟩]⟩, ⟨1, 2, 0, 0, [⟨0, 0, 1⟩]⟩] := rfl
  ⟨loaded, main_ends 0 1 (rfl : chooseScheduler ['r'] = some .rr) (by decide) loaded (by decide)⟩

end ProcessorScheduler
