import ProcessorScheduler.Basic
import ProcessorScheduler.Protocol
import ProcessorScheduler.Policy
import ProcessorScheduler.Engine
import ProcessorScheduler.Ledger
import ProcessorScheduler.Contract
import ProcessorScheduler.Round
import ProcessorScheduler.Ownership
import ProcessorScheduler.Countdown
import ProcessorScheduler.Priority
import ProcessorScheduler.Lifespan
import ProcessorScheduler.Placed
import ProcessorScheduler.Lists
import ProcessorScheduler.Wakeup
import ProcessorScheduler.RoundRobin
import ProcessorScheduler.Fork
import ProcessorScheduler.Fifo
import ProcessorScheduler.Selection
import ProcessorScheduler.PriorityPick
import ProcessorScheduler.Command
import ProcessorScheduler.Termination
import ProcessorScheduler.Script
import ProcessorScheduler.Main
import ProcessorScheduler.Halt
import ProcessorScheduler.PriorityLoop
import ProcessorScheduler.Safety
import ProcessorScheduler.Deadlock
