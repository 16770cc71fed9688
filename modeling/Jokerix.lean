import Jokerix.Lib.TreeArray
import Jokerix.Lib.Bytes
import Jokerix.Lib.Ring
import Jokerix.Lib.Monitor
import Jokerix.Heap.Safety
import Jokerix.Heap.Reserve
import Jokerix.Heap.LargestBlock
import Jokerix.Heap.BuddyRuns
import Jokerix.Console.Printf
import Jokerix.User.MallocRuns
import Jokerix.User.Rounding
import Jokerix.User.Shell
import Jokerix.Trap.InterruptsOff
import Jokerix.Memory.FrameCount
import Jokerix.Sched.Runs
import Jokerix.Sched.ReadyList
import Jokerix.Sched.ReadyFifo
import Jokerix.Sched.PoolSlots
import Jokerix.Sched.QueueRuns
import Jokerix.Sched.ExecWait
import Jokerix.Sched.StdinSafety
import Jokerix.Sched.TimeSlices
import Jokerix.Sched.Fairness
import Jokerix.Vm.ElfLoading
import Jokerix.Vm.KernelMap
import Jokerix.Vm.SegmentPages
import Jokerix.Vm.PageMapRuns
import Jokerix.Trap.Preemption
import Jokerix.Exec.FirstEntry
import Jokerix.Exec.Cycles
import Jokerix.World.Safety
import Jokerix.World.Programs
import Jokerix.World.KernelCode
import Jokerix.Fs.OneOwner
import Jokerix.Fs.Lookup
import Jokerix.Fs.ReadBack
import Jokerix.Fs.Full
