import Jokerix.Sched.Processor

/-!
# Standard input, system calls and the runs of the system

`popChar` and `pushChar` of `kernel/stdin.c` over the condition variable of `kernel/condition.c`,
the system calls of `kernel/syscall.c`, and the events that drive the kernel. Every event runs
with interrupts off from the point where it is taken to the return to user mode or to `idleMain`.
-/

namespace Jokerix

def waitCondition (k : Kernel) : Except Halt Kernel :=
  match pushBack k.heap k.waitQueue k.current.tid with
  | .error e => .error e
  | .ok (heap, waitQueue) => yieldCPU { k with heap, waitQueue } .popChar

def notifyCondition (k : Kernel) : Except Halt Kernel :=
  if isEmpty k.waitQueue = false then
    let (tid, heap, waitQueue) := popFront k.heap k.waitQueue
    wakeupCPU { k with heap, waitQueue } tid
  else .ok k

def pushChar (k : Kernel) (ch : UInt8) : Except Halt Kernel :=
  match pushBack k.heap k.buf ch.toNat with
  | .error e => .error e
  | .ok (heap, buf) => notifyCondition ({ k with heap, buf }.record (.charPushed ch))

/-- One turn of the loop of `popChar`; a thread that waits enters the next turn when it is
dispatched again. -/
def popChar (k : Kernel) : Except Halt Kernel :=
  if isEmpty k.buf = false then
    let (ret, heap, buf) := popFront k.heap k.buf
    .ok ({ k with heap, buf }.record (.charPopped (UInt8.ofNat ret)))
  else waitCondition k

/-- `external` on what `consoleGetchar` returned, `none` for `-1`. -/
def external (k : Kernel) (ret : Option UInt8) : Except Halt Kernel :=
  match ret with
  | none => .ok k
  | some ch =>
    -- a carriage return is read as a newline
    if ch = 13 then pushChar k 10 else pushChar k ch

def sysExec (k : Kernel) (res : Option Program) : Except Halt Kernel :=
  match executeCPU k res k.current.tid with
  | .error e => .error e
  | .ok (true, k') => yieldCPU k' (.sysExec k.nextUid)
  | .ok (false, k') => .ok k'

/-- The system calls, with what the file system found for `sys_exec`. -/
inductive Syscall where
  | write
  | exit
  | read (base : ℕ)
  | exec (res : Option Program)

/-- What the system calls do to the state of the scheduler. The character that `popChar` returns is
stored at `base`; where that is, and what else is stored, is not part of this state. -/
def syscall (k : Kernel) : Syscall → Except Halt Kernel
  | .write => .ok k
  | .exit => exitFromCPU k
  | .read _ => popChar k
  | .exec res => sysExec k res

/-- The first half of the body of `idleMain`, and the dispatched thread up to user mode or its next
sleep. -/
def dispatch (k : Kernel) : Except Halt Kernel :=
  match acquireFromPool k with
  | (none, k) => .ok k
  | (some rt, k) =>
    let k := { k with current := rt, occupied := true }.record (.dispatched rt.thread.uid)
    match rt.thread.context with
    | .popChar => popChar k
    | _ => .ok k

/-- What can happen: a turn of `idleMain`, a timer tick, a keyboard interrupt, a system call of the
running thread. -/
inductive Event where
  | dispatch
  | tick
  | keyboard (ret : Option UInt8)
  | syscall (call : Syscall)

/-- One event. `idleMain` runs only while no thread does, and system calls come only from a running
thread; an event that cannot happen changes nothing. -/
def step (k : Kernel) : Event → Except Halt Kernel
  | .dispatch => if k.occupied then .ok k else dispatch k
  | .tick => tickCPU k
  | .keyboard ret => external k ret
  | .syscall call => if k.occupied then syscall k call else .ok k

/-- A sequence of events. -/
def run (k : Kernel) : List Event → Except Halt Kernel
  | [] => .ok k
  | e :: es =>
    match step k e with
    | .error e => .error e
    | .ok k => run k es

end Jokerix
