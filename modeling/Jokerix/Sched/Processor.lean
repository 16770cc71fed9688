import Jokerix.Sched.RoundRobin
import Jokerix.Sched.Queue

/-!
# Threads, the thread pool and the processor

The thread pool of `kernel/thread.c` and the scheduling loop of `kernel/processor.c`. What a
thread's `contextAddr` leads back to is given by a `Resume`; the bytes it points at, and the page
tables and the frames of a new thread, are modelled apart.
-/

namespace Jokerix

/-- Where a thread that was switched out goes on when it is dispatched. -/
inductive Resume where
  /-- It returns to user mode: it is new, or a timer tick switched it out. -/
  | user
  /-- It sleeps in `waitCondition`, called by `popChar`. -/
  | popChar
  /-- It sleeps in `sysExec`, which created the thread `child`. -/
  | sysExec (child : ℕ)
  /-- It called `exitFromCPU`, which does not expect to be resumed. -/
  | exitFromCPU
  deriving DecidableEq, Repr

structure Thread where
  context : Resume
  kstack : ℕ
  /-- The tid to wake up on exit, `-1` for none. -/
  wait : ℤ
  /-- A number of its own for every thread ever created; no function reads it. -/
  uid : ℕ

inductive Status where
  | ready
  | running
  | sleeping
  | exited
  deriving DecidableEq, Repr

structure ThreadInfo where
  status : Status
  tid : ℕ
  occupied : Bool
  thread : Thread

structure RunningThread where
  tid : ℕ
  thread : Thread

/-- What the kernel did, for stating what it may do; no function reads it. -/
inductive Action where
  /-- A thread was pushed on the ready list. -/
  | pushed (uid : ℕ)
  | dispatched (uid : ℕ)
  | exited (uid : ℕ)
  /-- The kernel stack of a thread was freed. -/
  | freed (uid : ℕ)
  | execOk (parent child : ℕ)
  | execFailed (uid : ℕ)
  | charPushed (ch : UInt8)
  | charPopped (ch : UInt8)
  deriving DecidableEq, Repr

/-- The globals of the scheduler (`CPU` with its pool, `rrScheduler`), the queues of `STDIN` and
the heap, together with the numbering of threads and the record of actions. -/
structure Kernel where
  rrScheduler : RRScheduler
  threads : ℕ → ThreadInfo
  current : RunningThread
  occupied : Bool
  buf : Queue
  waitQueue : Queue
  heap : KernelHeap
  nextUid : ℕ
  log : List Action

/-! ### The thread pool -/

def Kernel.record (k : Kernel) (a : Action) : Kernel := { k with log := k.log ++ [a] }

def Kernel.setInfo (k : Kernel) (tid : ℕ) (info : ThreadInfo) : Kernel :=
  { k with threads := Function.update k.threads tid info }

/-- `pool->scheduler.push(tid)`. -/
def Kernel.push (k : Kernel) (tid : ℕ) : Except Halt Kernel :=
  match schedulerPush k.rrScheduler tid with
  | .error e => .error e
  | .ok s => .ok ({ k with rrScheduler := s }.record (.pushed (k.threads tid).thread.uid))

def allocTid (threads : ℕ → ThreadInfo) : Option ℕ :=
  (List.range maxThread).find? fun i => !(threads i).occupied

def addToPool (k : Kernel) (thread : Thread) : Except Halt Kernel :=
  match allocTid k.threads with
  | none => .error (.panic "Alloc tid failed!\n")
  | some tid =>
    let thread := { thread with uid := k.nextUid }
    let k := k.setInfo tid { k.threads tid with status := .ready, occupied := true, thread }
    { k with nextUid := k.nextUid + 1 }.push tid

def acquireFromPool (k : Kernel) : Option RunningThread × Kernel :=
  match schedulerPop k.rrScheduler with
  | (none, s) => (none, { k with rrScheduler := s })
  | (some tid, s) =>
    let info := { k.threads tid with status := .running, tid := tid }
    (some ⟨tid, info.thread⟩, { k with rrScheduler := s }.setInfo tid info)

def retrieveToPool (k : Kernel) (rt : RunningThread) : Except Halt Kernel :=
  let info := k.threads rt.tid
  if info.occupied = false then
    .ok ({ k with heap := kfree k.heap info.thread.kstack }.record (.freed info.thread.uid))
  else
    let info := { info with thread := rt.thread }
    if info.status = .running then
      (k.setInfo rt.tid { info with status := .ready }).push rt.tid
    else .ok (k.setInfo rt.tid info)

def exitFromPool (k : Kernel) (tid : ℕ) : Kernel :=
  { k with rrScheduler := schedulerExit k.rrScheduler tid }.setInfo tid
    { k.threads tid with occupied := false }

/-! ### The processor -/

/-- `switchThread(&CPU.current.thread, &CPU.idle)` and what `idleMain` does then. -/
def switchToIdle (k : Kernel) (context : Resume) : Except Halt Kernel :=
  let current := { k.current with thread := { k.current.thread with context } }
  retrieveToPool { k with current, occupied := false } current

/-- The access to `CPU.pool.threads[tid]` is out of bounds for any other `tid`. -/
def wakeupCPU (k : Kernel) (tid : ℤ) : Except Halt Kernel :=
  if 0 ≤ tid ∧ tid < maxThread then
    let tid := tid.toNat
    (k.setInfo tid { k.threads tid with status := .ready }).push tid
  else .error .fault

def exitFromCPU (k : Kernel) : Except Halt Kernel :=
  let k := (exitFromPool k k.current.tid).record (.exited k.current.thread.uid)
  if k.current.thread.wait ≠ -1 then
    match wakeupCPU k k.current.thread.wait with
    | .error e => .error e
    | .ok k => switchToIdle k .exitFromCPU
  else switchToIdle k .exitFromCPU

def yieldCPU (k : Kernel) (context : Resume) : Except Halt Kernel :=
  if k.occupied then
    let tid := k.current.tid
    switchToIdle (k.setInfo tid { k.threads tid with status := .sleeping }) context
  else .ok k

def tickCPU (k : Kernel) : Except Halt Kernel :=
  if k.occupied then
    let (expired, s) := schedulerTick k.rrScheduler
    let k := { k with rrScheduler := s }
    if expired then switchToIdle k .user else .ok k
  else .ok k

/-- A program file: its bytes, and the context that `newUserThread` builds for it. -/
structure Program where
  file : List UInt8
  context : List UInt8
  /-- The size of a file is a `uint32`. -/
  size_lt : file.length < 2 ^ 32

def sizeofThreadContext : ℕ := 384

/-- The part of `newUserThread` that uses the kernel heap. -/
def newUserThread (h : KernelHeap) (context : List UInt8) : Except Halt (Thread × KernelHeap) :=
  match kalloc h (BitVec.ofNat 32 kernelStackSize) with
  | .error e => .error e
  | .ok (kstack, h) =>
    let contextAddr := kstack + kernelStackSize - sizeofThreadContext
    let mem := Bytes.store h.mem contextAddr (context.take sizeofThreadContext)
    -- the initialiser `{context, kstack, p}` leaves `wait` zero
    .ok ({ context := .user, kstack, wait := 0, uid := 0 }, { h with mem := mem })

/-- The loading of a program that was found, as in `executeCPU` and `initThread`: read the file
into a buffer, create the thread, free the buffer. Without a positive size the buffer is the null
pointer, through which nothing can be read. -/
def loadProgram (h : KernelHeap) (p : Program) : Except Halt (Thread × KernelHeap) :=
  if (BitVec.ofNat 32 p.file.length).toInt ≤ 0 then .error .fault
  else
    match kalloc h (BitVec.ofNat 32 p.file.length) with
    | .error e => .error e
    | .ok (buf, h) =>
      let h := { h with mem := Bytes.store h.mem buf p.file }
      match newUserThread h p.context with
      | .error e => .error e
      | .ok (t, h) => .ok (t, kfree h buf)

/-- `executeCPU` on what `lookup` found. -/
def executeCPU (k : Kernel) (res : Option Program) (hostTid : ℤ) : Except Halt (Bool × Kernel) :=
  match res with
  | none => .ok (false, k.record (.execFailed k.current.thread.uid))
  | some p =>
    match loadProgram k.heap p with
    | .error e => .error e
    | .ok (t, heap) =>
      match addToPool { k with heap } { t with wait := hostTid } with
      | .error e => .error e
      | .ok k' => .ok (true, k'.record (.execOk k.current.thread.uid k.nextUid))

/-- `initThread` up to the first thread: the scheduler and the idle thread. -/
def initCPU (k : Kernel) : Except Halt Kernel :=
  match kalloc k.heap (BitVec.ofNat 32 kernelStackSize) with
  | .error e => .error e
  | .ok (_, heap) =>
    .ok { k with rrScheduler := schedulerInit k.rrScheduler, heap, occupied := false }

/-- Load a program and add its thread to the pool. -/
def startThread (k : Kernel) (p : Program) (wait : ℤ) : Except Halt Kernel :=
  match loadProgram k.heap p with
  | .error e => .error e
  | .ok (t, heap) => addToPool { k with heap } { t with wait }

def initThread (k : Kernel) (sh : Program) : Except Halt Kernel :=
  match initCPU k with
  | .error e => .error e
  | .ok k => startThread k sh 0

end Jokerix
