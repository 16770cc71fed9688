import Jokerix.Exec.Cycles
import Jokerix.Exec.Memory
import Jokerix.World.Frame

/-!
# The whole system

The kernel with the files, the frames and the address spaces of its threads, driven by everything
that can happen: turns of `idleMain`, timer ticks, keys, the stores of the program that runs and its
system calls with the arguments that it passes. A trap stores below the `sp` of the program that it
interrupts, and a thread that is dispatched goes on where it was.
-/

namespace Jokerix

open Exec

/-- A byte stored at a virtual address for a thread. -/
structure Store where
  uid : ℕ
  va : ℕ
  byte : UInt8

/-- The system with what the contexts of its threads lead to, by the number of the thread: the root
table in `satp`, and the argument `base` of a `sysRead` that waits. The stores are recorded for
stating what they may do; no function reads them. -/
structure World where
  system : System
  root : ℕ → ℕ
  base : ℕ → ℕ
  stores : List Store

namespace World

def kernel (w : World) : Kernel := w.system.kernel

def mem (w : World) : Bytes.Memory := w.system.mem

/-- The number of the thread that runs. -/
def uid (w : World) : ℕ := w.kernel.current.thread.uid

def setKernel (w : World) (k : Kernel) : World := { w with system := { w.system with kernel := k } }

/-- A store for the thread that runs, in its address space. -/
def store (place : ℕ → Paged.Translation) (w : World) (va : ℕ) (b : UInt8) : Except Halt World :=
  match place (w.root w.uid) w.mem va with
  | none => .error .fault
  | some p => .ok { w.setKernel (w.kernel.setMem (Function.update w.mem p b)) with
      stores := w.stores ++ [⟨w.uid, va, b⟩] }

/-- Stores of the kernel for this thread, in this order. -/
def storeAll (w : World) : List (ℕ × UInt8) → Except Halt World
  | [] => .ok w
  | (va, b) :: bytes => do (← w.store writePlace va b).storeAll bytes

/-- The character goes where the program says, in a store of the kernel. A thread that waits makes
the store when it is dispatched again. -/
def sysRead (w : World) (base : ℕ) : Except Halt World := do
  let k ← popChar w.kernel
  if isEmpty w.kernel.buf = false then
    (w.setKernel k).store writePlace base (UInt8.ofNat (popFront w.kernel.heap w.kernel.buf).1)
  else .ok { w.setKernel k with base := Function.update w.base w.uid base }

/-- A new thread has the root table of the context that was built for it. A null pointer
leads to the pages of the running program. -/
def sysExec (L : Layout) (e : Surroundings) (w : World) (path : List UInt8) :
    Except Halt World := do
  let program := fun va => (readPlace (w.root w.uid) w.mem va).map w.mem
  let system ← Exec.sysExec L { e with program } w.system path
  match allocTid w.kernel.threads with
  | none => .ok { w with system }
  | some tid =>
    if system.kernel.nextUid = w.kernel.nextUid then .ok { w with system }
    else .ok { w with
      system
      root := Function.update w.root w.kernel.nextUid (rootOf system.mem (system.contextAddr tid)) }

/-- What a trap stores below the `sp` of the program that it interrupts. -/
structure Trap where
  sp : ℕ
  /-- The words of the `InterruptContext`: the registers, `sstatus` and `sepc`. -/
  word : ℕ → ℕ
  /-- What the functions of the handler store below it. -/
  frames : List (ℕ × UInt8)

namespace Trap

/-- The address of a byte of the `InterruptContext`. -/
def addr (trap : Trap) (n : ℕ) : ℕ := trap.sp + (2 ^ 64 - 34 * 8) + n

/-- The `InterruptContext`. The word of `x0` is not stored. -/
def context (trap : Trap) : List (ℕ × UInt8) :=
  (List.range' 8 (33 * 8)).map fun n =>
    (trap.addr n, UInt8.ofNat (trap.word (n / 8) / 256 ^ (n % 8)))

def stores (trap : Trap) : List (ℕ × UInt8) := trap.context ++ trap.frames

/-- The byte is one that the handler goes on with: of the saved `sstatus` or of its frames. -/
def Uses (trap : Trap) (va : ℕ) : Prop :=
  (∃ j < 8, va % 2 ^ 64 = trap.addr (32 * 8 + j) % 2 ^ 64) ∨
    ∃ s ∈ trap.frames, va % 2 ^ 64 = s.1 % 2 ^ 64

end Trap

/-- The thread goes on in its handler, which stores its frames. Those that it stores before the
character of `sysRead` come behind it here; `Behaves` keeps the two apart. -/
def dispatch (w : World) (frames : List (ℕ × UInt8)) : Except Halt World :=
  match acquireFromPool w.kernel with
  | (none, k) => .ok (w.setKernel k)
  | (some rt, k) =>
    let k := { k with current := rt, occupied := true }.record (.dispatched rt.thread.uid)
    match rt.thread.context with
    | .popChar => do (← (w.setKernel k).sysRead (w.base rt.thread.uid)).storeAll frames
    | _ => (w.setKernel k).storeAll frames

/-- What can happen. The path of `sys_exec` is given by its bytes. A store is one of the program, or
of a handler that is about to return to it. -/
inductive Event where
  | dispatch (frames : List (ℕ × UInt8))
  | tick (trap : Trap)
  | keyboard (ret : Option UInt8) (trap : Trap)
  | store (va : ℕ) (b : UInt8)
  | write (trap : Trap)
  | exit (trap : Trap)
  | read (base : ℕ) (trap : Trap)
  | exec (e : Surroundings) (path : List UInt8) (trap : Trap)

/-- What is stored before the event is handled. -/
def Event.saved : Event → List (ℕ × UInt8)
  | .dispatch _ | .store _ _ => []
  | .tick trap | .keyboard _ trap | .write trap | .exit trap | .read _ trap | .exec _ _ trap =>
    trap.stores

/-- A trap stores for the thread that it interrupts. One that interrupts `idleMain` stores on the
stack of idle, in a block of the heap that nothing else uses; this is not followed. -/
def save (w : World) (bytes : List (ℕ × UInt8)) : Except Halt World :=
  if w.kernel.occupied then w.storeAll bytes else .ok w

/-- What the event does then; one that cannot happen changes nothing. -/
def handle (L : Layout) (w : World) : Event → Except Halt World
  | .dispatch frames => if w.kernel.occupied then .ok w else w.dispatch frames
  | .tick _ => do .ok (w.setKernel (← tickCPU w.kernel))
  | .keyboard ret _ => do .ok (w.setKernel (← external w.kernel ret))
  | .store va b => if w.kernel.occupied then w.store userPlace va b else .ok w
  | .write _ => .ok w
  | .exit _ => if w.kernel.occupied then do .ok (w.setKernel (← exitFromCPU w.kernel)) else .ok w
  | .read base _ => if w.kernel.occupied then w.sysRead base else .ok w
  | .exec e path _ => if w.kernel.occupied then w.sysExec L e path else .ok w

/-- One event. -/
def step (L : Layout) (w : World) (ev : Event) : Except Halt World := do
  (← w.save ev.saved).handle L ev

/-- A sequence of events. -/
def run (L : Layout) (w : World) : List Event → Except Halt World
  | [] => .ok w
  | e :: es =>
    match w.step L e with
    | .error halt => .error halt
    | .ok w => w.run L es

/-- The program of the thread may store at all these addresses. -/
def Owns (w : World) (u : ℕ) (bytes : List (ℕ × UInt8)) : Prop :=
  ∀ s ∈ bytes, (userPlace (w.root u) w.mem s.1).isSome

/-- What a program has to keep to: there is room in its own pages for what a trap stores below its
`sp`, it reads characters into its own pages, but not over what the handler goes on with, it has no
page at zero when it executes a file, and the first thread does not exit. -/
def Behaves (w : World) (ev : Event) : Prop :=
  (w.kernel.occupied = true → w.Owns w.uid ev.saved) ∧
  match ev with
  | .dispatch frames => w.kernel.occupied = false → ∀ rt ∈ (acquireFromPool w.kernel).1,
    w.Owns rt.thread.uid frames ∧ (rt.thread.context = .popChar →
      ∀ s ∈ frames, w.base rt.thread.uid % 2 ^ 64 ≠ s.1 % 2 ^ 64)
  | .read base trap => w.kernel.occupied = true →
    (userPlace (w.root w.uid) w.mem base).isSome ∧ ¬ trap.Uses base
  | .exec _ _ _ => w.kernel.occupied = true → readPlace (w.root w.uid) w.mem 0 = none
  | .exit _ => w.kernel.occupied = true → w.uid ≠ 0
  | _ => True

/-- Every program does so in every step of the run. -/
def BehavesOn (L : Layout) (w : World) : List Event → Prop
  | [] => True
  | e :: es => w.Behaves e ∧ ∀ w', w.step L e = .ok w' → w'.BehavesOn L es

/-! ### The invariant -/

/-- The system is in order: so are the pool, the scheduler and the queues; the image of the file
system and the heap lie in the kernel, and the image is the one that was packed; every thread that
was ever created has an address space of its own, one that waits for a character has a page for it,
and stores were made for such threads only. -/
structure Sound (L : Layout) (image : Bytes.Memory) (w : World) : Prop where
  steady : ∃ ready waiters buffer, Steady (· = 0) w.kernel ready waiters buffer
  hasImage : HasImage w.system image
  imageBelow : w.system.fs.img + imageSize ≤ w.kernel.heap.region.base
  heapBelow : w.kernel.heap.region.base + kernelHeapSize ≤ L.kernelEnd
  spaces : ∃ roots, Reach L w.system.machine roots ∧ ∀ u < w.kernel.nextUid, w.root u ∈ roots
  distinct : ∀ u < w.kernel.nextUid, ∀ u' < w.kernel.nextUid, w.root u = w.root u' → u = u'
  reads : ∀ t u, t < maxThread → ReaderIn w.kernel.threads t u →
    (userPlace (w.root u) w.mem (w.base u)).isSome
  stores : ∀ s ∈ w.stores, s.uid < w.kernel.nextUid

/-- The byte that a thread finds at an address. -/
def load (w : World) (u va : ℕ) : Option UInt8 := (loadPlace (w.root u) w.mem va).map w.mem

/-- A memory after a store. -/
def put (f : ℕ → Option UInt8) (s : Store) (va : ℕ) : Option UInt8 :=
  if va % 2 ^ 64 = s.va % 2 ^ 64 then some s.byte else f va

/-- A memory after stores, in this order. -/
def putAll (f : ℕ → Option UInt8) (stores : List Store) : ℕ → Option UInt8 := stores.foldl put f

/-- What every thread finds in its memory is what it found before, with the stores made for it. -/
def Private (w w' : World) : Prop :=
  ∃ new, w'.stores = w.stores ++ new ∧ ∀ u < w.kernel.nextUid,
    w'.load u = putAll (w.load u) (new.filter (·.uid = u))

end World

end Jokerix
