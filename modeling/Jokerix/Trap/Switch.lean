import Jokerix.Exec.Execute
import Jokerix.Vm.Accesses
import Mathlib.Logic.Relation

/-!
# Saving and loading contexts

`__interrupt` and `__restore` of `kernel/interrupt.S` and `switchContext` of `kernel/switch.S` on
the registers of the hart and the memory behind its page tables, and the runs that are made of them.
The programs and the C code in between are left open, as far as they keep to what they may write.
-/

namespace Jokerix.Switch

open Exec (satpOf)

/-! ### The hart -/

/-- The registers `x1` to `x31`. -/
abbrev Regs := ℕ → BitVec 64

/-- The traps of a program that the kernel returns from. -/
inductive TrapCause where
  | timer
  | external
  | ecall
  deriving DecidableEq

/-- A trap: the registers and the program counter of the program, and the `sstatus` it finds. -/
structure Trapped where
  cause : TrapCause
  x : Regs
  pc : BitVec 64
  sstatus : BitVec 64

/-- The `InterruptContext` lies below the stack pointer in force. -/
def Trapped.frame (t : Trapped) : BitVec 64 := t.x 2 - 34 * 8

/-- A saved context: `contextAddr`, and what is known of the past. `size` is how far the saved words
and the frames of the C functions that wait above them reach. -/
structure Context where
  addr : BitVec 64
  size : ℕ
  /-- Where the byte `j` of the context was stored. -/
  places : ℕ → Option ℕ
  /-- The word that was stored for `satp`. -/
  satp : BitVec 64
  /-- The trap whose handler was left; none for a context that was built, and for idle. -/
  left : Option Trapped

/-- What the hart runs. -/
inductive Mode where
  | boot
  | idle
  /-- `__restore`, reached from a switch to a context that was built. -/
  | launch (tid : ℕ)
  | user (tid : ℕ)
  /-- `handleInterrupt` for a trap of the thread. -/
  | handler (tid : ℕ) (t : Trapped)

structure Cpu where
  m : Machine
  /-- The roots of the address spaces so far. -/
  roots : List ℕ
  x : Regs
  pc : BitVec 64
  sstatus : BitVec 64
  satp : BitVec 64
  mode : Mode
  /-- `CPU.idle`. -/
  idle : Context
  /-- The contexts of the threads that do not run. -/
  threads : ℕ → Option Context

/-! ### The assembler code -/

/-- The root table in a value of `satp`. -/
def rootOf (satp : BitVec 64) : ℕ := satp.toNat % 2 ^ 44

/-- `ld`. -/
def ld (satp : BitVec 64) (mem : Bytes.Memory) (a : ℕ) : Option (BitVec 64) :=
  (Paged.loadLE (readPlace (rootOf satp)) 8 mem a).map (BitVec.ofNat 64)

/-- `sd` one after the other, each to its index from an address on. -/
def sdWords (satp : BitVec 64) (mem : Bytes.Memory) (a : ℕ) (l : List (ℕ × BitVec 64)) :
    Option Bytes.Memory :=
  Paged.storeWords (writePlace (rootOf satp)) 8 mem a (l.map fun kv => (kv.1, kv.2.toNat))

/-- `ld` one after the other: registers, each from its index from an address on. -/
def ldRegs (satp : BitVec 64) (mem : Bytes.Memory) (a : ℕ) : List (ℕ × ℕ) → Regs → Option Regs
  | [], x => some x
  | (i, k) :: l, x =>
    (ld satp mem (a + 8 * k)).bind fun v => ldRegs satp mem a l (Function.update x i v)

/-- The words that `__interrupt` saves, after it has moved the stack pointer. -/
def interruptWords (x : Regs) (sstatus sepc : BitVec 64) : List (ℕ × BitVec 64) :=
  let sp := x 2 - 34 * 8
  (1, x 1) :: (2, sp + 34 * 8) :: (List.range 29).map (fun n => (n + 3, x (n + 3))) ++
    [(32, sstatus), (33, sepc)]

/-- The registers when `handleInterrupt` is called: its arguments, the return address, and what the
code above has moved. -/
def interruptRegs (x : Regs) (frame sstatus sepc scause stval restore : BitVec 64) : Regs :=
  fun i =>
  if i = 1 then restore else if i = 2 ∨ i = 10 then frame else if i = 9 then sstatus
  else if i = 11 then scause else if i = 12 then stval else if i = 18 then sepc else x i

/-- A trap from U-mode and `__interrupt`, up to the call of `handleInterrupt`. The stack is that of
the program. -/
def Cpu.interrupt (s : Cpu) (tid : ℕ) (cause : TrapCause) (scause stval restore : BitVec 64) :
    Option Cpu :=
  let sstatus := trapSstatus .user s.sstatus
  let t : Trapped := ⟨cause, s.x, s.pc, sstatus⟩
  (sdWords s.satp s.m.mem t.frame.toNat (interruptWords s.x sstatus s.pc)).map fun mem =>
    { s with
      m := { s.m with mem }
      x := interruptRegs s.x t.frame sstatus s.pc scause stval restore
      sstatus
      mode := .handler tid t }

/-- `context->sepc += 4` of `handleSyscall`. -/
def Cpu.skipEcall (s : Cpu) (frame : BitVec 64) : Option Cpu :=
  (ld s.satp s.m.mem (frame.toNat + 8 * 33)).bind fun sepc =>
    (sdWords s.satp s.m.mem frame.toNat [(33, sepc + 4)]).map fun mem =>
      { s with m := { s.m with mem } }

/-- A trap, up to the part of its handler that depends on the cause. -/
def Cpu.trap (s : Cpu) (tid : ℕ) (cause : TrapCause) (scause stval restore : BitVec 64) :
    Option Cpu :=
  match cause with
  | .ecall =>
    (s.interrupt tid .ecall scause stval restore).bind fun s' => s'.skipEcall (s.x 2 - 34 * 8)
  | cause => s.interrupt tid cause scause stval restore

/-- The registers that `__restore` loads, in this order. -/
def restoreRegs : List (ℕ × ℕ) :=
  (1, 1) :: (List.range 29).map (fun n => (n + 3, n + 3)) ++ [(2, 2)]

/-- `__restore` and `sret`. A return to S-mode goes no further: the pages of the program are closed
to it. -/
def Cpu.restore (s : Cpu) (tid : ℕ) (sp : BitVec 64) : Option Cpu :=
  (ld s.satp s.m.mem (sp.toNat + 8 * 32)).bind fun sstatus =>
    (ld s.satp s.m.mem (sp.toNat + 8 * 33)).bind fun sepc =>
      let x := Function.update (Function.update s.x 9 sstatus) 18 sepc
      (ldRegs s.satp s.m.mem sp.toNat restoreRegs x).bind fun x =>
        if sretPriv sstatus = .user then
          some { s with x, pc := sepc, sstatus := sretSstatus sstatus, mode := .user tid }
        else none

/-- `context->x[10] = ret` of `handleSyscall`, and `__restore`. -/
def Cpu.finish (s : Cpu) (tid : ℕ) (t : Trapped) (ret : BitVec 64) : Option Cpu :=
  match t.cause with
  | .ecall =>
    (sdWords s.satp s.m.mem t.frame.toNat [(10, ret)]).bind fun mem =>
      Cpu.restore { s with m := { s.m with mem } } tid t.frame
  | _ => s.restore tid t.frame

/-- The registers `ra` and `s0` to `s11`, and their places in a context. -/
def switchRegs : List (ℕ × ℕ) :=
  [(1, 0), (8, 2), (9, 3), (18, 4), (19, 5), (20, 6), (21, 7), (22, 8), (23, 9), (24, 10), (25, 11),
    (26, 12), (27, 13)]

/-- Where `switchContext` saves. -/
def Cpu.contextAddr (s : Cpu) : BitVec 64 := s.x 2 - 8 * 14

/-- The words that `switchContext` saves. -/
def Cpu.switchWords (s : Cpu) : List (ℕ × BitVec 64) :=
  switchRegs.map (fun ik => (ik.2, s.x ik.1)) ++ [(1, s.satp)]

/-- The stores of `switchContext`. -/
def Cpu.saveContext (s : Cpu) : Option Bytes.Memory :=
  sdWords s.satp s.m.mem s.contextAddr.toNat s.switchWords

/-- The loads of `switchContext`. The word for `satp` is loaded with the `satp` of the context that
is left, the others with the one loaded. -/
def Cpu.loadContext (s : Cpu) (mem : Bytes.Memory) (target : BitVec 64) : Option Cpu :=
  (ld s.satp mem (target.toNat + 8 * 1)).bind fun satp =>
    (ldRegs satp mem target.toNat switchRegs (Function.update s.x 27 satp)).map fun x =>
      { s with
        m := { s.m with mem }
        x := Function.update x 2 (target + 8 * 14)
        pc := x 1
        satp }

/-- The context that a switch leaves behind. -/
def Cpu.leftBehind (s : Cpu) (size : ℕ) (left : Option Trapped) : Context where
  addr := s.contextAddr
  size := size
  places := fun j => writePlace (rootOf s.satp) s.m.mem (s.contextAddr.toNat + j)
  satp := s.satp
  left := left

/-! ### What the kernel keeps -/

/-- Where the image has the stack of idle, and what it keeps there and in its variables. -/
structure Image (L : Layout) where
  idleStack : ℕ
  data_le : L.dataStart ≤ idleStack
  le_end : idleStack + kernelStackSize ≤ L.kernelEnd
  vars : Set ℕ

/-- A context is saved in memory and waits. -/
def Cpu.Holds (s : Cpu) (c : Context) : Prop :=
  (c = s.idle ∧ s.mode ≠ .boot ∧ s.mode ≠ .idle) ∨ ∃ tid, s.threads tid = some c

/-- The bytes that the C code does not touch: page tables, saved contexts, and the frame of the trap
that is handled. -/
def Cpu.Guarded (s : Cpu) (p : ℕ) : Prop :=
  InTable s.m.mem s.roots p ∨ (∃ c, s.Holds c ∧ ∃ j < c.size, c.places j = some p) ∨
    ∃ tid t, s.mode = .handler tid t ∧ ∃ j, 8 ≤ j ∧ j < 34 * 8 ∧
      readPlace (rootOf s.satp) s.m.mem (t.frame.toNat + j) = some p

/-- The bytes that the course of the C code depends on: its variables, and the frames of its
functions above the frame of a trap. -/
def Cpu.Course {L : Layout} (K : Image L) (s : Cpu) (p : ℕ) : Prop :=
  p ∈ K.vars ∨ ∃ tid t, s.mode = .handler tid t ∧ ∃ a, (s.x 2).toNat ≤ a ∧ a < t.frame.toNat ∧
    readPlace (rootOf s.satp) s.m.mem a = some p

/-- Where the stack pointer is while the kernel runs. -/
def SpOk {L : Layout} (K : Image L) (sp : BitVec 64) : Mode → Prop
  | .idle => K.idleStack + 8 * 14 ≤ sp.toNat ∧ sp.toNat ≤ K.idleStack + kernelStackSize
  | .handler _ t => sp.toNat ≤ t.frame.toNat
  | _ => True

/-- The hart runs C code of the kernel. -/
def Mode.Kernel : Mode → Prop
  | .boot | .idle | .handler _ _ => True
  | _ => False

/-- Threads are created at boot and by a system call. -/
def Mode.Creates : Mode → Prop
  | .boot => True
  | .handler _ t => t.cause = .ecall
  | _ => False

/-- The thread that runs. -/
def Mode.tid : Mode → Option ℕ
  | .launch tid | .user tid | .handler tid _ => some tid
  | _ => none

/-- A stack that `newKernelStack` returns. -/
structure FreshStack {L : Layout} (K : Image L) (s : Cpu) (kstack : ℕ) : Prop where
  data_le : L.dataStart ≤ kstack
  le_end : kstack + kernelStackSize ≤ L.kernelEnd
  fresh : ∀ p, kstack ≤ p → p < kstack + kernelStackSize → ¬ s.Guarded p
  apart : kstack + kernelStackSize ≤ K.idleStack ∨ K.idleStack + kernelStackSize ≤ kstack

/-- The context that `newUserThread` builds on a kernel stack. -/
def builtContext (kstack root : ℕ) : Context :=
  let addr := kstack + kernelStackSize - sizeofThreadContext
  { addr := BitVec.ofNat 64 addr
    size := sizeofThreadContext
    places := fun j => some (addr + j)
    satp := BitVec.ofNat 64 (satpOf root)
    left := none }

/-- `newUserThread`, with its address space made and its stack allocated. -/
def Cpu.newUserThread (s : Cpu) (e : Exec.Surroundings) (m : Machine) (data root kstack tid : ℕ) :
    Cpu :=
  let ustackTop := userStackOffset + userStackSize
  let (_, mem) := Exec.newUserThreadContext e m.mem (readElfHeader m.mem data).entry ustackTop
    (kstack + kernelStackSize) (satpOf root)
  { s with
    m := { m with mem }
    roots := root :: s.roots
    threads := Function.update s.threads tid (some (builtContext kstack root)) }

/-! ### Steps -/

/-- What a step does. -/
inductive Event where
  | user
  | trap (cause : TrapCause)
  | kernel
  | read (base : BitVec 64)
  | create (tid : ℕ)
  | start
  | dispatch (tid : ℕ)
  | launch
  | out
  | exit
  | ret (value : BitVec 64)

inductive Step {L : Layout} (K : Image L) : Cpu → Event → Cpu → Prop where
  /-- A program stores in its pages and computes. -/
  | user (s : Cpu) (tid : ℕ) (mem : Bytes.Memory) (x : Regs) (pc : BitVec 64) : s.mode = .user tid →
      (∀ p, mem p ≠ s.m.mem p → ∃ a, userPlace (rootOf s.satp) s.m.mem a = some p) →
      Step K s .user { s with m := { s.m with mem }, x, pc }
  | trap (s s' : Cpu) (tid : ℕ) (cause : TrapCause) (scause stval restore : BitVec 64) :
      s.mode = .user tid → s.trap tid cause scause stval restore = some s' →
      Step K s (.trap cause) s'
  /-- C code of the kernel; in idle also the interrupts it waits for. -/
  | kernel (s : Cpu) (mem : Bytes.Memory) (x : Regs) : s.mode.Kernel →
      (∀ p, s.Guarded p → mem p = s.m.mem p) → SpOk K (x 2) s.mode →
      Step K s .kernel { s with m := { s.m with mem }, x }
  /-- `sysRead` stores a character where its caller says. -/
  | read (s : Cpu) (tid : ℕ) (t : Trapped) (base : BitVec 64) (ch : UInt8) (p : ℕ) :
      s.mode = .handler tid t → t.cause = .ecall →
      writePlace (rootOf s.satp) s.m.mem base.toNat = some p → ¬ s.Course K p →
      Step K s (.read base) { s with m := { s.m with mem := Function.update s.m.mem p ch } }
  /-- The same over bytes that the course of the kernel depends on: anything may follow. -/
  | astray (s s' : Cpu) (tid : ℕ) (t : Trapped) (base : BitVec 64) (p : ℕ) :
      s.mode = .handler tid t → t.cause = .ecall →
      writePlace (rootOf s.satp) s.m.mem base.toNat = some p → s.Course K p →
      Step K s (.read base) s'
  | create (s : Cpu) (e : Exec.Surroundings) (m : Machine) (data root kstack tid : ℕ) :
      s.mode.Creates → s.threads tid = none → s.mode.tid ≠ some tid →
      newUserThreadMapping L s.m data = .ok (root, m) → FreshStack K s kstack →
      Step K s (.create tid) (s.newUserThread e m data root kstack tid)
  /-- `runCPU`. Idle has the address space of the code that boots. -/
  | start (s : Cpu) (x : Regs) (pc : BitVec 64) : s.mode = .boot → SpOk K (x 2) .idle →
      Step K s .start { s with x, pc, mode := .idle }
  /-- `switchThread` from idle to a thread. -/
  | dispatch (s s' : Cpu) (tid : ℕ) (c : Context) (mem : Bytes.Memory) : s.mode = .idle →
      s.threads tid = some c → s.saveContext = some mem → s.loadContext mem c.addr = some s' →
      Step K s (.dispatch tid) { s' with
        idle := s.leftBehind (K.idleStack + kernelStackSize - s.contextAddr.toNat) none
        threads := Function.update s.threads tid none
        mode := match c.left with
          | none => .launch tid
          | some t => .handler tid t }
  | launch (s s' : Cpu) (tid : ℕ) : s.mode = .launch tid → s.restore tid (s.x 2) = some s' →
      Step K s .launch s'
  /-- `tickCPU` or `yieldCPU` switches to idle. -/
  | out (s s' : Cpu) (tid : ℕ) (t : Trapped) (mem : Bytes.Memory) : s.mode = .handler tid t →
      t.cause ≠ .external → s.saveContext = some mem → s.loadContext mem s.idle.addr = some s' →
      Step K s .out { s' with
        threads := Function.update s.threads tid
          (some (s.leftBehind (t.x 2 - s.contextAddr).toNat (some t)))
        mode := .idle }
  /-- `exitFromCPU` switches to idle. -/
  | exit (s s' : Cpu) (tid : ℕ) (t : Trapped) (mem : Bytes.Memory) : s.mode = .handler tid t →
      t.cause = .ecall → s.saveContext = some mem → s.loadContext mem s.idle.addr = some s' →
      Step K s .exit { s' with mode := .idle }
  /-- The handler returns. -/
  | ret (s s' : Cpu) (tid : ℕ) (t : Trapped) (value : BitVec 64) : s.mode = .handler tid t →
      s.finish tid t value = some s' → Step K s (.ret value) s'

/-- The hart at boot, with the address space of the kernel and no thread. -/
structure Booted (L : Layout) (root : ℕ) (s : Cpu) : Prop where
  tables : ∃ m, Reach L m [] ∧ mapKernel L m = .ok (root, s.m)
  roots : s.roots = [root]
  satp : s.satp = BitVec.ofNat 64 (satpOf root)
  mode : s.mode = .boot
  threads : ∀ tid, s.threads tid = none

/-! ### What is to be shown -/

/-- The load from a context that `switchContext` makes before it writes `satp`: all its bytes are
mapped where they were stored, and it finds the word that was stored. -/
def Cpu.Reaches (s : Cpu) (mem : Bytes.Memory) (c : Context) : Prop :=
  ld s.satp mem (c.addr.toNat + 8) = some c.satp ∧ ∀ j, 8 ≤ j → j < 16 → ∃ p, c.places j = some p ∧
    readPlace (rootOf s.satp) mem (c.addr.toNat + j) = some p

/-- The registers and the program counter of a trap, but for the result of a system call, which
returns behind its `ecall`. -/
def Trapped.Same (t : Trapped) (s : Cpu) : Prop :=
  (∀ i, 1 ≤ i → i < 32 → (t.cause = .ecall → i ≠ 10) → s.x i = t.x i) ∧
    s.pc = t.pc + if t.cause = .ecall then 4 else 0

/-- What holds of a step: a switch reaches what it loads, and a return restores the registers. -/
def Resumes {L : Layout} (K : Image L) (s : Cpu) : Event → Prop
  | .dispatch tid => s.mode = .idle → ∀ c, s.threads tid = some c →
      ∀ mem, s.saveContext = some mem → s.Reaches mem c
  | .out | .exit => ∀ tid t, s.mode = .handler tid t →
      ∀ mem, s.saveContext = some mem → s.Reaches mem s.idle
  | .ret value => ∀ tid t, s.mode = .handler tid t → ∀ s', Step K s (.ret value) s' → t.Same s'
  | _ => True

/-- In every run from a state, every step has this. -/
def ContextsKept {L : Layout} (K : Image L) (s₀ : Cpu) : Prop :=
  ∀ s, Relation.ReflTransGen (fun s s' => ∃ e, Step K s e s') s₀ s → ∀ e, Resumes K s e

end Jokerix.Switch
