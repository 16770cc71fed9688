import Jokerix.Trap.Csr
import Jokerix.Lib.Bytes
import Mathlib.Logic.Relation

/-!
# Traps and thread switches

The kernel as a step relation on one hart, as far as `sie`, `sstatus` and the privilege level are
concerned: trap entry, `__interrupt`, the handlers, the switches between threads and idle,
`__restore`, and the loop of `idleMain`. A step is a stretch of code between two accesses of these
registers. Which thread runs next and when a time slice ends are left open. The stack of a trap is
the one that the program has chosen, and so is the address at which `sysRead` stores; what they
overwrite is followed as far as the course of the kernel does not depend on it.
-/

namespace Jokerix

/-! ### States -/

/-- Where the image keeps what the course of the kernel depends on. -/
structure Image where
  /-- The variables, the heap with the kernel stacks, the page tables, and the stack of idle. -/
  vars : Set ℕ
  /-- `CPU.idle.contextAddr`. -/
  idleContextAddr : ℕ
  idle_mem : ∀ j < 8, idleContextAddr + j ∈ vars

/-- The stack of a trap, from the stack pointer in force down: the places of the bytes of the
`InterruptContext`, and of what the functions of the handler store below it. -/
structure Stack where
  frame : ℕ → ℕ
  calls : Set ℕ
  apart : ∀ j < 34 * 8, frame j ∉ calls

/-- A byte that a trap stores. The word of `x0` is left out. -/
def Stack.Stores (stk : Stack) (p : ℕ) : Prop :=
  (∃ j, 8 ≤ j ∧ j < 34 * 8 ∧ stk.frame j = p) ∨ p ∈ stk.calls

/-- What a trap was taken for; `scause`, with the number of a system call. The pointer of `sysRead`
is given by the place that it leads to. Every cause that `handleInterrupt` or `syscall` does not
know is `Code.fault`. -/
inductive Cause where
  | timer
  | external
  | breakpoint
  | sysWrite
  | sysExit
  | sysRead (place : ℕ)
  | sysExec
  deriving DecidableEq

/-- The part of an `InterruptContext` on the stack: its places and the saved `sstatus`. -/
structure Frame where
  stack : Stack
  sstatus : BitVec 64

/-- The place of a byte of the saved `sstatus`. -/
def Frame.sstatusPlace (f : Frame) (j : ℕ) : ℕ := f.stack.frame (32 * 8 + j)

/-- A byte is stored to memory: it may be one of the saved word. -/
def Frame.store (f : Frame) (p : ℕ) (ch : UInt8) : Frame :=
  match (List.range 8).find? fun j => f.sstatusPlace j = p with
  | none => f
  | some j => { f with
      sstatus := f.sstatus &&& ~~~(0xff#64 <<< (8 * j)) ||| (ch.toBitVec.setWidth 64 <<< (8 * j)) }

/-- Where a context stands in the code. The codes of a trap carry what it interrupted. -/
inductive Code where
  /-- The program of a thread. -/
  | user
  /-- `__restore`, reached from a switch to a new context with this `sstatus` word. -/
  | launch (sstatus : BitVec 64) (k : Code)
  /-- `idleMain` before its first `disable_and_store`. -/
  | idleEntry
  /-- `idleMain` from the end of a round to the next switch or `enable_and_wfi`. -/
  | idleLoop
  /-- `idleMain` between `csrsi` and the next `disable_and_store`. -/
  | idleWindow
  /-- `idleMain` from the return of `switchThread` on, with `retrieveToPool`. -/
  | idleSwitched
  /-- `__interrupt` up to the saving of `sstatus`, entered with this stack. -/
  | entry (cause : Cause) (stk : Stack) (k : Code)
  /-- `handleInterrupt`. -/
  | handler (cause : Cause) (f : Frame) (k : Code)
  /-- `tickCPU` or `yieldCPU` between `disable_and_store` and the switch to idle. -/
  | switching (flags : BitVec 64) (cause : Cause) (f : Frame) (k : Code)
  /-- The same after the switch back, before `restore_sstatus`. -/
  | switched (flags : BitVec 64) (cause : Cause) (f : Frame) (k : Code)
  /-- `exitFromCPU` after its `disable_and_store`. -/
  | exiting (f : Frame) (k : Code)
  /-- `__restore` after a handler. -/
  | restore (f : Frame) (k : Code)
  /-- `__restore` once it has written `sstatus`. -/
  | sret (k : Code)
  /-- An exception that ends in a panic. -/
  | fault

/-- What a context that waits in a handler keeps on the stack of its trap. -/
def Code.Keeps (p : ℕ) : Code → Prop
  | .switched _ _ f _ | .restore f _ => f.stack.Stores p
  | _ => False

/-- The hart, with the globals of the kernel that decide what it does to the registers. -/
structure Hart where
  csrs : Csrs
  priv : Priv
  code : Code
  /-- The thread whose context runs, if it is not idle. -/
  current : Option ℕ
  /-- `CPU.occupied`. -/
  occupied : Bool
  /-- The saved context of idle, while a thread runs. -/
  idle : Code
  /-- The saved contexts of the threads. -/
  threads : ℕ → Option Code
  /-- `STDIN.buf`. -/
  stdin : List UInt8

/-- An interrupt that is pending now is taken: its enable bit is set, and in S-mode `SIE` as
well. -/
def Hart.Takes (s : Hart) (enable : BitVec 64 → Bool) : Prop :=
  enable s.csrs.sie = true ∧ (s.priv = .supervisor → hasSie s.csrs.sstatus = true)

/-- The hart takes a trap. -/
def Hart.trap (s : Hart) (code : Code) : Hart :=
  { s with
    csrs := s.csrs.wSstatus (trapSstatus s.priv s.csrs.sstatus)
    priv := .supervisor
    code := code }

/-- The traps that the program of a thread makes itself: `ebreak` and the system calls. -/
def Cause.FromUser : Cause → Prop
  | .timer | .external => False
  | _ => True

/-- The handlers that return without more ado. -/
def Cause.Returns : Cause → Prop
  | .sysRead _ | .sysExit => False
  | _ => True

/-- The calls in whose handler `yieldCPU` may run. -/
def Cause.Yields : Cause → Prop
  | .sysRead _ | .sysExec => True
  | _ => False

/-- The course of the kernel depends on the byte: it is one of the kernel's own, or of a context
that waits. -/
def Hart.Course (K : Image) (s : Hart) (p : ℕ) : Prop :=
  p ∈ K.vars ∨ ∃ tid c, s.threads tid = some c ∧ c.Keeps p

/-- The next stores go over bytes that the course of the kernel depends on: the program's stack or
the pointer of its `sysRead` leads there. -/
def Hart.Astray (K : Image) (s : Hart) : Prop :=
  (∃ cause stk p, s.code = .entry cause stk .user ∧ stk.Stores p ∧ s.Course K p) ∨
    ∃ p f k, s.stdin ≠ [] ∧ s.code = .handler (.sysRead p) f k ∧ (s.Course K p ∨ p ∈ f.stack.calls)

/-! ### Steps -/

/-- One step of the hart, whose stores are followed. -/
inductive Step (K : Image) : Hart → Hart → Prop where
  | timer (s : Hart) (stk : Stack) : s.Takes hasStie →
      Step K s (s.trap (.entry .timer stk s.code))
  | external (s : Hart) (stk : Stack) : s.Takes hasSeie →
      Step K s (s.trap (.entry .external stk s.code))
  | call (s : Hart) (cause : Cause) (stk : Stack) : s.code = .user → cause.FromUser →
      Step K s (s.trap (.entry cause stk s.code))
  | fault (s : Hart) : Step K s (s.trap .fault)
  /-- `__interrupt` saves the registers below the stack pointer in force. -/
  | save (s : Hart) (cause : Cause) (stk : Stack) (k : Code) : s.code = .entry cause stk k →
      ¬ s.Astray K → Step K s { s with code := .handler cause ⟨stk, s.csrs.sstatus⟩ k }
  /-- The same with the word of a register over `CPU.idle.contextAddr`. It leads to a context that
  the program has built in its pages, which goes to `__restore` with this `sstatus` word and on to
  the program. The other words find the values that they store, or slots that are not in use. -/
  | forge (s : Hart) (cause : Cause) (stk : Stack) (w : BitVec 64) (i : ℕ) :
      s.code = .entry cause stk .user → 3 ≤ i → i ≤ 31 →
      (∀ j < 8, stk.frame (8 * i + j) = K.idleContextAddr + j) →
      Step K s { s with
        code := .handler cause ⟨stk, s.csrs.sstatus⟩ .user
        idle := .launch w .user }
  | handled (s : Hart) (cause : Cause) (f : Frame) (k : Code) : s.code = .handler cause f k →
      cause.Returns → Step K s { s with code := .restore f k }
  /-- `external` reads a character and `pushChar` stores it. -/
  | push (s : Hart) (ch : UInt8) (f : Frame) (k : Code) : s.code = .handler .external f k →
      Step K s { s with stdin := s.stdin ++ [ch], code := .restore f k }
  /-- `sysRead` stores the character that `popChar` returned. -/
  | read (s : Hart) (p : ℕ) (ch : UInt8) (rest : List UInt8) (f : Frame) (k : Code) :
      s.code = .handler (.sysRead p) f k → s.stdin = ch :: rest → ¬ s.Astray K →
      Step K s { s with stdin := rest, code := .restore (f.store p ch) k }
  /-- `executeCPU` adds a thread. -/
  | create (s : Hart) (tid : ℕ) (f : Frame) (k : Code) : s.code = .handler .sysExec f k →
      s.current ≠ some tid →
      Step K s { s with
        threads := fun t => if t = tid then
          some (.launch (newUserThreadSstatus s.csrs.sstatus) .user) else s.threads t }
  /-- The time slice of the running thread is used up. -/
  | tick (s : Hart) (f : Frame) (k : Code) : s.code = .handler .timer f k → s.occupied = true →
      Step K s { s with
        csrs := s.csrs.disableAndStore.2
        code := .switching s.csrs.disableAndStore.1 .timer f k }
  | yield (s : Hart) (cause : Cause) (f : Frame) (k : Code) : s.code = .handler cause f k →
      cause.Yields → s.occupied = true →
      Step K s { s with
        csrs := s.csrs.disableAndStore.2
        code := .switching s.csrs.disableAndStore.1 cause f k }
  | exit (s : Hart) (f : Frame) (k : Code) : s.code = .handler .sysExit f k →
      Step K s { s with csrs := s.csrs.disableAndStore.2, code := .exiting f k }
  /-- The switch to idle leaves `sstatus` as it is. -/
  | toIdle (s : Hart) (tid : ℕ) (flags : BitVec 64) (cause : Cause) (f : Frame) (k : Code) :
      s.code = .switching flags cause f k → s.current = some tid →
      Step K s { s with
        threads := fun t => if t = tid then some (.switched flags cause f k) else s.threads t
        current := none
        code := s.idle }
  | exited (s : Hart) (tid : ℕ) (f : Frame) (k : Code) :
      s.code = .exiting f k → s.current = some tid →
      Step K s { s with
        threads := fun t => if t = tid then some (.restore f k) else s.threads t
        current := none
        code := s.idle }
  /-- Back from idle: `restore_sstatus`, and the handler goes on. -/
  | resume (s : Hart) (flags : BitVec 64) (cause : Cause) (f : Frame) (k : Code) :
      s.code = .switched flags cause f k →
      Step K s { s with csrs := s.csrs.restoreSstatus flags, code := .handler cause f k }
  | idleStart (s : Hart) : s.code = .idleEntry →
      Step K s { s with csrs := s.csrs.disableAndStore.2, code := .idleLoop }
  /-- `acquireFromPool` gives a thread, and `switchThread` goes to its saved context. -/
  | dispatch (s : Hart) (tid : ℕ) (c : Code) : s.code = .idleLoop → s.threads tid = some c →
      Step K s { s with
        current := some tid
        occupied := true
        idle := .idleSwitched
        code := c }
  | wait (s : Hart) : s.code = .idleLoop →
      Step K s { s with csrs := s.csrs.enable, code := .idleWindow }
  | waited (s : Hart) : s.code = .idleWindow →
      Step K s { s with csrs := s.csrs.disableAndStore.2, code := .idleLoop }
  | retrieve (s : Hart) : s.code = .idleSwitched →
      Step K s { s with occupied := false, code := .idleLoop }
  /-- `__restore` writes `sstatus` and `sepc`. -/
  | launch (s : Hart) (w : BitVec 64) (k : Code) : s.code = .launch w k →
      Step K s { s with csrs := s.csrs.wSstatus w, code := .sret k }
  | restore (s : Hart) (f : Frame) (k : Code) : s.code = .restore f k →
      Step K s { s with csrs := s.csrs.wSstatus f.sstatus, code := .sret k }
  | sret (s : Hart) (k : Code) : s.code = .sret k →
      Step K s { s with
        csrs := s.csrs.wSstatus (sretSstatus s.csrs.sstatus)
        priv := sretPriv s.csrs.sstatus
        code := k }

/-- Any number of steps. -/
def Steps (K : Image) : Hart → Hart → Prop := Relation.ReflTransGen (Step K)

/-- A step, or whatever may follow when the stores go astray. -/
def AnyStep (K : Image) (s s' : Hart) : Prop := Step K s s' ∨ s.Astray K

/-! ### Boot -/

/-- What `main` makes of the registers before `runCPU`. -/
def Csrs.main (c : Csrs) : Csrs := c.initMemory.initInterrupt.initTimer

/-- The hart when `runCPU` has switched to idle. `initThread` built the contexts of idle and of the
first thread before `initTimer`. The firmware enters the kernel with interrupts off, so that no
character has arrived. -/
def booted (c : Csrs) : Hart where
  csrs := c.main
  priv := .supervisor
  code := .launch (newKernelThreadSstatus c.initMemory.initInterrupt.sstatus) .idleEntry
  current := none
  occupied := false
  idle := .idleSwitched
  threads := fun tid =>
    if tid = 0 then some (.launch (newUserThreadSstatus c.initMemory.initInterrupt.sstatus) .user)
    else none
  stdin := []

/-! ### The enables of `sie` -/

/-- No step writes `sie`. -/
lemma Step.sie_eq {K : Image} {s s' : Hart} (h : Step K s s') : s'.csrs.sie = s.csrs.sie := by
  cases h <;> rfl

lemma Steps.sie_eq {K : Image} {s s' : Hart} (h : Steps K s s') : s'.csrs.sie = s.csrs.sie := by
  induction h with
  | refl => rfl
  | tail _ hstep ih => rw [hstep.sie_eq, ih]

/-- Both enables are set in every state after boot. -/
def EnablesSurvive (K : Image) (c : Csrs) : Prop :=
  ∀ s, Steps K (booted c) s → hasSeie s.csrs.sie = true ∧ hasStie s.csrs.sie = true

/-- With both registers zero at first, the external enable is lost. -/
theorem not_enablesSurvive_zero : ¬ EnablesSurvive ⟨Set.univ, 0, fun _ _ => trivial⟩ ⟨0, 0⟩ := by
  intro h
  have := (h _ Relation.ReflTransGen.refl).1
  exact absurd this (by decide)

/-- Whatever the registers hold at first, `initTimer` clears the external enable that
`initInterrupt` had set, and it stays clear in every later state. -/
theorem seie_clear_after_boot (K : Image) (c : Csrs) : ¬ EnablesSurvive K c ∧
    ∀ s, Steps K (booted c) s → hasSeie s.csrs.sie = false ∧ hasStie s.csrs.sie = true := by
  have hall : ∀ s, Steps K (booted c) s →
      hasSeie s.csrs.sie = false ∧ hasStie s.csrs.sie = true := by
    intro s hs
    rw [hs.sie_eq]
    change hasSeie sieStie = false ∧ hasStie sieStie = true
    decide
  refine ⟨fun h => ?_, hall⟩
  have hset := (h _ Relation.ReflTransGen.refl).1
  rw [(hall _ Relation.ReflTransGen.refl).1] at hset
  cases hset

end Jokerix
