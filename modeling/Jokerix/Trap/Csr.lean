import Mathlib.Data.Nat.Notation

/-!
# Interrupt enables

The bits of `sie` and `sstatus` that the kernel uses, the accessors of `kernel/riscv.h`, what a trap
and `sret` do to `sstatus`, and the writes to the two registers while `main` boots the kernel.
-/

namespace Jokerix

/-! ### The registers -/

def sieSeie : BitVec 64 := 1 <<< 9
def sieStie : BitVec 64 := 1 <<< 5

def sstatusSum : BitVec 64 := 1 <<< 18
def sstatusSpp : BitVec 64 := 1 <<< 8
def sstatusSpie : BitVec 64 := 1 <<< 5
def sstatusSie : BitVec 64 := 1 <<< 1

/-- External interrupts are enabled in a value of `sie`. -/
def hasSeie (w : BitVec 64) : Bool := w.getLsbD 9
/-- Timer interrupts are enabled in a value of `sie`. -/
def hasStie (w : BitVec 64) : Bool := w.getLsbD 5

/-- Interrupts are enabled in a value of `sstatus`. -/
def hasSie (w : BitVec 64) : Bool := w.getLsbD 1
/-- Interrupts will be enabled by `sret`. -/
def hasSpie (w : BitVec 64) : Bool := w.getLsbD 5
/-- The return of `sret` is to S-mode. -/
def hasSpp (w : BitVec 64) : Bool := w.getLsbD 8

/-- The two registers. -/
structure Csrs where
  sie : BitVec 64
  sstatus : BitVec 64

namespace Csrs

def wSie (c : Csrs) (x : BitVec 64) : Csrs := { c with sie := x }
def wSstatus (c : Csrs) (x : BitVec 64) : Csrs := { c with sstatus := x }

/-- `csrsi sstatus, 1 << 1`, the first half of `enable_and_wfi`. -/
def enable (c : Csrs) : Csrs := c.wSstatus (c.sstatus ||| sstatusSie)

/-- `csrrci` clears the bit and returns the old word. -/
def disableAndStore (c : Csrs) : BitVec 64 × Csrs :=
  (c.sstatus, c.wSstatus (c.sstatus &&& ~~~sstatusSie))

/-- `csrs` can only set bits. -/
def restoreSstatus (c : Csrs) (flags : BitVec 64) : Csrs := c.wSstatus (c.sstatus ||| flags)

end Csrs

/-! ### Traps -/

inductive Priv where
  | user
  | supervisor
  deriving DecidableEq

/-- `sstatus` after a trap from a privilege level: `SPIE` takes `SIE`, `SIE` is cleared and `SPP`
records the level. -/
def trapSstatus (p : Priv) (w : BitVec 64) : BitVec 64 :=
  let w := if hasSie w then w ||| sstatusSpie else w &&& ~~~sstatusSpie
  let w := w &&& ~~~sstatusSie
  match p with
  | .supervisor => w ||| sstatusSpp
  | .user => w &&& ~~~sstatusSpp

/-- `sstatus` after `sret`: `SIE` takes `SPIE`, `SPIE` is set and `SPP` cleared. -/
def sretSstatus (w : BitVec 64) : BitVec 64 :=
  let w := if hasSpie w then w ||| sstatusSie else w &&& ~~~sstatusSie
  (w ||| sstatusSpie) &&& ~~~sstatusSpp

/-- The privilege level after `sret`. -/
def sretPriv (w : BitVec 64) : Priv := if hasSpp w then .supervisor else .user

/-! ### New contexts -/

/-- The `sstatus` word of `newKernelThreadContext`. -/
def newKernelThreadSstatus (sstatus : BitVec 64) : BitVec 64 :=
  (sstatus ||| sstatusSpp ||| sstatusSpie) &&& ~~~sstatusSie

/-- The `sstatus` word of `newUserThreadContext`. -/
def newUserThreadSstatus (sstatus : BitVec 64) : BitVec 64 :=
  (sstatus &&& ~~~sstatusSpp ||| sstatusSpie) &&& ~~~sstatusSie

/-! ### Boot -/

namespace Csrs

def initMemory (c : Csrs) : Csrs := c.wSstatus (c.sstatus ||| sstatusSum)

def initInterrupt (c : Csrs) : Csrs := c.wSie (c.sie ||| sieSeie)

def initTimer (c : Csrs) : Csrs := (c.wSie sieStie).wSstatus sstatusSie

end Csrs

/-! ### Bits of the words -/

section
variable (w x : BitVec 64)

lemma hasSie_or : hasSie (w ||| x) = (hasSie w || hasSie x) := BitVec.getLsbD_or

lemma hasSpp_or : hasSpp (w ||| x) = (hasSpp w || hasSpp x) := BitVec.getLsbD_or

lemma hasSie_andNot : hasSie (w &&& ~~~x) = (hasSie w && !hasSie x) := by
  simp [hasSie]

lemma hasSpp_andNot : hasSpp (w &&& ~~~x) = (hasSpp w && !hasSpp x) := by
  simp [hasSpp]

@[simp] lemma hasSie_sstatusSie : hasSie sstatusSie = true := rfl
@[simp] lemma hasSie_sstatusSpie : hasSie sstatusSpie = false := rfl
@[simp] lemma hasSie_sstatusSpp : hasSie sstatusSpp = false := rfl
@[simp] lemma hasSpp_sstatusSie : hasSpp sstatusSie = false := rfl
@[simp] lemma hasSpp_sstatusSpie : hasSpp sstatusSpie = false := rfl
@[simp] lemma hasSpp_sstatusSpp : hasSpp sstatusSpp = true := rfl

/-- A trap turns interrupts off. -/
@[simp] lemma hasSie_trapSstatus (p : Priv) : hasSie (trapSstatus p w) = false := by
  cases p <;> simp [trapSstatus, hasSie_or, hasSie_andNot]

/-- A trap records the level it came from. -/
@[simp] lemma hasSpp_trapSstatus (p : Priv) :
    hasSpp (trapSstatus p w) = decide (p = .supervisor) := by
  cases p <;> simp [trapSstatus, hasSpp_or, hasSpp_andNot]

@[simp] lemma hasSie_newKernelThreadSstatus : hasSie (newKernelThreadSstatus w) = false := by
  simp [newKernelThreadSstatus, hasSie_andNot]

@[simp] lemma hasSpp_newKernelThreadSstatus : hasSpp (newKernelThreadSstatus w) = true := by
  simp [newKernelThreadSstatus, hasSpp_or, hasSpp_andNot]

@[simp] lemma hasSie_newUserThreadSstatus : hasSie (newUserThreadSstatus w) = false := by
  simp [newUserThreadSstatus, hasSie_andNot]

@[simp] lemma hasSpp_newUserThreadSstatus : hasSpp (newUserThreadSstatus w) = false := by
  simp [newUserThreadSstatus, hasSpp_or, hasSpp_andNot]

end

end Jokerix
