import Mathlib.Data.Nat.Notation

/-!
# Constants of the kernel

The constants of `kernel/consts.h`, and the ways a kernel function can end without returning.
-/

namespace Jokerix

/-- How a kernel function ends when it does not return. -/
inductive Halt where
  /-- `panic(msg)` prints the message and shuts the machine down. -/
  | panic (msg : String)
  /-- An access outside the array or the mapped memory. -/
  | fault
  /-- A loop whose exit condition never becomes true. -/
  | diverge
  deriving DecidableEq, Repr

def kernelHeapSize : ℕ := 0x800000
def minBlockSize : ℕ := 0x40
def heapBlockNum : ℕ := 0x20000
/-- The number of entries of `longest`. -/
def buddyNodeNum : ℕ := 0x3ffff

def pageSize : ℕ := 4096
def memoryEndPaddr : ℕ := 0x88000000
def kernelBeginPaddr : ℕ := 0x80200000
def kernelBeginVaddr : ℕ := 0xffffffff80200000

def kernelMapOffset : ℕ := 0xffffffff00000000
def kernelPageOffset : ℕ := 0xffffffff00000
def pdeMask : ℕ := 0x003ffffffffffC00

def kernelStackSize : ℕ := 0x80000
def userStackSize : ℕ := 0x80000
def userStackOffset : ℕ := 0xffffffff00000000

def maxThread : ℕ := 0x40

/-! ### Sequences of functions that may not return -/

/-- A sequence that completes: both parts complete. -/
lemma bind_eq_ok {ε : Type*} {α β : Type} {x : Except ε α} {f : α → Except ε β} {b : β}
    (h : (x >>= f) = .ok b) : ∃ a, x = .ok a ∧ f a = .ok b := by
  cases x with
  | error e => cases h
  | ok a => exact ⟨a, rfl, h⟩

lemma bind_ok {ε : Type*} {α β : Type} {x : Except ε α} {f : α → Except ε β} {a : α}
    (h : x = .ok a) : (x >>= f) = f a := by
  rw [h]
  rfl

end Jokerix
