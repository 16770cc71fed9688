import Jokerix.Lib.TreeArray
import Jokerix.Consts

/-!
# The page-frame allocator

The segment tree `sta` of `kernel/memory.c`: `newAllocator`, `alloc` and `dealloc`. A node is `1`
when every frame in its range is allocated and `0` when one is free. Frame numbers are 64-bit and
their arithmetic wraps.
-/

namespace Jokerix

def maxPhysicalPages : ℕ := 0x8000

/-- The length of the array `sta.node`. -/
def staNodes : ℕ := maxPhysicalPages * 2

/-- The global `sta`. -/
structure FrameTree where
  node : ℕ → ℕ
  firstSingle : ℕ
  length : ℕ
  startPpn : ℕ

/-- The search for the number of leaves; `none` when the shift overflows before it is reached. -/
def growSingle (length : ℕ) : ℕ → ℕ → Option ℕ
  | 0, _ => none
  | fuel + 1, firstSingle =>
    if firstSingle < (length + 2) % 2 ^ 64 then growSingle length fuel (firstSingle * 2)
    else some firstSingle

/-- Set `n` nodes from index `i` on to `v`. -/
def setNodes (node : ℕ → ℕ) (i v : ℕ) : ℕ → ℕ → ℕ
  | 0 => node
  | n + 1 => setNodes (Function.update node i v) (i + 1) v n

/-- The loop that fills the inner nodes, from index `i` down to `1`. -/
def buildNodes (node : ℕ → ℕ) : ℕ → ℕ → ℕ
  | 0 => node
  | i + 1 =>
    buildNodes (Function.update node (i + 1) (node (2 * (i + 1)) &&& node (2 * (i + 1) + 1))) i

/-- The rest of `newAllocator`, once the number of leaves is known. -/
def fillTree (sta : FrameTree) (startPpn length firstSingle : ℕ) : Except Halt FrameTree :=
  -- the loops write the nodes up to `2 * firstSingle - 1` and `firstSingle + length - 1`
  if staNodes < 2 * firstSingle ∨ staNodes < firstSingle + length then .error .fault
  else
    let node := setNodes sta.node 1 1 (2 * firstSingle - 1)
    let node := setNodes node (firstSingle + 1) 0 (length - 1)
    let node := buildNodes node (firstSingle - 1)
    .ok { node, firstSingle, length, startPpn := (startPpn + 2 ^ 64 - 1) % 2 ^ 64 }

def newAllocator (sta : FrameTree) (startPpn endPpn : ℕ) : Except Halt FrameTree :=
  let length := (endPpn + 2 ^ 64 - startPpn) % 2 ^ 64
  (growSingle length 64 1).elim (.error .diverge) (fillTree sta startPpn length)

/-- The descent of `alloc` to a free leaf, the left branch first. -/
def allocDescend (sta : FrameTree) : ℕ → ℕ → ℕ
  | 0, p => p
  | fuel + 1, p =>
    if p < sta.firstSingle then
      if sta.node (2 * p) = 0 then allocDescend sta fuel (2 * p)
      else allocDescend sta fuel (2 * p + 1)
    else p

/-- Recompute node `p` and its ancestors. -/
def refreshNodes (node : ℕ → ℕ) : ℕ → ℕ → ℕ → ℕ
  | 0, _ => node
  | fuel + 1, p =>
    if p = 0 then node
    else
      refreshNodes (Function.update node p (node (2 * p) &&& node (2 * p + 1))) fuel (p / 2)

/-- Allocate a frame: its number and the tree after it. -/
def alloc (sta : FrameTree) : Except Halt (ℕ × FrameTree) :=
  if sta.node 1 = 1 then .error (.panic "Physical memory depleted!\n")
  else
    let p := allocDescend sta sta.firstSingle 1
    let result := (p - sta.firstSingle + sta.startPpn) % 2 ^ 64
    let node := Function.update sta.node p 1
    .ok (result, { sta with node := refreshNodes node p (p / 2) })

def dealloc (sta : FrameTree) (ppn : ℕ) : Except Halt FrameTree :=
  let p := (ppn + 2 ^ 64 - sta.startPpn + sta.firstSingle) % 2 ^ 64
  if staNodes ≤ p then .error .fault
  else if sta.node p ≠ 1 then .ok sta
  else
    let node := Function.update sta.node p 0
    .ok { sta with node := refreshNodes node p (p / 2) }

end Jokerix
