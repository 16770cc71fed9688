import Jokerix.Lib.PowTwo
import Jokerix.Consts
import Mathlib.Logic.Function.Basic
import Mathlib.Tactic.NormNum

/-!
# The buddy tree

The array-encoded buddy tree of `kernel/heap.c`: `buddyInit`, `buddyAlloc` and `buddyFree`, with
the rounding `fixSize` they share with `kalloc`. Sizes and offsets are counted in blocks.
-/

namespace Jokerix

/-- `IS_POWER_OF_2(x)` on 32-bit integers. -/
def isPowerOf2 (x : BitVec 32) : Bool := x &&& (x - 1) == 0

/-- Round a 32-bit signed integer up to a power of two. -/
def fixSize (size : BitVec 32) : BitVec 32 :=
  let n := size - 1
  let n := n ||| n.sshiftRight 1
  let n := n ||| n.sshiftRight 2
  let n := n ||| n.sshiftRight 4
  let n := n ||| n.sshiftRight 8
  let n := n ||| n.sshiftRight 16
  n + 1

def leftLeaf (index : ℕ) : ℕ := index * 2 + 1
def rightLeaf (index : ℕ) : ℕ := index * 2 + 2
/-- `PARENT(index)`; the code takes it of positive indices only. -/
def parent (index : ℕ) : ℕ := (index + 1) / 2 - 1

/-- The global `buddyTree`. -/
structure BuddyTree where
  /-- The number of blocks under management. -/
  size : ℕ
  /-- For each node, the length of the longest free run in its range. -/
  longest : ℕ → ℕ

/-- The loop of `buddyInit`: `n` nodes from index `i` on are still to be set. -/
def buddyInitLoop (longest : ℕ → ℕ) (i nodeSize : ℕ) : ℕ → ℕ → ℕ
  | 0 => longest
  | n + 1 =>
    let nodeSize := if isPowerOf2 (BitVec.ofNat 32 (i + 1)) then nodeSize / 2 else nodeSize
    buddyInitLoop (Function.update longest i nodeSize) (i + 1) nodeSize n

def buddyInit (t : BuddyTree) (size : ℕ) : BuddyTree where
  size := size
  longest := buddyInitLoop t.longest 0 (2 * size) (2 * size - 1)

/-- The descent of `buddyAlloc` to a node of `size` blocks; `none` when `nodeSize` is halved past
`size`, after which the loop never ends. The fuel bounds the number of halvings. -/
def buddyDescend (longest : ℕ → ℕ) (size : ℤ) : ℕ → ℕ → ℕ → Option ℕ
  | 0, _, _ => none
  | fuel + 1, nodeSize, index =>
    if nodeSize = size then some index
    else
      let left := longest (leftLeaf index)
      let right := longest (rightLeaf index)
      -- the smaller branch that is large enough is preferred
      let index :=
        if left ≤ right then
          if left ≥ size then leftLeaf index else rightLeaf index
        else
          if right ≥ size then rightLeaf index else leftLeaf index
      buddyDescend longest size fuel (nodeSize / 2) index

/-- The upward pass of `buddyAlloc`; the index decreases, so it is its own bound. -/
def buddyAllocUp (longest : ℕ → ℕ) (index : ℕ) : ℕ → ℕ → ℕ
  | 0 => longest
  | fuel + 1 =>
    if index = 0 then longest
    else
      let index := parent index
      buddyAllocUp
        (Function.update longest index
          (max (longest (leftLeaf index)) (longest (rightLeaf index)))) index fuel

/-- The request of `buddyAlloc` in blocks, rounded to a power of two. The rounding wraps to a
negative number above `2 ^ 30`. -/
def buddyRequest (size : ℤ) : ℤ :=
  if size ≤ 0 then 1
  else if isPowerOf2 (BitVec.ofInt 32 size) then size
  else (fixSize (BitVec.ofInt 32 size)).toInt

/-- Allocate `size` blocks: the offset of the first block, or `-1`; `none` when the descent does
not end. -/
def buddyAlloc (t : BuddyTree) (size : ℤ) : Option (ℤ × BuddyTree) :=
  let size := buddyRequest size
  -- a request that wrapped is below every entry
  if t.longest 0 < size.toNat then some (-1, t)
  else
    match buddyDescend t.longest size (t.size + 1) t.size 0 with
    | none => none
    | some index =>
      let longest := Function.update t.longest index 0
      -- the descent ends with `nodeSize` equal to `size`
      let offset := (index + 1) * size - t.size
      some (offset, { t with longest := buddyAllocUp longest index index })

/-- The search of `buddyFree` for the first node marked `0` on the way up, with the size reached;
`none` when the root is passed without finding one. -/
def buddyFreeSearch (longest : ℕ → ℕ) : ℕ → ℕ → ℕ → Option (ℕ × ℕ)
  | 0, _, _ => none
  | fuel + 1, index, nodeSize =>
    if longest index = 0 then some (index, nodeSize)
    else if index = 0 then none
    else buddyFreeSearch longest fuel (parent index) (nodeSize * 2)

/-- The upward pass of `buddyFree`, which joins two free halves. -/
def buddyFreeUp (longest : ℕ → ℕ) (index nodeSize : ℕ) : ℕ → ℕ → ℕ
  | 0 => longest
  | fuel + 1 =>
    if index = 0 then longest
    else
      let index := parent index
      let nodeSize := nodeSize * 2
      let leftLongest := longest (leftLeaf index)
      let rightLongest := longest (rightLeaf index)
      let value :=
        if leftLongest + rightLongest = nodeSize then nodeSize else max leftLongest rightLongest
      buddyFreeUp (Function.update longest index value) index nodeSize fuel

/-- Free the allocation that the block at `offset` belongs to. -/
def buddyFree (t : BuddyTree) (offset : ℕ) : BuddyTree :=
  let index := offset + t.size - 1
  match buddyFreeSearch t.longest (index + 1) index 1 with
  | none => t
  | some (index, nodeSize) =>
    let longest := Function.update t.longest index nodeSize
    { t with longest := buddyFreeUp longest index nodeSize index }

/-! ### Rounding -/

lemma toNat_or_sshiftRight {n : BitVec 32} {k : ℕ} (h : n.toNat < 2 ^ 31) :
    (n ||| n.sshiftRight k).toNat = n.toNat ||| n.toNat >>> k ∧
      (n ||| n.sshiftRight k).toNat < 2 ^ 31 := by
  have hmsb : n.msb = false := BitVec.msb_eq_false_iff_two_mul_lt.mpr (by omega)
  rw [BitVec.sshiftRight_eq_of_msb_false hmsb, BitVec.toNat_or, BitVec.toNat_ushiftRight]
  refine ⟨rfl, Nat.or_lt_two_pow h (lt_of_le_of_lt ?_ h)⟩
  rw [Nat.shiftRight_eq_div_pow]
  exact Nat.div_le_self _ _

lemma toNat_ofNat_sub_one {n : ℕ} (h1 : 1 ≤ n) (h2 : n < 2 ^ 32) :
    (BitVec.ofNat 32 n - 1).toNat = n - 1 := by
  have hle : (1 : BitVec 32) ≤ BitVec.ofNat 32 n := by
    rw [BitVec.le_def, BitVec.toNat_ofNat, Nat.mod_eq_of_lt h2]
    exact h1
  rw [BitVec.toNat_sub_of_le hle, BitVec.toNat_ofNat, Nat.mod_eq_of_lt h2]
  rfl

/-- On positive arguments `fixSize` gives the least power of two that is large enough, as a bit
pattern. -/
lemma toNat_fixSize {n : ℕ} (h1 : 1 ≤ n) (h2 : n ≤ 2 ^ 31) :
    (fixSize (BitVec.ofNat 32 n)).toNat = 2 ^ Nat.clog 2 n := by
  have h0 := toNat_ofNat_sub_one h1 (by omega : n < 2 ^ 32)
  have hlt : (BitVec.ofNat 32 n - 1).toNat < 2 ^ 31 := by omega
  obtain ⟨e1, l1⟩ := toNat_or_sshiftRight (k := 1) hlt
  obtain ⟨e2, l2⟩ := toNat_or_sshiftRight (k := 2) l1
  obtain ⟨e4, l4⟩ := toNat_or_sshiftRight (k := 4) l2
  obtain ⟨e8, l8⟩ := toNat_or_sshiftRight (k := 8) l4
  obtain ⟨e16, l16⟩ := toNat_or_sshiftRight (k := 16) l8
  have hs := PowTwo.smear_add_one h1 (by omega)
  simp only [fixSize]
  have hval : 2 ^ Nat.clog 2 n ≤ 2 ^ 31 :=
    Nat.pow_le_pow_right (by omega) (Nat.clog_le_of_le_pow h2)
  rw [BitVec.toNat_add, e16, e8, e4, e2, e1, h0]
  change (PowTwo.smear (n - 1) + 1) % 2 ^ 32 = _
  rw [hs, Nat.mod_eq_of_lt (by omega)]

/-- `IS_POWER_OF_2` recognises the powers of two among the positive integers. -/
lemma isPowerOf2_iff {n : ℕ} (h1 : 1 ≤ n) (h2 : n < 2 ^ 32) :
    isPowerOf2 (BitVec.ofNat 32 n) = true ↔ n.isPowerOfTwo := by
  have h0 := toNat_ofNat_sub_one h1 (by omega : n < 2 ^ 32)
  rw [← Nat.and_sub_one_eq_zero_iff_isPowerOfTwo (by omega), isPowerOf2, beq_iff_eq,
    ← BitVec.toNat_inj, BitVec.toNat_and, h0]
  simp only [BitVec.toNat_ofNat]
  rw [Nat.mod_eq_of_lt h2]
  exact Iff.rfl

/-- The request is rounded to the least power of two that is large enough. -/
lemma buddyRequest_eq {n : ℕ} (h1 : 1 ≤ n) (h2 : n ≤ 2 ^ 30) :
    buddyRequest n = (2 ^ Nat.clog 2 n : ℕ) := by
  have hof : BitVec.ofInt 32 (n : ℤ) = BitVec.ofNat 32 n := BitVec.ofInt_natCast 32 n
  rw [buddyRequest, if_neg (by omega), hof]
  by_cases hp : isPowerOf2 (BitVec.ofNat 32 n) = true
  · rw [if_pos hp, PowTwo.pow_clog_of_isPowerOfTwo ((isPowerOf2_iff h1 (by omega)).mp hp)]
  · have hle : 2 ^ Nat.clog 2 n ≤ 2 ^ 30 :=
      Nat.pow_le_pow_right (by omega) (Nat.clog_le_of_le_pow h2)
    have hfix := toNat_fixSize h1 (by omega : n ≤ 2 ^ 31)
    rw [if_neg hp, BitVec.toInt_eq_toNat_of_lt (by omega), hfix]

/-- Above `2 ^ 30` the rounding wraps to a negative request. -/
lemma buddyRequest_neg {n : ℕ} (h1 : 2 ^ 30 < n) (h2 : n < 2 ^ 31) : buddyRequest n < 0 := by
  have hof : BitVec.ofInt 32 (n : ℤ) = BitVec.ofNat 32 n := BitVec.ofInt_natCast 32 n
  have hp : ¬ isPowerOf2 (BitVec.ofNat 32 n) = true := by
    rw [isPowerOf2_iff (by omega) (by omega)]
    rintro ⟨k, rfl⟩
    have hk1 : 30 < k := (Nat.pow_lt_pow_iff_right (by omega)).mp h1
    have hk2 : k < 31 := (Nat.pow_lt_pow_iff_right (by omega)).mp h2
    omega
  have hclog : Nat.clog 2 n = 31 := by
    apply le_antisymm (Nat.clog_le_of_le_pow h2.le)
    by_contra hlt
    have hle := Nat.le_pow_clog (by omega : 1 < 2) n
    have := Nat.pow_le_pow_right (n := 2) two_pos (by omega : Nat.clog 2 n ≤ 30)
    omega
  have hfix := toNat_fixSize (by omega : 1 ≤ n) h2.le
  rw [hclog] at hfix
  rw [buddyRequest, if_neg (by omega), hof, if_neg hp, BitVec.toInt_eq_toNat_cond, hfix]
  norm_num

end Jokerix
