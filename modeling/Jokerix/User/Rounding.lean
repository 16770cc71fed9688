import Jokerix.Heap.Kalloc
import Jokerix.User.Malloc

/-!
# Rounding to a power of two

`fixSize` of `kernel/heap.c` on signed integers and of `user/malloc.c` on unsigned ones is exact on
the sizes it is made for, and the two ways in which the allocators round a request agree.
-/

namespace PowTwo

/-- A number is a power of two exactly when the rounding leaves it alone. -/
lemma isPowerOfTwo_iff_pow_clog {n : ℕ} : n.isPowerOfTwo ↔ 2 ^ Nat.clog 2 n = n :=
  ⟨pow_clog_of_isPowerOfTwo, fun h => ⟨_, h.symm⟩⟩

end PowTwo

namespace Jokerix

/-! ### The kernel -/

/-- `fixSize` before the last addition. -/
def fixSizeBits (size : BitVec 32) : BitVec 32 :=
  let n := size - 1
  let n := n ||| n.sshiftRight 1
  let n := n ||| n.sshiftRight 2
  let n := n ||| n.sshiftRight 4
  let n := n ||| n.sshiftRight 8
  n ||| n.sshiftRight 16

lemma fixSize_eq_add_one (size : BitVec 32) : fixSize size = fixSizeBits size + 1 := rfl

/-- As a signed integer `fixSize(n)` is the least power of two that is at least `n`, no operation
overflows, `IS_POWER_OF_2` recognises the numbers that stay, and `buddyAlloc` rounds to the same
number. -/
structure FixSizeExact (n : ℕ) : Prop where
  least : ∃ m, IsLeast {m : ℕ | m.isPowerOfTwo ∧ n ≤ m} m ∧ (fixSize (BitVec.ofNat 32 n)).toInt = m
  sub : (BitVec.ofNat 32 n).ssubOverflow 1 = false
  add : (fixSizeBits (BitVec.ofNat 32 n)).saddOverflow 1 = false
  power : isPowerOf2 (BitVec.ofNat 32 n) = true ↔ fixSize (BitVec.ofNat 32 n) = BitVec.ofNat 32 n
  request : buddyRequest n = (fixSize (BitVec.ofNat 32 n)).toInt

section
variable {n : ℕ}

/-- The addition gives the rounding, so it starts one below. -/
lemma toNat_fixSizeBits (h1 : 1 ≤ n) (h2 : n ≤ 2 ^ 31) :
    (fixSizeBits (BitVec.ofNat 32 n)).toNat = 2 ^ Nat.clog 2 n - 1 := by
  have hfix := toNat_fixSize h1 h2
  have hpos := Nat.two_pow_pos (Nat.clog 2 n)
  have hle : 2 ^ Nat.clog 2 n ≤ 2 ^ 31 := Nat.pow_le_pow_right two_pos (Nat.clog_le_of_le_pow h2)
  have hlt := (fixSizeBits (BitVec.ofNat 32 n)).isLt
  have hone : (1 : BitVec 32).toNat = 1 := rfl
  rw [fixSize_eq_add_one, BitVec.toNat_add, hone] at hfix
  omega

lemma toInt_fixSize (h1 : 1 ≤ n) (h2 : n ≤ 2 ^ 30) :
    (fixSize (BitVec.ofNat 32 n)).toInt = (2 ^ Nat.clog 2 n : ℕ) := by
  have hfix := toNat_fixSize h1 (by omega)
  have hle : 2 ^ Nat.clog 2 n ≤ 2 ^ 30 := Nat.pow_le_pow_right two_pos (Nat.clog_le_of_le_pow h2)
  rw [BitVec.toInt_eq_toNat_of_lt (by omega), hfix]

lemma isPowerOf2_iff_fixSize (h1 : 1 ≤ n) (h2 : n ≤ 2 ^ 31) :
    isPowerOf2 (BitVec.ofNat 32 n) = true ↔ fixSize (BitVec.ofNat 32 n) = BitVec.ofNat 32 n := by
  rw [isPowerOf2_iff h1 (by omega), PowTwo.isPowerOfTwo_iff_pow_clog, ← BitVec.toNat_inj,
    toNat_fixSize h1 h2, BitVec.toNat_ofNat, Nat.mod_eq_of_lt (by omega)]

lemma fixSizeExact_of_le (h1 : 1 ≤ n) (h2 : n ≤ 2 ^ 30) : FixSizeExact n := by
  have hfix := toInt_fixSize h1 h2
  have hone : (1 : BitVec 32).toInt = 1 := rfl
  have hle : 2 ^ Nat.clog 2 n ≤ 2 ^ 30 := Nat.pow_le_pow_right two_pos (Nat.clog_le_of_le_pow h2)
  have hsize : (BitVec.ofNat 32 n).toInt = n := by
    rw [BitVec.toInt_eq_toNat_of_lt] <;> rw [BitVec.toNat_ofNat, Nat.mod_eq_of_lt (by omega)]
    omega
  have hbits := toNat_fixSizeBits h1 (by omega)
  have hbits' : (fixSizeBits (BitVec.ofNat 32 n)).toInt = (2 ^ Nat.clog 2 n - 1 : ℕ) := by
    rw [BitVec.toInt_eq_toNat_of_lt (by omega), hbits]
  refine ⟨⟨_, PowTwo.isLeast_pow_clog n, hfix⟩, ?_, ?_, isPowerOf2_iff_fixSize h1 (by omega), ?_⟩
  · simp only [BitVec.ssubOverflow, hsize, hone, Bool.or_eq_false_iff, decide_eq_false_iff_not]
    omega
  · simp only [BitVec.saddOverflow, hbits', hone, Bool.or_eq_false_iff, decide_eq_false_iff_not]
    omega
  · rw [buddyRequest_eq h1 h2, hfix]

end

/-! ### User programs -/

namespace User

/-- `fixSize` before the last addition. -/
def fixSizeBits (size : BitVec 32) : BitVec 32 :=
  let n := size - 1
  let n := n ||| n >>> 1
  let n := n ||| n >>> 2
  let n := n ||| n >>> 4
  let n := n ||| n >>> 8
  n ||| n >>> 16

lemma fixSize_eq_add_one (size : BitVec 32) : fixSize size = fixSizeBits size + 1 := rfl

/-- The same on unsigned integers. -/
structure FixSizeExact (n : ℕ) : Prop where
  least : IsLeast {m : ℕ | m.isPowerOfTwo ∧ n ≤ m} (fixSize (BitVec.ofNat 32 n)).toNat
  sub : (BitVec.ofNat 32 n).usubOverflow 1 = false
  add : (fixSizeBits (BitVec.ofNat 32 n)).uaddOverflow 1 = false
  power : isPowerOf2 (BitVec.ofNat 32 n) = true ↔ fixSize (BitVec.ofNat 32 n) = BitVec.ofNat 32 n
  request : buddyRequest (BitVec.ofNat 32 n) = fixSize (BitVec.ofNat 32 n)

lemma fixSizeExact_of_le {n : ℕ} (h1 : 1 ≤ n) (h2 : n ≤ 2 ^ 31) : FixSizeExact n := by
  have hn : (BitVec.ofNat 32 n).toNat = n := by
    rw [BitVec.toNat_ofNat, Nat.mod_eq_of_lt (by omega)]
  have hfix : (fixSize (BitVec.ofNat 32 n)).toNat = 2 ^ Nat.clog 2 n := by
    rw [toNat_fixSize (by rwa [hn]) (by rwa [hn]), hn]
  have hone : (1 : BitVec 32).toNat = 1 := rfl
  have hpos := Nat.two_pow_pos (Nat.clog 2 n)
  have hle : 2 ^ Nat.clog 2 n ≤ 2 ^ 31 := Nat.pow_le_pow_right two_pos (Nat.clog_le_of_le_pow h2)
  refine ⟨?_, ?_, ?_, ?_, ?_⟩
  · rw [hfix]
    exact PowTwo.isLeast_pow_clog n
  · simp only [BitVec.usubOverflow, hn, hone, decide_eq_false_iff_not]
    omega
  · have hlt := (fixSizeBits (BitVec.ofNat 32 n)).isLt
    have hsum := hfix
    rw [fixSize_eq_add_one, BitVec.toNat_add, hone] at hsum
    simp only [BitVec.uaddOverflow, hone, decide_eq_false_iff_not]
    omega
  · rw [isPowerOf2_iff h1 (by omega), PowTwo.isPowerOfTwo_iff_pow_clog, ← BitVec.toNat_inj, hfix,
      hn]
  · rw [← BitVec.toNat_inj, toNat_buddyRequest (by rwa [hn]) (by rwa [hn]), hn, hfix]

end User

/-! ### The bytes of a request -/

/-- `kalloc` clears as many bytes as the blocks that `buddyAlloc` takes have. -/
lemma kallocBytes_eq_request {size : BitVec 32} (h : 0 < size.toInt) :
    ∃ k, buddyRequest (kallocBlocks size) = (2 ^ k : ℕ) ∧ kallocBytes size =
      2 ^ k * minBlockSize := by
  obtain ⟨h1, h2, _⟩ := kallocBlocks_bounds h
  exact ⟨_, buddyRequest_eq h1 (by omega), kallocBytes_eq h⟩

/-- `malloc` clears as many bytes, up to the wrap of the product. -/
lemma mallocBytes_eq_request {size : BitVec 32} (h : size ≠ 0) :
    ∃ k, (User.buddyRequest (User.mallocBlocks size)).toNat = 2 ^ k ∧
      User.mallocBytes size = 2 ^ k * User.minBlockSize % 2 ^ 32 := by
  obtain ⟨h1, h2, _⟩ := User.mallocBlocks_bounds h
  refine ⟨_, User.toNat_buddyRequest h1 (by omega), ?_⟩
  rw [User.mallocBytes, BitVec.toNat_mul, User.toNat_fixSize h1 (by omega), BitVec.toNat_ofNat]
  rfl

/-- On all sizes from one to the largest power of two that its type holds, `fixSize` is exact,
in the kernel and in user programs; `kalloc` and `malloc` count blocks and bytes with the same
power. -/
theorem fixSize_exact :
    (∀ n, 1 ≤ n → n ≤ 2 ^ 30 → FixSizeExact n) ∧
    (∀ n, 1 ≤ n → n ≤ 2 ^ 31 → User.FixSizeExact n) ∧
    (∀ size : BitVec 32, 0 < size.toInt → ∃ k, buddyRequest (kallocBlocks size) = (2 ^ k : ℕ) ∧
      kallocBytes size = 2 ^ k * minBlockSize) ∧
    ∀ size : BitVec 32, size ≠ 0 → ∃ k,
      (User.buddyRequest (User.mallocBlocks size)).toNat = 2 ^ k ∧
      User.mallocBytes size = 2 ^ k * User.minBlockSize % 2 ^ 32 :=
  ⟨fun _ => fixSizeExact_of_le, fun _ => User.fixSizeExact_of_le, fun _ => kallocBytes_eq_request,
    fun _ => mallocBytes_eq_request⟩

/-- The largest sizes, and a request for one byte. -/
theorem fixSize_exact_limits : FixSizeExact (2 ^ 30) ∧ User.FixSizeExact (2 ^ 31) ∧
    (∃ k, buddyRequest (kallocBlocks 1) = (2 ^ k : ℕ) ∧ kallocBytes 1 = 2 ^ k * minBlockSize) ∧
    ∃ k, (User.buddyRequest (User.mallocBlocks 1)).toNat = 2 ^ k ∧
      User.mallocBytes 1 = 2 ^ k * User.minBlockSize % 2 ^ 32 :=
  ⟨fixSize_exact.1 _ (by decide) (by decide), fixSize_exact.2.1 _ (by decide) (by decide),
    fixSize_exact.2.2.1 _ (by decide), fixSize_exact.2.2.2 _ (by decide)⟩

end Jokerix
