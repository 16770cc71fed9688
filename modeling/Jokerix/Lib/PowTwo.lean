import Mathlib.Algebra.Group.Nat.Defs
import Mathlib.Data.Nat.Log
import Mathlib.Data.Nat.Size
import Mathlib.Order.Bounds.Basic

/-!
# Rounding up to a power of two by smearing bits

Or-ing a number with its right shifts by `1, 2, 4, 8, 16` copies every set bit into the thirty-one
places below it. On a number below `2 ^ 32` the result is all ones up to the highest set bit, so
that adding one gives the next power of two.
-/

namespace PowTwo

/-- Smear the bits of a number over the thirty-one places below them. -/
def smear (n : ℕ) : ℕ :=
  let n := n ||| n >>> 1
  let n := n ||| n >>> 2
  let n := n ||| n >>> 4
  let n := n ||| n >>> 8
  n ||| n >>> 16

/-- A round of the smear doubles the reach of every bit. -/
lemma testBit_or_shiftRight {n m w : ℕ}
    (h : ∀ i, m.testBit i = true ↔ ∃ j < w, n.testBit (i + j) = true) (i : ℕ) :
    (m ||| m >>> w).testBit i = true ↔ ∃ j < w + w, n.testBit (i + j) = true := by
  rw [Nat.testBit_or, Nat.testBit_shiftRight, Bool.or_eq_true, h, h]
  constructor
  · rintro (⟨j, hj, hb⟩ | ⟨j, hj, hb⟩)
    · exact ⟨j, by omega, hb⟩
    · exact ⟨w + j, by omega, by rwa [show i + (w + j) = w + i + j by omega]⟩
  · rintro ⟨j, hj, hb⟩
    by_cases hw : j < w
    · exact .inl ⟨j, hw, hb⟩
    · exact .inr ⟨j - w, by omega, by rwa [show w + i + (j - w) = i + j by omega]⟩

lemma testBit_smear (n i : ℕ) :
    (smear n).testBit i = true ↔ ∃ j < 32, n.testBit (i + j) = true := by
  have h0 : ∀ i, n.testBit i = true ↔ ∃ j < 1, n.testBit (i + j) = true := by
    intro i
    constructor
    · exact fun h => ⟨0, by omega, h⟩
    · rintro ⟨j, hj, h⟩
      rwa [show i + j = i by omega] at h
  have h1 := testBit_or_shiftRight h0
  have h2 := testBit_or_shiftRight h1
  have h4 := testBit_or_shiftRight h2
  have h8 := testBit_or_shiftRight h4
  exact testBit_or_shiftRight h8 i

/-- Below `2 ^ 32` the smear fills every place up to the highest set bit. -/
lemma smear_eq {n : ℕ} (hn : n < 2 ^ 32) : smear n = 2 ^ n.size - 1 := by
  apply Nat.eq_of_testBit_eq
  intro i
  rw [Nat.testBit_two_pow_sub_one, Bool.eq_iff_iff, testBit_smear, decide_eq_true_eq, Nat.lt_size]
  constructor
  · rintro ⟨j, _, hb⟩
    have h1 := Nat.ge_two_pow_of_testBit hb
    have h2 : 2 ^ i ≤ 2 ^ (i + j) := Nat.pow_le_pow_right (by omega) (by omega)
    omega
  · intro hi
    obtain ⟨k, hk, hb⟩ := Nat.exists_ge_and_testBit_of_ge_two_pow hi
    have hk32 : 2 ^ k < 2 ^ 32 := lt_of_le_of_lt (Nat.ge_two_pow_of_testBit hb) hn
    have hlt : k < 32 := (Nat.pow_lt_pow_iff_right (by omega)).mp hk32
    exact ⟨k - i, by omega, by rwa [Nat.add_sub_cancel' hk]⟩

lemma size_sub_one_eq_clog {n : ℕ} (hn : 1 ≤ n) : (n - 1).size = Nat.clog 2 n := by
  apply le_antisymm
  · rw [Nat.size_le]
    have := Nat.le_pow_clog (by omega : 1 < 2) n
    omega
  · rw [Nat.clog_le_iff_le_pow (by omega)]
    have := Nat.size_le.mp (le_refl (n - 1).size)
    omega

/-- Smearing `n - 1` and adding one gives the least power of two that is at least `n`. -/
lemma smear_add_one {n : ℕ} (h1 : 1 ≤ n) (h32 : n ≤ 2 ^ 32) :
    smear (n - 1) + 1 = 2 ^ Nat.clog 2 n := by
  rw [smear_eq (by omega), size_sub_one_eq_clog h1]
  have := Nat.two_pow_pos (Nat.clog 2 n)
  omega

/-- A power of two is its own rounding. -/
lemma pow_clog_of_isPowerOfTwo {n : ℕ} (h : n.isPowerOfTwo) : 2 ^ Nat.clog 2 n = n := by
  obtain ⟨k, rfl⟩ := h
  rw [Nat.clog_pow 2 k (by omega)]

/-- The rounding is the least power of two that is large enough. -/
lemma isLeast_pow_clog (n : ℕ) : IsLeast {m : ℕ | m.isPowerOfTwo ∧ n ≤ m} (2 ^ Nat.clog 2 n) := by
  refine ⟨⟨⟨_, rfl⟩, Nat.le_pow_clog (by omega) n⟩, ?_⟩
  rintro m ⟨⟨k, rfl⟩, hle⟩
  exact Nat.pow_le_pow_right (by omega) (Nat.clog_le_of_le_pow hle)

end PowTwo
