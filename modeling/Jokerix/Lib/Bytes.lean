import Mathlib.Data.Nat.Basic
import Mathlib.Data.List.OfFn
import Mathlib.Data.List.GetD
import Mathlib.Logic.Function.Basic
import Mathlib.Data.Set.Basic
import Mathlib.Order.Interval.Set.Basic
import Mathlib.Algebra.Order.Ring.Nat
import Mathlib.Tactic.Ring
import Mathlib.Tactic.NormNum

/-!
# Byte-addressed memory

A memory is a function from addresses to bytes. The file has the two ways a program changes it
(filling a range, storing a list of bytes), the little-endian reading of a few bytes as a number,
and the frame rules: a write is seen by the reads it covers and by no other.
-/

namespace Bytes

/-- A byte-addressed memory. -/
abbrev Memory := ℕ → UInt8

/-! ### Filling a range -/

/-- Set the `n` bytes from address `a` on to `b`, one after the other. -/
def fill (m : Memory) (a : ℕ) : ℕ → UInt8 → Memory
  | 0, _ => m
  | n + 1, b => fill (Function.update m a b) (a + 1) n b

lemma fill_apply (m : Memory) (a n : ℕ) (b : UInt8) (x : ℕ) :
    fill m a n b x = if a ≤ x ∧ x < a + n then b else m x := by
  induction n generalizing m a with
  | zero => simp only [fill, Nat.add_zero]; rw [if_neg (by omega)]
  | succ n ih =>
    simp only [fill, ih, Function.update_apply]
    by_cases hx : x = a
    · subst hx
      rw [if_neg (by omega), if_pos rfl, if_pos (by omega)]
    · by_cases hin : a + 1 ≤ x ∧ x < a + 1 + n
      · rw [if_pos hin, if_pos (by omega)]
      · rw [if_neg hin, if_neg hx, if_neg (by omega)]

lemma fill_of_mem {m : Memory} {a n : ℕ} {b : UInt8} {x : ℕ} (h : a ≤ x) (h' : x < a + n) :
    fill m a n b x = b := by
  rw [fill_apply, if_pos ⟨h, h'⟩]

lemma fill_of_not_mem {m : Memory} {a n : ℕ} {b : UInt8} {x : ℕ} (h : x < a ∨ a + n ≤ x) :
    fill m a n b x = m x := by
  rw [fill_apply, if_neg (by omega)]

/-! ### Storing a list of bytes -/

/-- Store the bytes of a list from address `a` on. -/
def store (m : Memory) (a : ℕ) : List UInt8 → Memory
  | [] => m
  | b :: bs => store (Function.update m a b) (a + 1) bs

lemma store_apply (m : Memory) (a : ℕ) (bs : List UInt8) (x : ℕ) :
    store m a bs x = if a ≤ x ∧ x < a + bs.length then bs.getD (x - a) 0 else m x := by
  induction bs generalizing m a with
  | nil => simp only [store, List.length_nil, Nat.add_zero]; rw [if_neg (by omega)]
  | cons b bs ih =>
    simp only [store, ih, Function.update_apply, List.length_cons]
    by_cases hx : x = a
    · subst hx
      rw [if_neg (by omega), if_pos rfl, if_pos (by omega), Nat.sub_self, List.getD_cons_zero]
    · by_cases hin : a + 1 ≤ x ∧ x < a + 1 + bs.length
      · rw [if_pos hin, if_pos (by omega), show x - a = (x - (a + 1)) + 1 by omega,
          List.getD_cons_succ]
      · rw [if_neg hin, if_neg hx, if_neg (by omega)]

/-- Frame rule: a store leaves the bytes outside its range alone. -/
lemma store_of_not_mem {m : Memory} {a : ℕ} {bs : List UInt8} {x : ℕ}
    (h : x < a ∨ a + bs.length ≤ x) : store m a bs x = m x := by
  rw [store_apply, if_neg (by omega)]

lemma store_of_mem {m : Memory} {a : ℕ} {bs : List UInt8} {x : ℕ}
    (h : a ≤ x) (h' : x < a + bs.length) : store m a bs x = bs.getD (x - a) 0 := by
  rw [store_apply, if_pos ⟨h, h'⟩]

lemma store_append (m : Memory) (a : ℕ) (xs ys : List UInt8) :
    store m a (xs ++ ys) = store (store m a xs) (a + xs.length) ys := by
  induction xs generalizing m a with
  | nil => rfl
  | cons x xs ih =>
    rw [List.cons_append, store, store, ih, List.length_cons]
    congr 1
    omega

/-! ### Loading -/

/-- The `n` bytes from address `a` on. -/
def load (m : Memory) (a n : ℕ) : List UInt8 := (List.range n).map fun i => m (a + i)

@[simp] lemma length_load (m : Memory) (a n : ℕ) : (load m a n).length = n := by simp [load]

lemma getD_load {m : Memory} {a n i : ℕ} (h : i < n) : (load m a n).getD i 0 = m (a + i) := by
  rw [List.getD_eq_getElem _ _ (by simpa using h)]
  simp [load]

/-- Loads see only the bytes of their range. -/
lemma load_congr {m m' : Memory} {a n : ℕ} (h : ∀ x, a ≤ x → x < a + n → m x = m' x) :
    load m a n = load m' a n := by
  apply List.map_congr_left
  intro i hi
  have := List.mem_range.mp hi
  exact h _ (by omega) (by omega)

/-- A load of a range that was just stored gives the stored bytes back. -/
lemma load_store (m : Memory) (a : ℕ) (bs : List UInt8) :
    load (store m a bs) a bs.length = bs := by
  apply List.ext_getElem
  · simp
  · intro i h1 h2
    simp only [load, List.getElem_map, List.getElem_range]
    rw [store_of_mem (by omega) (by omega), Nat.add_sub_cancel_left, List.getD_eq_getElem _ _ h2]

/-! ### Little-endian numbers -/

/-- The number whose little-endian bytes are the list. -/
def ofLE : List UInt8 → ℕ
  | [] => 0
  | b :: bs => b.toNat + 256 * ofLE bs

/-- The `w` little-endian bytes of a number. -/
def toLE : ℕ → ℕ → List UInt8
  | 0, _ => []
  | w + 1, n => UInt8.ofNat n :: toLE w (n / 256)

@[simp] lemma length_toLE (w n : ℕ) : (toLE w n).length = w := by
  induction w generalizing n with
  | zero => rfl
  | succ w ih => simp [toLE, ih]

lemma ofLE_toLE (w n : ℕ) : ofLE (toLE w n) = n % 256 ^ w := by
  induction w generalizing n with
  | zero => simp [toLE, ofLE, Nat.mod_one]
  | succ w ih =>
    simp only [toLE, ofLE, ih, UInt8.toNat_ofNat']
    rw [show (2 : ℕ) ^ 8 = 256 by norm_num, pow_succ' 256, Nat.mod_mul]

lemma ofLE_lt (bs : List UInt8) : ofLE bs < 256 ^ bs.length := by
  induction bs with
  | nil => simp [ofLE]
  | cons b bs ih =>
    have hb : b.toNat < 256 := b.toNat_lt
    simp only [ofLE, List.length_cons, pow_succ]
    omega

/-- The `w`-byte little-endian number at address `a`. -/
def loadLE (w : ℕ) (m : Memory) (a : ℕ) : ℕ := ofLE (load m a w)

/-- Store the `w` little-endian bytes of `v` at address `a`. -/
def storeLE (w : ℕ) (m : Memory) (a v : ℕ) : Memory := store m a (toLE w v)

lemma loadLE_lt (w : ℕ) (m : Memory) (a : ℕ) : loadLE w m a < 256 ^ w := by
  simpa [loadLE] using ofLE_lt (load m a w)

lemma loadLE_congr {w : ℕ} {m m' : Memory} {a : ℕ} (h : ∀ x, a ≤ x → x < a + w → m x = m' x) :
    loadLE w m a = loadLE w m' a := by
  rw [loadLE, loadLE, load_congr h]

lemma loadLE_storeLE_same (w : ℕ) (m : Memory) (a v : ℕ) :
    loadLE w (storeLE w m a v) a = v % 256 ^ w := by
  have h := load_store m a (toLE w v)
  rw [length_toLE] at h
  rw [loadLE, storeLE, h, ofLE_toLE]

/-- Frame rule for bytes. -/
lemma storeLE_of_not_mem {w : ℕ} {m : Memory} {a v x : ℕ} (h : x < a ∨ a + w ≤ x) :
    storeLE w m a v x = m x := by
  apply store_of_not_mem
  simpa using h

/-- Frame rule for loads: disjoint ranges do not interfere. -/
lemma loadLE_storeLE_of_disjoint {w w' : ℕ} {m : Memory} {a a' v : ℕ}
    (h : a' + w' ≤ a ∨ a + w ≤ a') : loadLE w' (storeLE w m a v) a' = loadLE w' m a' := by
  apply loadLE_congr
  intro x hx hx'
  exact storeLE_of_not_mem (by omega)

lemma loadLE_zero {w : ℕ} {m : Memory} {a : ℕ} (h : ∀ x, a ≤ x → x < a + w → m x = 0) :
    loadLE w m a = 0 := by
  induction w generalizing a with
  | zero => simp [loadLE, load, ofLE]
  | succ w ih =>
    have h0 := h a (by omega) (by omega)
    have hs := ih (a := a + 1) fun x hx hx' => h x (by omega) (by omega)
    simp only [loadLE, load] at hs ⊢
    rw [List.range_succ_eq_map, List.map_cons, List.map_map, ofLE]
    simp only [Nat.add_zero, h0]
    rw [show ((fun i => m (a + i)) ∘ Nat.succ) = fun i => m (a + 1 + i) by
      funext i; simp only [Function.comp, Nat.succ_eq_add_one]; congr 1; omega, hs]
    rfl

/-- Numbers in a copy of a memory at another place. -/
lemma loadLE_shift {w : ℕ} {m m' : Memory} {k a : ℕ}
    (h : ∀ x, a ≤ x → x < a + w → m (k + x) = m' x) : loadLE w m (k + a) = loadLE w m' a := by
  rw [loadLE, loadLE, load, load]
  congr 1
  refine List.map_congr_left fun i hi => ?_
  have := List.mem_range.mp hi
  rw [Nat.add_assoc]
  exact h _ (by omega) (by omega)

/-! ### Arrays of numbers -/

/-- Store an array of `n` numbers of `w` bytes each. -/
def storeArray (w : ℕ) (m : Memory) (a : ℕ) (f : ℕ → ℕ) : ℕ → Memory
  | 0 => m
  | n + 1 => storeLE w (storeArray w m a f n) (a + w * n) (f n)

lemma storeArray_of_not_mem {w n : ℕ} {m : Memory} {a x : ℕ} {f : ℕ → ℕ}
    (h : x < a ∨ a + w * n ≤ x) : storeArray w m a f n x = m x := by
  induction n with
  | zero => rfl
  | succ n ih =>
    rw [Nat.mul_succ] at h
    rw [storeArray, storeLE_of_not_mem (by omega), ih (by omega)]

/-- An array reads back as it was stored. -/
lemma loadLE_storeArray {w n i : ℕ} {m : Memory} {a : ℕ} {f : ℕ → ℕ} (h : i < n) :
    loadLE w (storeArray w m a f n) (a + w * i) = f i % 256 ^ w := by
  induction n with
  | zero => omega
  | succ n ih =>
    rw [storeArray]
    rcases Nat.lt_succ_iff_lt_or_eq.mp h with hlt | rfl
    · have hle : w * (i + 1) ≤ w * n := Nat.mul_le_mul_left w hlt
      rw [Nat.mul_succ] at hle
      rw [loadLE_storeLE_of_disjoint (by omega), ih hlt]
    · exact loadLE_storeLE_same w _ _ _

end Bytes
