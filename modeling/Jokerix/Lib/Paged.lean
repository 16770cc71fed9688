import Jokerix.Lib.Bytes
import Mathlib.Data.Set.Function

/-!
# Memory behind a translation

Loads and stores at virtual addresses. The translation gives the place of an address; it may depend
on the memory, as it does when its tables lie there. In a window the translation is a fixed
injection that stores to the window do not disturb. There the memory looks like a plain one.
-/

namespace Paged

open Bytes (Memory)

/-- The place of a virtual address, where there is one. -/
abbrev Translation := Memory → ℕ → Option ℕ

section
variable (τ : Translation) (w : ℕ)

/-- Store the bytes of a list from a virtual address on. -/
def store (mem : Memory) (a : ℕ) : List UInt8 → Option Memory
  | [] => some mem
  | b :: bs => (τ mem a).bind fun p => store (Function.update mem p b) (a + 1) bs

/-- The `n` bytes from a virtual address on. -/
def load (mem : Memory) (a : ℕ) : ℕ → Option (List UInt8)
  | 0 => some []
  | n + 1 => (τ mem a).bind fun p => (load mem (a + 1) n).map (mem p :: ·)

def storeLE (mem : Memory) (a v : ℕ) : Option Memory := store τ mem a (Bytes.toLE w v)

def loadLE (mem : Memory) (a : ℕ) : Option ℕ := (load τ mem a w).map Bytes.ofLE

/-- Store words, each at its index from a virtual address on, one after the other. -/
def storeWords (mem : Memory) (a : ℕ) : List (ℕ × ℕ) → Option Memory
  | [] => some mem
  | (k, v) :: l => (storeLE τ w mem (a + w * k) v).bind fun mem => storeWords mem a l

end

/-! ### Words in a plain memory -/

section
variable {mem mem' : Memory} {a w k v x : ℕ} {l : List (ℕ × ℕ)}

/-- The same stores in a memory without translation. -/
def putWords (w : ℕ) (mem : Memory) (a : ℕ) : List (ℕ × ℕ) → Memory
  | [] => mem
  | (k, v) :: l => putWords w (Bytes.storeLE w mem (a + w * k) v) a l

/-- What is stored at a byte does not depend on the other bytes. -/
lemma store_congr {bs : List UInt8} (h : mem x = mem' x) :
    Bytes.store mem a bs x = Bytes.store mem' a bs x := by
  rw [Bytes.store_apply, Bytes.store_apply, h]

lemma putWords_congr (h : mem x = mem' x) : putWords w mem a l x = putWords w mem' a l x := by
  induction l generalizing mem mem' with
  | nil => exact h
  | cons kv l ih => exact ih (store_congr h)

/-- Frame rule: words at other indices keep a byte. -/
lemma putWords_of_not_mem (h : ∀ kv ∈ l, x < a + w * kv.1 ∨ a + w * kv.1 + w ≤ x) :
    putWords w mem a l x = mem x := by
  induction l generalizing mem with
  | nil => rfl
  | cons kv l ih =>
    rw [putWords, ih fun kv' hkv' => h kv' (List.mem_cons_of_mem _ hkv')]
    exact Bytes.storeLE_of_not_mem (h kv List.mem_cons_self)

/-- Words at different indices do not meet. -/
lemma words_disjoint {k k' : ℕ} (h : k ≠ k') :
    a + w * k + w ≤ a + w * k' ∨ a + w * k' + w ≤ a + w * k := by
  rcases lt_or_gt_of_ne h with hlt | hlt
  · have := Nat.mul_le_mul_left w hlt
    rw [Nat.mul_succ] at this
    omega
  · have := Nat.mul_le_mul_left w hlt
    rw [Nat.mul_succ] at this
    omega

/-- Every word is there after all of them are stored. -/
lemma loadLE_putWords (hnodup : (l.map Prod.fst).Nodup) (hmem : (k, v) ∈ l) :
    Bytes.loadLE w (putWords w mem a l) (a + w * k) = v % 256 ^ w := by
  induction l generalizing mem with
  | nil => cases hmem
  | cons kv l ih =>
    rw [List.map_cons, List.nodup_cons] at hnodup
    rcases List.mem_cons.mp hmem with rfl | hmem
    · rw [putWords, ← Bytes.loadLE_storeLE_same w mem (a + w * k) v]
      refine Bytes.loadLE_congr fun x h1 h2 => putWords_of_not_mem ?_
      rintro ⟨k', v'⟩ hkv'
      have hne : k ≠ k' := by
        rintro rfl
        exact hnodup.1 (List.mem_map.mpr ⟨_, hkv', rfl⟩)
      have := words_disjoint (a := a) (w := w) hne
      dsimp only
      omega
    · exact ih hnodup.2 hmem

end

/-! ### Windows -/

/-- On the addresses of `F` the translation is `place`, and it stays so when the memory changes
there. -/
structure Window (τ : Translation) (mem : Memory) (F : Set ℕ) (place : ℕ → ℕ) : Prop where
  inj : Set.InjOn place F
  stable : ∀ mem' : Memory, (∀ p, p ∉ place '' F → mem' p = mem p) → ∀ a ∈ F,
    τ mem' a = some (place a)

section
variable {τ : Translation} {mem mem' : Memory} {F : Set ℕ} {place : ℕ → ℕ} {a w : ℕ}

lemma Window.apply (h : Window τ mem F place) (ha : a ∈ F) : τ mem a = some (place a) :=
  h.stable mem (fun _ _ => rfl) a ha

lemma Window.keep (h : Window τ mem F place) (hmem : ∀ p, p ∉ place '' F → mem' p = mem p) :
    Window τ mem' F place :=
  ⟨h.inj, fun mem'' h'' => h.stable mem'' fun p hp => (h'' p hp).trans (hmem p hp)⟩

/-- A store in a window: it succeeds, nothing else changes, and in the window it is a plain
store. -/
lemma Window.store (bs : List UInt8) (h : Window τ mem F place)
    (hF : ∀ x, a ≤ x → x < a + bs.length → x ∈ F) :
    ∃ mem', Paged.store τ mem a bs = some mem' ∧ (∀ p, p ∉ place '' F → mem' p = mem p) ∧
      ∀ x ∈ F, mem' (place x) = Bytes.store (fun x => mem (place x)) a bs x := by
  induction bs generalizing mem a with
  | nil => exact ⟨mem, rfl, fun _ _ => rfl, fun _ _ => rfl⟩
  | cons b bs ih =>
    rw [List.length_cons] at hF
    have ha : a ∈ F := hF a le_rfl (by omega)
    have hout : ∀ p, p ∉ place '' F → Function.update mem (place a) b p = mem p := fun p hp =>
      Function.update_of_ne (fun he => hp ⟨a, ha, he.symm⟩) _ _
    obtain ⟨mem', hok, hout', hin'⟩ := ih (a := a + 1) (h.keep hout)
      (fun x h1 h2 => hF x (by omega) (by omega))
    refine ⟨mem', ?_, fun p hp => (hout' p hp).trans (hout p hp), ?_⟩
    · rw [Paged.store, h.apply ha]
      exact hok
    · intro x hx
      rw [hin' x hx, Bytes.store]
      apply store_congr
      by_cases hxa : x = a
      · rw [hxa, Function.update_self, Function.update_self]
      · rw [Function.update_of_ne hxa, Function.update_of_ne fun he => hxa (h.inj hx ha he)]

/-- Words stored in a window. -/
lemma Window.storeWords {l : List (ℕ × ℕ)} (h : Window τ mem F place)
    (hF : ∀ kv ∈ l, ∀ x, a + w * kv.1 ≤ x → x < a + w * kv.1 + w → x ∈ F) :
    ∃ mem', Paged.storeWords τ w mem a l = some mem' ∧ (∀ p, p ∉ place '' F → mem' p = mem p) ∧
      ∀ x ∈ F, mem' (place x) = putWords w (fun x => mem (place x)) a l x := by
  induction l generalizing mem with
  | nil => exact ⟨mem, rfl, fun _ _ => rfl, fun _ _ => rfl⟩
  | cons kv l ih =>
    obtain ⟨k, v⟩ := kv
    obtain ⟨mem₁, hok₁, hout₁, hin₁⟩ := Window.store (a := a + w * k) (Bytes.toLE w v) h
      (by simpa using hF _ List.mem_cons_self)
    obtain ⟨mem', hok, hout, hin⟩ := ih (h.keep hout₁)
      (fun kv hkv => hF kv (List.mem_cons_of_mem _ hkv))
    refine ⟨mem', ?_, fun p hp => (hout p hp).trans (hout₁ p hp), ?_⟩
    · rw [Paged.storeWords, storeLE, hok₁]
      exact hok
    · intro x hx
      rw [hin x hx, putWords]
      exact putWords_congr (hin₁ x hx)

/-! ### Loads -/

lemma load_eq {n : ℕ} (h : ∀ x, a ≤ x → x < a + n → τ mem x = some (place x)) :
    load τ mem a n = some (Bytes.load (fun x => mem (place x)) a n) := by
  induction n generalizing a with
  | zero => rfl
  | succ n ih =>
    rw [load, h a le_rfl (by omega), Option.bind_some, ih fun x h1 h2 => h x (by omega) (by omega),
      Option.map_some, Bytes.load, Bytes.load, List.range_succ_eq_map, List.map_cons, List.map_map]
    simp only [Nat.add_zero, Option.some.injEq, List.cons.injEq, true_and]
    refine List.map_congr_left fun i _ => ?_
    simp only [Function.comp, Nat.succ_eq_add_one]
    rw [Nat.add_assoc, Nat.add_comm 1 i]

/-- A word whose bytes are all mapped. -/
lemma loadLE_eq (h : ∀ x, a ≤ x → x < a + w → τ mem x = some (place x)) :
    loadLE τ w mem a = some (Bytes.loadLE w (fun x => mem (place x)) a) := by
  rw [loadLE, load_eq h, Option.map_some, Bytes.loadLE]

lemma load_congr {n : ℕ} (h : ∀ x, a ≤ x → x < a + n →
      τ mem' x = τ mem x ∧ ∀ p, τ mem x = some p → mem' p = mem p) :
    load τ mem' a n = load τ mem a n := by
  induction n generalizing a with
  | zero => rfl
  | succ n ih =>
    obtain ⟨hplace, hbyte⟩ := h a le_rfl (by omega)
    rw [load, load, hplace, ih fun x h1 h2 => h x (by omega) (by omega)]
    refine Option.bind_congr fun p hp => ?_
    rw [hbyte p hp]

/-- A word whose bytes and their translation stay. -/
lemma loadLE_congr (h : ∀ x, a ≤ x → x < a + w →
      τ mem' x = τ mem x ∧ ∀ p, τ mem x = some p → mem' p = mem p) :
    loadLE τ w mem' a = loadLE τ w mem a := by
  rw [loadLE, loadLE, load_congr h]

end

end Paged
