import Mathlib.Data.List.Nodup
import Mathlib.Logic.Function.Basic
import Mathlib.Tactic.Common

/-!
# Circular doubly linked lists

A ring of nodes linked by two maps `next` and `prev`, entered at a dummy node. `Seg` says that the
links from one node to another run through a given list, and `Ring` closes a segment at the dummy.
-/

namespace LinkedRing

variable {α : Type*} {next prev next' prev' : α → α} {a b t d : α} {xs ys : List α}

/-- The nodes between `a` and `b` are `xs`, linked in both directions. -/
def Seg (next prev : α → α) (a : α) : List α → α → Prop
  | [], b => next a = b ∧ prev b = a
  | x :: xs, b => next a = x ∧ prev x = a ∧ Seg next prev x xs b

/-- The list `xs` in a ring entered at `d`. -/
structure Ring (next prev : α → α) (d : α) (xs : List α) : Prop where
  nodup : (d :: xs).Nodup
  seg : Seg next prev d xs d

/-- A segment reads the forward links of all but its end and the backward links of all but its
start. -/
lemma Seg.congr (h : Seg next prev a xs b) (hnext : ∀ x ∈ a :: xs, next' x = next x)
    (hprev : ∀ x ∈ b :: xs, prev' x = prev x) : Seg next' prev' a xs b := by
  induction xs generalizing a with
  | nil =>
    obtain ⟨h1, h2⟩ := h
    exact ⟨(hnext a List.mem_cons_self).trans h1, (hprev b List.mem_cons_self).trans h2⟩
  | cons x xs ih =>
    obtain ⟨h1, h2, h3⟩ := h
    refine ⟨(hnext a List.mem_cons_self).trans h1, ?_, ?_⟩
    · rw [hprev x (by simp), h2]
    · apply ih h3
      · exact fun y hy => hnext y (List.mem_cons_of_mem _ hy)
      · intro y hy
        apply hprev y
        rcases List.mem_cons.mp hy with rfl | hy
        · exact List.mem_cons_self
        · simp [hy]

lemma Seg.append (h : Seg next prev a xs t) (h' : Seg next prev t ys b) :
    Seg next prev a (xs ++ t :: ys) b := by
  induction xs generalizing a with
  | nil => exact ⟨h.1, h.2, h'⟩
  | cons x xs ih => exact ⟨h.1, h.2.1, ih h.2.2⟩

/-- Read from the other end, the links change places. -/
lemma Seg.reverse (h : Seg next prev a xs b) : Seg prev next b xs.reverse a := by
  induction xs generalizing a with
  | nil => exact h.symm
  | cons x xs ih =>
    obtain ⟨h1, h2, h3⟩ := h
    rw [List.reverse_cons]
    exact (ih h3).append ⟨h2, h1⟩

/-- The node before the end is the last of the segment. -/
lemma Seg.prev_eq (h : Seg next prev a xs b) : prev b ∈ a :: xs := by
  induction xs generalizing a with
  | nil => exact List.mem_singleton.mpr h.2
  | cons x xs ih => exact List.mem_cons_of_mem _ (ih h.2.2)

section
variable [DecidableEq α]

/-- Redirecting the last link of a segment to a new end. -/
lemma Seg.retarget (h : Seg next prev a xs b) (hnd : (a :: xs).Nodup) (hb : b ∉ xs)
    (ht : t ∉ xs) :
    Seg (Function.update next (prev b) t) (Function.update prev t (prev b)) a xs t := by
  induction xs generalizing a with
  | nil =>
    obtain ⟨_, rfl⟩ := h
    exact ⟨Function.update_self _ _ _, Function.update_self _ _ _⟩
  | cons x xs ih =>
    obtain ⟨h1, h2, h3⟩ := h
    obtain ⟨ha, hnd'⟩ := List.nodup_cons.mp hnd
    rw [List.mem_cons, not_or] at hb ht
    refine ⟨?_, ?_, ih h3 hnd' hb.2 ht.2⟩
    · rw [Function.update_of_ne, h1]
      rintro rfl
      exact ha h3.prev_eq
    · rw [Function.update_of_ne (Ne.symm ht.1), h2]

/-- Redirecting the first link of a segment to a new start. -/
lemma Seg.resource (h : Seg next prev a xs b) (hnd : (b :: xs).Nodup) (ht : t ∉ xs) :
    Seg (Function.update next t (next a)) (Function.update prev (next a) t) t xs b := by
  cases xs with
  | nil =>
    obtain ⟨rfl, _⟩ := h
    exact ⟨Function.update_self _ _ _, Function.update_self _ _ _⟩
  | cons x xs =>
    obtain ⟨rfl, _, h3⟩ := h
    obtain ⟨hb, hnd'⟩ := List.nodup_cons.mp hnd
    obtain ⟨hx, _⟩ := List.nodup_cons.mp hnd'
    rw [List.mem_cons, not_or] at hb ht
    refine ⟨Function.update_self _ _ _, Function.update_self _ _ _, ?_⟩
    apply h3.congr
    · intro y hy
      rw [Function.update_of_ne]
      rintro rfl
      rcases List.mem_cons.mp hy with rfl | hy
      · exact ht.1 rfl
      · exact ht.2 hy
    · intro y hy
      rw [Function.update_of_ne]
      rintro rfl
      rcases List.mem_cons.mp hy with rfl | hy
      · exact hb.1 rfl
      · exact hx hy

/-- The links after `t` is put at the back. -/
lemma Ring.push (h : Ring next prev d xs) (ht : t ∉ d :: xs) :
    Ring (Function.update (Function.update next (prev d) t) t d)
      (Function.update (Function.update prev t (prev d)) d t) d (xs ++ [t]) := by
  have hd : d ∉ xs := (List.nodup_cons.mp h.nodup).1
  have hlast := h.seg.prev_eq
  obtain ⟨htd, htxs⟩ := not_or.mp (mt List.mem_cons.mpr ht)
  constructor
  · rw [← List.cons_append]
    exact h.nodup.append (List.nodup_singleton t) (by simpa using ht)
  · refine Seg.append ((h.seg.retarget h.nodup hd htxs).congr ?_ ?_) ⟨?_, ?_⟩
    · intro x hx
      rw [Function.update_of_ne]
      rintro rfl
      exact ht hx
    · intro x hx
      rw [Function.update_of_ne]
      rintro rfl
      rcases List.mem_cons.mp hx with hx | hx
      · exact htd hx.symm
      · exact hd hx
    · exact Function.update_self _ _ _
    · exact Function.update_self _ _ _

/-- The links after the front node is taken out. -/
lemma Ring.pop {x : α} (h : Ring next prev d (x :: xs)) :
    Ring (Function.update next (prev x) (next x)) (Function.update prev (next x) (prev x))
      d xs := by
  obtain ⟨_, h2, h3⟩ := h.seg
  obtain ⟨hd, hnd⟩ := List.nodup_cons.mp h.nodup
  rw [List.mem_cons, not_or] at hd
  have hnd' : (d :: xs).Nodup := List.nodup_cons.mpr ⟨hd.2, (List.nodup_cons.mp hnd).2⟩
  rw [h2]
  exact ⟨hnd', h3.resource hnd' hd.2⟩

end

/-- Links outside the ring do not matter. -/
lemma Ring.congr (h : Ring next prev d xs) (hnext : ∀ x ∈ d :: xs, next' x = next x)
    (hprev : ∀ x ∈ d :: xs, prev' x = prev x) : Ring next' prev' d xs :=
  ⟨h.nodup, h.seg.congr hnext hprev⟩

lemma Ring.reverse (h : Ring next prev d xs) : Ring prev next d xs.reverse :=
  ⟨((List.reverse_perm xs).cons d).nodup_iff.mpr h.nodup, h.seg.reverse⟩

/-- The dummy alone. -/
lemma Ring.nil (hnext : next d = d) (hprev : prev d = d) : Ring next prev d [] :=
  ⟨List.nodup_singleton d, hnext, hprev⟩

/-! ### Reading the list off -/

/-- Follow the forward links from `x` until the dummy. -/
def traverse [DecidableEq α] (next : α → α) (d : α) : ℕ → α → List α
  | 0, _ => []
  | fuel + 1, x => if x = d then [] else x :: traverse next d fuel (next x)

lemma Seg.traverse_eq [DecidableEq α] (h : Seg next prev a xs d) (hd : d ∉ xs) {fuel : ℕ}
    (hfuel : xs.length < fuel) : traverse next d fuel (next a) = xs := by
  induction xs generalizing a fuel with
  | nil =>
    obtain ⟨fuel, rfl⟩ := Nat.exists_eq_add_of_lt hfuel
    rw [traverse.eq_def]
    simp [h.1]
  | cons x xs ih =>
    obtain ⟨rfl, _, h3⟩ := h
    rw [List.mem_cons, not_or] at hd
    cases fuel with
    | zero => omega
    | succ fuel =>
      rw [traverse, if_neg (Ne.symm hd.1), ih h3 hd.2 (by simpa using hfuel)]

lemma Ring.traverse_eq [DecidableEq α] (h : Ring next prev d xs) (fuel : ℕ)
    (hfuel : xs.length < fuel) : traverse next d fuel (next d) = xs :=
  h.seg.traverse_eq (List.nodup_cons.mp h.nodup).1 hfuel

end LinkedRing
