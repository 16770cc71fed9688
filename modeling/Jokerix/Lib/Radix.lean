import Mathlib.Data.Option.Basic
import Mathlib.Data.List.Induction
import Mathlib.Tactic.Common

/-!
# Radix tables

Tables whose entries may point to further tables, as page tables and tries are built. A table is
reached from a root along a path of indices. When every table knows its place, the root and the
path that lead to it, no table is shared, and what a walk finds stays while pointers stay.
-/

namespace Radix

variable {ν ι ε ρ : Type*} (store : ν → ι → ε) (next : ε → Option ν)

/-- The table that a path leads to. -/
def walk : ν → List ι → Option ν
  | n, [] => some n
  | n, i :: path => (next (store n i)).bind fun q => walk q path

@[simp] lemma walk_nil (n : ν) : walk store next n [] = some n := rfl

lemma walk_cons (n : ν) (i : ι) (path : List ι) :
    walk store next n (i :: path) = (next (store n i)).bind fun q => walk store next q path := rfl

lemma walk_concat (n : ν) (path : List ι) (i : ι) :
    walk store next n (path ++ [i]) =
      (walk store next n path).bind fun q => next (store q i) := by
  induction path generalizing n with
  | nil => simp [walk]
  | cons j path ih => simp only [List.cons_append, walk_cons, ih, Option.bind_assoc]

/-- A walk depends on the tables on its way only. -/
lemma walk_congr {store store' : ν → ι → ε} {next : ε → Option ν} {root : ν} {path : List ι}
    (h : ∀ path' n i, path'.length < path.length → walk store next root path' = some n →
      store' n i = store n i) : walk store' next root path = walk store next root path := by
  induction path using List.reverseRecOn with
  | nil => rfl
  | append_singleton path i ih =>
    simp only [List.length_append, List.length_singleton] at h
    have hpath := ih fun path' n i hlt => h path' n i (by omega)
    rw [walk_concat, walk_concat, hpath]
    cases hn : walk store next root path with
    | none => rfl
    | some n => rw [Option.bind_some, Option.bind_some, h path n i (by omega) hn]

/-- When pointers to one empty table are added, a walk leads there or where it led before. -/
lemma walk_added {store store' : ν → ι → ε} {next : ε → Option ν} {root n q : ν} {path : List ι}
    (hother : ∀ n i, n ≠ q → next (store' n i) = next (store n i) ∨ next (store' n i) = some q)
    (hempty : ∀ i, next (store' q i) = none) (hw : walk store' next root path = some n) :
    n = q ∨ walk store next root path = some n := by
  induction path using List.reverseRecOn generalizing n with
  | nil => exact .inr hw
  | append_singleton path i ih =>
    rw [walk_concat, Option.bind_eq_some_iff] at hw
    obtain ⟨p, hp, hn⟩ := hw
    by_cases hpq : p = q
    · rw [hpq, hempty] at hn
      cases hn
    · have hbefore := (ih hp).resolve_left hpq
      rcases hother p i hpq with hsame | hq
      · refine .inr ?_
        rw [walk_concat, hbefore, Option.bind_some, ← hsame, hn]
      · rw [hn] at hq
        exact .inl (Option.some.inj hq)

/-- Every table within the depth that a pointer leads to is at the place the pointer says. -/
def Placed (depth : ℕ) (place : ν → Option (ρ × List ι)) : Prop :=
  ∀ n r path i q, place n = some (r, path) → path.length + 1 < depth →
    next (store n i) = some q → place q = some (r, path ++ [i])

variable {store next} {store' : ν → ι → ε} {depth : ℕ} {place : ν → Option (ρ × List ι)}

/-- A walk ends at the place that its path says. -/
theorem Placed.walk_place (h : Placed store next depth place) {n q : ν} {r : ρ} {p path : List ι}
    (hn : place n = some (r, p)) (hlen : p.length + path.length < depth)
    (hw : walk store next n path = some q) : place q = some (r, p ++ path) := by
  induction path generalizing n p with
  | nil =>
    obtain rfl := Option.some.inj hw
    rwa [List.append_nil]
  | cons i path ih =>
    rw [walk_cons, Option.bind_eq_some_iff] at hw
    obtain ⟨m, hm, hw⟩ := hw
    rw [List.length_cons] at hlen
    have hplace := h n r p i m hn (by omega) hm
    have := ih hplace (by rw [List.length_append, List.length_singleton]; omega) hw
    rwa [List.append_assoc] at this

/-- Walks stay while pointers in placed tables stay. -/
theorem Placed.walk_mono (h : Placed store next depth place) {n q : ν} {r : ρ} {p path : List ι}
    (hkeep : ∀ n r path i q, place n = some (r, path) → path.length + 1 < depth →
      next (store n i) = some q → next (store' n i) = some q)
    (hn : place n = some (r, p)) (hlen : p.length + path.length < depth)
    (hw : walk store next n path = some q) : walk store' next n path = some q := by
  induction path generalizing n p with
  | nil => exact hw
  | cons i path ih =>
    rw [walk_cons, Option.bind_eq_some_iff] at hw ⊢
    obtain ⟨m, hm, hw⟩ := hw
    rw [List.length_cons] at hlen
    have hplace := h n r p i m hn (by omega) hm
    refine ⟨m, hkeep n r p i m hn (by omega) hm, ?_⟩
    exact ih hplace (by rw [List.length_append, List.length_singleton]; omega) hw

end Radix
