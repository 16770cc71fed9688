import Mathlib.Tactic.Common

/-!
# Monitors

A monitor reads a list of actions and changes its state at each; one state is `bad` and is never
left. A list is accepted when the monitor does not end in `bad`, and then no prefix of it is
rejected. `until_release` is the rule for "nothing forbidden happens before a release".
-/

/-- An automaton over actions with an absorbing bad state. -/
structure Monitor (α σ : Type*) where
  step : σ → α → σ
  bad : σ
  absorbing : ∀ a, step bad a = bad

namespace Monitor

variable {α σ : Type*} (m : Monitor α σ)

/-- The state after a list of actions. -/
def after (s : σ) (xs : List α) : σ := xs.foldl m.step s

@[simp] lemma after_nil (s : σ) : m.after s [] = s := rfl

@[simp] lemma after_cons (s : σ) (x : α) (xs : List α) :
    m.after s (x :: xs) = m.after (m.step s x) xs := rfl

@[simp] lemma after_append (s : σ) (xs ys : List α) :
    m.after s (xs ++ ys) = m.after (m.after s xs) ys := List.foldl_append

lemma after_bad (xs : List α) : m.after m.bad xs = m.bad := by
  induction xs with
  | nil => rfl
  | cons x xs ih => rw [after_cons, m.absorbing, ih]

variable {m}

/-- A prefix of an accepted list is accepted. -/
lemma accepts_prefix {s : σ} {xs : List α} (ys : List α) (h : m.after s (xs ++ ys) ≠ m.bad) :
    m.after s xs ≠ m.bad := by
  intro hbad
  rw [after_append, hbad, after_bad] at h
  exact h rfl

/-- States that only a release leaves, and in which forbidden actions are rejected: in an accepted
list without a release nothing forbidden happens and the state is still one of them. -/
theorem until_release {S : σ → Prop} {s : σ} (release forbidden : α → Prop) {xs : List α} (hs : S s)
    (hstay : ∀ s a, S s → ¬ release a → S (m.step s a) ∨ m.step s a = m.bad)
    (hforbid : ∀ s a, S s → forbidden a → m.step s a = m.bad)
    (hxs : ∀ a ∈ xs, ¬ release a) (h : m.after s xs ≠ m.bad) :
    S (m.after s xs) ∧ ∀ a ∈ xs, ¬ forbidden a := by
  induction xs generalizing s with
  | nil => exact ⟨hs, by simp⟩
  | cons x xs ih =>
    rw [after_cons] at h ⊢
    have hstep : m.step s x ≠ m.bad := by
      intro hbad
      rw [hbad, after_bad] at h
      exact h rfl
    have hsame := (hstay s x hs (hxs x List.mem_cons_self)).resolve_right hstep
    obtain ⟨hend, hno⟩ := ih hsame (fun a ha => hxs a (List.mem_cons_of_mem _ ha)) h
    refine ⟨hend, ?_⟩
    intro a ha
    rcases List.mem_cons.mp ha with rfl | ha
    · exact fun hf => hstep (hforbid s a hs hf)
    · exact hno a ha

end Monitor
