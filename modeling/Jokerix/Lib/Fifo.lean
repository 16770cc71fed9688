import Mathlib.Data.List.ReduceOption

/-!
# First in, first out

A queue as the list of its items from the front: what a sequence of operations returns and what it
leaves.
-/

namespace Fifo

variable {α : Type*}

inductive Op (α : Type*) where
  | push (x : α)
  | pop

/-- What an operation returns, and the queue behind it. Popping returns `none` when no item is
left. -/
def step (q : List α) : Op α → List (Option α) × List α
  | .push x => ([], q ++ [x])
  | .pop => ([q.head?], q.tail)

def run (q : List α) : List (Op α) → List (Option α) × List α
  | [] => ([], q)
  | op :: ops =>
    let (rets, q) := step q op
    let (rets', q) := run q ops
    (rets ++ rets', q)

/-- The items pushed, in order. -/
def pushed : List (Op α) → List α
  | [] => []
  | .push x :: ops => x :: pushed ops
  | .pop :: ops => pushed ops

@[simp] lemma run_nil (q : List α) : run q [] = ([], q) := rfl

@[simp] lemma run_cons (q : List α) (op : Op α) (ops : List (Op α)) :
    run q (op :: ops) =
      ((step q op).1 ++ (run (step q op).2 ops).1, (run (step q op).2 ops).2) := rfl

lemma run_append (q : List α) (ops ops' : List (Op α)) :
    run q (ops ++ ops') =
      ((run q ops).1 ++ (run (run q ops).2 ops').1, (run (run q ops).2 ops').2) := by
  induction ops generalizing q with
  | nil => rfl
  | cons op ops ih => simp [ih, List.append_assoc]

/-- Nothing is lost, doubled or overtaken: what was returned and what is left are the items that
were there and those pushed, in order. -/
theorem returned_append_left (q : List α) (ops : List (Op α)) :
    (run q ops).1.reduceOption ++ (run q ops).2 = q ++ pushed ops := by
  induction ops generalizing q with
  | nil => simp [pushed]
  | cons op ops ih =>
    rw [run_cons, List.reduceOption_append, List.append_assoc, ih]
    cases op with
    | push x => simp [step, pushed]
    | pop => cases q <;> simp [step, pushed]

end Fifo
