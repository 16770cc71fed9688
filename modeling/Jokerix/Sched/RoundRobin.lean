import Jokerix.Lib.Ring
import Jokerix.Consts
import Mathlib.Algebra.Group.Nat.Defs
import Mathlib.Data.List.Perm.Subperm
import Mathlib.Data.List.Range

/-!
# The round-robin scheduler

The ready list of `kernel/rrscheduler.c`: a circular doubly linked list over the entries of an
array, in which thread `tid` has entry `tid + 1` and entry `0` is the dummy head.
-/

namespace Jokerix

open LinkedRing

structure RRInfo where
  valid : ℕ
  /-- The time slice left. -/
  time : ℕ
  prev : ℕ
  next : ℕ

/-- The global `rrScheduler`. -/
structure RRScheduler where
  threads : ℕ → RRInfo
  maxTime : ℕ
  current : ℕ

def schedulerInit (s : RRScheduler) : RRScheduler where
  maxTime := 1
  current := 0
  threads := Function.update s.threads 0 ⟨0, 0, 0, 0⟩

/-- Put a thread at the back of the ready list. -/
def schedulerPush (s : RRScheduler) (tid : ℕ) : Except Halt RRScheduler :=
  let tid := tid + 1
  if tid + 1 > maxThread + 1 then .error (.panic "Cannot push to scheduler!\n")
  else
    let t := s.threads
    let t := if (t tid).time = 0 then Function.update t tid { t tid with time := s.maxTime } else t
    let prev := (t 0).prev
    let t := Function.update t tid { t tid with valid := 1 }
    let t := Function.update t prev { t prev with next := tid }
    let t := Function.update t tid { t tid with prev := prev }
    let t := Function.update t 0 { t 0 with prev := tid }
    let t := Function.update t tid { t tid with next := 0 }
    .ok { s with threads := t }

/-- Take a thread from the front of the ready list; `none` when it is empty. -/
def schedulerPop (s : RRScheduler) : Option ℕ × RRScheduler :=
  let ret := (s.threads 0).next
  if ret ≠ 0 then
    let t := s.threads
    let next := (t ret).next
    let prev := (t ret).prev
    let t := Function.update t next { t next with prev := prev }
    let t := Function.update t prev { t prev with next := next }
    let t := Function.update t ret { t ret with prev := 0 }
    let t := Function.update t ret { t ret with next := 0 }
    let t := Function.update t ret { t ret with valid := 0 }
    (some (ret - 1), { s with threads := t, current := ret })
  else (none, s)

/-- Count a tick of the running thread: whether it is to be switched out. -/
def schedulerTick (s : RRScheduler) : Bool × RRScheduler :=
  let tid := s.current
  if tid ≠ 0 then
    -- `time` is unsigned
    let time := ((s.threads tid).time + 2 ^ 64 - 1) % 2 ^ 64
    (time = 0, { s with threads := Function.update s.threads tid { s.threads tid with time } })
  else (true, s)

def schedulerExit (s : RRScheduler) (tid : ℕ) : RRScheduler :=
  if s.current = tid + 1 then { s with current := 0 } else s

/-- The tids linked in the ready list, from the front. -/
def readyList (s : RRScheduler) : List ℕ :=
  (traverse (fun i => (s.threads i).next) 0 (maxThread + 1) (s.threads 0).next).map (· - 1)

/-! ### What the ready list holds -/

/-- The ready list holds the tids `ready`. -/
def Linked (s : RRScheduler) (ready : List ℕ) : Prop :=
  Ring (fun i => (s.threads i).next) (fun i => (s.threads i).prev) 0 (ready.map (· + 1))

section
variable {s s' : RRScheduler} {ready : List ℕ} {tid : ℕ}

lemma Linked.nodup (h : Linked s ready) : ready.Nodup :=
  List.Nodup.of_map _ (List.nodup_cons.mp (Ring.nodup h)).2

/-- Distinct tids below the bound fit the array. -/
lemma length_le_of_nodup {xs : List ℕ} {n : ℕ} (hnd : xs.Nodup) (hlt : ∀ x ∈ xs, x < n) :
    xs.length ≤ n := by
  have hsub : xs ⊆ List.range n := fun x hx => List.mem_range.mpr (hlt x hx)
  have hle := (List.subperm_of_subset hnd hsub).length_le
  rwa [List.length_range] at hle

lemma Linked.readyList_eq (h : Linked s ready) (hlt : ∀ t ∈ ready, t < maxThread) :
    readyList s = ready := by
  have hlen := length_le_of_nodup h.nodup hlt
  have htrav := Ring.traverse_eq h (maxThread + 1) (by rw [List.length_map]; omega)
  rw [readyList, htrav, List.map_map]
  exact List.map_id'' (fun t => Nat.add_sub_cancel t 1) ready

lemma schedulerInit_linked (s : RRScheduler) : Linked (schedulerInit s) [] :=
  Ring.nil rfl rfl

/-- Pushing a thread that is not in the list puts it at the back. -/
lemma Linked.push (h : Linked s ready) (hnot : tid ∉ ready) (hlt : tid < maxThread) :
    ∃ s', schedulerPush s tid = .ok s' ∧ Linked s' (ready ++ [tid]) := by
  have hfresh : tid + 1 ∉ 0 :: ready.map (· + 1) := by simpa using hnot
  have hring := Ring.push h hfresh
  refine ⟨_, by rw [schedulerPush, if_neg (by omega)], ?_⟩
  rw [Linked, List.map_append]
  apply hring.congr
  · intro x hx
    split_ifs <;> grind
  · intro x hx
    split_ifs <;> grind

/-- Popping takes the front thread out. -/
lemma Linked.pop (h : Linked s (tid :: ready)) :
    ∃ s', schedulerPop s = (some tid, s') ∧ Linked s' ready ∧ s'.current = tid + 1 := by
  have hring := Ring.pop h
  have hfront : (s.threads 0).next = tid + 1 := h.seg.1
  have hnd := Ring.nodup h
  refine ⟨_, by rw [schedulerPop, if_pos (by omega), hfront]; rfl, ?_, rfl⟩
  apply hring.congr
  · intro x hx
    grind
  · intro x hx
    grind

lemma Linked.pop_nil (h : Linked s []) : schedulerPop s = (none, s) := by
  have hfront : (s.threads 0).next = 0 := h.seg.1
  rw [schedulerPop, if_neg (by omega)]

/-- The time slices play no part in which threads are linked. -/
lemma Linked.tick (h : Linked s ready) : Linked (schedulerTick s).2 ready := by
  by_cases hcur : s.current ≠ 0
  · simp only [schedulerTick, if_pos hcur]
    apply Ring.congr h
    · intro x _
      simp only [Function.update_apply]
      split_ifs with hx
      · rw [hx]
      · rfl
    · intro x _
      simp only [Function.update_apply]
      split_ifs with hx
      · rw [hx]
      · rfl
  · simp only [schedulerTick, if_neg hcur]
    exact h

lemma Linked.exit (h : Linked s ready) (tid : ℕ) : Linked (schedulerExit s tid) ready := by
  unfold schedulerExit
  split_ifs <;> exact h

end

end Jokerix
