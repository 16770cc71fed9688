import Jokerix.Lib.Fifo
import Jokerix.Sched.RoundRobin

/-!
# The ready list is a queue

Every sequence of calls of the scheduler refines the queue of the tids that are pushed and popped,
and the links in both directions run through the tids that are queued.
-/

namespace Jokerix

open LinkedRing

/-- The calls of the scheduler. -/
inductive SchedOp where
  | push (tid : ℕ)
  | pop
  | tick
  | exit (tid : ℕ)

/-- One call, and what it returns if it is a pop; `none` is the source's `-1`. -/
def schedStep (s : RRScheduler) : SchedOp → Except Halt (List (Option ℕ) × RRScheduler)
  | .push tid => do
    let s ← schedulerPush s tid
    .ok ([], s)
  | .pop => .ok ([(schedulerPop s).1], (schedulerPop s).2)
  | .tick => .ok ([], (schedulerTick s).2)
  | .exit tid => .ok ([], schedulerExit s tid)

def schedRun (s : RRScheduler) : List SchedOp → Except Halt (List (Option ℕ) × RRScheduler)
  | [] => .ok ([], s)
  | op :: ops => do
    let (rets, s) ← schedStep s op
    let (rets', s) ← schedRun s ops
    .ok (rets ++ rets', s)

/-- The calls that a queue of tids knows of. -/
def SchedOp.toFifo : SchedOp → Option (Fifo.Op ℕ)
  | .push tid => some (.push tid)
  | .pop => some .pop
  | .tick => none
  | .exit _ => none

/-- The same calls on a queue of tids. -/
def fifoRun (q : List ℕ) (ops : List SchedOp) : List (Option ℕ) × List ℕ :=
  Fifo.run q (ops.filterMap SchedOp.toFifo)

/-- Every tid pushed is below the bound and not queued at the time. -/
def Pushable (q : List ℕ) (ops : List SchedOp) : Prop :=
  ∀ pre tid post, ops = pre ++ .push tid :: post → tid < maxThread ∧ tid ∉ (fifoRun q pre).2

/-- The tids met along `prev`, from the dummy head. -/
def readyListBack (s : RRScheduler) : List ℕ :=
  (traverse (fun i => (s.threads i).prev) 0 (maxThread + 1) (s.threads 0).prev).map (· - 1)

section
variable {s : RRScheduler} {q : List ℕ} {op : SchedOp} {ops : List SchedOp}

/-! ### The links -/

lemma Linked.reverse (h : Linked s q) :
    Ring (fun i => (s.threads i).prev) (fun i => (s.threads i).next) 0 (q.reverse.map (· + 1)) := by
  rw [List.map_reverse]
  exact Ring.reverse h

lemma Linked.readyListBack_eq (h : Linked s q) (hlt : ∀ t ∈ q, t < maxThread) :
    readyListBack s = q.reverse := by
  have hlen := length_le_of_nodup h.nodup hlt
  rw [readyListBack, h.reverse.traverse_eq (maxThread + 1) (by simp; omega), List.map_map]
  exact List.map_id'' (fun t => Nat.add_sub_cancel t 1) _

/-! ### One call -/

lemma fifoRun_cons (q : List ℕ) (op : SchedOp) (ops : List SchedOp) :
    fifoRun q (op :: ops) =
      ((fifoRun q [op]).1 ++ (fifoRun (fifoRun q [op]).2 ops).1,
        (fifoRun (fifoRun q [op]).2 ops).2) := by
  rw [fifoRun, ← List.singleton_append, List.filterMap_append, Fifo.run_append]
  rfl

lemma pushable_nil (q : List ℕ) : Pushable q [] := by
  intro pre tid post hops
  simp at hops

lemma pushable_cons : Pushable q (op :: ops) ↔
    (∀ tid, op = .push tid → tid < maxThread ∧ tid ∉ q) ∧ Pushable (fifoRun q [op]).2 ops := by
  constructor
  · intro h
    refine ⟨fun tid hop => h [] tid ops (by rw [hop]; rfl), ?_⟩
    intro pre tid post hops
    have := h (op :: pre) tid post (by rw [hops]; rfl)
    rwa [fifoRun_cons] at this
  · rintro ⟨hhead, htail⟩ pre tid post hops
    cases pre with
    | nil => exact hhead tid (List.cons.inj hops).1
    | cons op' pre =>
      obtain ⟨rfl, htl⟩ := List.cons.inj hops
      rw [fifoRun_cons]
      exact htail pre tid post htl

/-- The ready list is linked, and its tids are below the bound. -/
structure Queued (s : RRScheduler) (q : List ℕ) : Prop where
  linked : Linked s q
  lt : ∀ t ∈ q, t < maxThread

/-- Step lemma: a call does to the ready list what it does to the queue. -/
lemma Queued.step (h : Queued s q)
    (hop : ∀ tid, op = .push tid → tid < maxThread ∧ tid ∉ q) :
    ∃ s', schedStep s op = .ok ((fifoRun q [op]).1, s') ∧ Queued s' (fifoRun q [op]).2 := by
  cases op with
  | push tid =>
    obtain ⟨hlt, hnot⟩ := hop tid rfl
    obtain ⟨s', hpush, hlinked⟩ := h.linked.push hnot hlt
    refine ⟨s', ?_, hlinked, ?_⟩
    · rw [schedStep, hpush]
      rfl
    · intro t ht
      rcases List.mem_append.mp ht with ht | ht
      · exact h.lt t ht
      · rw [List.mem_singleton.mp ht]
        exact hlt
  | pop =>
    cases q with
    | nil =>
      refine ⟨s, ?_, h⟩
      rw [schedStep, h.linked.pop_nil]
      rfl
    | cons tid q =>
      obtain ⟨s', hpop, hlinked, _⟩ := h.linked.pop
      refine ⟨s', ?_, hlinked, fun t ht => h.lt t (List.mem_cons_of_mem _ ht)⟩
      rw [schedStep, hpop]
      rfl
  | tick => exact ⟨_, rfl, h.linked.tick, h.lt⟩
  | exit tid => exact ⟨_, rfl, h.linked.exit tid, h.lt⟩

/-- Run lemma. -/
lemma Queued.run (h : Queued s q) (hops : Pushable q ops) :
    ∃ s', schedRun s ops = .ok ((fifoRun q ops).1, s') ∧ Queued s' (fifoRun q ops).2 := by
  induction ops generalizing s q with
  | nil => exact ⟨s, rfl, h⟩
  | cons op ops ih =>
    obtain ⟨hop, hops⟩ := pushable_cons.mp hops
    obtain ⟨s₁, hstep, h₁⟩ := h.step hop
    obtain ⟨s', hrun, h'⟩ := ih h₁ hops
    rw [fifoRun_cons q op ops]
    refine ⟨s', ?_, h'⟩
    rw [schedRun, bind_ok hstep]
    simp only
    rw [bind_ok hrun]

end

/-- Every sequence of calls from `schedulerInit` returns what a queue of the tids returns, which are
the tids in the order in which they were pushed, and `none` exactly when none is queued. Behind it
the links run forwards and backwards through the tids that are queued. -/
theorem readyList_fifo (s₀ : RRScheduler) (ops : List SchedOp) (h : Pushable [] ops) :
    ∃ s, schedRun (schedulerInit s₀) ops = .ok ((fifoRun [] ops).1, s) ∧
      (fifoRun [] ops).1.reduceOption ++ (fifoRun [] ops).2 =
        Fifo.pushed (ops.filterMap SchedOp.toFifo) ∧
      readyList s = (fifoRun [] ops).2 ∧ readyListBack s = (fifoRun [] ops).2.reverse := by
  have hinit : Queued (schedulerInit s₀) [] := ⟨schedulerInit_linked s₀, by simp⟩
  obtain ⟨s, hrun, hlinked, hlt⟩ := hinit.run h
  exact ⟨s, hrun, Fifo.returned_append_left [] _, hlinked.readyList_eq hlt,
    hlinked.readyListBack_eq hlt⟩

/-- Three threads take turns, and the queue runs empty. -/
theorem readyList_fifo_turns : ∃ s,
    schedRun (schedulerInit ⟨fun _ => ⟨0, 0, 0, 0⟩, 0, 0⟩)
      [.push 2, .push 0, .pop, .tick, .push 2, .pop, .pop, .pop, .push 1] =
        .ok ([some 2, some 0, some 2, none], s) ∧ readyList s = [1] := by
  obtain ⟨s, hrun, _, hlist, _⟩ := readyList_fifo ⟨fun _ => ⟨0, 0, 0, 0⟩, 0, 0⟩
    [.push 2, .push 0, .pop, .tick, .push 2, .pop, .pop, .pop, .push 1] (by
      simp [pushable_cons, pushable_nil, fifoRun, Fifo.step, SchedOp.toFifo, maxThread,
        List.filterMap_cons])
  exact ⟨s, hrun, hlist⟩

end Jokerix
