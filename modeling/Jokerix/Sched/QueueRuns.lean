import Jokerix.Lib.Fifo
import Jokerix.Lib.Monitor
import Jokerix.Sched.Queue

/-!
# Queues over runs

Any number of queues on the kernel heap, among other allocations: each is a first-in, first-out
queue of its own, and its nodes are freed once.
-/

namespace Jokerix

/-- What the queues do with the heap. -/
inductive NodeEvent where
  | allocated (node : ℕ)
  | freed (node : ℕ)

/-- The queues and the heap. The rest says what happened: the blocks that others hold, the items
popped from each queue, and the nodes allocated and freed, in order. -/
structure QueueState (ι : Type*) where
  heap : KernelHeap
  queues : ι → Queue
  blocks : List (ℕ × ℕ)
  popped : ι → List ℕ
  log : List NodeEvent

/-- The calls of a run. `write` is a store of another client into a block that it holds. -/
inductive QueueOp (ι : Type*) where
  | pushBack (i : ι) (data : ℕ)
  | popFront (i : ι)
  | kalloc (size : BitVec 32)
  | kfree (ptr : ℕ)
  | write (addr : ℕ) (value : UInt8)

section
variable {ι : Type*} [DecidableEq ι]

/-- One call; `none` for a call that is not allowed and for an allocation that fails. The node that
`pushBack` allocates is the new tail, and the one that `popFront` frees is the old head. -/
def queueStep (s : QueueState ι) : QueueOp ι → Option (QueueState ι)
  | .pushBack i data =>
    match pushBack s.heap (s.queues i) data with
    | .ok (heap, q) =>
      some { s with
        heap
        queues := Function.update s.queues i q
        log := s.log ++ [.allocated q.tail] }
    | .error _ => none
  | .popFront i =>
    if isEmpty (s.queues i) = true then none
    else
      let (item, heap, q) := popFront s.heap (s.queues i)
      some { s with
        heap
        queues := Function.update s.queues i q
        popped := Function.update s.popped i (s.popped i ++ [item])
        log := s.log ++ [.freed (s.queues i).head] }
  | .kalloc size =>
    match kalloc s.heap size with
    | .ok (ptr, heap) =>
      -- without a positive size nothing is allocated
      if 0 < size.toInt then
        some { s with heap, blocks := (ptr, kallocBytes size) :: s.blocks }
      else some { s with heap }
    | .error _ => none
  | .kfree ptr =>
    if ptr ∈ s.blocks.map Prod.fst then
      some { s with heap := kfree s.heap ptr, blocks := s.blocks.filter fun b => b.1 ≠ ptr }
    else none
  | .write addr value =>
    if ∃ b ∈ s.blocks, b.1 ≤ addr ∧ addr < b.1 + b.2 then
      some { s with heap := { s.heap with mem := Function.update s.heap.mem addr value } }
    else none

def queueRun (s : QueueState ι) (ops : List (QueueOp ι)) : Option (QueueState ι) :=
  ops.foldlM queueStep s

/-- A new heap and queues with `head = tail = 0`. -/
def QueueState.start (h : KernelHeap) : QueueState ι :=
  ⟨initHeap h, fun _ => ⟨0, 0⟩, [], fun _ => [], []⟩

/-- What a call is to the queue `i`. -/
def QueueOp.toFifo (i : ι) : QueueOp ι → Option (Fifo.Op ℕ)
  | .pushBack j data => if j = i then some (.push (data % 2 ^ 64)) else none
  | .popFront j => if j = i then some .pop else none
  | _ => none

/-! ### The life of a node -/

inductive NodeLife where
  | free
  | held
  | broken
  deriving DecidableEq

/-- A node is allocated when it is free, and freed when it is held. -/
def nodeLifeStep (n : ℕ) : NodeLife → NodeEvent → NodeLife
  | .free, .allocated x => if x = n then .held else .free
  | .free, .freed x => if x = n then .broken else .free
  | .held, .allocated x => if x = n then .broken else .held
  | .held, .freed x => if x = n then .free else .held
  | .broken, _ => .broken

def nodeMonitor (n : ℕ) : Monitor NodeEvent NodeLife where
  step := nodeLifeStep n
  bad := .broken
  absorbing := fun a => by cases a <;> rfl

def nodeLife (log : List NodeEvent) (n : ℕ) : NodeLife := (nodeMonitor n).after .free log

lemma nodeLife_snoc (log : List NodeEvent) (e : NodeEvent) (n : ℕ) :
    nodeLife (log ++ [e]) n = nodeLifeStep n (nodeLife log n) e := by
  simp [nodeLife, nodeMonitor]

/-! ### The nodes of all queues -/

/-- The nodes of the queue `i` among those of all queues. -/
def nodesOf (all : List (ι × ℕ × ℕ)) (i : ι) : List (ℕ × ℕ) :=
  (all.filter fun x => x.1 = i).map Prod.snd

/-- The nodes of the other queues. -/
def othersOf (all : List (ι × ℕ × ℕ)) (i : ι) : List (ℕ × ℕ) :=
  (all.filter fun x => ¬ x.1 = i).map Prod.snd

variable {all all' : List (ι × ℕ × ℕ)} {i j : ι} {s s' : QueueState ι} {op : QueueOp ι}
  {n data : ℕ}

lemma nodesOf_perm (all : List (ι × ℕ × ℕ)) (i : ι) :
    (all.map Prod.snd).Perm (nodesOf all i ++ othersOf all i) := by
  rw [nodesOf, othersOf, ← List.map_append]
  simpa using (List.filter_append_perm (fun x => decide (x.1 = i)) all).symm.map Prod.snd

lemma mem_othersOf {x : ℕ × ℕ} (hne : j ≠ i) (hx : x ∈ nodesOf all j) : x ∈ othersOf all i := by
  simp only [nodesOf, othersOf, List.mem_map, List.mem_filter, decide_eq_true_eq] at hx ⊢
  obtain ⟨y, ⟨hy, rfl⟩, rfl⟩ := hx
  exact ⟨y, ⟨hy, hne⟩, rfl⟩

lemma nodeBlocks_append (xs ys : List (ℕ × ℕ)) :
    nodeBlocks (xs ++ ys) = nodeBlocks xs ++ nodeBlocks ys := List.map_append

/-- Each queue has its nodes on the heap, and these are the nodes that are held. -/
structure QueuesInv (s : QueueState ι) (all : List (ι × ℕ × ℕ)) : Prop where
  rep : ∀ i, QueueRep s.heap.mem (s.queues i) (nodesOf all i)
  holds : Holds s.heap (nodeBlocks (all.map Prod.snd) ++ s.blocks)
  life : ∀ n, nodeLife s.log n = if n ∈ all.map (fun x => x.2.1) then .held else .free

/-- What a call does to the nodes of each queue. -/
def Advances (s s' : QueueState ι) (all all' : List (ι × ℕ × ℕ)) (op : QueueOp ι) : Prop :=
  ∀ i, match op.toFifo i with
    | none => s'.queues i = s.queues i ∧ nodesOf all' i = nodesOf all i ∧ s'.popped i = s.popped i
    | some (.push x) => (∃ n, nodesOf all' i = nodesOf all i ++ [(n, x)]) ∧ s'.popped i = s.popped i
    | some .pop => ∃ n x, nodesOf all i = (n, x) :: nodesOf all' i ∧
        s'.popped i = s.popped i ++ [x]

lemma blocks_perm (all : List (ι × ℕ × ℕ)) (i : ι) (blocks : List (ℕ × ℕ)) :
    (nodeBlocks (all.map Prod.snd) ++ blocks).Perm
      (nodeBlocks (nodesOf all i) ++ (nodeBlocks (othersOf all i) ++ blocks)) := by
  rw [← List.append_assoc, ← nodeBlocks_append]
  exact ((nodesOf_perm all i).map _).append_right _

/-- The nodes of a queue with one more at the back. -/
lemma nodesOf_snoc (all : List (ι × ℕ × ℕ)) (i j : ι) (x : ℕ × ℕ) :
    nodesOf (all ++ [(i, x)]) j = if i = j then nodesOf all j ++ [x] else nodesOf all j := by
  split_ifs with hij <;> simp [nodesOf, List.filter_append, hij]

lemma othersOf_snoc (all : List (ι × ℕ × ℕ)) (i : ι) (x : ℕ × ℕ) :
    othersOf (all ++ [(i, x)]) i = othersOf all i := by
  simp [othersOf, List.filter_append]

/-- The nodes without the front node of a queue. -/
lemma nodesOf_eq_cons {x : ℕ × ℕ} {nodes : List (ℕ × ℕ)} (h : nodesOf all i = x :: nodes) :
    ∃ all', nodesOf all' i = nodes ∧ (∀ j, i ≠ j → nodesOf all' j = nodesOf all j) ∧
      othersOf all' i = othersOf all i ∧
      (all.map fun y => y.2.1).Perm (x.1 :: all'.map fun y => y.2.1) := by
  obtain ⟨⟨k, y⟩, ys, hfilter, rfl, rfl⟩ := List.map_eq_cons_iff.mp h
  obtain ⟨pre, post, rfl, hpre, hk, rfl⟩ := List.filter_eq_cons_iff.mp hfilter
  obtain rfl : k = i := by simpa using hk
  have hnone : pre.filter (fun x => x.1 = k) = [] := List.filter_eq_nil_iff.mpr hpre
  refine ⟨pre ++ post, ?_, ?_, ?_, ?_⟩
  · simp [nodesOf, List.filter_append, hnone]
  · intro j hne
    simp [nodesOf, List.filter_append, hne]
  · simp [othersOf, List.filter_append]
  · simp only [List.map_append, List.map_cons]
    exact List.perm_middle

omit [DecidableEq ι] in
lemma Holds.nodes_nodup {h : KernelHeap} {nodes blocks : List (ℕ × ℕ)}
    (hh : Holds h (nodeBlocks nodes ++ blocks)) : (nodes.map Prod.fst).Nodup := by
  have hpw := (List.pairwise_append.mp hh.pairwise_apart).1
  rw [nodeBlocks, List.pairwise_map] at hpw
  refine List.pairwise_map.mpr (hpw.imp ?_)
  intro x y hab
  simp only [Apart, kallocBytes_sizeofNode] at hab
  omega

/-- The heap as the queue `i` sees it. -/
lemma QueuesInv.holds_nodesOf (hi : QueuesInv s all) (i : ι) :
    Holds s.heap (nodeBlocks (nodesOf all i) ++ (nodeBlocks (othersOf all i) ++ s.blocks)) := by
  exact hi.holds.perm (blocks_perm all i s.blocks)

lemma QueuesInv.isEmpty_iff (hi : QueuesInv s all) (i : ι) :
    isEmpty (s.queues i) = true ↔ nodesOf all i = [] :=
  (hi.rep i).isEmpty_iff (hi.holds_nodesOf i)

/-- The queues keep their nodes when the bytes of these do not change. -/
lemma QueuesInv.rep_congr (hi : QueuesInv s all) {mem : Bytes.Memory}
    (hmem : ∀ b ∈ nodeBlocks (all.map Prod.snd), ∀ a, b.1 ≤ a → a < b.1 + b.2 →
      mem a = s.heap.mem a) (i : ι) : QueueRep mem (s.queues i) (nodesOf all i) := by
  apply (hi.rep i).congr
  intro x hx a h1 h2
  have hx' : x ∈ all.map Prod.snd :=
    (nodesOf_perm all i).mem_iff.mpr (List.mem_append_left _ hx)
  exact hmem _ (mem_nodeBlocks hx') a h1 (by simp only; omega)

/-! ### One call -/

/-- The addresses of the nodes of all queues are distinct. -/
lemma QueuesInv.nodup (hi : QueuesInv s all) : (all.map fun x => x.2.1).Nodup := by
  have h := hi.holds.nodes_nodup
  rwa [List.map_map] at h

lemma QueuesInv.pushBack (hi : QueuesInv s all) (hs : queueStep s (.pushBack i data) = some s') :
    ∃ all', QueuesInv s' all' ∧ Advances s s' all all' (.pushBack i data) := by
  rw [queueStep] at hs
  split at hs
  · rename_i heap q hok
    obtain rfl := Option.some.inj hs
    obtain ⟨n, hh', hq', _, hframe⟩ := (hi.rep i).pushBack (hi.holds_nodesOf i) hok
    have htail : q.tail = n := by simpa using hq'.tail
    set all' := all ++ [(i, n, data % 2 ^ 64)] with hall
    have hholds : Holds heap (nodeBlocks (all'.map Prod.snd) ++ s.blocks) := by
      apply hh'.perm
      have hp := blocks_perm all' i s.blocks
      rw [hall, nodesOf_snoc, if_pos rfl, othersOf_snoc] at hp
      exact hp.symm
    refine ⟨all', ⟨?_, hholds, ?_⟩, ?_⟩
    · intro j
      dsimp only
      rw [hall, nodesOf_snoc]
      split_ifs with hij
      · subst hij
        rw [Function.update_self]
        exact hq'
      · rw [Function.update_of_ne (Ne.symm hij)]
        apply (hi.rep j).congr
        intro x hx a h1 h2
        have hx' := mem_othersOf (Ne.symm hij) hx
        exact hframe _ (List.mem_append_left _ (mem_nodeBlocks hx')) a h1 (by simp only; omega)
    · intro m
      have hnd := hholds.nodes_nodup
      simp only [hall, List.map_append, List.map_map, List.map_cons, List.map_nil] at hnd
      have hfresh : n ∉ all.map fun x => x.2.1 := by
        intro hmem
        exact (List.nodup_append.mp hnd).2.2 n hmem n (by simp) rfl
      rw [nodeLife_snoc, hi.life, htail, hall, List.map_append]
      by_cases hm : n = m
      · subst hm
        simp [hfresh, nodeLifeStep]
      · split_ifs with h1 h2 h2 <;> simp_all [nodeLifeStep, eq_comm]
    · intro j
      by_cases hij : i = j
      · subst hij
        simp only [QueueOp.toFifo, if_true]
        exact ⟨⟨n, by rw [hall, nodesOf_snoc, if_pos rfl]⟩, trivial⟩
      · simp only [QueueOp.toFifo, if_neg hij]
        exact ⟨Function.update_of_ne (Ne.symm hij) _ _,
          by rw [hall, nodesOf_snoc, if_neg hij], trivial⟩
  · cases hs

lemma QueuesInv.popFront (hi : QueuesInv s all) (hs : queueStep s (.popFront i) = some s') :
    ∃ all', QueuesInv s' all' ∧ Advances s s' all all' (.popFront i) := by
  rw [queueStep] at hs
  split_ifs at hs with hempty
  rw [hi.isEmpty_iff] at hempty
  obtain ⟨⟨n, v⟩, nodes, hnodes⟩ := List.exists_cons_of_ne_nil hempty
  obtain ⟨all', hself, hother, hothers, hperm⟩ := nodesOf_eq_cons hnodes
  have hrep := hi.rep i
  have hholds := hi.holds_nodesOf i
  rw [hnodes] at hrep hholds
  have hhead : (s.queues i).head = n := hrep.head
  obtain ⟨heap, q, hpop, hh', hq', hmem, _⟩ := hrep.popFront hholds
  rw [hpop] at hs
  obtain rfl := Option.some.inj hs
  refine ⟨all', ⟨?_, ?_, ?_⟩, ?_⟩
  · intro j
    dsimp only
    by_cases hij : i = j
    · subst hij
      rw [Function.update_self, hself]
      exact hq'
    · rw [Function.update_of_ne (Ne.symm hij), hother j hij, hmem]
      exact hi.rep j
  · apply hh'.perm
    have hp := blocks_perm all' i s.blocks
    rw [hself, hothers] at hp
    exact hp.symm
  · intro m
    have hnd := hperm.nodup_iff.mp hi.nodup
    rw [List.nodup_cons] at hnd
    have hmem' := hperm.mem_iff (a := m)
    rw [nodeLife_snoc, hi.life, hhead]
    by_cases hm : n = m
    · subst hm
      rw [if_pos (hmem'.mpr List.mem_cons_self), if_neg hnd.1, nodeLifeStep, if_pos rfl]
    · rw [List.mem_cons, or_iff_right (Ne.symm hm)] at hmem'
      rw [if_congr hmem' rfl rfl]
      split_ifs <;> simp [nodeLifeStep, hm]
  · intro j
    by_cases hij : i = j
    · subst hij
      simp only [QueueOp.toFifo, if_true]
      exact ⟨n, v, by rw [hnodes, hself], Function.update_self _ _ _⟩
    · simp only [QueueOp.toFifo, if_neg hij]
      exact ⟨Function.update_of_ne (Ne.symm hij) _ _, hother j hij,
        Function.update_of_ne (Ne.symm hij) _ _⟩

lemma advances_refl (hqueues : s'.queues = s.queues) (hpopped : s'.popped = s.popped)
    (hop : ∀ i, op.toFifo i = none) : Advances s s' all all op := by
  intro i
  rw [hop i]
  exact ⟨by rw [hqueues], rfl, by rw [hpopped]⟩

lemma QueuesInv.kalloc {size : BitVec 32} (hi : QueuesInv s all)
    (hs : queueStep s (.kalloc size) = some s') :
    QueuesInv s' all ∧ Advances s s' all all (.kalloc size) := by
  rw [queueStep] at hs
  split at hs
  · rename_i ptr heap hok
    split_ifs at hs with hpos
    · obtain rfl := Option.some.inj hs
      obtain ⟨hh', hapart, _, hmem⟩ := hi.holds.kalloc hpos hok
      refine ⟨⟨?_, hh'.perm List.perm_middle.symm, hi.life⟩, advances_refl rfl rfl fun _ => rfl⟩
      apply hi.rep_congr
      intro b hb a h1 h2
      have hab := hapart b (List.mem_append_left _ hb)
      simp only [Apart] at hab
      rw [hmem, Bytes.fill_of_not_mem (by omega)]
    · obtain rfl := Option.some.inj hs
      rw [Jokerix.kalloc, if_pos (not_lt.mp hpos), Except.ok.injEq, Prod.mk.injEq] at hok
      obtain ⟨_, rfl⟩ := hok
      exact ⟨hi, advances_refl rfl rfl fun _ => rfl⟩
  · cases hs

lemma QueuesInv.kfree {ptr : ℕ} (hi : QueuesInv s all) (hs : queueStep s (.kfree ptr) = some s') :
    QueuesInv s' all ∧ Advances s s' all all (.kfree ptr) := by
  rw [queueStep] at hs
  split_ifs at hs with hptr
  obtain rfl := Option.some.inj hs
  have hlive : ptr ∈ (nodeBlocks (all.map Prod.snd) ++ s.blocks).map Prod.fst := by
    rw [List.map_append]
    exact List.mem_append_right _ hptr
  obtain ⟨hh', hmem, _⟩ := hi.holds.kfree hlive
  refine ⟨⟨fun i => hmem ▸ hi.rep i, ?_, hi.life⟩, advances_refl rfl rfl fun _ => rfl⟩
  rw [List.filter_append, List.filter_eq_self.mpr] at hh'
  · exact hh'
  · intro b hb
    obtain ⟨b', hb', rfl⟩ := List.mem_map.mp hptr
    have hab := (List.pairwise_append.mp hi.holds.pairwise_apart).2.2 b hb b' hb'
    have hpos := (hi.holds.inside (List.mem_append_left _ hb)).1
    have hpos' := (hi.holds.inside (List.mem_append_right _ hb')).1
    simp only [Apart] at hab
    simp only [ne_eq, decide_not, Bool.not_eq_eq_eq_not, Bool.not_true, decide_eq_false_iff_not]
    omega

lemma QueuesInv.write {addr : ℕ} {value : UInt8} (hi : QueuesInv s all)
    (hs : queueStep s (.write addr value) = some s') :
    QueuesInv s' all ∧ Advances s s' all all (.write addr value) := by
  rw [queueStep] at hs
  split_ifs at hs with hblock
  obtain rfl := Option.some.inj hs
  obtain ⟨b', hb', hlow, hhigh⟩ := hblock
  refine ⟨⟨?_, hi.holds.setMem _, hi.life⟩, advances_refl rfl rfl fun _ => rfl⟩
  apply hi.rep_congr
  intro b hb a h1 h2
  have hab := (List.pairwise_append.mp hi.holds.pairwise_apart).2.2 b hb b' hb'
  simp only [Apart] at hab
  exact Function.update_of_ne (by omega) _ _

/-- Step lemma. -/
lemma QueuesInv.step (hi : QueuesInv s all) (hs : queueStep s op = some s') :
    ∃ all', QueuesInv s' all' ∧ Advances s s' all all' op := by
  cases op with
  | pushBack i data => exact hi.pushBack hs
  | popFront i => exact hi.popFront hs
  | kalloc size => exact ⟨all, hi.kalloc hs⟩
  | kfree ptr => exact ⟨all, hi.kfree hs⟩
  | write addr value => exact ⟨all, hi.write hs⟩

/-! ### Runs -/

lemma queuesInv_start (h : KernelHeap) : QueuesInv (.start h : QueueState ι) [] :=
  ⟨fun _ => ⟨trivial, rfl, rfl⟩, holds_initHeap h, fun _ => rfl⟩

/-- Each queue has returned, and holds, what a queue of its items has. -/
def Follows (ops : List (QueueOp ι)) (s : QueueState ι) (all : List (ι × ℕ × ℕ)) : Prop :=
  ∀ i, Fifo.run [] (ops.filterMap (QueueOp.toFifo i)) =
    ((s.popped i).map some, (nodesOf all i).map Prod.snd)

lemma Follows.step {ops : List (QueueOp ι)} (h : Follows ops s all)
    (hadv : Advances s s' all all' op) : Follows (ops ++ [op]) s' all' := by
  intro i
  have hi := hadv i
  rw [List.filterMap_append, Fifo.run_append, h i]
  cases hop : op.toFifo i with
  | none =>
    rw [hop] at hi
    obtain ⟨_, hnodes, hpopped⟩ := hi
    simp [hop, hnodes, hpopped]
  | some fop =>
    rw [hop] at hi
    cases fop with
    | push x =>
      obtain ⟨⟨n, hnodes⟩, hpopped⟩ := hi
      simp [hop, hnodes, hpopped, Fifo.step]
    | pop =>
      obtain ⟨n, x, hnodes, hpopped⟩ := hi
      simp [hop, hnodes, hpopped, Fifo.step]

/-- Run lemma. -/
lemma queueRun_inv (h : KernelHeap) {ops : List (QueueOp ι)}
    (hrun : queueRun (.start h) ops = some s) : ∃ all, QueuesInv s all ∧ Follows ops s all := by
  induction ops using List.reverseRecOn generalizing s with
  | nil =>
    obtain rfl := Option.some.inj hrun
    exact ⟨[], queuesInv_start h, fun _ => rfl⟩
  | append_singleton ops op ih =>
    rw [queueRun, List.foldlM_append] at hrun
    obtain ⟨s₁, h₁, h₂⟩ := Option.bind_eq_some_iff.mp hrun
    obtain ⟨all, hi, hf⟩ := ih h₁
    have hstep : queueStep s₁ op = some s := by simpa using h₂
    obtain ⟨all', hi', hadv⟩ := hi.step hstep
    exact ⟨all', hi', hf.step hadv⟩

/-- Over every run each queue consists of the nodes of a first-in, first-out queue of its items and
has returned what that one returns; `isEmpty` says whether no item is left; a call that is not for
the queue leaves it as it is. Nodes are freed once each, and when all queues are empty the live
blocks are those of the other clients. -/
theorem queues_fifo (h : KernelHeap) (ops : List (QueueOp ι)) (s : QueueState ι)
    (hrun : queueRun (.start h) ops = some s) :
    (∃ nodes : ι → List (ℕ × ℕ), ∀ i,
      QueueRep s.heap.mem (s.queues i) (nodes i) ∧
      Fifo.run [] (ops.filterMap (QueueOp.toFifo i)) =
        ((s.popped i).map some, (nodes i).map Prod.snd) ∧
      (isEmpty (s.queues i) = true ↔ nodes i = []) ∧
      ∀ op s', queueStep s op = some s' → op.toFifo i = none →
        s'.queues i = s.queues i ∧ QueueRep s'.heap.mem (s'.queues i) (nodes i)) ∧
    (∀ n, nodeLife s.log n ≠ .broken) ∧
    ((∀ i, isEmpty (s.queues i) = true) →
      Holds s.heap s.blocks ∧ ∀ n, nodeLife s.log n = .free) := by
  obtain ⟨all, hi, hf⟩ := queueRun_inv h hrun
  refine ⟨⟨nodesOf all, fun i => ⟨hi.rep i, hf i, hi.isEmpty_iff i, ?_⟩⟩, ?_, ?_⟩
  · intro op s' hs hop
    obtain ⟨all', hi', hadv⟩ := hi.step hs
    have h := hadv i
    rw [hop] at h
    obtain ⟨hqueue, hnodes, _⟩ := h
    exact ⟨hqueue, hnodes ▸ hi'.rep i⟩
  · intro n
    rw [hi.life]
    split_ifs <;> simp
  · intro hempty
    have hall : all = [] := by
      rw [List.eq_nil_iff_forall_not_mem]
      rintro ⟨i, x⟩ hx
      have hnil := (hi.isEmpty_iff i).mp (hempty i)
      rw [nodesOf, List.map_eq_nil_iff, List.filter_eq_nil_iff] at hnil
      exact hnil _ hx (by simp)
    subst hall
    exact ⟨hi.holds, hi.life⟩

end

lemma pushBack_ok {h heap : KernelHeap} {ptr : ℕ} (hok : kalloc h sizeofNode = .ok (ptr, heap))
    (q : Queue) (data : ℕ) : ∃ h' q', pushBack h q data = .ok (h', q') := by
  rw [pushBack, hok]
  dsimp only
  split_ifs
  · exact ⟨_, _, rfl⟩
  · exact ⟨_, _, rfl⟩

/-- On a new heap the first item finds room. -/
lemma queueStep_start {ι : Type*} [DecidableEq ι] (h : KernelHeap) (i : ι) (data : ℕ) :
    ∃ s, queueStep (.start h) (.pushBack i data) = some s := by
  have hpos : 0 < sizeofNode.toInt := by decide
  obtain ⟨ptr, heap, hok⟩ := (holds_initHeap h).kalloc_of_empty hpos (by decide)
  obtain ⟨h', q', hpush⟩ := pushBack_ok hok ⟨0, 0⟩ data
  have hheap : (QueueState.start h : QueueState ι).heap = initHeap h := rfl
  have hqueue : (QueueState.start h : QueueState ι).queues i = ⟨0, 0⟩ := rfl
  rw [queueStep, hheap, hqueue, hpush]
  exact ⟨_, rfl⟩

/-- One of two queues gets an item and gives it back. -/
theorem queues_fifo_two : ∃ s : QueueState Bool,
    queueRun (.start sampleHeap) [.pushBack true 5, .popFront true] = some s ∧
      s.popped true = [5] ∧ Holds s.heap s.blocks := by
  obtain ⟨s₁, h₁⟩ := queueStep_start sampleHeap true 5
  have hrun₁ : queueRun (.start sampleHeap) [.pushBack true 5] = some s₁ := by
    rw [queueRun, List.foldlM_cons, h₁]
    rfl
  obtain ⟨⟨nodes₁, hnodes₁⟩, _⟩ := queues_fifo sampleHeap _ s₁ hrun₁
  obtain ⟨_, hfifo₁, hempty₁, _⟩ := hnodes₁ true
  obtain ⟨s, h₂⟩ : ∃ s, queueStep s₁ (.popFront true) = some s := by
    rw [queueStep, if_neg]
    · exact ⟨_, rfl⟩
    · intro hempty
      rw [hempty₁.mp hempty] at hfifo₁
      simp [QueueOp.toFifo, Fifo.step] at hfifo₁
  have hrun : queueRun (.start sampleHeap) [.pushBack true 5, .popFront true] = some s := by
    rw [queueRun, List.foldlM_cons, h₁]
    simp [h₂]
  obtain ⟨⟨nodes, hnodes⟩, _, hdrained⟩ := queues_fifo sampleHeap _ s hrun
  obtain ⟨_, htrue, hemptyt, _⟩ := hnodes true
  obtain ⟨_, hfalse, hemptyf, _⟩ := hnodes false
  simp [QueueOp.toFifo, Fifo.step] at htrue hfalse
  refine ⟨s, hrun, ?_, (hdrained ?_).1⟩
  · cases hp : s.popped true <;> simp_all
  · intro i
    cases i with
    | false => exact hemptyf.mpr hfalse.2
    | true => exact hemptyt.mpr htrue.2

end Jokerix
