import Jokerix.Heap.Safety

/-!
# Queues of linked nodes

The queue of `kernel/queue.c`, whose nodes are allocated on the kernel heap. `QueueRep` says which
nodes, with which items, a queue consists of.
-/

namespace Jokerix

structure Queue where
  head : ℕ
  tail : ℕ

/-- `sizeof(Node)`: the item, and at offset 8 the pointer to the next node. -/
def sizeofNode : BitVec 32 := 16

/-- Put an item at the back, in a new node. -/
def pushBack (h : KernelHeap) (q : Queue) (data : ℕ) : Except Halt (KernelHeap × Queue) :=
  match kalloc h sizeofNode with
  | .error e => .error e
  | .ok (n, h) =>
    let mem := Bytes.storeLE 8 h.mem n data
    if q.head = q.tail ∧ q.head = 0 then .ok ({ h with mem := mem }, ⟨n, n⟩)
    else .ok ({ h with mem := Bytes.storeLE 8 mem (q.tail + 8) n }, { q with tail := n })

/-- Take the front item out of a queue that is not empty, and free its node. -/
def popFront (h : KernelHeap) (q : Queue) : ℕ × KernelHeap × Queue :=
  let n := q.head
  let ret := Bytes.loadLE 8 h.mem n
  let q :=
    if q.head = q.tail then ⟨0, 0⟩ else { q with head := Bytes.loadLE 8 h.mem (q.head + 8) }
  (ret, kfree h n, q)

def isEmpty (q : Queue) : Bool := q.head = q.tail ∧ q.head = 0

/-! ### What a queue consists of -/

/-- Nodes with their items, each linked to the one after it. -/
def LinkedNodes (mem : Bytes.Memory) : List (ℕ × ℕ) → Prop
  | [] => True
  | [x] => Bytes.loadLE 8 mem x.1 = x.2
  | x :: y :: xs =>
    Bytes.loadLE 8 mem x.1 = x.2 ∧ Bytes.loadLE 8 mem (x.1 + 8) = y.1 ∧ LinkedNodes mem (y :: xs)

/-- The queue consists of the given nodes, from front to back. -/
structure QueueRep (mem : Bytes.Memory) (q : Queue) (nodes : List (ℕ × ℕ)) : Prop where
  linked : LinkedNodes mem nodes
  head : q.head = (nodes.head?.map Prod.fst).getD 0
  tail : q.tail = (nodes.getLast?.map Prod.fst).getD 0

/-- The heap blocks of the nodes. -/
def nodeBlocks (nodes : List (ℕ × ℕ)) : List (ℕ × ℕ) :=
  nodes.map fun x => (x.1, kallocBytes sizeofNode)

lemma kallocBytes_sizeofNode : kallocBytes sizeofNode = 64 := by decide

section
variable {mem mem' : Bytes.Memory} {q q' : Queue} {nodes : List (ℕ × ℕ)} {h h' : KernelHeap}
  {rest : List (ℕ × ℕ)}

lemma mem_nodeBlocks {x : ℕ × ℕ} (hx : x ∈ nodes) : (x.1, 64) ∈ nodeBlocks nodes :=
  List.mem_map.mpr ⟨x, hx, by rw [kallocBytes_sizeofNode]⟩

/-- The links live in the sixteen bytes of each node. -/
lemma LinkedNodes.congr (hl : LinkedNodes mem nodes)
    (hm : ∀ x ∈ nodes, ∀ i, x.1 ≤ i → i < x.1 + 16 → mem' i = mem i) : LinkedNodes mem' nodes := by
  induction nodes with
  | nil => trivial
  | cons x xs ih =>
    have hx := hm x List.mem_cons_self
    have hitem : Bytes.loadLE 8 mem' x.1 = Bytes.loadLE 8 mem x.1 :=
      Bytes.loadLE_congr fun i h1 h2 => hx i h1 (by omega)
    have hnext : Bytes.loadLE 8 mem' (x.1 + 8) = Bytes.loadLE 8 mem (x.1 + 8) :=
      Bytes.loadLE_congr fun i h1 h2 => hx i (by omega) (by omega)
    cases xs with
    | nil => exact hitem.trans hl
    | cons y ys =>
      obtain ⟨h1, h2, h3⟩ := hl
      exact ⟨hitem.trans h1, hnext.trans h2, ih h3 fun z hz => hm z (List.mem_cons_of_mem _ hz)⟩

lemma LinkedNodes.tail {x : ℕ × ℕ} (hl : LinkedNodes mem (x :: nodes)) : LinkedNodes mem nodes := by
  cases nodes with
  | nil => trivial
  | cons y ys => exact hl.2.2

lemma LinkedNodes.item {x : ℕ × ℕ} (hl : LinkedNodes mem (x :: nodes)) :
    Bytes.loadLE 8 mem x.1 = x.2 := by
  cases nodes with
  | nil => exact hl
  | cons y ys => exact hl.1

/-- The link of the last node is not read. -/
lemma LinkedNodes.congr_last {x : ℕ × ℕ} (hl : LinkedNodes mem (nodes ++ [x]))
    (hm : ∀ y ∈ nodes, ∀ i, y.1 ≤ i → i < y.1 + 16 → mem' i = mem i)
    (hx : ∀ i, x.1 ≤ i → i < x.1 + 8 → mem' i = mem i) : LinkedNodes mem' (nodes ++ [x]) := by
  induction nodes with
  | nil => exact (Bytes.loadLE_congr hx).trans hl
  | cons y ys ih =>
    have hy := hm y List.mem_cons_self
    have hitem : Bytes.loadLE 8 mem' y.1 = Bytes.loadLE 8 mem y.1 :=
      Bytes.loadLE_congr fun i h1 h2 => hy i h1 (by omega)
    have hnext : Bytes.loadLE 8 mem' (y.1 + 8) = Bytes.loadLE 8 mem (y.1 + 8) :=
      Bytes.loadLE_congr fun i h1 h2 => hy i (by omega) (by omega)
    have ih' := ih hl.tail fun z hz => hm z (List.mem_cons_of_mem _ hz)
    cases ys with
    | nil => exact ⟨hitem.trans hl.1, hnext.trans hl.2.1, ih'⟩
    | cons z zs => exact ⟨hitem.trans hl.1, hnext.trans hl.2.1, ih'⟩

/-- Linking one more node behind the last one. -/
lemma LinkedNodes.concat {x y : ℕ × ℕ} (hl : LinkedNodes mem (nodes ++ [x]))
    (hy : Bytes.loadLE 8 mem y.1 = y.2) (hnext : Bytes.loadLE 8 mem (x.1 + 8) = y.1) :
    LinkedNodes mem (nodes ++ [x] ++ [y]) := by
  induction nodes with
  | nil => exact ⟨hl, hnext, hy⟩
  | cons z zs ih =>
    cases zs with
    | nil => exact ⟨hl.1, hl.2.1, ih hl.2.2⟩
    | cons w ws => exact ⟨hl.1, hl.2.1, ih hl.2.2⟩

lemma QueueRep.congr (hq : QueueRep mem q nodes)
    (hm : ∀ x ∈ nodes, ∀ i, x.1 ≤ i → i < x.1 + 16 → mem' i = mem i) : QueueRep mem' q nodes :=
  ⟨hq.linked.congr hm, hq.head, hq.tail⟩

/-- The nodes of a queue on the heap are not null. -/
lemma Holds.node_pos (hh : Holds h (nodeBlocks nodes ++ rest)) {x : ℕ × ℕ} (hx : x ∈ nodes) :
    0 < x.1 := by
  obtain ⟨_, h1, _⟩ := hh.inside (List.mem_append_left _ (mem_nodeBlocks hx))
  exact lt_of_lt_of_le h.region.pos h1

lemma QueueRep.isEmpty_iff (hq : QueueRep mem q nodes) (hh : Holds h (nodeBlocks nodes ++ rest)) :
    isEmpty q = true ↔ nodes = [] := by
  rw [isEmpty, decide_eq_true_eq, hq.head, hq.tail]
  cases nodes with
  | nil => simp
  | cons x xs =>
    have hx := hh.node_pos List.mem_cons_self
    simp only [List.head?_cons, Option.map_some, Option.getD_some, reduceCtorEq, iff_false]
    omega

/-- `pushBack` adds one node at the back and leaves the bytes of all other blocks alone. -/
theorem QueueRep.pushBack (hq : QueueRep h.mem q nodes) (hh : Holds h (nodeBlocks nodes ++ rest))
    {data : ℕ} (hok : pushBack h q data = .ok (h', q')) :
    ∃ n, Holds h' (nodeBlocks (nodes ++ [(n, data % 2 ^ 64)]) ++ rest) ∧
      QueueRep h'.mem q' (nodes ++ [(n, data % 2 ^ 64)]) ∧ h'.region = h.region ∧
      ∀ b ∈ rest, ∀ i, b.1 ≤ i → i < b.1 + b.2 → h'.mem i = h.mem i := by
  rw [Jokerix.pushBack] at hok
  split at hok
  · cases hok
  · rename_i n h₁ halloc
    obtain ⟨hh₁, hapart, hreg, hmem₁⟩ := hh.kalloc (by decide) halloc
    rw [kallocBytes_sizeofNode] at hapart hmem₁
    set m := Bytes.storeLE 8 h₁.mem n data with hm
    have hitem : Bytes.loadLE 8 m n = data % 2 ^ 64 := by
      rw [hm, Bytes.loadLE_storeLE_same]
      norm_num
    -- the new node is apart from every other block
    have hframe : ∀ b ∈ nodeBlocks nodes ++ rest, ∀ i, b.1 ≤ i → i < b.1 + b.2 → m i = h.mem i := by
      intro b hb i h1 h2
      have hab := hapart b hb
      simp only [Apart] at hab
      rw [hm, Bytes.storeLE_of_not_mem (by omega), hmem₁, Bytes.fill_of_not_mem (by omega)]
    have hnodes : ∀ x ∈ nodes, ∀ i, x.1 ≤ i → i < x.1 + 16 → m i = h.mem i := by
      intro x hx i h1 h2
      exact hframe _ (List.mem_append_left _ (mem_nodeBlocks hx)) i h1 (by simp only; omega)
    have hlinked := hq.linked.congr hnodes
    have hblocks : Holds h₁ (nodeBlocks (nodes ++ [(n, data % 2 ^ 64)]) ++ rest) := by
      apply hh₁.perm
      simp only [nodeBlocks, List.map_append, List.append_assoc]
      exact List.perm_middle.symm
    by_cases hemp : q.head = q.tail ∧ q.head = 0
    · rw [if_pos hemp, Except.ok.injEq, Prod.mk.injEq] at hok
      obtain ⟨rfl, rfl⟩ := hok
      obtain rfl := (hq.isEmpty_iff hh).mp (by rw [isEmpty, decide_eq_true_eq]; exact hemp)
      refine ⟨n, hblocks.setMem _, ⟨hitem, rfl, rfl⟩, hreg, ?_⟩
      exact fun b hb => hframe b (List.mem_append_right _ hb)
    · rw [if_neg hemp, Except.ok.injEq, Prod.mk.injEq] at hok
      obtain ⟨rfl, rfl⟩ := hok
      have hne : nodes ≠ [] := by
        intro hnil
        have := (hq.isEmpty_iff hh).mpr hnil
        rw [isEmpty, decide_eq_true_eq] at this
        exact hemp this
      obtain ⟨pre, x, rfl⟩ : ∃ pre x, nodes = pre ++ [x] :=
        ⟨nodes.dropLast, nodes.getLast hne, (List.dropLast_append_getLast hne).symm⟩
      have htail : q.tail = x.1 := by simpa using hq.tail
      have hpw := hh.pairwise_apart
      simp only [nodeBlocks, List.map_append, List.pairwise_append, List.map_cons, List.map_nil,
        kallocBytes_sizeofNode] at hpw
      have hxn := hapart _ (List.mem_append_left rest (mem_nodeBlocks (x := x) (by simp)))
      simp only [Apart] at hxn
      rw [htail]
      -- the link of the last node is the only other store
      have hitem' : Bytes.loadLE 8 (Bytes.storeLE 8 m (x.1 + 8) n) n = data % 2 ^ 64 := by
        rw [Bytes.loadLE_storeLE_of_disjoint (by omega), hitem]
      have hlink : Bytes.loadLE 8 (Bytes.storeLE 8 m (x.1 + 8) n) (x.1 + 8) = n := by
        obtain ⟨_, _, hin⟩ := hh₁.inside List.mem_cons_self
        have hfits := h₁.region.fits
        rw [kallocBytes_sizeofNode] at hin
        simp only at hin
        rw [Bytes.loadLE_storeLE_same, Nat.mod_eq_of_lt]
        norm_num
        omega
      have hpre : LinkedNodes (Bytes.storeLE 8 m (x.1 + 8) n) (pre ++ [x]) := by
        apply hlinked.congr_last
        · intro y hy i h1 h2
          have hab := hpw.1.2.2 (y.1, 64) (List.mem_map.mpr ⟨y, hy, rfl⟩) (x.1, 64) (by simp)
          simp only [Apart] at hab
          exact Bytes.storeLE_of_not_mem (by omega)
        · exact fun i h1 h2 => Bytes.storeLE_of_not_mem (by omega)
      refine ⟨n, hblocks.setMem _, ⟨hpre.concat hitem' hlink, ?_, ?_⟩, hreg, ?_⟩
      · rw [hq.head]
        cases pre <;> simp
      · simp
      · intro b hb i h1 h2
        have hab := hpw.2.2 (x.1, 64) (by simp) b hb
        simp only [Apart] at hab
        refine Eq.trans (Bytes.storeLE_of_not_mem (by omega)) ?_
        exact hframe b (List.mem_append_right _ hb) i h1 h2

/-- `popFront` takes the front node out and changes no byte. -/
theorem QueueRep.popFront {n v : ℕ} (hq : QueueRep h.mem q ((n, v) :: nodes))
    (hh : Holds h (nodeBlocks ((n, v) :: nodes) ++ rest)) :
    ∃ h' q', popFront h q = (v, h', q') ∧ Holds h' (nodeBlocks nodes ++ rest) ∧
      QueueRep h'.mem q' nodes ∧ h'.mem = h.mem ∧ h'.region = h.region := by
  have hhead : q.head = n := hq.head
  obtain ⟨hh', hmem, hreg⟩ := hh.kfree_cons
  refine ⟨kfree h n,
    if n = q.tail then ⟨0, 0⟩ else { q with head := Bytes.loadLE 8 h.mem (n + 8) }, ?_, hh', ?_,
    hmem, hreg⟩
  · rw [Jokerix.popFront, hhead, hq.linked.item]
  · rw [hmem]
    cases nodes with
    | nil =>
      have htail : q.tail = n := hq.tail
      rw [if_pos htail.symm]
      exact ⟨trivial, rfl, rfl⟩
    | cons y ys =>
      -- the last node is another one
      have hne : n ≠ q.tail := by
        obtain ⟨z, hz, htail⟩ : ∃ z ∈ y :: ys, q.tail = z.1 := by
          refine ⟨(y :: ys).getLast (List.cons_ne_nil y ys), List.getLast_mem _, ?_⟩
          rw [hq.tail, List.getLast?_cons_cons,
            List.getLast?_eq_some_getLast (List.cons_ne_nil y ys)]
          rfl
        obtain ⟨hapart, _⟩ := List.pairwise_cons.mp hh.pairwise_apart
        have hab := hapart _ (List.mem_append_left rest (mem_nodeBlocks hz))
        simp only [Apart, kallocBytes_sizeofNode] at hab
        omega
      rw [if_neg hne]
      refine ⟨hq.linked.tail, hq.linked.2.1, ?_⟩
      rw [hq.tail, List.getLast?_cons_cons]

end

end Jokerix
