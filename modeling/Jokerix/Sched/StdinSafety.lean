import Jokerix.Sched.Boot

/-!
# Standard input loses nothing

What the two queues of `STDIN` hold, read off the memory, in every run of any number of threads.
-/

namespace Jokerix

/-- The items from the node `n` up to the node `tail`. -/
def itemsFrom (mem : Bytes.Memory) (tail : ℕ) : ℕ → ℕ → List ℕ
  | 0, _ => []
  | fuel + 1, n =>
    Bytes.loadLE 8 mem n ::
      if n = tail then [] else itemsFrom mem tail fuel (Bytes.loadLE 8 mem (n + 8))

/-- The items of a queue, from front to back; there are not more nodes than in the buddy tree. -/
def queueItems (mem : Bytes.Memory) (q : Queue) : List ℕ :=
  if isEmpty q then [] else itemsFrom mem q.tail (2 * heapBlockNum) q.head

def bufferChars (k : Kernel) : List UInt8 := (queueItems k.heap.mem k.buf).map UInt8.ofNat

def waitingTids (k : Kernel) : List ℕ := queueItems k.heap.mem k.waitQueue

/-- A notified reader is to check the buffer when it is dispatched. -/
def Rechecks (k : Kernel) : Prop :=
  ∃ t ∈ readyList k.rrScheduler, (k.threads t).thread.context = .popChar

structure StdinSafe (k : Kernel) : Prop where
  chars : poppedChars k.log ++ bufferChars k = pushedChars k.log
  nodup : (waitingTids k).Nodup
  asleep : ∀ t ∈ waitingTids k,
    t < maxThread ∧ (k.threads t).occupied = true ∧ (k.threads t).status = .sleeping
  woken : bufferChars k ≠ [] → waitingTids k ≠ [] → Rechecks k

/-! ### The items of a queue -/

section
variable {h : KernelHeap} {q buf waitQueue : Queue} {nodes rest : List (ℕ × ℕ)}

/-- There are fewer live blocks than nodes in the buddy tree. -/
lemma Holds.length_le {blocks : List (ℕ × ℕ)} (hh : Holds h blocks) :
    blocks.length ≤ 2 * heapBlockNum := by
  obtain ⟨nodes, hnd, hr, rfl⟩ := hh
  rw [List.length_map]
  apply length_le_of_nodup hnd
  intro a ha
  have hlt := (hr.node a (List.mem_toFinset.mpr ha)).2
  rwa [pow_succ, ← heapBlockNum_eq, mul_comm] at hlt

lemma itemsFrom_eq {mem : Bytes.Memory} {x : ℕ × ℕ} {tail fuel : ℕ}
    (hl : LinkedNodes mem (x :: nodes)) (hnd : ((x :: nodes).map Prod.fst).Nodup)
    (htail : ((x :: nodes).getLast?.map Prod.fst) = some tail) (hfuel : nodes.length < fuel) :
    itemsFrom mem tail fuel x.1 = (x :: nodes).map Prod.snd := by
  induction nodes generalizing x fuel with
  | nil =>
    obtain ⟨fuel, rfl⟩ := Nat.exists_eq_add_of_lt hfuel
    have hx : x.1 = tail := by simpa using htail
    rw [itemsFrom, if_pos hx, hl.item]
    rfl
  | cons y ys ih =>
    cases fuel with
    | zero => simp at hfuel
    | succ fuel =>
      rw [List.getLast?_cons_cons] at htail
      obtain ⟨hx, hnd⟩ := List.nodup_cons.mp hnd
      have hne : x.1 ≠ tail := by
        rintro rfl
        obtain ⟨z, hz, hzx⟩ := Option.map_eq_some_iff.mp htail
        exact hx (hzx ▸ List.mem_map_of_mem (List.mem_of_getLast? hz))
      rw [itemsFrom, if_neg hne, hl.item, hl.2.1, ih hl.2.2 hnd htail (by simpa using hfuel)]
      rfl

/-- The nodes of a queue are apart. -/
lemma Holds.nodup_nodes (hh : Holds h (nodeBlocks nodes ++ rest)) :
    (nodes.map Prod.fst).Nodup := by
  have hpw := (List.pairwise_append.mp hh.pairwise_apart).1
  rw [nodeBlocks, List.pairwise_map] at hpw
  rw [List.Nodup, List.pairwise_map]
  apply hpw.imp
  intro a b hab
  simp only [Apart, kallocBytes_sizeofNode] at hab
  omega

lemma QueueRep.queueItems_eq (hq : QueueRep h.mem q nodes)
    (hh : Holds h (nodeBlocks nodes ++ rest)) : queueItems h.mem q = nodes.map Prod.snd := by
  have hemp := hq.isEmpty_iff hh
  cases nodes with
  | nil => rw [queueItems, if_pos (hemp.mpr rfl), List.map_nil]
  | cons x xs =>
    have hlen := hh.length_le
    rw [List.length_append, nodeBlocks, List.length_map, List.length_cons] at hlen
    have htail : (x :: xs).getLast?.map Prod.fst = some q.tail := by
      rw [hq.tail, List.getLast?_eq_some_getLast (List.cons_ne_nil x xs)]
      rfl
    have hhead : q.head = x.1 := hq.head
    rw [queueItems, if_neg (by rw [hemp]; exact List.cons_ne_nil x xs), hhead]
    exact itemsFrom_eq hq.linked hh.nodup_nodes htail (by omega)

lemma HeapRep.queueItems_eq {items waiters : List ℕ} {blocks : List (ℕ × ℕ)}
    (hr : HeapRep h buf waitQueue items waiters blocks) : queueItems h.mem buf = items := by
  obtain ⟨nodes, nodes', h1, _, rfl, _, hh⟩ := hr
  exact h1.queueItems_eq hh

lemma HeapSeen.queueItems_eq {v : View} (hs : HeapSeen h buf waitQueue v) :
    (queueItems h.mem buf).map UInt8.ofNat = v.buffer ∧ queueItems h.mem waitQueue = v.waiters := by
  obtain ⟨slots, blocks, _, _, hr⟩ := hs
  refine ⟨?_, hr.swap.queueItems_eq⟩
  rw [hr.queueItems_eq, List.map_map]
  exact List.map_id'' (fun c => UInt8.ofNat_toNat) v.buffer

end

/-! ### Runs -/

lemma Sound.stdinSafe {root : ℕ → Prop} {k : Kernel} (hk : Sound root k) : StdinSafe k := by
  obtain ⟨ready, waiters, buffer, hs, hl, _, _, hd⟩ := hk
  obtain ⟨hbuffer, hwaiters⟩ := hs.heap.queueItems_eq
  have hbuffer : bufferChars k = buffer := hbuffer
  have hwaiters : waitingTids k = waiters := hwaiters
  have hready : readyList k.rrScheduler = ready :=
    hs.linked.readyList_eq fun t ht => ((hl.mem_ready t).mp ht).1.1
  constructor
  · rw [hbuffer]
    exact hd.chars
  · rw [hwaiters]
    exact hl.waiters_nodup
  · intro t ht
    rw [hwaiters] at ht
    obtain ⟨⟨hlt, hocc⟩, hsleep, _⟩ := (hl.mem_waiters t).mp ht
    exact ⟨hlt, hocc, hsleep⟩
  · rw [hbuffer, hwaiters, Rechecks, hready]
    intro hb hw
    have henough : buffer.length ≤ readers k.threads ready + 0 := hd.enough hw
    have hpos := List.length_pos_iff.mpr hb
    obtain ⟨t, ht, hreader⟩ := List.countP_pos_iff.mp (show 0 < readers k.threads ready by omega)
    exact ⟨t, ht, by simpa [isReader] using hreader⟩

/-- In every run of any number of threads no character is lost or reordered, the wait queue holds
sleeping threads, each once, and while readers wait and there are characters, a notified reader is
to check the buffer. The exit of a thread that was not started by `sys_exec` would wake whatever
thread its `wait` names. -/
theorem stdin_runs {k₀ k₁ k₂ k : Kernel} {ps : List (Program × ℤ)} {es : List Event}
    (h₀ : k₀.Fresh) (hinit : initCPU k₀ = .ok k₁) (hstart : startAll k₁ ps = .ok k₂)
    (hno : NoExit (fun u => ∃ p, ps[u]? = some p ∧ p.2 ≠ -1) k₂ es) (hrun : run k₂ es = .ok k) :
    StdinSafe k := by
  obtain ⟨hk₁, hnext, _⟩ :=
    initCPU_sound (fun u => ∃ p, ps[u]? = some p ∧ p.2 ≠ -1) h₀ hinit
  obtain ⟨hk₂, _⟩ := startAll_sound hk₁ (by
    intro i p hp hw
    rw [hnext, Nat.zero_add]
    exact ⟨p, hp, hw⟩) hstart
  exact (hk₂.run hno hrun).stdinSafe

/-- The first reader is woken for a character, the second one takes it before the first is
dispatched, and both sleep. -/
theorem stdin_runs_overtaken : ∃ k₁ k₂ k, initCPU sampleKernel = .ok k₁ ∧
    startAll k₁ [(sampleProgram, 0), (sampleProgram, -1)] = .ok k₂ ∧
    run k₂ [.dispatch, .syscall (.read 0), .keyboard (some 97), .dispatch, .syscall (.read 0),
      .syscall (.read 0), .dispatch] = .ok k ∧
    k.log = [.pushed 0, .pushed 1, .dispatched 0, .charPushed 97, .pushed 0, .dispatched 1,
      .charPopped 97, .dispatched 0] ∧ waitingTids k = [1, 0] ∧ StdinSafe k := by
  obtain ⟨k₁, k, _, _, hinit, hstart, hk, hocc, hlog, hthreads⟩ := sampleKernel_two
  -- the first one reads and sleeps
  obtain ⟨k₂, hk₂, hocc₂, hcur₂, hlog₂, hthreads₂, hdisp₂⟩ := hk.dispatch
  rw [if_neg (by simp [hthreads])] at hdisp₂
  obtain ⟨k₃, hread₃, hk₃, hocc₃, hlog₃, hthreads₃⟩ := hk₂.popChar_sleeps (by decide) hocc₂
    (by simp [hcur₂, maxThread]) (by simp [hcur₂, hthreads₂, hthreads])
  rw [hcur₂] at hk₃ hthreads₃
  -- it is woken
  obtain ⟨k₄, hpush₄, hk₄, hocc₄, hlog₄, hthreads₄, _⟩ := hk₃.pushChar_wakes 97 (by decide)
    (by simp [maxThread]) (by simp)
  -- the second one takes the character and sleeps
  obtain ⟨k₅, hk₅, hocc₅, hcur₅, hlog₅, hthreads₅, hdisp₅⟩ := hk₄.dispatch
  rw [if_neg (by simp [hthreads₄, hthreads₃, hthreads₂, hthreads])] at hdisp₅
  obtain ⟨k₆, hread₆, hk₆, hocc₆, hlog₆, hthreads₆, hcur₆⟩ := hk₅.popChar_takes
  obtain ⟨k₇, hread₇, hk₇, hocc₇, hlog₇, hthreads₇⟩ := hk₆.popChar_sleeps (by simp)
    (by rw [hocc₆, hocc₅]) (by simp [hcur₆, hcur₅, maxThread])
    (by simp [hcur₆, hcur₅, hthreads₆, hthreads₅, hthreads₄, hthreads₃, hthreads₂, hthreads])
  rw [hcur₆, hcur₅] at hk₇ hthreads₇
  -- the first one finds the buffer empty
  obtain ⟨k₈, hk₈, hocc₈, hcur₈, hlog₈, hthreads₈, hdisp₈⟩ := hk₇.dispatch
  rw [if_pos (by simp [hthreads₇, hthreads₆, hthreads₅, hthreads₄, hthreads₃])] at hdisp₈
  obtain ⟨k₉, hread₉, hk₉, _, hlog₉, _⟩ := hk₈.popChar_sleeps (by simp) hocc₈
    (by simp [hcur₈, maxThread])
    (by simp [hcur₈, hthreads₈, hthreads₇, hthreads₆, hthreads₅, hthreads₄, hthreads₃, hthreads₂,
      hthreads])
  rw [hcur₈] at hk₉
  have hrun : run k [.dispatch, .syscall (.read 0), .keyboard (some 97), .dispatch,
      .syscall (.read 0), .syscall (.read 0), .dispatch] = .ok k₉ := by
    have h₁ : step k .dispatch = .ok k₂ := by simp [step, hocc, hdisp₂]
    have h₂ : step k₂ (.syscall (.read 0)) = .ok k₃ := by simp [step, hocc₂, syscall, hread₃]
    have h₃ : step k₃ (.keyboard (some 97)) = .ok k₄ := by simp [step, external, hpush₄]
    have h₄ : step k₄ .dispatch = .ok k₅ := by simp [step, hocc₄, hocc₃, hdisp₅]
    have h₅ : step k₅ (.syscall (.read 0)) = .ok k₆ := by simp [step, hocc₅, syscall, hread₆]
    have h₆ : step k₆ (.syscall (.read 0)) = .ok k₇ := by
      simp [step, hocc₆, hocc₅, syscall, hread₇]
    have h₇ : step k₇ .dispatch = .ok k₉ := by simp [step, hocc₇, hdisp₈, hread₉]
    rw [run_cons h₁, run_cons h₂, run_cons h₃, run_cons h₄, run_cons h₅, run_cons h₆, run_cons h₇,
      run]
  refine ⟨k₁, k, k₉, hinit, hstart, hrun, ?_, ?_,
    stdin_runs sampleKernel_fresh hinit hstart (NoExit.of_ne (by simp)) hrun⟩
  · simp [hlog₉, hlog₈, hlog₇, hlog₆, hlog₅, hlog₄, hlog₃, hlog₂, hlog, hthreads₇, hthreads₆,
      hthreads₅, hthreads₄, hthreads₃, hthreads₂, hthreads]
  · obtain ⟨_, blocks, hr, _⟩ := hk₉
    exact hr.swap.queueItems_eq

end Jokerix
