import Jokerix.Sched.Boot
import Mathlib.Data.Finset.Card

/-!
# The slots of the thread pool

Which slots `addToPool` gives away. `newThreadPool` returns a local whose slots it never writes, so
the flags of the pool begin with whatever was in that memory.
-/

namespace Jokerix

/-- The slots of `newThreadPool`: what its local pool finds in memory. -/
def newThreadPool (leftover : ℕ → ThreadInfo) : ℕ → ThreadInfo := leftover

/-- `initCPU` with the pool that `newThreadPool` returns. -/
def initPool (k : Kernel) (leftover : ℕ → ThreadInfo) : Except Halt Kernel :=
  initCPU { k with threads := newThreadPool leftover }

/-- The states after `initCPU`, with the slots of the live threads: threads are added and exit, and
anything else leaves the flags alone. -/
inductive PoolRun (k₀ : Kernel) : Kernel → Finset ℕ → Prop
  | init : PoolRun k₀ k₀ ∅
  | add {k k' : Kernel} {live : Finset ℕ} {thread : Thread} {tid : ℕ} (h : PoolRun k₀ k live)
      (hslot : allocTid k.threads = some tid) (hok : addToPool k thread = .ok k') :
      PoolRun k₀ k' (insert tid live)
  | exit {k : Kernel} {live : Finset ℕ} {tid : ℕ} (h : PoolRun k₀ k live) (htid : tid ∈ live) :
      PoolRun k₀ (exitFromPool k tid) (live.erase tid)
  | other {k k' : Kernel} {live : Finset ℕ} (h : PoolRun k₀ k live)
      (hsame : ∀ i, (k'.threads i).occupied = (k.threads i).occupied) : PoolRun k₀ k' live

/-- Every thread that is added gets a slot that no live thread holds, and adding panics only when
`maxThread` threads are live. -/
def PoolAdmits (k₀ : Kernel) : Prop :=
  ∀ k live, PoolRun k₀ k live → ∀ thread,
    (∀ k', addToPool k thread = .ok k' → ∃ tid, allocTid k.threads = some tid ∧ tid < maxThread ∧
      tid ∉ live ∧ k'.threads = Function.update k.threads tid { k.threads tid with
        status := .ready, occupied := true, thread := { thread with uid := k.nextUid } }) ∧
    (addToPool k thread = .error (.panic "Alloc tid failed!\n") → live.card = maxThread)

section
variable {k k₀ k' : Kernel} {live : Finset ℕ} {thread : Thread} {tid : ℕ}

/-! ### Adding a thread -/

/-- Adding a thread fills in the slot that was found. -/
lemma addToPool_ok (hslot : allocTid k.threads = some tid) (thread : Thread) :
    ∃ k', addToPool k thread = .ok k' ∧ k'.threads = Function.update k.threads tid
      { k.threads tid with
        status := .ready, occupied := true, thread := { thread with uid := k.nextUid } } := by
  obtain ⟨hlt, _⟩ := allocTid_spec hslot
  rw [addToPool, hslot]
  simp only [Kernel.push, schedulerPush]
  rw [if_neg (by omega)]
  exact ⟨_, rfl, rfl⟩

/-- The thread that was added is at the back of the ready list. -/
lemma addToPool_eq {ready : List ℕ} (hs : Linked k.rrScheduler ready) (hnot : tid ∉ ready)
    (hslot : allocTid k.threads = some tid) (thread : Thread) :
    ∃ s, Linked s (ready ++ [tid]) ∧ addToPool k thread = .ok ({ k with
      rrScheduler := s
      threads := Function.update k.threads tid { k.threads tid with
        status := .ready, occupied := true, thread := { thread with uid := k.nextUid } }
      nextUid := k.nextUid + 1 }.record (.pushed k.nextUid)) := by
  obtain ⟨hlt, _⟩ := allocTid_spec hslot
  obtain ⟨s, hpush, hs'⟩ := hs.push hnot hlt
  refine ⟨s, hs', ?_⟩
  rw [addToPool, hslot]
  simp only [Kernel.push, Kernel.setInfo, hpush, Function.update_self]

lemma addToPool_ready {ready : List ℕ} (hs : Linked k.rrScheduler ready)
    (hocc : ∀ t ∈ ready, t < maxThread ∧ (k.threads t).occupied = true)
    (hslot : allocTid k.threads = some tid) (thread : Thread) :
    ∃ k', addToPool k thread = .ok k' ∧ k'.threads = Function.update k.threads tid
      { k.threads tid with
        status := .ready, occupied := true, thread := { thread with uid := k.nextUid } } ∧
      readyList k'.rrScheduler = readyList k.rrScheduler ++ [tid] := by
  obtain ⟨hlt, hfree⟩ := allocTid_spec hslot
  have hnot : tid ∉ ready := by
    intro hmem
    rw [(hocc tid hmem).2] at hfree
    cases hfree
  obtain ⟨s, hs', hpool⟩ := addToPool_eq hs hnot hslot thread
  refine ⟨_, hpool, rfl, ?_⟩
  rw [hs.readyList_eq fun t ht => (hocc t ht).1]
  refine hs'.readyList_eq fun t ht => ?_
  rcases List.mem_append.mp ht with ht | ht
  · exact (hocc t ht).1
  · rwa [List.mem_singleton.mp ht]

lemma addToPool_full (hslot : allocTid k.threads = none) (thread : Thread) :
    addToPool k thread = .error (.panic "Alloc tid failed!\n") := by
  rw [addToPool, hslot]

lemma allocTid_eq_none {threads : ℕ → ThreadInfo} :
    allocTid threads = none ↔ ∀ i < maxThread, (threads i).occupied = true := by
  simp [allocTid]

/-! ### The invariant -/

/-- The slots that were occupied at the start stay so, and the live threads hold the others. -/
structure SlotsInv (k₀ k : Kernel) (live : Finset ℕ) : Prop where
  lt : ∀ i ∈ live, i < maxThread
  mem : ∀ i, i ∈ live → (k₀.threads i).occupied = false
  occupied : ∀ i < maxThread,
    (k.threads i).occupied = true ↔ i ∈ live ∨ (k₀.threads i).occupied = true

lemma SlotsInv.free (h : SlotsInv k₀ k live) (hslot : allocTid k.threads = some tid) :
    tid < maxThread ∧ tid ∉ live ∧ (k₀.threads tid).occupied = false := by
  obtain ⟨hlt, hfree⟩ := allocTid_spec hslot
  have hiff := h.occupied tid hlt
  rw [hfree] at hiff
  simpa [hlt] using hiff

lemma SlotsInv.add (h : SlotsInv k₀ k live) (hslot : allocTid k.threads = some tid)
    (hok : addToPool k thread = .ok k') : SlotsInv k₀ k' (insert tid live) := by
  obtain ⟨hlt, _, hfree⟩ := h.free hslot
  obtain ⟨k₁, hok₁, hthreads⟩ := addToPool_ok hslot thread
  obtain rfl := Except.ok.inj (hok₁.symm.trans hok)
  refine ⟨?_, ?_, ?_⟩
  · simpa [hlt] using h.lt
  · simpa [hfree] using h.mem
  · intro i hi
    rw [hthreads, Function.update_apply, Finset.mem_insert, or_assoc, ← h.occupied i hi]
    split_ifs with heq <;> simp [heq]

lemma SlotsInv.exit (h : SlotsInv k₀ k live) (htid : tid ∈ live) :
    SlotsInv k₀ (exitFromPool k tid) (live.erase tid) := by
  refine ⟨fun i hi => h.lt i (Finset.mem_of_mem_erase hi),
    fun i hi => h.mem i (Finset.mem_of_mem_erase hi), ?_⟩
  intro i hi
  have hstart := h.mem tid htid
  simp only [exitFromPool, Kernel.setInfo, Function.update_apply, Finset.mem_erase]
  split_ifs with heq
  · simp [heq, hstart]
  · rw [h.occupied i hi]
    simp [heq]

/-- Run lemma. -/
lemma PoolRun.inv (h : PoolRun k₀ k live) : SlotsInv k₀ k live := by
  induction h with
  | init => exact ⟨by simp, by simp, by simp⟩
  | add _ hslot hok ih => exact ih.add hslot hok
  | exit _ htid ih => exact ih.exit htid
  | other _ hsame ih => exact ⟨ih.lt, ih.mem, fun i hi => by rw [hsame i, ih.occupied i hi]⟩

/-! ### A full pool -/

/-- When no slot is left, the live threads hold those that were free at the start. -/
lemma SlotsInv.live_of_full (h : SlotsInv k₀ k live) (hfull : allocTid k.threads = none) :
    live = (Finset.range maxThread).filter fun i => (k₀.threads i).occupied = false := by
  ext i
  rw [Finset.mem_filter, Finset.mem_range]
  constructor
  · exact fun hi => ⟨h.lt i hi, h.mem i hi⟩
  · rintro ⟨hlt, hfree⟩
    have hocc := (h.occupied i hlt).mp (allocTid_eq_none.mp hfull i hlt)
    simpa [hfree] using hocc

/-- The number of slots that were free at the start. -/
lemma card_free_eq_iff : ((Finset.range maxThread).filter
    fun i => (k₀.threads i).occupied = false).card = maxThread ↔
      ∀ i < maxThread, (k₀.threads i).occupied = false := by
  have hrange := Finset.card_range maxThread
  constructor
  · intro hcard
    have hall := Finset.card_filter_eq_iff.mp (hcard.trans hrange.symm)
    exact fun i hi => hall i (Finset.mem_range.mpr hi)
  · intro hfree
    rw [Finset.filter_true_of_mem fun i hi => hfree i (Finset.mem_range.mp hi), hrange]

/-- Adding threads one after the other fills the pool. -/
lemma PoolRun.exists_full (h : PoolRun k₀ k live) (thread : Thread) :
    ∃ k' live', PoolRun k₀ k' live' ∧ allocTid k'.threads = none := by
  induction hn : maxThread - live.card generalizing k live with
  | zero =>
    refine ⟨k, live, h, ?_⟩
    by_contra hsome
    obtain ⟨tid, hslot⟩ := Option.ne_none_iff_exists'.mp hsome
    obtain ⟨hlt, hnot, _⟩ := h.inv.free hslot
    have hle : (insert tid live).card ≤ (Finset.range maxThread).card :=
      Finset.card_le_card fun i hi => by
        rcases Finset.mem_insert.mp hi with rfl | hi
        · exact Finset.mem_range.mpr hlt
        · exact Finset.mem_range.mpr (h.inv.lt i hi)
    rw [Finset.card_insert_of_notMem hnot, Finset.card_range] at hle
    omega
  | succ n ih =>
    cases hslot : allocTid k.threads with
    | none => exact ⟨k, live, h, hslot⟩
    | some tid =>
      obtain ⟨k', hok, _⟩ := addToPool_ok hslot thread
      apply ih (h.add hslot hok)
      rw [Finset.card_insert_of_notMem (h.inv.free hslot).2.1]
      omega

end

/-- The pool admits `maxThread` threads if and only if the memory that the local pool of
`newThreadPool` occupies has no flag set. -/
theorem pool_admits_iff (k k₀ : Kernel) (leftover : ℕ → ThreadInfo)
    (hinit : initPool k leftover = .ok k₀) :
    PoolAdmits k₀ ↔ ∀ i < maxThread, (leftover i).occupied = false := by
  have hthreads : k₀.threads = leftover := by
    rw [initPool, initCPU] at hinit
    split at hinit
    · cases hinit
    · rw [← Except.ok.inj hinit, newThreadPool]
  rw [← hthreads]
  constructor
  · intro hadmits
    obtain ⟨k', live, hrun, hfull⟩ := (PoolRun.init : PoolRun k₀ k₀ ∅).exists_full ⟨.user, 0, 0, 0⟩
    have hcard := (hadmits k' live hrun ⟨.user, 0, 0, 0⟩).2 (addToPool_full hfull _)
    rw [hrun.inv.live_of_full hfull] at hcard
    exact card_free_eq_iff.mp hcard
  · intro hclear k' live hrun thread
    refine ⟨?_, ?_⟩
    · intro k'' hok
      cases hslot : allocTid k'.threads with
      | none =>
        rw [addToPool_full hslot] at hok
        cases hok
      | some tid =>
        obtain ⟨k₁, hok₁, hupdate⟩ := addToPool_ok hslot thread
        obtain rfl := Except.ok.inj (hok₁.symm.trans hok)
        obtain ⟨hlt, hnot, _⟩ := hrun.inv.free hslot
        exact ⟨tid, rfl, hlt, hnot, hupdate⟩
    · intro herr
      cases hslot : allocTid k'.threads with
      | none =>
        rw [hrun.inv.live_of_full hslot]
        exact card_free_eq_iff.mpr hclear
      | some tid =>
        obtain ⟨k₁, hok₁, _⟩ := addToPool_ok hslot thread
        rw [hok₁] at herr
        cases herr

/-- `initCPU` completes with any leftover memory. -/
lemma initPool_ok {k : Kernel} (hk : Holds k.heap []) (leftover : ℕ → ThreadInfo) :
    ∃ k₀, initPool k leftover = .ok k₀ ∧ k₀.threads = leftover := by
  obtain ⟨_, h, hok, _⟩ := hk.kalloc_roomy (BitVec.ofNat 32 kernelStackSize) (n := 0)
    ⟨le_refl _, by simp⟩ (by omega) (by decide) (by decide)
  simp only [initPool, initCPU, hok]
  exact ⟨_, rfl, rfl⟩

/-- Memory that was zero. -/
theorem pool_admits_iff_zero : ∃ k₀,
    initPool sampleKernel (fun _ => ⟨.ready, 0, false, ⟨.user, 0, 0, 0⟩⟩) = .ok k₀ ∧
    PoolAdmits k₀ := by
  obtain ⟨k₀, hinit, _⟩ := initPool_ok (k := sampleKernel) (holds_initHeap _)
    fun _ => ⟨.ready, 0, false, ⟨.user, 0, 0, 0⟩⟩
  exact ⟨k₀, hinit, (pool_admits_iff _ k₀ _ hinit).mpr fun _ _ => rfl⟩

/-- Memory in which every flag is set: adding the first thread panics. -/
theorem pool_full_at_start : ∃ k₀,
    initPool sampleKernel (fun _ => ⟨.ready, 0, true, ⟨.user, 0, 0, 0⟩⟩) = .ok k₀ ∧
    (∀ thread, addToPool k₀ thread = .error (.panic "Alloc tid failed!\n")) ∧ ¬ PoolAdmits k₀ := by
  obtain ⟨k₀, hinit, hthreads⟩ := initPool_ok (k := sampleKernel) (holds_initHeap _)
    fun _ => ⟨.ready, 0, true, ⟨.user, 0, 0, 0⟩⟩
  have hfull : allocTid k₀.threads = none := by
    rw [allocTid_eq_none, hthreads]
    exact fun _ _ => rfl
  refine ⟨k₀, hinit, addToPool_full hfull, ?_⟩
  intro hadmits
  exact absurd ((hadmits k₀ ∅ .init ⟨.user, 0, 0, 0⟩).2 (addToPool_full hfull _)) (by decide)

end Jokerix
