import Jokerix.Sched.Fairness
import Jokerix.Sched.Stores
import Jokerix.Exec.FirstEntry

/-!
# What an event leaves alone

Without `sys_exec` the kernel stores in its heap only, creates no threads and keeps the heap where
it is. A kernel that is in order stays so when bytes outside of its heap change.
-/

namespace Jokerix

open Exec (kfree_mem)

/-- Nothing is stored outside of the heap, and the heap does not move. -/
structure KernelHeap.Keeps (h h' : KernelHeap) : Prop where
  region : h'.region = h.region
  outside : ∀ x, h.Outside x → h'.mem x = h.mem x

/-- The same for the kernel, which creates no thread. -/
structure Kernel.Keeps (k k' : Kernel) : Prop where
  nextUid : k'.nextUid = k.nextUid
  heap : k.heap.Keeps k'.heap

/-- The thread in the slot waits, or has waited, for a character. -/
structure ReaderIn (threads : ℕ → ThreadInfo) (t uid : ℕ) : Prop where
  occupied : (threads t).occupied = true
  context : (threads t).thread.context = .popChar
  uid : (threads t).thread.uid = uid

/-- No other thread waits for a character than before. -/
def SameReaders (threads threads' : ℕ → ThreadInfo) : Prop :=
  ∀ t u, ReaderIn threads' t u → ReaderIn threads t u

section
variable {h h' h'' : KernelHeap} {k k' k'' : Kernel} {q q' : Queue} {tid : ℕ}

/-! ### The heap -/

lemma KernelHeap.Keeps.refl (h : KernelHeap) : h.Keeps h := ⟨rfl, fun _ _ => rfl⟩

lemma KernelHeap.Keeps.trans (hh : h.Keeps h') (hh' : h'.Keeps h'') : h.Keeps h'' := by
  refine ⟨hh'.region.trans hh.region, fun x hx => ?_⟩
  rw [hh'.outside x (by rwa [KernelHeap.Outside, hh.region]), hh.outside x hx]

lemma kfree_keeps (h : KernelHeap) (ptr : ℕ) : h.Keeps (kfree h ptr) :=
  ⟨kfree_region h ptr, fun x _ => by rw [kfree_mem]⟩

lemma popFront_keeps (h : KernelHeap) (q : Queue) : h.Keeps (popFront h q).2.1 :=
  kfree_keeps h q.head

/-- A new node lies in the heap, and so does the last one, which is linked to it. -/
lemma QueueRep.pushBack_keeps {nodes rest : List _} {data : ℕ} (hq : QueueRep h.mem q nodes)
    (hh : Holds h (nodeBlocks nodes ++ rest)) (hok : Jokerix.pushBack h q data = .ok (h', q')) :
    h.Keeps h' := by
  rw [Jokerix.pushBack] at hok
  split at hok
  · cases hok
  · rename_i n h₁ halloc
    obtain ⟨hh₁, _, hregion, hmem⟩ := hh.kalloc (by decide) halloc
    obtain ⟨_, hlow, hhigh⟩ := hh₁.inside List.mem_cons_self
    rw [kallocBytes_sizeofNode] at hmem hhigh
    rw [hregion] at hlow hhigh
    simp only at hlow hhigh
    have hnode : ∀ x, h.Outside x → Bytes.storeLE 8 h₁.mem n data x = h.mem x := by
      intro x hx
      rw [KernelHeap.Outside] at hx
      rw [Bytes.storeLE_of_not_mem (by omega), hmem, Bytes.fill_of_not_mem (by omega)]
    split_ifs at hok with hemp
    · obtain ⟨rfl, rfl⟩ := Prod.mk.inj (Except.ok.inj hok)
      exact ⟨hregion, hnode⟩
    · obtain ⟨rfl, rfl⟩ := Prod.mk.inj (Except.ok.inj hok)
      have hne : nodes ≠ [] := by
        intro hnil
        have hempty := (hq.isEmpty_iff hh).mpr hnil
        rw [isEmpty, decide_eq_true_eq] at hempty
        exact hemp hempty
      obtain ⟨last, hlast⟩ := List.getLast?_isSome.mpr hne |> Option.isSome_iff_exists.mp
      have htail : q.tail = last.1 := by rw [hq.tail, hlast]; rfl
      have hmem_last := List.mem_of_getLast? hlast
      obtain ⟨_, hlow', hhigh'⟩ := hh.inside (List.mem_append_left _ (mem_nodeBlocks hmem_last))
      simp only at hlow' hhigh'
      refine ⟨hregion, fun x hx => ?_⟩
      have hout := hnode x hx
      rw [KernelHeap.Outside] at hx
      change Bytes.storeLE 8 _ _ _ x = _
      rw [htail, Bytes.storeLE_of_not_mem (by omega), hout]

/-! ### The functions of the kernel -/

lemma Kernel.Keeps.refl (k : Kernel) : k.Keeps k := ⟨rfl, .refl _⟩

lemma Kernel.Keeps.trans (hk : k.Keeps k') (hk' : k'.Keeps k'') : k.Keeps k'' :=
  ⟨hk'.nextUid.trans hk.nextUid, hk.heap.trans hk'.heap⟩

lemma Kernel.push_keeps (hok : k.push tid = .ok k') : k.Keeps k' := by
  rw [Kernel.push] at hok
  split at hok
  · cases hok
  · obtain rfl := Except.ok.inj hok
    exact ⟨rfl, .refl _⟩

lemma retrieveToPool_keeps {rt : RunningThread} (hok : retrieveToPool k rt = .ok k') :
    k.Keeps k' := by
  simp only [retrieveToPool] at hok
  split_ifs at hok
  · obtain rfl := Except.ok.inj hok
    exact ⟨rfl, kfree_keeps _ _⟩
  · exact ⟨(Kernel.push_keeps hok).nextUid, (Kernel.push_keeps hok).heap⟩
  · obtain rfl := Except.ok.inj hok
    exact ⟨rfl, .refl _⟩

lemma switchToIdle_keeps {context : Resume} (hok : switchToIdle k context = .ok k') : k.Keeps k' :=
  ⟨(retrieveToPool_keeps hok).nextUid, (retrieveToPool_keeps hok).heap⟩

lemma yieldCPU_keeps {context : Resume} (hok : yieldCPU k context = .ok k') : k.Keeps k' := by
  rw [yieldCPU] at hok
  split_ifs at hok
  · exact ⟨(switchToIdle_keeps hok).nextUid, (switchToIdle_keeps hok).heap⟩
  · obtain rfl := Except.ok.inj hok
    exact .refl _

lemma tickCPU_keeps (hok : tickCPU k = .ok k') : k.Keeps k' := by
  rw [tickCPU] at hok
  split_ifs at hok
  · simp only at hok
    split_ifs at hok
    · exact ⟨(switchToIdle_keeps hok).nextUid, (switchToIdle_keeps hok).heap⟩
    · obtain rfl := Except.ok.inj hok
      exact ⟨rfl, .refl _⟩
  · obtain rfl := Except.ok.inj hok
    exact .refl _

lemma wakeupCPU_keeps {t : ℤ} (hok : wakeupCPU k t = .ok k') : k.Keeps k' := by
  rw [wakeupCPU] at hok
  split_ifs at hok
  exact ⟨(Kernel.push_keeps hok).nextUid, (Kernel.push_keeps hok).heap⟩

lemma exitFromCPU_keeps (hok : exitFromCPU k = .ok k') : k.Keeps k' := by
  simp only [exitFromCPU] at hok
  split_ifs at hok
  · split at hok
    · cases hok
    · rename_i k₁ hwake
      have hk₁ := wakeupCPU_keeps hwake
      have hk' := switchToIdle_keeps hok
      exact .trans ⟨hk₁.nextUid, hk₁.heap⟩ hk'
  · have hk' := switchToIdle_keeps hok
    exact ⟨hk'.nextUid, hk'.heap⟩

lemma popChar_keeps {v : View} (hs : HeapSeen k.heap k.buf k.waitQueue v)
    (hok : popChar k = .ok k') : k.Keeps k' := by
  rw [popChar] at hok
  split_ifs at hok
  · obtain rfl := Except.ok.inj hok
    exact ⟨rfl, popFront_keeps _ _⟩
  · rw [waitCondition] at hok
    split at hok
    · cases hok
    · rename_i heap waitQueue hpush
      obtain ⟨_, _, _, _, hr⟩ := hs
      obtain ⟨_, _, hq, _, _, _, hh⟩ := hr.swap
      have hk' := yieldCPU_keeps hok
      exact ⟨hk'.nextUid, (hq.pushBack_keeps hh hpush).trans hk'.heap⟩

lemma notifyCondition_keeps (hok : notifyCondition k = .ok k') : k.Keeps k' := by
  rw [notifyCondition] at hok
  split_ifs at hok
  · have hk' := wakeupCPU_keeps hok
    exact ⟨hk'.nextUid, (popFront_keeps _ _).trans hk'.heap⟩
  · obtain rfl := Except.ok.inj hok
    exact .refl _

lemma external_keeps {ret : Option UInt8} {v : View} (hs : HeapSeen k.heap k.buf k.waitQueue v)
    (hok : external k ret = .ok k') : k.Keeps k' := by
  have hpush : ∀ ch, pushChar k ch = .ok k' → k.Keeps k' := by
    intro ch hok
    rw [pushChar] at hok
    split at hok
    · cases hok
    · rename_i heap buf hpush
      obtain ⟨_, _, _, _, _, _, hq, _, _, _, hh⟩ := hs
      have hk' := notifyCondition_keeps hok
      exact ⟨hk'.nextUid, (hq.pushBack_keeps hh hpush).trans hk'.heap⟩
  cases ret with
  | none =>
    obtain rfl := Except.ok.inj hok
    exact .refl _
  | some ch =>
    rw [external] at hok
    split_ifs at hok
    · exact hpush _ hok
    · exact hpush _ hok

/-! ### Readers -/

section
variable {threads threads' threads'' : ℕ → ThreadInfo}

lemma SameReaders.refl (threads : ℕ → ThreadInfo) : SameReaders threads threads := fun _ _ h => h

lemma SameReaders.trans (h : SameReaders threads threads') (h' : SameReaders threads' threads'') :
    SameReaders threads threads'' := fun t u hr => h t u (h' t u hr)

/-- One slot changes, and the thread there is the same or does not wait. -/
lemma SameReaders.update {info : ThreadInfo} (tid : ℕ)
    (hinfo : info.occupied = true → info.thread.context = .popChar →
      (threads tid).occupied = true ∧ info.thread = (threads tid).thread) :
    SameReaders threads (Function.update threads tid info) := by
  rintro t u ⟨hocc, hcontext, huid⟩
  by_cases ht : t = tid
  · subst ht
    rw [Function.update_self] at hocc hcontext huid
    obtain ⟨hold, hthread⟩ := hinfo hocc hcontext
    rw [hthread] at hcontext huid
    exact ⟨hold, hcontext, huid⟩
  · rw [Function.update_of_ne ht] at hocc hcontext huid
    exact ⟨hocc, hcontext, huid⟩

end

lemma Kernel.push_threads (hok : k.push tid = .ok k') : k'.threads = k.threads :=
  (Kernel.push_cases hok).2.2.2

/-- Who is put back is saved with the given context. -/
lemma switchToIdle_threads {context : Resume} (hok : switchToIdle k context = .ok k') :
    k'.threads = k.threads ∨ ∃ info, k'.threads = Function.update k.threads k.current.tid info ∧
      info.thread = { k.current.thread with context } := by
  simp only [switchToIdle, retrieveToPool] at hok
  split_ifs at hok
  · obtain rfl := Except.ok.inj hok
    exact .inl rfl
  · exact .inr ⟨_, Kernel.push_threads hok, rfl⟩
  · obtain rfl := Except.ok.inj hok
    exact .inr ⟨_, rfl, rfl⟩

lemma switchToIdle_readers {context : Resume} (hok : switchToIdle k context = .ok k')
    (hcontext : context ≠ .popChar) : SameReaders k.threads k'.threads := by
  rcases switchToIdle_threads hok with h | ⟨info, h, hinfo⟩
  · rw [h]
    exact .refl _
  · rw [h]
    refine .update _ fun _ hpop => absurd hpop ?_
    rw [hinfo]
    exact hcontext

lemma tickCPU_readers (hok : tickCPU k = .ok k') : SameReaders k.threads k'.threads := by
  rw [tickCPU] at hok
  split_ifs at hok
  · simp only at hok
    split_ifs at hok
    · have hreaders := switchToIdle_readers hok (by decide)
      exact hreaders
    · obtain rfl := Except.ok.inj hok
      exact .refl _
  · obtain rfl := Except.ok.inj hok
    exact .refl _

lemma wakeupCPU_readers {t : ℤ} (hok : wakeupCPU k t = .ok k') :
    SameReaders k.threads k'.threads := by
  rw [wakeupCPU] at hok
  split_ifs at hok
  rw [Kernel.push_threads hok]
  exact .update _ fun h _ => ⟨h, rfl⟩

lemma exitFromCPU_readers (hok : exitFromCPU k = .ok k') : SameReaders k.threads k'.threads := by
  simp only [exitFromCPU] at hok
  have hexit : SameReaders k.threads (exitFromPool k k.current.tid).threads :=
    .update k.current.tid fun h => by cases h
  split_ifs at hok
  · split at hok
    · cases hok
    · rename_i k₁ hwake
      have hwoken := wakeupCPU_readers hwake
      have hleft := switchToIdle_readers hok (by decide)
      exact (hexit.trans hwoken).trans hleft
  · have hleft := switchToIdle_readers hok (by decide)
    exact hexit.trans hleft

lemma notifyCondition_readers (hok : notifyCondition k = .ok k') :
    SameReaders k.threads k'.threads := by
  rw [notifyCondition] at hok
  split_ifs at hok
  · have hwoken := wakeupCPU_readers hok
    exact hwoken
  · obtain rfl := Except.ok.inj hok
    exact .refl _

lemma external_readers {ret : Option UInt8} (hok : external k ret = .ok k') :
    SameReaders k.threads k'.threads := by
  have hpush : ∀ ch, pushChar k ch = .ok k' → SameReaders k.threads k'.threads := by
    intro ch hok
    rw [pushChar] at hok
    split at hok
    · cases hok
    · have hnotified := notifyCondition_readers hok
      exact hnotified
  cases ret with
  | none =>
    obtain rfl := Except.ok.inj hok
    exact .refl _
  | some ch =>
    rw [external] at hok
    split_ifs at hok
    · exact hpush _ hok
    · exact hpush _ hok

/-- A reader that finds a character keeps the processor. -/
lemma popChar_takes (hempty : isEmpty k.buf = false) (hok : popChar k = .ok k') :
    k'.threads = k.threads ∧ k'.occupied = k.occupied ∧ k'.current = k.current := by
  rw [popChar, if_pos hempty] at hok
  obtain rfl := Except.ok.inj hok
  exact ⟨rfl, rfl, rfl⟩

lemma switchToIdle_uid {context : Resume} (hok : switchToIdle k context = .ok k') :
    k'.current.thread.uid = k.current.thread.uid := by
  simp only [switchToIdle, retrieveToPool] at hok
  split_ifs at hok
  · obtain rfl := Except.ok.inj hok
    rfl
  · rw [(Kernel.push_cases hok).2.2.1]
    rfl
  · obtain rfl := Except.ok.inj hok
    rfl

/-- A reader that finds no character stays where idle left it. -/
lemma popChar_uid (hok : popChar k = .ok k') : k'.current.thread.uid = k.current.thread.uid := by
  by_cases hempty : isEmpty k.buf = false
  · rw [(popChar_takes hempty hok).2.2]
  · rw [popChar, if_neg hempty, waitCondition] at hok
    split at hok
    · cases hok
    · rw [yieldCPU] at hok
      split_ifs at hok
      · have huid := switchToIdle_uid hok
        exact huid
      · obtain rfl := Except.ok.inj hok
        rfl

/-- A reader that finds no character waits from now on. -/
lemma popChar_readers (hok : popChar k = .ok k') {t u : ℕ} (h : ReaderIn k'.threads t u) :
    ReaderIn k.threads t u ∨ t = k.current.tid ∧ u = k.current.thread.uid := by
  by_cases hempty : isEmpty k.buf = false
  · rw [(popChar_takes hempty hok).1] at h
    exact .inl h
  · rw [popChar, if_neg hempty, waitCondition] at hok
    split at hok
    · cases hok
    · rename_i heap waitQueue _
      rw [yieldCPU] at hok
      split_ifs at hok
      · by_cases ht : t = k.current.tid
        · rcases switchToIdle_threads hok with hthreads | ⟨info, hthreads, hinfo⟩
          · rw [hthreads] at h
            refine .inl ?_
            obtain ⟨hocc, hcontext, huid⟩ := h
            simp only [Kernel.setInfo, ht, Function.update_self] at hocc hcontext huid
            rw [ht]
            exact ⟨hocc, hcontext, huid⟩
          · have huid := h.uid
            simp only [Kernel.setInfo] at hthreads hinfo
            rw [hthreads, ht, Function.update_self, hinfo] at huid
            exact .inr ⟨ht, huid.symm⟩
        · left
          have hsame : k'.threads t = k.threads t := by
            rcases switchToIdle_threads hok with hthreads | ⟨info, hthreads, hinfo⟩
            · rw [hthreads]
              exact Function.update_of_ne ht _ _
            · rw [hthreads]
              exact (Function.update_of_ne ht _ _).trans (Function.update_of_ne ht _ _)
          obtain ⟨hocc, hcontext, huid⟩ := h
          rw [hsame] at hocc hcontext huid
          exact ⟨hocc, hcontext, huid⟩
      · obtain rfl := Except.ok.inj hok
        exact .inl h

/-! ### Bytes outside of the heap -/

variable {root : ℕ → Prop} {ready waiters : List ℕ} {buffer : List UInt8}

/-- The kernel does what `step` does for an event, except for bytes outside of its heap. -/
def Kernel.Follows (k k' : Kernel) (e : Event) : Prop :=
  ∃ mem, (∀ x, ¬ k'.heap.Outside x → k'.heap.mem x = mem x) ∧ step k e = .ok (k'.setMem mem)

/-- Such a step is a turn of the scheduler too. -/
lemma Steady.follow {e : Event} (h : Steady root k ready waiters buffer) (hf : k.Follows k' e)
    (hno : e = .syscall .exit → k.occupied = true → ¬ root k.current.thread.uid) :
    ∃ ready' waiters' buffer', Steady root k' ready' waiters' buffer' ∧
      (k.view ready waiters buffer).Turn (k'.view ready' waiters' buffer') := by
  obtain ⟨mem, hmem, hok⟩ := hf
  obtain ⟨ready', waiters', buffer', hsteady, hturn⟩ := h.step hno hok
  exact ⟨ready', waiters', buffer', hsteady.setMem k'.heap.mem hmem, hturn⟩

/-- A thread that goes to sleep leaves the heap alone. -/
lemma yieldCPU_setMem {context : Resume} (mem : Bytes.Memory) (ho : k.occupied = true)
    (hmine : (k.threads k.current.tid).occupied = true) (hok : yieldCPU k context = .ok k') :
    yieldCPU (k.setMem mem) context = .ok (k'.setMem mem) := by
  have hsleeps : ∀ k₁ : Kernel, k₁.occupied = true → (k₁.threads k₁.current.tid).occupied = true →
      yieldCPU k₁ context = .ok ({ k₁.setInfo k₁.current.tid
        { k₁.threads k₁.current.tid with status := .sleeping } with
        current := { k₁.current with thread := { k₁.current.thread with context } }
        occupied := false }.setInfo k₁.current.tid
        { k₁.threads k₁.current.tid with
          status := .sleeping, thread := { k₁.current.thread with context } }) := by
    intro k₁ ho hmine
    rw [yieldCPU, if_pos ho]
    simp only
    rw [switchToIdle_sleeping (by simpa only [Kernel.setInfo, Function.update_self] using hmine)
      (by simp only [Kernel.setInfo, Function.update_self]; decide)]
    simp only [Kernel.setInfo, Function.update_self]
  rw [hsleeps k ho hmine] at hok
  obtain rfl := Except.ok.inj hok
  exact hsleeps (k.setMem mem) ho hmine

end

end Jokerix
