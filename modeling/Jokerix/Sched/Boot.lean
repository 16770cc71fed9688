import Jokerix.Sched.Runs
import Jokerix.Heap.Safety

/-!
# Starting the first threads

Threads start as long as the heap has room, and `initThread` puts the first one into slot `0`.
-/

namespace Jokerix

section
variable {h h' : KernelHeap} {blocks : List (ℕ × ℕ)}

lemma kfree_region (h : KernelHeap) (ptr : ℕ) : (kfree h ptr).region = h.region := by
  simp only [kfree]
  split_ifs <;> rfl

lemma Holds.newUserThread_roomy {n : ℕ} (hh : Holds h blocks) (context : List UInt8)
    (hroom : Roomy n blocks) (hn : n < 8) : ∃ t h' b, newUserThread h context = .ok (t, h') ∧
      h'.region = h.region ∧ Holds h' (b :: blocks) ∧ b.2 ≤ 2 ^ 14 * minBlockSize := by
  obtain ⟨kstack, h₁, hok, hregion, hh₁, _, hsmall⟩ := hh.kalloc_roomy
    (BitVec.ofNat 32 kernelStackSize) hroom hn (by decide) (by decide)
  exact ⟨_, _, _, by rw [newUserThread, hok], by exact hregion, hh₁.setMem _,
    hsmall _ List.mem_cons_self⟩

lemma Holds.loadProgram_roomy {n : ℕ} {p : Program} (hh : Holds h blocks) (hroom : Roomy n blocks)
    (hn : n < 7) (hpos : p.file ≠ []) (hle : p.file.length < 2 ^ 20) :
    ∃ t h' blocks', loadProgram h p = .ok (t, h') ∧ h'.region = h.region ∧ Holds h' blocks' ∧
      Roomy (n + 1) blocks' := by
  have hlen := List.length_pos_iff.mpr hpos
  have hsize : (BitVec.ofNat 32 p.file.length).toInt = p.file.length := by
    rw [BitVec.toInt_eq_toNat_cond, BitVec.toNat_ofNat, Nat.mod_eq_of_lt p.size_lt]
    rw [if_pos (by omega)]
  obtain ⟨buf, h₁, hok, hregion₁, hh₁, hroom₁⟩ := hh.kalloc_roomy
    (BitVec.ofNat 32 p.file.length) hroom (by omega) (by omega) (by omega)
  obtain ⟨t, h₂, b, hnew, hregion₂, hh₂, hsmall⟩ :=
    (hh₁.setMem (Bytes.store h₁.mem buf p.file)).newUserThread_roomy p.context hroom₁
      (by omega)
  obtain ⟨hh', _⟩ := (hh₂.perm (List.Perm.swap _ _ _)).kfree_cons
  refine ⟨t, Jokerix.kfree h₂ buf, _, ?_, ?_, hh', hroom.cons hsmall⟩
  · rw [loadProgram, if_neg (by omega), hok]
    simp only [hnew]
  · rw [kfree_region, hregion₂, hregion₁]

end

/-! ### The first thread -/

lemma allocTid_eq {threads : ℕ → ThreadInfo} {tid : ℕ} (hlt : tid < maxThread)
    (hfree : (threads tid).occupied = false) (hbefore : ∀ t < tid, (threads t).occupied = true) :
    allocTid threads = some tid := by
  rw [allocTid, List.find?_range_eq_some]
  refine ⟨by simp [hfree], by simpa using hlt, ?_⟩
  intro t ht
  simp [hbefore t ht]

lemma allocTid_free {threads : ℕ → ThreadInfo} (h : (threads 0).occupied = false) :
    allocTid threads = some 0 := allocTid_eq (by decide) h (fun t ht => absurd ht t.not_lt_zero)

lemma loadProgram_thread {h h' : KernelHeap} {p : Program} {t : Thread}
    (hok : loadProgram h p = .ok (t, h')) : t.context = .user := by
  rw [loadProgram] at hok
  split_ifs at hok
  split at hok
  · cases hok
  · simp only [newUserThread] at hok
    split at hok
    · cases hok
    · rename_i hnew
      split at hnew
      · cases hnew
      · rw [Except.ok.injEq, Prod.mk.injEq] at hok hnew
        rw [← hok.1, ← hnew.1]

section
variable {k k' : Kernel} {sh : Program}

/-- The first thread is in slot `0`, and its `wait` is `0`. -/
lemma initThread_spec (hk : k.Fresh) (hok : initThread k sh = .ok k') :
    schedulerPush (schedulerInit k.rrScheduler) 0 = .ok k'.rrScheduler ∧ k'.occupied = false ∧
      k'.buf = k.buf ∧ k'.waitQueue = k.waitQueue ∧ k'.nextUid = 1 ∧ k'.log = [.pushed 0] ∧
      ∃ kstack, k'.threads = Function.update k.threads 0 { k.threads 0 with
        status := .ready, occupied := true, thread := ⟨.user, kstack, 0, 0⟩ } := by
  rw [initThread, initCPU] at hok
  split at hok
  · cases hok
  · rename_i k₁ h₁
    split at h₁
    · cases h₁
    · obtain rfl := Except.ok.inj h₁
      rw [startThread] at hok
      split at hok
      · cases hok
      · rename_i t heap hload
        have hctx := loadProgram_thread hload
        simp only [addToPool, allocTid_free (hk.free 0), Kernel.push] at hok
        split at hok
        · cases hok
        · rename_i s hpush
          obtain rfl := Except.ok.inj hok
          refine ⟨hpush, rfl, rfl, rfl, ?_, ?_, t.kstack, ?_⟩
          · simp only [Kernel.record, Kernel.setInfo, hk.nextUid]
          · simp only [Kernel.record, Kernel.setInfo, Function.update_self, hk.nextUid, hk.log,
              List.nil_append]
          · simp only [Kernel.record, Kernel.setInfo, hctx, hk.nextUid]

/-- With an empty heap and a program below a megabyte, `initThread` succeeds. -/
lemma initThread_ok (hk : Holds k.heap []) (hfree : (k.threads 0).occupied = false)
    (hpos : sh.file ≠ []) (hle : sh.file.length < 2 ^ 20) :
    ∃ k' blocks, initThread k sh = .ok k' ∧ k'.heap.region = k.heap.region ∧
      Holds k'.heap blocks ∧ Roomy 2 blocks := by
  obtain ⟨_, h₁, hok₁, hregion₁, hh₁, hroom₁⟩ := hk.kalloc_roomy
    (BitVec.ofNat 32 kernelStackSize) (n := 0) ⟨le_refl _, by simp⟩ (by omega)
    (by decide) (by decide)
  obtain ⟨t, h₂, blocks, hload, hregion₂, hh₂, hroom₂⟩ :=
    hh₁.loadProgram_roomy hroom₁ (by omega) hpos hle
  obtain ⟨s, hpush, _⟩ := (schedulerInit_linked k.rrScheduler).push
    (show 0 ∉ ([] : List ℕ) by simp) (by decide)
  simp only [initThread, initCPU, hok₁, startThread, hload, addToPool, allocTid_free hfree,
    Kernel.push, Kernel.setInfo, hpush]
  exact ⟨_, blocks, rfl, hregion₂.trans hregion₁, hh₂, hroom₂⟩

end

/-! ### What an event leaves behind -/

section
variable {k : Kernel} {ready : List ℕ}

/-- The thread at the front runs, unless it has to look for a character. -/
lemma dispatch_user {tid : ℕ} (hs : Linked k.rrScheduler (tid :: ready))
    (hcontext : (k.threads tid).thread.context ≠ .popChar) :
    ∃ k', dispatch k = .ok k' ∧ k'.occupied = true ∧ Linked k'.rrScheduler ready ∧
      k'.current = ⟨tid, (k.threads tid).thread⟩ ∧ k'.heap = k.heap ∧ k'.threads =
        Function.update k.threads tid { k.threads tid with status := .running, tid := tid } ∧
      k'.buf = k.buf ∧ k'.nextUid = k.nextUid ∧
      k'.log = k.log ++ [.dispatched (k.threads tid).thread.uid] := by
  obtain ⟨s, hpop, hlinked, _⟩ := hs.pop
  rw [dispatch, acquireFromPool, hpop]
  simp only
  exact ⟨_, rfl, rfl, hlinked, rfl, rfl, rfl, rfl, rfl, rfl⟩

/-- A thread that goes to sleep is saved in its slot. -/
lemma yieldCPU_eq (context : Resume) (ho : k.occupied = true)
    (hmine : (k.threads k.current.tid).occupied = true) :
    yieldCPU k context = .ok { k with
      threads := Function.update k.threads k.current.tid { k.threads k.current.tid with
        status := .sleeping, thread := { k.current.thread with context } }
      current := { k.current with thread := { k.current.thread with context } }
      occupied := false } := by
  rw [yieldCPU, if_pos ho]
  simp only
  rw [switchToIdle_sleeping (by simpa only [Kernel.setInfo, Function.update_self] using hmine)
    (by simp only [Kernel.setInfo, Function.update_self]; decide)]
  simp only [Kernel.setInfo, Function.update_idem, Function.update_self]

/-- The exit of a child wakes its parent and frees its own stack. -/
lemma exitFromCPU_wakes {p : ℕ} (hs : Linked k.rrScheduler ready) (hnot : p ∉ ready)
    (hlt : p < maxThread) (hwait : k.current.thread.wait = p) (hne : p ≠ k.current.tid) :
    ∃ k', exitFromCPU k = .ok k' ∧ k'.occupied = false ∧ Linked k'.rrScheduler (ready ++ [p]) ∧
      k'.heap = kfree k.heap (k.threads k.current.tid).thread.kstack ∧
      k'.threads = Function.update (Function.update k.threads k.current.tid
        { k.threads k.current.tid with occupied := false }) p
        { k.threads p with status := .ready } ∧
      k'.log = k.log ++ [.exited k.current.thread.uid, .pushed (k.threads p).thread.uid,
        .freed (k.threads k.current.tid).thread.uid] := by
  rw [exitFromCPU]
  set k₁ : Kernel := (exitFromPool k k.current.tid).record (.exited k.current.thread.uid) with hk₁
  have hwait₁ : k₁.current.thread.wait = p := hwait
  have hparent : k₁.threads p = k.threads p := Function.update_of_ne hne _ _
  rw [if_pos (by rw [hwait₁]; omega), wakeupCPU, hwait₁, if_pos (by omega), Int.toNat_natCast]
  obtain ⟨s, hlinked, hpush⟩ := Kernel.push_eq
    (k := k₁.setInfo p { k₁.threads p with status := .ready }) (hs.exit _) hnot hlt
  rw [hpush, hparent, hk₁]
  simp only
  rw [switchToIdle_gone (by
    simp [Kernel.record, Kernel.setInfo, exitFromPool, Function.update_of_ne hne.symm])]
  refine ⟨_, rfl, rfl, hlinked, ?_⟩
  simp [Kernel.record, Kernel.setInfo, exitFromPool, Function.update_of_ne hne.symm]

/-- `sys_exec` succeeds while there is room. -/
lemma sysExec_ok {p : Program} {blocks : List (ℕ × ℕ)} {n tid : ℕ} (hh : Holds k.heap blocks)
    (hroom : Roomy n blocks) (hn : n < 7) (hpos : p.file ≠ []) (hle : p.file.length < 2 ^ 20)
    (hs : Linked k.rrScheduler ready) (halloc : allocTid k.threads = some tid) (hnot : tid ∉ ready)
    (ho : k.occupied = true) (hmine : (k.threads k.current.tid).occupied = true)
    (hne : k.current.tid ≠ tid) :
    ∃ k', sysExec k (some p) = .ok k' ∧ Linked k'.rrScheduler (ready ++ [tid]) ∧
      k'.occupied = false ∧ k'.buf = k.buf ∧ k'.nextUid = k.nextUid + 1 ∧
      k'.log = k.log ++ [.pushed k.nextUid, .execOk k.current.thread.uid k.nextUid] ∧
      k'.heap.region = k.heap.region ∧ (∃ blocks', Holds k'.heap blocks' ∧ Roomy (n + 1) blocks') ∧
      ∃ kstack, k'.threads = Function.update (Function.update k.threads tid { k.threads tid with
        status := .ready, occupied := true, thread := ⟨.user, kstack, k.current.tid, k.nextUid⟩ })
        k.current.tid { k.threads k.current.tid with
          status := .sleeping,
          thread := { k.current.thread with context := .sysExec k.nextUid } } := by
  obtain ⟨t, heap, blocks', hload, hregion, hh', hroom'⟩ := hh.loadProgram_roomy hroom hn hpos hle
  obtain ⟨hlt, _⟩ := allocTid_spec halloc
  obtain ⟨s, hpush, hlinked⟩ := hs.push hnot hlt
  have hcontext := loadProgram_thread hload
  simp only [sysExec, executeCPU, hload, addToPool, halloc, Kernel.push, Kernel.setInfo, hpush,
    Kernel.record]
  rw [yieldCPU_eq _ (by exact ho) (by simpa only [Function.update_of_ne hne] using hmine)]
  refine ⟨_, rfl, hlinked, rfl, rfl, rfl, by simp, hregion, ⟨blocks', hh', hroom'⟩, t.kstack, ?_⟩
  simp only [Function.update_of_ne hne, hcontext]

end
/-! ### What an event does while the heap has room -/

/-- What the two queues hold, what is ready, and how many other blocks are live. -/
def Spacious (k : Kernel) (ready waiters items : List ℕ) (n : ℕ) : Prop :=
  Linked k.rrScheduler ready ∧ ∃ blocks,
    HeapRep k.heap k.buf k.waitQueue items waiters blocks ∧ Roomy n blocks

section
variable {k : Kernel} {ready waiters items : List ℕ} {n : ℕ}

lemma Roomy.nodes {blocks : List (ℕ × ℕ)} (hroom : Roomy n blocks) (nodes nodes' : List (ℕ × ℕ)) :
    Roomy (nodes.length + nodes'.length + n)
    (nodeBlocks nodes ++ (nodeBlocks nodes' ++ blocks)) := by
  have hsmall : kallocBytes sizeofNode ≤ 2 ^ 14 * minBlockSize := by decide
  constructor
  · have := hroom.1
    simp only [nodeBlocks, List.length_append, List.length_map]
    omega
  · intro b hb
    simp only [nodeBlocks, List.mem_append, List.mem_map] at hb
    rcases hb with ⟨x, _, rfl⟩ | ⟨x, _, rfl⟩ | hb
    · exact hsmall
    · exact hsmall
    · exact hroom.2 b hb

/-- A queue grows while there is room. -/
lemma HeapRep.pushBack_ok {h : KernelHeap} {q waitQueue : Queue} {blocks : List (ℕ × ℕ)}
    (hr : HeapRep h q waitQueue items waiters blocks) (hroom : Roomy n blocks)
    (hlen : items.length + waiters.length + n < 8) (data : ℕ) :
    ∃ h' q', Jokerix.pushBack h q data = .ok (h', q') := by
  obtain ⟨nodes, nodes', _, _, rfl, rfl, hh⟩ := hr
  rw [List.length_map, List.length_map] at hlen
  obtain ⟨ptr, h', hok, _⟩ := hh.kalloc_roomy sizeofNode (hroom.nodes nodes nodes')
    (by omega) (by decide) (by decide)
  simp only [Jokerix.pushBack, hok]
  split_ifs <;> exact ⟨_, _, rfl⟩

/-- Without a character the running thread goes to sleep. -/
lemma Spacious.popChar_sleeps (hk : Spacious k ready waiters [] n) (hlen : waiters.length + n < 8)
    (ho : k.occupied = true) (hlt : k.current.tid < maxThread)
    (hmine : (k.threads k.current.tid).occupied = true) :
    ∃ k', popChar k = .ok k' ∧ Spacious k' ready (waiters ++ [k.current.tid]) [] n ∧
      k'.occupied = false ∧ k'.log = k.log ∧ k'.threads =
        Function.update k.threads k.current.tid { k.threads k.current.tid with
          status := .sleeping, thread := { k.current.thread with context := .popChar } } := by
  obtain ⟨hlinked, blocks, hr, hroom⟩ := hk
  have hempty := hr.isEmpty_iff.mpr rfl
  obtain ⟨heap, waitQueue, hpush⟩ := hr.swap.pushBack_ok hroom (by simpa using hlen) k.current.tid
  have hr' := (hr.swap.pushBack hpush).swap
  rw [Nat.mod_eq_of_lt (lt_of_lt_of_le hlt (by decide))] at hr'
  rw [popChar, if_neg (by rw [hempty]; decide), waitCondition, hpush]
  simp only
  rw [yieldCPU_eq .popChar (by exact ho) (by exact hmine)]
  exact ⟨_, rfl, ⟨hlinked, blocks, hr', hroom⟩, rfl, rfl, rfl⟩

/-- A character is taken. -/
lemma Spacious.popChar_takes {c : ℕ} (hk : Spacious k ready waiters (c :: items) n) :
    ∃ k', popChar k = .ok k' ∧ Spacious k' ready waiters items n ∧ k'.occupied = k.occupied ∧
      k'.log = k.log ++ [.charPopped (UInt8.ofNat c)] ∧ k'.threads = k.threads ∧
      k'.current = k.current := by
  obtain ⟨hlinked, blocks, hr, hroom⟩ := hk
  obtain ⟨heap, buf, hpop, hr'⟩ := hr.popFront
  have hne : isEmpty k.buf = false := by
    rw [← Bool.not_eq_true, hr.isEmpty_iff]
    exact List.cons_ne_nil c items
  rw [popChar, if_pos hne, hpop]
  exact ⟨_, rfl, ⟨hlinked, blocks, hr', hroom⟩, rfl, rfl, rfl, rfl⟩

/-- A character wakes the first reader. -/
lemma Spacious.pushChar_wakes {tid : ℕ} (ch : UInt8)
    (hk : Spacious k ready (tid :: waiters) items n)
    (hlen : items.length + waiters.length + 1 + n < 8) (hlt : tid < maxThread)
    (hnot : tid ∉ ready) :
    ∃ k', pushChar k ch = .ok k' ∧ Spacious k' (ready ++ [tid]) waiters (items ++ [ch.toNat]) n ∧
      k'.occupied = k.occupied ∧
      k'.log = k.log ++ [.charPushed ch, .pushed (k.threads tid).thread.uid] ∧
      k'.threads = Function.update k.threads tid { k.threads tid with status := .ready } ∧
      k'.current = k.current := by
  obtain ⟨hlinked, blocks, hr, hroom⟩ := hk
  obtain ⟨heap, buf, hpush⟩ := hr.pushBack_ok hroom (by simpa [add_assoc] using hlen) ch.toNat
  have hr₁ := hr.pushBack hpush
  rw [Nat.mod_eq_of_lt (lt_of_lt_of_le ch.toNat_lt (by norm_num))] at hr₁
  obtain ⟨heap', waitQueue, hpop, hr₂⟩ := hr₁.swap.popFront
  have hne : isEmpty k.waitQueue = false := by
    rw [← Bool.not_eq_true, hr.swap.isEmpty_iff]
    exact List.cons_ne_nil tid waiters
  rw [pushChar, hpush]
  simp only
  rw [notifyCondition_wake (by exact hne) (by exact hpop) hlt]
  obtain ⟨s, hs, hok⟩ := Kernel.push_eq
    (k := { ({ k with heap, buf }.record (.charPushed ch)) with heap := heap', waitQueue }.setInfo
      tid { k.threads tid with status := .ready }) hlinked hnot hlt
  refine ⟨_, hok, ⟨hs, blocks, hr₂.swap, hroom⟩, rfl, ?_, rfl, rfl⟩
  simp [Kernel.record, Kernel.setInfo]

/-- The thread at the front runs. -/
lemma Spacious.dispatch {tid : ℕ} (hk : Spacious k (tid :: ready) waiters items n) :
    ∃ k', Spacious k' ready waiters items n ∧ k'.occupied = true ∧
      k'.current = ⟨tid, (k.threads tid).thread⟩ ∧
      k'.log = k.log ++ [.dispatched (k.threads tid).thread.uid] ∧ k'.threads =
        Function.update k.threads tid { k.threads tid with status := .running, tid := tid } ∧
      Jokerix.dispatch k =
        if (k.threads tid).thread.context = .popChar then popChar k' else .ok k' := by
  obtain ⟨hlinked, blocks, hr, hroom⟩ := hk
  obtain ⟨s, hpop, hlinked', _⟩ := hlinked.pop
  refine ⟨{ ({ k with rrScheduler := s }.setInfo tid
      { k.threads tid with status := .running, tid := tid }) with
      current := ⟨tid, (k.threads tid).thread⟩, occupied := true }.record
        (.dispatched (k.threads tid).thread.uid), ⟨hlinked', blocks, hr, hroom⟩, rfl, rfl, rfl, rfl,
      ?_⟩
  rw [Jokerix.dispatch, acquireFromPool, hpop]
  simp only
  split
  · rename_i h
    rw [if_pos h]
  · rename_i h
    rw [if_neg h]

/-- A thread is started in the free slot. -/
lemma Spacious.startThread (hk : Spacious k ready waiters items n) (tid : ℕ)
    (hlen : items.length + waiters.length + n < 6) {p : Program} (wait : ℤ) (hpos : p.file ≠ [])
    (hle : p.file.length < 2 ^ 20) (halloc : allocTid k.threads = some tid)
    (hnot : tid ∉ ready) : ∃ k' kstack, Jokerix.startThread k p wait = .ok k' ∧
      Spacious k' (ready ++ [tid]) waiters items (n + 1) ∧ k'.occupied = k.occupied ∧
      k'.nextUid = k.nextUid + 1 ∧ k'.log = k.log ++ [.pushed k.nextUid] ∧
      k'.threads = Function.update k.threads tid { k.threads tid with
        status := .ready, occupied := true, thread := ⟨.user, kstack, wait, k.nextUid⟩ } := by
  obtain ⟨hlinked, blocks, hr, hroom⟩ := hk
  obtain ⟨hlt, _⟩ := allocTid_spec halloc
  obtain ⟨s, hpush, hlinked'⟩ := hlinked.push hnot hlt
  obtain ⟨t, heap, _, hload, _⟩ : ∃ t heap blocks', loadProgram k.heap p = .ok (t, heap) ∧
      Holds heap blocks' := by
    obtain ⟨nodes, nodes', _, _, rfl, rfl, hh⟩ := hr
    rw [List.length_map, List.length_map] at hlen
    obtain ⟨t, heap, blocks', hload, _, hh', _⟩ := hh.loadProgram_roomy (p := p)
      (hroom.nodes nodes nodes') (by omega) hpos hle
    exact ⟨t, heap, blocks', hload, hh'⟩
  obtain ⟨hr', hcontext, _⟩ := hr.loadProgram hload
  have hstack : stackBytes ≤ 2 ^ 14 * minBlockSize :=
    (kallocBytes_small (by decide) (by decide)).2
  simp only [Jokerix.startThread, hload, addToPool, halloc, Kernel.push, Kernel.setInfo, hpush]
  refine ⟨_, t.kstack, rfl, ⟨hlinked', _, hr', hroom.cons hstack⟩, rfl, rfl, ?_, ?_⟩
  · simp [Kernel.record]
  · simp [Kernel.record, hcontext]

end

/-! ### A small kernel -/

/-- The globals as the loader leaves them: all zero. -/
def sampleKernel : Kernel where
  rrScheduler := ⟨fun _ => ⟨0, 0, 0, 0⟩, 0, 0⟩
  threads := fun _ => ⟨.ready, 0, false, ⟨.user, 0, 0, 0⟩⟩
  current := ⟨0, ⟨.user, 0, 0, 0⟩⟩
  occupied := false
  buf := ⟨0, 0⟩
  waitQueue := ⟨0, 0⟩
  heap := initHeap sampleHeap
  nextUid := 0
  log := []

def sampleProgram : Program := ⟨[0x7f], [], by decide⟩

lemma sampleKernel_fresh : sampleKernel.Fresh :=
  ⟨fun _ => rfl, rfl, rfl, ⟨[], holds_initHeap _⟩, rfl, rfl⟩

lemma sampleKernel_boots : ∃ k blocks, initThread sampleKernel sampleProgram = .ok k ∧
    k.heap.region = sampleHeap.region ∧ Holds k.heap blocks ∧ Roomy 2 blocks :=
  initThread_ok (holds_initHeap _) rfl (by simp [sampleProgram]) (by simp [sampleProgram])

/-- Its first thread is the only one on the ready list. -/
lemma sampleKernel_first {k : Kernel} (hinit : initThread sampleKernel sampleProgram = .ok k) :
    Linked k.rrScheduler [0] ∧ k.occupied = false ∧ isEmpty k.buf = true ∧ k.nextUid = 1 ∧
    k.log = [.pushed 0] ∧ ∃ kstack, k.threads = Function.update sampleKernel.threads 0
    { sampleKernel.threads 0 with
        status := .ready, occupied := true, thread := ⟨.user, kstack, 0, 0⟩ } := by
  obtain ⟨hpush, hocc, hbuf, _, hnext, hlog, hslot⟩ := initThread_spec sampleKernel_fresh hinit
  obtain ⟨s, hs, hlinked⟩ := (schedulerInit_linked sampleKernel.rrScheduler).push
    (show 0 ∉ ([] : List ℕ) by simp) (by decide)
  obtain rfl := Except.ok.inj (hs.symm.trans hpush)
  exact ⟨hlinked, hocc, by rw [hbuf]; rfl, hnext, hlog, hslot⟩

/-- Two of its threads are started. -/
lemma sampleKernel_two : ∃ k₁ k₂ kstack₀ kstack₁, initCPU sampleKernel = .ok k₁ ∧
    startAll k₁ [(sampleProgram, 0), (sampleProgram, -1)] = .ok k₂ ∧ Spacious k₂ [0, 1] [] [] 3 ∧
    k₂.occupied = false ∧ k₂.log = [.pushed 0, .pushed 1] ∧ k₂.threads =
      Function.update (Function.update sampleKernel.threads 0 { sampleKernel.threads 0 with
        status := .ready, occupied := true, thread := ⟨.user, kstack₀, 0, 0⟩ }) 1
        { sampleKernel.threads 1 with
          status := .ready, occupied := true, thread := ⟨.user, kstack₁, -1, 1⟩ } := by
  obtain ⟨kstack, heap, hok, _, hh, hroom⟩ := (holds_initHeap sampleHeap).kalloc_roomy
    (BitVec.ofNat 32 kernelStackSize) (n := 0) ⟨le_refl _, by simp⟩ (by omega) (by decide)
    (by decide)
  obtain ⟨k, hinit, hk, hocc, hnext, hlog, hthreads⟩ : ∃ k, initCPU sampleKernel = .ok k ∧
      Spacious k [] [] [] 1 ∧ k.occupied = false ∧ k.nextUid = 0 ∧ k.log = [] ∧
      k.threads = sampleKernel.threads := by
    rw [initCPU, show sampleKernel.heap = initHeap sampleHeap from rfl, hok]
    exact ⟨_, rfl, ⟨schedulerInit_linked _, _, ⟨[], [], ⟨trivial, rfl, rfl⟩, ⟨trivial, rfl, rfl⟩,
      rfl, rfl, hh⟩, hroom⟩, rfl, rfl, rfl, rfl⟩
  obtain ⟨k₁, kstack₀, hstart₁, hk₁, hocc₁, hnext₁, hlog₁, hthreads₁⟩ := hk.startThread
    (p := sampleProgram) 0 (by decide) 0 (by simp [sampleProgram])
    (by simp [sampleProgram]) (by rw [hthreads]; exact allocTid_free rfl) List.not_mem_nil
  obtain ⟨k₂, kstack₁, hstart₂, hk₂, hocc₂, _, hlog₂, hthreads₂⟩ := hk₁.startThread
    (p := sampleProgram) 1 (by decide) (-1) (by simp [sampleProgram])
    (by simp [sampleProgram])
    (allocTid_eq (by decide) (by simp [hthreads₁, hthreads, sampleKernel]) (by simp [hthreads₁]))
    (by simp)
  refine ⟨k, k₂, kstack₀, kstack₁, hinit, by simp [startAll, hstart₁, hstart₂], hk₂, ?_, ?_, ?_⟩
  · rw [hocc₂, hocc₁, hocc]
  · simp [hlog₂, hlog₁, hlog, hnext₁, hnext]
  · rw [hthreads₂, hthreads₁, hthreads, hnext₁, hnext]
    rfl

end Jokerix
