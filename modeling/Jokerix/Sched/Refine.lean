import Jokerix.Sched.View
import Jokerix.Sched.HeapRep

/-!
# The kernel refines its view

`Seen` ties a kernel to the lists that its ring and its queues stand for and to the heap blocks its
threads own. Every event that ends without a panic has the effect of one `Turn` of the view.
-/

namespace Jokerix

def Kernel.view (k : Kernel) (ready waiters : List ℕ) (buffer : List UInt8) : View where
  ready := ready
  waiters := waiters
  buffer := buffer
  threads := k.threads
  current := k.current
  occupied := k.occupied
  nextUid := k.nextUid
  log := k.log

/-- The queues hold the lists of the view, and every thread owns its kernel stack. -/
def HeapSeen (h : KernelHeap) (buf waitQueue : Queue) (v : View) : Prop :=
  ∃ slots rest : List _, slots.Nodup ∧ (∀ t, t ∈ slots ↔ v.Live t) ∧
    HeapRep h buf waitQueue (v.buffer.map UInt8.toNat) v.waiters
      (slots.map (fun t => ((v.threads t).thread.kstack, stackBytes)) ++ rest)

/-- The ring and the queues of the kernel stand for the given lists. -/
structure Seen (k : Kernel) (ready waiters : List ℕ) (buffer : List UInt8) : Prop where
  linked : Linked k.rrScheduler ready
  heap : HeapSeen k.heap k.buf k.waitQueue (k.view ready waiters buffer)

/-! ### The heap -/

section
variable {h h' : KernelHeap} {buf buf' waitQueue waitQueue' : Queue} {v v' : View}

/-- Only who is alive and which stacks they have matters. -/
lemma HeapSeen.congr (hs : HeapSeen h buf waitQueue v) (hlive : ∀ t, v'.Live t ↔ v.Live t)
    (hstack : ∀ t, v.Live t → (v'.threads t).thread.kstack = (v.threads t).thread.kstack)
    (hbuffer : v'.buffer = v.buffer) (hwaiters : v'.waiters = v.waiters) :
    HeapSeen h buf waitQueue v' := by
  obtain ⟨slots, rest, hnd, hmem, hr⟩ := hs
  refine ⟨slots, rest, hnd, fun t => (hmem t).trans (hlive t).symm, ?_⟩
  rw [hbuffer, hwaiters]
  rwa [List.map_congr_left (g := fun t => ((v.threads t).thread.kstack, stackBytes))]
  intro t ht
  rw [hstack t ((hmem t).mp ht)]

lemma HeapSeen.isEmpty_buf (hs : HeapSeen h buf waitQueue v) :
    isEmpty buf = true ↔ v.buffer = [] := by
  obtain ⟨slots, rest, _, _, hr⟩ := hs
  rw [hr.isEmpty_iff, List.map_eq_nil_iff]

lemma HeapSeen.isEmpty_waitQueue (hs : HeapSeen h buf waitQueue v) :
    isEmpty waitQueue = true ↔ v.waiters = [] := by
  obtain ⟨slots, rest, _, _, hr⟩ := hs
  exact hr.swap.isEmpty_iff

lemma HeapSeen.pushBuf {ch : UInt8} (hs : HeapSeen h buf waitQueue v)
    (hok : pushBack h buf ch.toNat = .ok (h', buf')) :
    HeapSeen h' buf' waitQueue { v with buffer := v.buffer ++ [ch] } := by
  obtain ⟨slots, rest, hnd, hmem, hr⟩ := hs
  refine ⟨slots, rest, hnd, hmem, ?_⟩
  have hlt : ch.toNat < 2 ^ 64 := lt_of_lt_of_le ch.toNat_lt (by norm_num)
  have hr' := hr.pushBack hok
  rw [Nat.mod_eq_of_lt hlt] at hr'
  simpa using hr'

lemma HeapSeen.pushWait {tid : ℕ} (hlt : tid < maxThread) (hs : HeapSeen h buf waitQueue v)
    (hok : pushBack h waitQueue tid = .ok (h', waitQueue')) :
    HeapSeen h' buf waitQueue' { v with waiters := v.waiters ++ [tid] } := by
  obtain ⟨slots, rest, hnd, hmem, hr⟩ := hs
  refine ⟨slots, rest, hnd, hmem, ?_⟩
  have hlt' : tid < 2 ^ 64 := lt_of_lt_of_le hlt (by decide)
  have hr' := (hr.swap.pushBack hok).swap
  rwa [Nat.mod_eq_of_lt hlt'] at hr'

lemma HeapSeen.popBuf {ch : UInt8} {rest : List UInt8} (hs : HeapSeen h buf waitQueue v)
    (hb : v.buffer = ch :: rest) : ∃ h' buf', popFront h buf = (ch.toNat, h', buf') ∧
      HeapSeen h' buf' waitQueue { v with buffer := rest } := by
  obtain ⟨slots, blocks, hnd, hmem, hr⟩ := hs
  rw [hb, List.map_cons] at hr
  obtain ⟨h', buf', hpop, hr'⟩ := hr.popFront
  exact ⟨h', buf', hpop, slots, blocks, hnd, hmem, hr'⟩

lemma HeapSeen.popWait {tid : ℕ} {rest : List ℕ} (hs : HeapSeen h buf waitQueue v)
    (hw : v.waiters = tid :: rest) : ∃ h' waitQueue', popFront h waitQueue = (tid, h', waitQueue') ∧
      HeapSeen h' buf waitQueue' { v with waiters := rest } := by
  obtain ⟨slots, blocks, hnd, hmem, hr⟩ := hs
  rw [hw] at hr
  obtain ⟨h', waitQueue', hpop, hr'⟩ := hr.swap.popFront
  exact ⟨h', waitQueue', hpop, slots, blocks, hnd, hmem, hr'.swap⟩

/-- Freeing the stack of a thread that leaves. -/
lemma HeapSeen.kfree {tid : ℕ} (hs : HeapSeen h buf waitQueue v) (htid : v.Live tid)
    (hlive : ∀ t, v'.Live t ↔ v.Live t ∧ t ≠ tid)
    (hstack : ∀ t, v'.Live t → (v'.threads t).thread.kstack = (v.threads t).thread.kstack)
    (hbuffer : v'.buffer = v.buffer) (hwaiters : v'.waiters = v.waiters) :
    HeapSeen (kfree h (v.threads tid).thread.kstack) buf waitQueue v' := by
  obtain ⟨slots, rest, hnd, hmem, hr⟩ := hs
  have hmem' : ∀ t, t ∈ slots.erase tid ↔ v'.Live t := by
    intro t
    rw [hnd.mem_erase_iff, hmem, hlive, and_comm]
  refine ⟨slots.erase tid, rest, hnd.erase tid, hmem', ?_⟩
  rw [hbuffer, hwaiters]
  have hperm := (List.perm_cons_erase ((hmem tid).mpr htid)).map
    (fun t => ((v.threads t).thread.kstack, stackBytes))
  have hr' := (hr.perm (hperm.append_right rest)).kfree
  rwa [List.map_congr_left (g := fun t => ((v.threads t).thread.kstack, stackBytes))]
  intro t ht
  rw [hstack t ((hmem' t).mp ht)]

/-- Loading a program for a free slot. -/
lemma HeapSeen.load {prog : Program} {th : Thread} (hs : HeapSeen h buf waitQueue v) (tid : ℕ)
    (hok : loadProgram h prog = .ok (th, h')) (htid : ¬ v.Live tid)
    (hlive : ∀ t, v'.Live t ↔ t = tid ∨ v.Live t)
    (hstack : ∀ t, v.Live t → (v'.threads t).thread.kstack = (v.threads t).thread.kstack)
    (hnew : (v'.threads tid).thread.kstack = th.kstack)
    (hbuffer : v'.buffer = v.buffer) (hwaiters : v'.waiters = v.waiters) :
    HeapSeen h' buf waitQueue v' := by
  obtain ⟨slots, rest, hnd, hmem, hr⟩ := hs
  refine ⟨tid :: slots, rest, List.nodup_cons.mpr ⟨mt (hmem tid).mp htid, hnd⟩, ?_, ?_⟩
  · intro t
    rw [List.mem_cons, hmem, hlive]
  · obtain ⟨hr', _⟩ := hr.loadProgram hok
    rw [hbuffer, hwaiters, List.map_cons, hnew]
    rwa [List.map_congr_left (g := fun t => ((v.threads t).thread.kstack, stackBytes))]
    intro t ht
    rw [hstack t ((hmem t).mp ht)]

end

/-! ### The pieces of an event -/

section
variable {k k' : Kernel} {ready waiters : List ℕ} {buffer : List UInt8}

/-- The event has the effect of a turn. -/
def Refines (k k' : Kernel) (ready waiters : List ℕ) (buffer : List UInt8) : Prop :=
  ∃ ready' waiters' buffer', Seen k' ready' waiters' buffer' ∧
    (k.view ready waiters buffer).Turn (k'.view ready' waiters' buffer')

lemma Kernel.push_eq (h : Linked k.rrScheduler ready) {tid : ℕ} (hnot : tid ∉ ready)
    (hlt : tid < maxThread) : ∃ s, Linked s (ready ++ [tid]) ∧ k.push tid =
      .ok ({ k with rrScheduler := s }.record (.pushed (k.threads tid).thread.uid)) := by
  obtain ⟨s, hok, hs⟩ := h.push hnot hlt
  exact ⟨s, hs, by rw [Kernel.push, hok]⟩

/-- A thread that left the pool is not put back, and its stack is freed. -/
lemma switchToIdle_gone {context : Resume}
    (ho : (k.threads k.current.tid).occupied = false) :
    switchToIdle k context = .ok ({ k with
      current := { k.current with thread := { k.current.thread with context } }
      occupied := false
      heap := kfree k.heap (k.threads k.current.tid).thread.kstack }.record
        (.freed (k.threads k.current.tid).thread.uid)) := by
  simp only [switchToIdle, retrieveToPool, if_pos ho]

/-- A thread that sleeps is saved in its slot. -/
lemma switchToIdle_sleeping {context : Resume}
    (ho : (k.threads k.current.tid).occupied = true)
    (hs : (k.threads k.current.tid).status ≠ .running) :
    switchToIdle k context = .ok ({ k with
      current := { k.current with thread := { k.current.thread with context } }
      occupied := false }.setInfo k.current.tid
        { k.threads k.current.tid with thread := { k.current.thread with context } }) := by
  have hne : ¬ (k.threads k.current.tid).occupied = false := by rw [ho]; decide
  simp only [switchToIdle, retrieveToPool, if_neg hne, if_neg hs]

/-- A thread that was running is saved in its slot and goes to the back of the ready list. -/
lemma switchToIdle_running {context : Resume}
    (ho : (k.threads k.current.tid).occupied = true)
    (hs : (k.threads k.current.tid).status = .running) :
    switchToIdle k context = ({ k with
      current := { k.current with thread := { k.current.thread with context } }
      occupied := false }.setInfo k.current.tid
        { k.threads k.current.tid with
          status := .ready, thread := { k.current.thread with context } }).push k.current.tid := by
  have hne : ¬ (k.threads k.current.tid).occupied = false := by rw [ho]; decide
  simp only [switchToIdle, retrieveToPool, if_neg hne, if_pos hs]

/-- A reader takes the front character or goes to sleep. -/
lemma popChar_refines (hs : Seen k ready waiters buffer)
    (hl : (k.view ready waiters buffer).Listed) (ho : k.occupied = true)
    (hok : popChar k = .ok k') :
    (∃ ch rest, buffer = ch :: rest ∧ Seen k' ready waiters rest ∧
      k'.view ready waiters rest = (k.view ready waiters buffer).take ch rest) ∨
    (buffer = [] ∧ Seen k' ready (waiters ++ [k.current.tid]) [] ∧
      k'.view ready (waiters ++ [k.current.tid]) [] = (k.view ready waiters buffer).block) := by
  obtain ⟨⟨hlt, hocc⟩, hks, _⟩ := hl.current ho
  have hrun := hl.status_current ho
  cases buffer with
  | nil =>
    right
    have hemp := hs.heap.isEmpty_buf.mpr rfl
    have hne : ¬ isEmpty k.buf = false := by rw [hemp]; decide
    rw [popChar, if_neg hne, waitCondition] at hok
    split at hok
    · cases hok
    · rename_i heap waitQueue hpush
      have hheap := hs.heap.pushWait hlt hpush
      simp only [yieldCPU, ho, if_true] at hok
      rw [switchToIdle_sleeping] at hok
      · obtain rfl := Except.ok.inj hok
        refine ⟨rfl, ⟨hs.linked, hheap.congr ?_ ?_ rfl rfl⟩, ?_⟩
        · intro t
          simp only [View.Live, Kernel.view, Kernel.setInfo, Function.update_apply]
          grind
        · intro t _
          simp only [Kernel.view, Kernel.setInfo, Function.update_apply] at *
          grind
        · simp only [Kernel.view, Kernel.setInfo, View.block, View.save, View.left,
            Function.update_idem, Function.update_self]
      · simp only [Kernel.setInfo, Function.update_self]
        exact hocc
      · simp only [Kernel.setInfo, Function.update_self]
        decide
  | cons ch rest =>
    left
    have hne : isEmpty k.buf = false := by
      rw [← Bool.not_eq_true, hs.heap.isEmpty_buf]
      exact List.cons_ne_nil ch rest
    obtain ⟨heap, buf, hpop, hheap⟩ := hs.heap.popBuf rfl
    rw [popChar, if_pos hne, hpop] at hok
    obtain rfl := Except.ok.inj hok
    refine ⟨ch, rest, rfl, ⟨hs.linked, hheap⟩, ?_⟩
    simp only [Kernel.view, Kernel.record, View.take, UInt8.ofNat_toNat]

/-- A turn of `idleMain`. -/
lemma dispatch_refines (hs : Seen k ready waiters buffer)
    (hl : (k.view ready waiters buffer).Listed) (ho : k.occupied = false)
    (hok : dispatch k = .ok k') : Refines k k' ready waiters buffer := by
  cases ready with
  | nil =>
    rw [dispatch, acquireFromPool, hs.linked.pop_nil] at hok
    obtain rfl := Except.ok.inj hok
    exact ⟨[], waiters, buffer, hs, View.Turn.stay _⟩
  | cons tid rest =>
    obtain ⟨s, hpop, hlinked, _⟩ := hs.linked.pop
    have htid := (hl.mem_ready tid).mp List.mem_cons_self
    rw [dispatch, acquireFromPool, hpop] at hok
    simp only at hok
    set k₁ : Kernel := { ({ k with rrScheduler := s }.setInfo tid
      { k.threads tid with status := .running, tid := tid }) with
      current := ⟨tid, (k.threads tid).thread⟩, occupied := true }.record
        (.dispatched (k.threads tid).thread.uid) with hk₁
    have hview : k₁.view rest waiters buffer =
        (k.view (tid :: rest) waiters buffer).dispatch tid rest := rfl
    have hseen : Seen k₁ rest waiters buffer := by
      refine ⟨hlinked, hs.heap.congr ?_ ?_ rfl rfl⟩
      · intro t
        simp only [hk₁, View.Live, Kernel.view, Kernel.setInfo, Kernel.record,
          Function.update_apply]
        grind
      · intro t _
        simp only [hk₁, Kernel.view, Kernel.setInfo, Kernel.record, Function.update_apply]
        grind
    have hl₁ : (k₁.view rest waiters buffer).Listed := hview ▸ hl.dispatch ho rfl
    by_cases hc : (k.threads tid).thread.context = .popChar
    · rw [hc] at hok
      rcases popChar_refines hseen hl₁ rfl hok with
        ⟨ch, rest', rfl, hseen', hv⟩ | ⟨rfl, hseen', hv⟩
      · refine ⟨_, _, _, hseen', ?_⟩
        rw [hv, hview]
        exact .recheckTake ho rfl hc rfl
      · refine ⟨_, _, _, hseen', ?_⟩
        rw [hv, hview]
        exact .recheckBlock ho rfl hc rfl
    · have hk' : k₁ = k' := by
        split at hok
        · contradiction
        · exact Except.ok.inj hok
      subst hk'
      exact ⟨_, _, _, hseen, hview ▸ .dispatch ho rfl hc⟩

/-- A timer tick. -/
lemma tickCPU_refines (hs : Seen k ready waiters buffer)
    (hl : (k.view ready waiters buffer).Listed) (hok : tickCPU k = .ok k') :
    Refines k k' ready waiters buffer := by
  rw [tickCPU] at hok
  split_ifs at hok with ho
  · obtain ⟨⟨hlt, hocc⟩, hks, _, huid⟩ := hl.current ho
    have hrun : (k.threads k.current.tid).status = .running := hl.status_current ho
    have hlinked := hs.linked.tick
    simp only at hok
    split_ifs at hok with hexp
    · have hnot : k.current.tid ∉ ready := by
        intro hmem
        have h : (k.threads k.current.tid).status = .ready := ((hl.mem_ready _).mp hmem).2
        rw [hrun] at h
        cases h
      rw [switchToIdle_running (k := { k with rrScheduler := (schedulerTick k.rrScheduler).2 })
        hocc hrun] at hok
      obtain ⟨s, hs', hpush⟩ := Kernel.push_eq (k := { k with
        rrScheduler := (schedulerTick k.rrScheduler).2
        current := { k.current with thread := { k.current.thread with context := .user } }
        occupied := false }.setInfo k.current.tid
        { k.threads k.current.tid with
          status := .ready, thread := { k.current.thread with context := .user } })
        hlinked hnot hlt
      rw [hpush] at hok
      obtain rfl := Except.ok.inj hok
      refine ⟨ready ++ [k.current.tid], waiters, buffer, ⟨hs', hs.heap.congr ?_ ?_ rfl rfl⟩, ?_⟩
      · intro t
        simp only [View.Live, Kernel.view, Kernel.setInfo, Kernel.record, Function.update_apply]
        grind
      · intro t _
        simp only [Kernel.view, Kernel.setInfo, Kernel.record, Function.update_apply] at *
        grind
      · have hturn := View.Turn.preempt (v := k.view ready waiters buffer) ho
        simpa only [Kernel.view, Kernel.setInfo, Kernel.record, View.preempt, View.save, View.left,
          Function.update_self] using hturn
    · obtain rfl := Except.ok.inj hok
      exact ⟨ready, waiters, buffer, ⟨hlinked, hs.heap⟩, View.Turn.stay _⟩
  · obtain rfl := Except.ok.inj hok
    exact ⟨ready, waiters, buffer, hs, View.Turn.stay _⟩

lemma notifyCondition_idle (h : isEmpty k.waitQueue = true) : notifyCondition k = .ok k := by
  rw [notifyCondition, if_neg (by rw [h]; decide)]

lemma notifyCondition_wake {tid : ℕ} {heap : KernelHeap} {waitQueue : Queue}
    (h : isEmpty k.waitQueue = false) (hpop : popFront k.heap k.waitQueue = (tid, heap, waitQueue))
    (hlt : tid < maxThread) :
    notifyCondition k = ({ k with heap := heap, waitQueue := waitQueue }.setInfo tid
      { k.threads tid with status := .ready }).push tid := by
  rw [notifyCondition, if_pos h, hpop]
  simp only [wakeupCPU]
  rw [if_pos ⟨by omega, by exact_mod_cast hlt⟩]
  rfl

/-- A keyboard interrupt with a character. -/
lemma pushChar_refines {ch : UInt8} (hs : Seen k ready waiters buffer)
    (hl : (k.view ready waiters buffer).Listed) (hok : pushChar k ch = .ok k') :
    Refines k k' ready waiters buffer := by
  rw [pushChar] at hok
  split at hok
  · cases hok
  · rename_i heap buf hpush
    set k₁ : Kernel := { k with heap, buf }.record (.charPushed ch) with hk₁
    have hv₁ : k₁.view ready waiters (buffer ++ [ch]) = (k.view ready waiters buffer).put ch := rfl
    have hheap : HeapSeen k₁.heap k₁.buf k₁.waitQueue (k₁.view ready waiters (buffer ++ [ch])) :=
      hs.heap.pushBuf hpush
    cases waiters with
    | nil =>
      rw [notifyCondition_idle (hheap.isEmpty_waitQueue.mpr rfl)] at hok
      obtain rfl := Except.ok.inj hok
      exact ⟨ready, [], buffer ++ [ch], ⟨hs.linked, hheap⟩, hv₁ ▸ .put ch rfl⟩
    | cons tid rest =>
      have hne : isEmpty k₁.waitQueue = false := by
        rw [← Bool.not_eq_true, hheap.isEmpty_waitQueue]
        exact List.cons_ne_nil tid rest
      obtain ⟨heap', waitQueue, hpop, hheap'⟩ := hheap.popWait rfl
      obtain ⟨⟨hlt, _⟩, hsleep, _⟩ := (hl.mem_waiters tid).mp List.mem_cons_self
      have hnot : tid ∉ ready := by
        intro hmem
        have h := ((hl.mem_ready _).mp hmem).2
        rw [hsleep] at h
        cases h
      rw [notifyCondition_wake hne hpop hlt] at hok
      set k₂ : Kernel := { k₁ with heap := heap', waitQueue := waitQueue }.setInfo tid
        { k₁.threads tid with status := .ready } with hk₂
      obtain ⟨s, hlinked, hpush'⟩ := Kernel.push_eq (k := k₂) hs.linked hnot hlt
      rw [hpush'] at hok
      obtain rfl := Except.ok.inj hok
      refine ⟨ready ++ [tid], rest, buffer ++ [ch], ⟨hlinked, hheap'.congr ?_ ?_ rfl rfl⟩, ?_⟩
      · intro t
        simp only [hk₂, View.Live, Kernel.view, Kernel.setInfo, Kernel.record,
          Function.update_apply]
        grind
      · intro t _
        simp only [hk₂, Kernel.view, Kernel.setInfo, Kernel.record, Function.update_apply]
        grind
      · have hturn := View.Turn.notify (v := k.view ready (tid :: rest) buffer) ch rfl
        simpa only [hk₂, hk₁, Kernel.view, Kernel.setInfo, Kernel.record, View.notify,
          View.setStatus, Function.update_self, List.append_assoc, List.cons_append,
          List.nil_append] using hturn

lemma allocTid_spec {threads : ℕ → ThreadInfo} {tid : ℕ} (h : allocTid threads = some tid) :
    tid < maxThread ∧ (threads tid).occupied = false := by
  constructor
  · exact List.mem_range.mp (List.mem_of_find?_eq_some h)
  · simpa using List.find?_some h

/-- A thread with a loaded program goes into a free slot. -/
lemma addToPool_refines {prog : Program} {t : Thread} {heap : KernelHeap} {wait : ℤ}
    (hs : Seen k ready waiters buffer) (hl : (k.view ready waiters buffer).Listed)
    (hload : loadProgram k.heap prog = .ok (t, heap))
    (hok : addToPool { k with heap := heap } { t with wait := wait } = .ok k') :
    ∃ tid, tid < maxThread ∧ (k.threads tid).occupied = false ∧
      Seen k' (ready ++ [tid]) waiters buffer ∧
      k'.view (ready ++ [tid]) waiters buffer =
        (k.view ready waiters buffer).start tid t.kstack wait := by
  rw [addToPool] at hok
  split at hok
  · cases hok
  · rename_i tid halloc
    obtain ⟨hlt, hfree⟩ := allocTid_spec halloc
    simp only at hlt hfree
    have hnot : tid ∉ ready := by
      intro hmem
      have h : (k.threads tid).occupied = true := ((hl.mem_ready tid).mp hmem).1.2
      rw [hfree] at h
      cases h
    obtain ⟨_, _, _, _, hr⟩ := hs.heap
    obtain ⟨_, hctx, _⟩ := hr.loadProgram hload
    obtain ⟨s, hlinked, hpush⟩ := Kernel.push_eq (k := { ({ k with heap := heap }.setInfo tid
      { k.threads tid with
        status := .ready, occupied := true, thread := { t with wait := wait, uid := k.nextUid } })
      with nextUid := k.nextUid + 1 }) hs.linked hnot hlt
    obtain rfl := Except.ok.inj (hpush.symm.trans hok)
    refine ⟨tid, hlt, hfree, ⟨hlinked, ?_⟩, ?_⟩
    · refine hs.heap.load tid hload ?_ ?_ ?_ ?_ rfl rfl
      · rintro ⟨_, h⟩
        rw [show ((k.view ready waiters buffer).threads tid).occupied = false from hfree] at h
        cases h
      · intro t'
        simp only [View.Live, Kernel.view, Kernel.setInfo, Kernel.record, Function.update_apply]
        grind
      · rintro t' ⟨_, h⟩
        simp only [Kernel.view, Kernel.setInfo, Kernel.record, Function.update_apply] at *
        grind
      · simp only [Kernel.view, Kernel.setInfo, Kernel.record, Function.update_self]
    · simp only [Kernel.view, Kernel.setInfo, Kernel.record, View.start, Function.update_self, hctx]

/-- `sys_exec`: the child is started and the caller waits, or nothing happens. -/
lemma sysExec_refines {res : Option Program} (hs : Seen k ready waiters buffer)
    (hl : (k.view ready waiters buffer).Listed) (ho : k.occupied = true)
    (hok : sysExec k res = .ok k') : Refines k k' ready waiters buffer := by
  cases res with
  | none =>
    simp only [sysExec, executeCPU] at hok
    obtain rfl := Except.ok.inj hok
    exact ⟨ready, waiters, buffer, ⟨hs.linked, hs.heap⟩, View.Turn.notFound ho⟩
  | some prog =>
    rw [sysExec, executeCPU] at hok
    cases hload : loadProgram k.heap prog with
    | error e =>
      rw [hload] at hok
      cases hok
    | ok r =>
      obtain ⟨t, heap⟩ := r
      rw [hload] at hok
      simp only at hok
      cases hadd : addToPool { k with heap := heap } { t with wait := (k.current.tid : ℤ) } with
      | error e =>
        rw [hadd] at hok
        cases hok
      | ok k₁ =>
        rw [hadd] at hok
        simp only at hok
        obtain ⟨tid, hlt, hfree, hs₁, hv₁⟩ := addToPool_refines hs hl hload hadd
        have hl₁ : (k₁.view (ready ++ [tid]) waiters buffer).Listed := hv₁ ▸ hl.start hlt hfree
        have ho₁ : k₁.occupied = true := (congrArg View.occupied hv₁).trans ho
        obtain ⟨⟨_, hocc⟩, _⟩ := hl₁.current ho₁
        have hcur : k₁.current = k.current := congrArg View.current hv₁
        simp only [yieldCPU, Kernel.record, ho₁, if_true] at hok
        rw [switchToIdle_sleeping] at hok
        · obtain rfl := Except.ok.inj hok
          refine ⟨ready ++ [tid], waiters, buffer, ⟨hs₁.linked, hs₁.heap.congr ?_ ?_ rfl rfl⟩, ?_⟩
          · intro t'
            simp only [View.Live, Kernel.view, Kernel.setInfo, Function.update_apply] at *
            grind
          · have hks := (hl₁.current ho₁).2.1
            intro t' _
            simp only [Kernel.view, Kernel.setInfo, Function.update_apply] at *
            grind
          · have hturn : View.Turn (k.view ready waiters buffer)
                (View.exec (k.view ready waiters buffer) tid t.kstack) := .exec ho hlt hfree
            rw [View.exec, show (k.view ready waiters buffer).current = k.current from rfl,
              ← hv₁, View.await] at hturn
            simpa only [Kernel.view, Kernel.setInfo, View.save, View.left, Function.update_idem,
              Function.update_self, hcur] using hturn
        · simp only [Kernel.setInfo, Function.update_self]
          exact hocc
        · simp only [Kernel.setInfo, Function.update_self]
          decide

/-- `sys_exit` of a thread whose `wait` names nobody, or the parent that sleeps for it. -/
lemma exitFromCPU_refines {root : ℕ → Prop} (hs : Seen k ready waiters buffer)
    (hl : (k.view ready waiters buffer).Listed) (hf : (k.view ready waiters buffer).Family root)
    (ho : k.occupied = true) (hroot : ¬ root k.current.thread.uid)
    (hok : exitFromCPU k = .ok k') : Refines k k' ready waiters buffer := by
  obtain ⟨hlive, hks, hwait, huid⟩ := hl.current ho
  have hks : (k.threads k.current.tid).thread.kstack = k.current.thread.kstack := hks
  have huid : (k.threads k.current.tid).thread.uid = k.current.thread.uid := huid
  have hrun : (k.threads k.current.tid).status = .running := hl.status_current ho
  have hparent := hf.parent _ hlive
  rw [show ((k.view ready waiters buffer).threads
    (k.view ready waiters buffer).current.tid).thread.uid = _ from huid, hwait] at hparent
  rw [exitFromCPU] at hok
  set k₁ : Kernel := (exitFromPool k k.current.tid).record (.exited k.current.thread.uid) with hk₁
  have hgone : (k₁.threads k₁.current.tid).occupied = false := by
    simp only [hk₁, exitFromPool, Kernel.record, Kernel.setInfo, Function.update_self]
  have hlinked₁ : Linked k₁.rrScheduler ready := hs.linked.exit _
  have hthread₁ : ∀ t, (k₁.threads t).thread = (k.threads t).thread := by
    intro t
    simp only [hk₁, exitFromPool, Kernel.record, Kernel.setInfo, Function.update_apply]
    grind
  rcases hparent.resolve_left hroot with hw | ⟨p, hw, hp⟩
  · -- nobody waits
    have hw₁ : ¬ k₁.current.thread.wait ≠ -1 := not_not.mpr hw
    rw [if_neg hw₁, switchToIdle_gone hgone] at hok
    obtain rfl := Except.ok.inj hok
    refine ⟨ready, waiters, buffer, ⟨hlinked₁, ?_⟩, ?_⟩
    · change HeapSeen (kfree k.heap (k₁.threads k.current.tid).thread.kstack) k.buf k.waitQueue _
      rw [hthread₁]
      refine hs.heap.kfree hlive ?_ ?_ rfl rfl
      · intro t
        simp only [hk₁, View.Live, Kernel.view, Kernel.setInfo, Kernel.record, exitFromPool,
          Function.update_apply]
        grind
      · exact fun t _ => congrArg Thread.kstack (hthread₁ t)
    · have hturn := View.Turn.exit (v := k.view ready waiters buffer) ho hw
      simpa only [hk₁, Kernel.view, Kernel.setInfo, Kernel.record, exitFromPool, View.exit,
        View.drop, View.left, Function.update_self, List.append_assoc, List.cons_append,
        List.nil_append, huid] using hturn
  · -- the parent sleeps in the `sysExec` that created this thread
    have hw : k.current.thread.wait = p := hw
    obtain ⟨⟨hplt, hpocc⟩, hpsleep, _⟩ := id hp
    have hpc : p ≠ k.current.tid := by
      rintro rfl
      rw [show (k.threads k.current.tid).status = _ from hpsleep] at hrun
      cases hrun
    have hnot : p ∉ ready := by
      intro hmem
      have h := ((hl.mem_ready _).mp hmem).2
      rw [hpsleep] at h
      cases h
    have hw₁ : k₁.current.thread.wait ≠ -1 := by
      rw [show k₁.current.thread.wait = p from hw]
      omega
    rw [if_pos hw₁, wakeupCPU, show k₁.current.thread.wait = p from hw,
      if_pos ⟨by omega, by exact_mod_cast hplt⟩] at hok
    simp only [Int.toNat_natCast] at hok
    set k₂ : Kernel := k₁.setInfo p { k₁.threads p with status := .ready } with hk₂
    obtain ⟨s, hlinked, hpush⟩ := Kernel.push_eq (k := k₂) hlinked₁ hnot hplt
    rw [hpush] at hok
    simp only at hok
    set k₃ : Kernel := { k₂ with rrScheduler := s }.record (.pushed (k₂.threads p).thread.uid)
      with hk₃
    have hgone₃ : (k₃.threads k₃.current.tid).occupied = false := by
      simp only [hk₃, hk₂, Kernel.record, Kernel.setInfo]
      rw [Function.update_of_ne (show k₁.current.tid ≠ p from hpc.symm)]
      exact hgone
    have hthread₃ : ∀ t, (k₃.threads t).thread = (k.threads t).thread := by
      intro t
      rw [← hthread₁]
      simp only [hk₃, hk₂, Kernel.record, Kernel.setInfo, Function.update_apply]
      grind
    rw [switchToIdle_gone hgone₃] at hok
    obtain rfl := Except.ok.inj hok
    refine ⟨ready ++ [p], waiters, buffer, ⟨hlinked, ?_⟩, ?_⟩
    · change HeapSeen (kfree k.heap (k₃.threads k.current.tid).thread.kstack) k.buf k.waitQueue _
      rw [hthread₃]
      refine hs.heap.kfree hlive ?_ ?_ rfl rfl
      · intro t
        simp only [hk₃, hk₂, hk₁, View.Live, Kernel.view, Kernel.setInfo, Kernel.record,
          exitFromPool, Function.update_apply] at *
        grind
      · exact fun t _ => congrArg Thread.kstack (hthread₃ t)
    · have hturn := View.Turn.exitWake (v := k.view ready waiters buffer) ho hp hw
      have hp₁ : k₁.threads p = k.threads p := Function.update_of_ne hpc _ _
      simpa only [hk₃, hk₂, hk₁, Kernel.view, Kernel.setInfo, Kernel.record, exitFromPool,
        View.exitWake, View.drop, View.left, Function.update_self, Function.update_of_ne hpc,
        Function.update_of_ne hpc.symm, List.append_assoc, List.cons_append, List.nil_append,
        huid] using hturn

end

end Jokerix
