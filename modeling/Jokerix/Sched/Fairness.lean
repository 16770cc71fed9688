import Jokerix.Sched.Progress
import Jokerix.Sched.TimeSlices

/-!
# Fairness

In every run of the kernel the calls of the scheduler follow the protocol of the pool, so that each
tick takes the processor from the thread that runs. Together with the order of dispatches this
bounds how long a ready thread waits, in dispatches and in ticks.
-/

namespace Jokerix

/-! ### The scheduler in a run -/

section
variable {root : ℕ → Prop} {k k' : Kernel} {ready waiters ready' waiters' : List ℕ}
  {buffer buffer' : List UInt8} {e : Event} {es : List Event}

/-- What the pool did to the scheduler so far; the threads on the ready list were pushed since their
last pop. -/
structure Obeys (k : Kernel) (ready : List ℕ) (st : SliceState) : Prop where
  linked : Linked k.rrScheduler ready
  sched : st.sched = k.rrScheduler
  running : st.running = if k.occupied then some k.current.tid else none
  pushed : ∀ t ∈ ready, t ∈ st.pushed

lemma Kernel.push_cases {tid : ℕ} (hok : k.push tid = .ok k') :
    schedulerPush k.rrScheduler tid = .ok k'.rrScheduler ∧ k'.occupied = k.occupied ∧
      k'.current = k.current ∧ k'.threads = k.threads := by
  rw [Kernel.push] at hok
  split at hok
  · cases hok
  · rename_i s hpush
    obtain rfl := Except.ok.inj hok
    exact ⟨hpush, rfl, rfl, rfl⟩

lemma addToPool_rest {t : Thread} (hok : addToPool k t = .ok k') :
    ∃ tid, allocTid k.threads = some tid ∧ schedulerPush k.rrScheduler tid = .ok k'.rrScheduler ∧
      k'.occupied = k.occupied ∧ k'.current = k.current := by
  simp only [addToPool] at hok
  split at hok
  · cases hok
  · rename_i tid halloc
    obtain ⟨hpush, hocc, hcur, _⟩ := Kernel.push_cases hok
    exact ⟨tid, halloc, hpush, hocc, hcur⟩

section
variable {st : SliceState} {tid : ℕ}

/-- The running thread keeps the processor or gives it up, and the scheduler is not called. -/
lemma Obeys.stop (h : Obeys k ready st) (ho : k.occupied = true)
    (hrr : k'.rrScheduler = k.rrScheduler)
    (hocc : k'.occupied = false ∨ k'.occupied = true ∧ k'.current = k.current) :
    ∃ st', CallsAny st st' ∧ Obeys k' ready st' := by
  have hrunning : st.running = some k.current.tid := by rw [h.running, if_pos ho]
  rcases hocc with hocc | ⟨hocc, hcur⟩
  · refine ⟨{ st with running := none }, .single ⟨.yield, .yield hrunning⟩, hrr ▸ h.linked,
      h.sched.trans hrr.symm, ?_, h.pushed⟩
    rw [hocc]
    rfl
  · refine ⟨st, .refl, hrr ▸ h.linked, h.sched.trans hrr.symm, ?_, h.pushed⟩
    rw [h.running, hocc, ho, hcur]

/-- A thread that does not run is pushed. -/
lemma Obeys.push (h : Obeys k ready st) (hnot : tid ∉ ready) (hlt : tid < maxThread)
    (hne : k.occupied = true → k.current.tid ≠ tid)
    (hpush : schedulerPush k.rrScheduler tid = .ok k'.rrScheduler) (hocc : k'.occupied = k.occupied)
    (hcur : k'.current = k.current) :
    ∃ st', CallsAny st st' ∧ Obeys k' (ready ++ [tid]) st' := by
  have hrunning : st.running ≠ some tid := by
    rw [h.running]
    split_ifs with ho
    · exact fun heq => hne ho (Option.some.inj heq)
    · exact fun heq => by cases heq
  obtain ⟨s, hs, hlinked⟩ := h.linked.push hnot hlt
  obtain rfl := Except.ok.inj (hs.symm.trans hpush)
  refine ⟨{ st with sched := k'.rrScheduler, pushed := insert tid st.pushed },
    .single ⟨.push tid, .push hrunning (h.sched ▸ hpush)⟩, hlinked, rfl, ?_, ?_⟩
  · rw [hocc, hcur]
    exact h.running
  · intro t ht
    rcases List.mem_append.mp ht with ht | ht
    · exact .inr (h.pushed t ht)
    · exact .inl (List.mem_singleton.mp ht)

/-- The front thread is popped. -/
lemma Obeys.pop (h : Obeys k (tid :: ready) st) (ho : k.occupied = false)
    (hrr : k'.rrScheduler = (schedulerPop k.rrScheduler).2) (hocc : k'.occupied = true)
    (hcur : k'.current.tid = tid) : ∃ st', CallsAny st st' ∧ Obeys k' ready st' := by
  have hidle : st.running = none := by
    rw [h.running, ho]
    rfl
  obtain ⟨s, hpop, hlinked, _⟩ := h.linked.pop
  obtain rfl : k'.rrScheduler = s := by rw [hrr, hpop]
  refine ⟨⟨k'.rrScheduler, some tid, st.pushed \ {tid}, 0⟩,
    .single ⟨.pop, .pop hidle (h.sched ▸ hpop) (h.pushed tid List.mem_cons_self)⟩, hlinked, rfl,
    ?_, ?_⟩
  · rw [hocc, hcur]
    rfl
  · intro t ht
    refine ⟨h.pushed t (List.mem_cons_of_mem _ ht), ?_⟩
    rintro rfl
    exact (List.nodup_cons.mp h.linked.nodup).1 ht

/-! ### What an event does to the scheduler -/

lemma Steady.current_not_ready (h : Steady root k ready waiters buffer) (ho : k.occupied = true) :
    k.current.tid ∉ ready := by
  intro hmem
  have hready := ((h.listed.mem_ready _).mp hmem).2
  rw [show ((k.view ready waiters buffer).threads k.current.tid).status = .running from
    h.listed.status_current ho] at hready
  cases hready

/-- A thread that sleeps neither runs nor waits in the ready list. -/
lemma Steady.sleeping (h : Steady root k ready waiters buffer)
    (hsleep : (k.threads tid).status = .sleeping) :
    tid ∉ ready ∧ (k.occupied = true → k.current.tid ≠ tid) := by
  refine ⟨fun hmem => ?_, ?_⟩
  · have hready : (k.threads tid).status = .ready := ((h.listed.mem_ready _).mp hmem).2
    rw [hsleep] at hready
    cases hready
  · rintro ho rfl
    have hrun : (k.threads k.current.tid).status = .running := h.listed.status_current ho
    rw [hsleep] at hrun
    cases hrun

lemma Obeys.dispatch (hst : Obeys k ready st) (ho : k.occupied = false)
    (hok : dispatch k = .ok k') : ∃ ready' st', CallsAny st st' ∧ Obeys k' ready' st' := by
  cases ready with
  | nil =>
    rw [Jokerix.dispatch, acquireFromPool, hst.linked.pop_nil] at hok
    obtain rfl := Except.ok.inj hok
    exact ⟨[], st, .refl, hst⟩
  | cons tid rest =>
    obtain ⟨s, hpop, _, _⟩ := hst.linked.pop
    rw [Jokerix.dispatch, acquireFromPool, hpop] at hok
    simp only at hok
    set k₁ : Kernel := { ({ k with rrScheduler := s }.setInfo tid
      { k.threads tid with status := .running, tid := tid }) with
      current := ⟨tid, (k.threads tid).thread⟩, occupied := true }.record
        (.dispatched (k.threads tid).thread.uid) with hk₁
    obtain ⟨st₁, hcalls, hst₁⟩ : ∃ st', CallsAny st st' ∧ Obeys k₁ rest st' :=
      hst.pop ho (by rw [hpop]; rfl) rfl rfl
    split at hok
    · obtain ⟨hrr, hocc⟩ := popChar_rest (k := k₁) rfl hok
      obtain ⟨st₂, hcalls₂, hst₂⟩ := hst₁.stop rfl hrr hocc
      exact ⟨rest, st₂, hcalls.trans hcalls₂, hst₂⟩
    · obtain rfl := Except.ok.inj hok
      exact ⟨rest, st₁, hcalls, hst₁⟩

lemma Obeys.tick (hst : Obeys k ready st) (h : Steady root k ready waiters buffer)
    (hok : tickCPU k = .ok k') : ∃ ready' st', CallsAny st st' ∧ Obeys k' ready' st' := by
  rw [tickCPU] at hok
  split_ifs at hok with ho
  · have hrunning : st.running = some k.current.tid := by rw [hst.running, if_pos ho]
    obtain ⟨⟨hlt, hocc⟩, _⟩ := h.listed.current ho
    have hrun : (k.threads k.current.tid).status = .running := h.listed.status_current ho
    simp only at hok
    have htick : schedulerTick st.sched =
        ((schedulerTick k.rrScheduler).1, (schedulerTick k.rrScheduler).2) := by rw [hst.sched]
    split_ifs at hok with hexpired
    · set k₁ : Kernel := { k with
        rrScheduler := (schedulerTick k.rrScheduler).2
        current := { k.current with thread := { k.current.thread with context := .user } }
        occupied := false }.setInfo k.current.tid { k.threads k.current.tid with
          status := .ready, thread := { k.current.thread with context := .user } } with hk₁
      rw [switchToIdle_running (k := { k with rrScheduler := (schedulerTick k.rrScheduler).2 })
        hocc hrun] at hok
      have hcall := Calls.tick hrunning htick
      simp only [hexpired, if_true] at hcall
      have hst₁ : Obeys k₁ ready { st with
          sched := (schedulerTick k.rrScheduler).2, running := none, ticks := st.ticks + 1 } :=
        ⟨hst.linked.tick, rfl, rfl, hst.pushed⟩
      obtain ⟨hpush, hocc', hcur', _⟩ := Kernel.push_cases (k := k₁) hok
      obtain ⟨st₂, hcalls, hst₂⟩ := hst₁.push (h.current_not_ready ho) hlt
        (fun hocc => by cases hocc)
        hpush hocc' hcur'
      exact ⟨_, st₂, (Relation.ReflTransGen.single ⟨.tick, hcall⟩).trans hcalls, hst₂⟩
    · obtain rfl := Except.ok.inj hok
      have hcall := Calls.tick hrunning htick
      rw [if_neg hexpired] at hcall
      refine ⟨ready, _, .single ⟨.tick, hcall⟩, hst.linked.tick, rfl, ?_, hst.pushed⟩
      rw [if_pos ho]
  · obtain rfl := Except.ok.inj hok
    exact ⟨ready, st, .refl, hst⟩

lemma Obeys.pushChar {ch : UInt8} (hst : Obeys k ready st)
    (h : Steady root k ready waiters buffer) (hok : pushChar k ch = .ok k') :
    ∃ ready' st', CallsAny st st' ∧ Obeys k' ready' st' := by
  rw [Jokerix.pushChar] at hok
  split at hok
  · cases hok
  · rename_i heap buf hpush
    set k₁ : Kernel := { k with heap, buf }.record (.charPushed ch) with hk₁
    have hheap : HeapSeen k₁.heap k₁.buf k₁.waitQueue (k₁.view ready waiters (buffer ++ [ch])) :=
      h.seen.heap.pushBuf hpush
    have hst₁ : Obeys k₁ ready st := ⟨hst.linked, hst.sched, hst.running, hst.pushed⟩
    cases waiters with
    | nil =>
      rw [notifyCondition_idle (hheap.isEmpty_waitQueue.mpr rfl)] at hok
      obtain rfl := Except.ok.inj hok
      exact ⟨ready, st, .refl, hst₁⟩
    | cons tid rest =>
      have hne : isEmpty k₁.waitQueue = false := by
        rw [← Bool.not_eq_true, hheap.isEmpty_waitQueue]
        exact List.cons_ne_nil tid rest
      obtain ⟨heap', waitQueue, hpop, _⟩ := hheap.popWait rfl
      obtain ⟨⟨hlt, _⟩, hsleep, _⟩ := (h.listed.mem_waiters tid).mp List.mem_cons_self
      obtain ⟨hnot, hcur⟩ := h.sleeping hsleep
      rw [notifyCondition_wake hne hpop hlt] at hok
      obtain ⟨hpush', hocc', hcur', _⟩ := Kernel.push_cases hok
      obtain ⟨st', hcalls, hst'⟩ := hst₁.push hnot hlt hcur hpush' hocc' hcur'
      exact ⟨_, st', hcalls, hst'⟩

lemma Obeys.exec {res : Option Program} (hst : Obeys k ready st)
    (h : Steady root k ready waiters buffer) (ho : k.occupied = true)
    (hok : sysExec k res = .ok k') :
    ∃ ready' st', CallsAny st st' ∧ Obeys k' ready' st' := by
  cases res with
  | none =>
    simp only [sysExec, executeCPU] at hok
    obtain rfl := Except.ok.inj hok
    exact ⟨ready, st, .refl, hst.linked, hst.sched, hst.running, hst.pushed⟩
  | some prog =>
    rw [sysExec, executeCPU] at hok
    split at hok
    · cases hok
    · rename_i k₁ hexec
      split at hexec
      · cases hexec
      · rename_i t heap _
        split at hexec
        · cases hexec
        · rename_i k₂ hadd
          obtain ⟨_, rfl⟩ := Prod.mk.inj (Except.ok.inj hexec)
          obtain ⟨tid, halloc, hpush, hocc, hcur⟩ := addToPool_rest hadd
          obtain ⟨hlt, hfree⟩ := allocTid_spec halloc
          have hfree : (k.threads tid).occupied = false := hfree
          have hnot : tid ∉ ready := by
            intro hmem
            have hlive : (k.threads tid).occupied = true := ((h.listed.mem_ready tid).mp hmem).1.2
            rw [hfree] at hlive
            cases hlive
          have hne : k.current.tid ≠ tid := by
            rintro rfl
            have hlive : (k.threads k.current.tid).occupied = true := (h.listed.current ho).1.2
            rw [hfree] at hlive
            cases hlive
          obtain ⟨st₁, hcalls, hst₁⟩ : ∃ st', CallsAny st st' ∧ Obeys (k₂.record
              (.execOk k.current.thread.uid k.nextUid)) (ready ++ [tid]) st' :=
            hst.push hnot hlt (fun _ => hne) hpush hocc hcur
          obtain ⟨hrr, hocc'⟩ := yieldCPU_rest (k := k₂.record
            (.execOk k.current.thread.uid k.nextUid)) (hocc.trans ho) hok
          obtain ⟨st₂, hcalls₂, hst₂⟩ := hst₁.stop (hocc.trans ho) hrr (.inl hocc')
          exact ⟨_, st₂, hcalls.trans hcalls₂, hst₂⟩
    · rename_i k₁ hexec
      split at hexec
      · cases hexec
      · split at hexec
        · cases hexec
        · cases (Prod.mk.inj (Except.ok.inj hexec)).1

lemma Obeys.exit (hst : Obeys k ready st) (h : Steady root k ready waiters buffer)
    (ho : k.occupied = true) (hroot : ¬ root k.current.thread.uid) (hok : exitFromCPU k = .ok k') :
    ∃ ready' st', CallsAny st st' ∧ Obeys k' ready' st' := by
  obtain ⟨hlive, _, hwait, huid⟩ := h.listed.current ho
  have huid : (k.threads k.current.tid).thread.uid = k.current.thread.uid := huid
  have hparent := h.family.parent _ hlive
  rw [hwait, show ((k.view ready waiters buffer).threads
    (k.view ready waiters buffer).current.tid).thread.uid = _ from huid] at hparent
  have hrunning : st.running = some k.current.tid := by rw [hst.running, if_pos ho]
  rw [exitFromCPU] at hok
  set k₁ : Kernel := (exitFromPool k k.current.tid).record (.exited k.current.thread.uid) with hk₁
  have hgone : (k₁.threads k₁.current.tid).occupied = false := by
    simp only [hk₁, exitFromPool, Kernel.record, Kernel.setInfo, Function.update_self]
  have hcall := Calls.exit hrunning
  -- the thread has left the processor as far as the scheduler knows
  have hst₁ : Obeys { k₁ with occupied := false } ready { st with
      sched := schedulerExit st.sched k.current.tid, running := none } :=
    ⟨hst.linked.exit _, by rw [hst.sched]; rfl, rfl, hst.pushed⟩
  rcases hparent.resolve_left hroot with hw | ⟨p, hw, hp⟩
  · have hw₁ : ¬ k₁.current.thread.wait ≠ -1 := not_not.mpr hw
    rw [if_neg hw₁] at hok
    obtain ⟨hrr, hocc⟩ := switchToIdle_rest (.inl hgone) hok
    refine ⟨ready, _, .single ⟨.exit, hcall⟩, hrr ▸ hst₁.linked, hst₁.sched.trans hrr.symm, ?_,
      hst.pushed⟩
    rw [hocc]
    rfl
  · have hw : k.current.thread.wait = p := hw
    obtain ⟨⟨hplt, _⟩, hpsleep, _⟩ := hp
    obtain ⟨hnot, hne⟩ := h.sleeping hpsleep
    have hw₁ : k₁.current.thread.wait ≠ -1 := by
      rw [show k₁.current.thread.wait = p from hw]
      omega
    rw [if_pos hw₁, wakeupCPU, show k₁.current.thread.wait = p from hw,
      if_pos ⟨by omega, by exact_mod_cast hplt⟩] at hok
    simp only [Int.toNat_natCast] at hok
    split at hok
    · cases hok
    · rename_i k₂ hpush
      obtain ⟨hpush', _, hcur', hthreads⟩ := Kernel.push_cases hpush
      obtain ⟨st₂, hcalls, hst₂⟩ : ∃ st', CallsAny _ st' ∧
          Obeys { k₂ with occupied := false } (ready ++ [p]) st' :=
        hst₁.push hnot hplt (fun hocc => by cases hocc) hpush' rfl hcur'
      have hgone₂ : (k₂.threads k₂.current.tid).occupied = false := by
        rw [hthreads, hcur']
        simp only [Kernel.setInfo]
        rw [Function.update_of_ne (show k₁.current.tid ≠ p from hne ho)]
        exact hgone
      obtain ⟨hrr, hocc⟩ := switchToIdle_rest (.inl hgone₂) hok
      refine ⟨_, st₂, (Relation.ReflTransGen.single ⟨.exit, hcall⟩).trans hcalls, hrr ▸ hst₂.linked,
        hst₂.sched.trans hrr.symm, ?_, hst₂.pushed⟩
      rw [hocc]
      exact hst₂.running

/-- Every event is a sequence of calls that follows the protocol. -/
theorem Obeys.step (hst : Obeys k ready st) (h : Steady root k ready waiters buffer)
    (hno : e = .syscall .exit → k.occupied = true → ¬ root k.current.thread.uid)
    (hok : step k e = .ok k') : ∃ ready' st', CallsAny st st' ∧ Obeys k' ready' st' := by
  cases e with
  | dispatch =>
    rw [Jokerix.step] at hok
    split_ifs at hok with ho
    · obtain rfl := Except.ok.inj hok
      exact ⟨ready, st, .refl, hst⟩
    · exact hst.dispatch (by simpa using ho) hok
  | tick => exact hst.tick h hok
  | keyboard ret =>
    cases ret with
    | none =>
      obtain rfl := Except.ok.inj hok
      exact ⟨ready, st, .refl, hst⟩
    | some ch =>
      simp only [Jokerix.step, external] at hok
      split_ifs at hok
      · exact hst.pushChar h hok
      · exact hst.pushChar h hok
  | syscall call =>
    rw [Jokerix.step] at hok
    split_ifs at hok with ho
    · cases call with
      | write =>
        obtain rfl := Except.ok.inj hok
        exact ⟨ready, st, .refl, hst⟩
      | exit => exact hst.exit h ho (hno rfl ho) hok
      | read =>
        obtain ⟨hrr, hocc⟩ := popChar_rest ho hok
        obtain ⟨st', hcalls, hst'⟩ := hst.stop ho hrr hocc
        exact ⟨ready, st', hcalls, hst'⟩
      | exec res => exact hst.exec h ho hok
    · obtain rfl := Except.ok.inj hok
      exact ⟨ready, st, .refl, hst⟩

end

/-! ### Runs -/

/-- A kernel in order, with slices that never wrap. -/
structure Scheduled (root : ℕ → Prop) (k : Kernel) (ready waiters : List ℕ) (buffer : List UInt8) :
    Prop extends Steady root k ready waiters buffer where
  slices : ∃ st, SlicesInv 1 st ∧ Obeys k ready st

/-- Step lemma. -/
lemma Scheduled.step (h : Scheduled root k ready waiters buffer)
    (hno : e = .syscall .exit → k.occupied = true → ¬ root k.current.thread.uid)
    (hok : step k e = .ok k') :
    ∃ ready' waiters' buffer', Scheduled root k' ready' waiters' buffer' ∧
      (k.view ready waiters buffer).Turn (k'.view ready' waiters' buffer') := by
  obtain ⟨ready', waiters', buffer', h', hturn⟩ := h.toSteady.step hno hok
  obtain ⟨st, hinv, hst⟩ := h.slices
  obtain ⟨ready₁, st', hcalls, hst'⟩ := hst.step h.toSteady hno hok
  obtain rfl := hst'.linked.unique h'.seen.linked
  exact ⟨_, _, _, ⟨h', st', hinv.calls (le_refl 1) (by norm_num) hcalls, hst'⟩, hturn⟩

/-- With slices of one tick, every tick takes the processor from the thread that runs. -/
lemma Scheduled.tick_preempts (h : Scheduled root k ready waiters buffer) (ho : k.occupied = true)
    (hok : Jokerix.step k .tick = .ok k') :
    k'.occupied = false ∧ readyList k'.rrScheduler = ready ++ [k.current.tid] := by
  obtain ⟨st, hinv, hst⟩ := h.slices
  have hrunning : st.running = some k.current.tid := by rw [hst.running, if_pos ho]
  obtain ⟨_, hcur, hpos, _⟩ := hinv.running _ hrunning
  have hle := hinv.time (k.current.tid + 1)
  rw [hst.sched] at hcur hpos hle
  obtain ⟨_, _, htime, hexpired, _⟩ := schedulerTick_time (s := k.rrScheduler)
    (by rw [hcur]; exact Nat.succ_ne_zero _) (by rwa [hcur]) (by rw [hcur]; omega) Prod.mk.eta.symm
  rw [hcur] at htime hexpired
  have hlast : (schedulerTick k.rrScheduler).1 = true := hexpired.mpr (by omega)
  obtain ⟨⟨hlt, hocc⟩, _⟩ := h.listed.current ho
  have hrun : (k.threads k.current.tid).status = .running := h.listed.status_current ho
  rw [Jokerix.step, tickCPU, if_pos ho] at hok
  simp only [hlast, if_true] at hok
  rw [switchToIdle_running (k := { k with rrScheduler := (schedulerTick k.rrScheduler).2 })
    hocc hrun] at hok
  obtain ⟨s, hlinked, hpush⟩ := Kernel.push_eq (k := { k with
    rrScheduler := (schedulerTick k.rrScheduler).2
    current := { k.current with thread := { k.current.thread with context := .user } }
    occupied := false }.setInfo k.current.tid { k.threads k.current.tid with
      status := .ready, thread := { k.current.thread with context := .user } })
    h.seen.linked.tick (h.current_not_ready ho) hlt
  obtain rfl := Except.ok.inj (hpush.symm.trans hok)
  refine ⟨rfl, hlinked.readyList_eq fun t ht => ?_⟩
  rcases List.mem_append.mp ht with ht | ht
  · exact ((h.listed.mem_ready t).mp ht).1.1
  · rw [List.mem_singleton.mp ht]
    exact hlt

/-- The processor is taken only by a dispatch. -/
lemma View.Turn.acts {v v' : View} (h : v.Turn v') : ∃ acts, v'.log = v.log ++ acts ∧
    v'.occupied.toNat ≤ v.occupied.toNat + (dispatchedUids acts).length := by
  cases h with
  | stay => exact ⟨[], by simp, le_refl _⟩
  | dispatch ho _ _ => exact ⟨_, rfl, by simp [View.dispatch, ho, dispatchedUids]⟩
  | @recheckTake tid _ ch _ ho _ _ _ =>
    refine ⟨[.dispatched (v.threads tid).thread.uid, .charPopped ch], ?_, ?_⟩
    · simp [View.take, View.dispatch]
    · simp [View.take, View.dispatch, ho, dispatchedUids]
  | recheckBlock ho _ _ _ => exact ⟨_, rfl, by simp [View.block]⟩
  | preempt _ => exact ⟨_, rfl, by simp [View.preempt]⟩
  | take _ _ => exact ⟨_, rfl, Nat.le_add_right _ _⟩
  | block _ _ => exact ⟨[], (List.append_nil _).symm, by simp [View.block]⟩
  | put _ _ => exact ⟨_, rfl, Nat.le_add_right _ _⟩
  | notify _ _ => exact ⟨_, rfl, Nat.le_add_right _ _⟩
  | notFound _ => exact ⟨_, rfl, Nat.le_add_right _ _⟩
  | exec _ _ _ => exact ⟨_, List.append_assoc _ _ _, by simp [View.exec, View.await]⟩
  | exit _ _ => exact ⟨_, rfl, by simp [View.exit]⟩
  | exitWake _ _ _ => exact ⟨_, rfl, by simp [View.exitWake]⟩

/-- A tick costs the running thread the processor, and a dispatch gives it to the next. -/
lemma Scheduled.counts (h : Scheduled root k ready waiters buffer)
    (hno : e = .syscall .exit → k.occupied = true → ¬ root k.current.thread.uid)
    (hok : Jokerix.step k e = .ok k') :
    (∃ ready' waiters' buffer', Scheduled root k' ready' waiters' buffer') ∧
      ∃ acts, k'.log = k.log ++ acts ∧
        tickTaken k e + k'.occupied.toNat ≤ (dispatchedUids acts).length + k.occupied.toNat := by
  obtain ⟨_, _, _, hk', hturn⟩ := h.step hno hok
  obtain ⟨acts, hlog, hcount⟩ := hturn.acts
  have hcount : k'.occupied.toNat ≤ k.occupied.toNat + (dispatchedUids acts).length := hcount
  refine ⟨⟨_, _, _, hk'⟩, acts, hlog, ?_⟩
  cases e with
  | tick =>
    by_cases ho : k.occupied = true
    · rw [(h.tick_preempts ho hok).1, tickTaken, Bool.toNat_false]
      omega
    · rw [tickTaken, Bool.eq_false_iff.mpr ho, Bool.toNat_false, Nat.zero_add]
      rw [Bool.eq_false_iff.mpr ho, Bool.toNat_false] at hcount
      omega
  | dispatch | keyboard | syscall =>
    simp only [tickTaken]
    omega

lemma Scheduled.setMem (h : Scheduled root k ready waiters buffer) (mem : Bytes.Memory)
    (hmem : k.SameHeap mem) : Scheduled root (k.setMem mem) ready waiters buffer := by
  obtain ⟨st, hinv, hst⟩ := h.slices
  exact ⟨h.toSteady.setMem mem hmem, st, hinv, hst.linked, hst.sched, hst.running, hst.pushed⟩

/-- Run lemma. -/
lemma Globals.Run.scheduled {G : Globals} {s s' : SystemState} {hs : List Happening}
    (hrun : G.Run s hs s') (hcareful : G.Careful root s hs)
    (h : Scheduled root s.kernel ready waiters buffer) :
    (∃ ready' waiters' buffer', Scheduled root s'.kernel ready' waiters' buffer') ∧
      ∃ acts, s'.kernel.log = s.kernel.log ++ acts ∧ s'.ticks + s'.kernel.occupied.toNat ≤
        s.ticks + (dispatchedUids acts).length + s.kernel.occupied.toNat := by
  induction hrun generalizing ready waiters buffer with
  | nil => exact ⟨⟨_, _, _, h⟩, [], by simp, by simp⟩
  | @cons s s₁ s' happening hs hstep _ ih =>
    obtain ⟨hno, helse, hrest⟩ := hcareful
    obtain ⟨mem, k, mem', hsame, hok, hsame', hs₁, hticks⟩ := hstep.kernel helse
    obtain ⟨⟨_, _, _, hk⟩, acts, hlog, hcount⟩ := (h.setMem mem hsame).counts hno hok
    have hlog : k.log = s.kernel.log ++ acts := hlog
    have hcount : tickTaken s.kernel happening.event + k.occupied.toNat ≤
        (dispatchedUids acts).length + s.kernel.occupied.toNat := by
      rwa [tickTaken_setMem] at hcount
    obtain ⟨hk', acts', hlog', hcount'⟩ := ih (hrest _ hstep) (hs₁ ▸ hk.setMem mem' hsame')
    rw [hs₁] at hlog' hcount'
    refine ⟨hk', acts ++ acts', ?_, ?_⟩
    · rw [hlog', ← List.append_assoc, ← hlog]
      rfl
    · have hcount' : s'.ticks + s'.kernel.occupied.toNat ≤
          s₁.ticks + (dispatchedUids acts').length + k.occupied.toNat := hcount'
      rw [dispatchedUids_append, List.length_append]
      omega

/-- After `initThread` the slices are in order as well, when they are zero at first. -/
lemma initThread_scheduled {sh : Program} (hk : k.Fresh)
    (hzero : ∀ i, (k.rrScheduler.threads i).time = 0) (hok : initThread k sh = .ok k') :
    ∃ waiters buffer, Scheduled (· = 0) k' [0] waiters buffer := by
  obtain ⟨waiters, buffer, h⟩ := initThread_steady hk hok
  obtain ⟨hpush, hocc, _⟩ := initThread_spec hk hok
  have hstart : SlicesStart 1 ⟨schedulerInit k.rrScheduler, none, ∅, 0⟩ := by
    refine ⟨rfl, fun i => ?_, rfl, rfl, rfl⟩
    simp only [schedulerInit, Function.update_apply]
    split_ifs
    · exact Nat.zero_le _
    · rw [hzero]
      exact Nat.zero_le _
  have hcall : Calls (.push 0) ⟨schedulerInit k.rrScheduler, none, ∅, 0⟩
      ⟨k'.rrScheduler, none, insert 0 ∅, 0⟩ := .push (by simp) hpush
  refine ⟨waiters, buffer, h, _, hstart.inv.call (le_refl 1) (by norm_num) hcall,
    h.seen.linked, rfl, ?_, ?_⟩
  · rw [hocc]
    rfl
  · intro t ht
    exact .inl (List.mem_singleton.mp ht)

end

/-! ### How long a ready thread waits -/

/-- In every run in which the first thread does not exit and everything is stored elsewhere, threads
are dispatched in the order in which they were pushed: whatever happens later, the thread at place
`i` of the ready list is the one that is dispatched after `i` others. -/
theorem dispatches_in_order (G : Globals) {k₀ k₁ : Kernel} {sh : Program} {hs hs' : List Happening}
    {s s' : SystemState} (h₀ : k₀.Fresh) (hzero : ∀ i, (k₀.rrScheduler.threads i).time = 0)
    (hinit : initThread k₀ sh = .ok k₁) (hcareful : G.Careful (· = 0) (.start k₁) hs)
    (hrun : G.Run (.start k₁) hs s) (hcareful' : G.Careful (· = 0) s hs') (hrun' : G.Run s hs' s') :
    dispatchedUids s.kernel.log ++ readyUids s.kernel = pushedUids s.kernel.log ∧
      ∃ acts, s'.kernel.log = s.kernel.log ++ acts ∧ ∀ i u, (readyUids s.kernel)[i]? = some u →
        (i < (dispatchedUids acts).length → (dispatchedUids acts)[i]? = some u) ∧
        (u ∉ dispatchedUids acts → s'.ticks ≤ s.ticks + i + 1) := by
  obtain ⟨_, _, h₁⟩ := initThread_scheduled h₀ hzero hinit
  obtain ⟨⟨ready, _, _, hk⟩, _⟩ := hrun.scheduled hcareful h₁
  obtain ⟨⟨ready', _, _, hk'⟩, acts, hlog, hcount⟩ := hrun'.scheduled hcareful' hk
  have horder : dispatchedUids s.kernel.log ++ uidsOf s.kernel.threads ready =
      pushedUids s.kernel.log := hk.inOrder
  have horder' : dispatchedUids s'.kernel.log ++ uidsOf s'.kernel.threads ready' =
      pushedUids s'.kernel.log := hk'.inOrder
  rw [← hk.readyUids_eq] at horder
  rw [← hk'.readyUids_eq, hlog, dispatchedUids_append, pushedUids_append, ← horder,
    List.append_assoc, List.append_assoc, List.append_cancel_left_eq] at horder'
  refine ⟨horder, acts, hlog, fun i u hu => ?_⟩
  have hplace : i < (dispatchedUids acts).length → (dispatchedUids acts)[i]? = some u := by
    intro hi
    have hlt := (List.getElem?_eq_some_iff.mp hu).1
    have happend : (dispatchedUids acts ++ readyUids s'.kernel)[i]? = (dispatchedUids acts)[i]? :=
      List.getElem?_append_left hi
    rw [← happend, horder', List.getElem?_append_left hlt, hu]
  refine ⟨hplace, fun hnot => ?_⟩
  have hle : (dispatchedUids acts).length ≤ i := by
    by_contra hlt
    exact hnot (List.mem_of_getElem? (hplace (not_le.mp hlt)))
  have hocc := Bool.toNat_le s.kernel.occupied
  omega

/-- The first thread is at place 0 of the ready list; it is the first to be dispatched, and its
child the second. -/
theorem dispatches_in_order_family : ∃ k₁ s, initThread sampleKernel sampleProgram = .ok k₁ ∧
    sampleGlobals.Run (.start k₁) familyRun s ∧ readyUids k₁ = [0] ∧
    dispatchedUids k₁.log ++ readyUids k₁ = pushedUids k₁.log ∧
    ∃ acts, s.kernel.log = k₁.log ++ acts ∧ dispatchedUids acts = [0, 1] ∧
      ∀ i u, (readyUids k₁)[i]? = some u →
        (i < (dispatchedUids acts).length → (dispatchedUids acts)[i]? = some u) ∧
        (u ∉ dispatchedUids acts → s.ticks ≤ 0 + i + 1) := by
  obtain ⟨k₁, s, hinit, hrun, hcareful, _, _, hlog⟩ := sampleKernel_family
  obtain ⟨_, _, _, _, hlog₁, _⟩ := sampleKernel_first hinit
  obtain ⟨horder, acts, hacts, hplaces⟩ := dispatches_in_order sampleGlobals sampleKernel_fresh
    (fun _ => rfl) hinit (show sampleGlobals.Careful (· = 0) (.start k₁) [] from trivial) (.nil _)
    hcareful hrun
  have horder : dispatchedUids k₁.log ++ readyUids k₁ = pushedUids k₁.log := horder
  have hacts : s.kernel.log = k₁.log ++ acts := hacts
  refine ⟨k₁, s, hinit, hrun, ?_, horder, acts, hacts, ?_, hplaces⟩
  · rw [hlog₁] at horder
    exact horder
  · rw [hlog, hlog₁] at hacts
    obtain rfl := List.cons.inj hacts |>.2
    rfl

end Jokerix
