import Jokerix.Sched.DispatchOrder
import Jokerix.Sched.StdinSafety
import Jokerix.Sched.Stores
import Mathlib.Logic.Relation

/-!
# No thread waits in vain

A thread that sleeps waits for a character or for a child that is alive. A child is younger than its
parent, so that every chain of waiting parents ends at a thread that runs, is ready or waits for the
keyboard.
-/

namespace Jokerix

namespace View

variable (v : View)

/-- What sleeping threads wait for, and the thread that was started first. -/
structure Settled : Prop where
  asleep : ∀ t, v.Live t → (v.threads t).status = .sleeping →
    (v.threads t).thread.context = .popChar ∨ ∃ c, (v.threads t).thread.context = .sysExec c
  status : ∀ t, v.Live t → (v.threads t).status ≠ .exited
  younger : ∀ p c, v.Awaits p c → (v.threads p).thread.uid < c
  first : ∃ t, v.Live t ∧ (v.threads t).thread.uid = 0 ∧ (v.threads t).thread.wait ≠ -1

/-- The thread in slot `p` waits for the one in slot `t`. -/
def AwaitsSlot (p t : ℕ) : Prop := v.Live t ∧ v.Awaits p (v.threads t).thread.uid

end View

/-! ### The invariant -/

namespace View.Settled

variable {root : ℕ → Prop} {v v' : View}

/-- Operations after which the slots hold the same threads, none of which fell asleep. -/
lemma keep (hs : v.Settled) (hlive : ∀ t, v'.Live t ↔ v.Live t)
    (hthread : ∀ t, v.Live t → (v'.threads t).thread.uid = (v.threads t).thread.uid ∧
      (v'.threads t).thread.wait = (v.threads t).thread.wait)
    (hasleep : ∀ t, v.Live t → (v'.threads t).status = .sleeping →
      (v.threads t).status = .sleeping ∧
        (v'.threads t).thread.context = (v.threads t).thread.context)
    (hstatus : ∀ t, v.Live t → (v'.threads t).status = .exited → (v.threads t).status = .exited) :
    v'.Settled := by
  constructor
  · intro t ht hsleep
    rw [hlive] at ht
    obtain ⟨hold, hcontext⟩ := hasleep t ht hsleep
    rw [hcontext]
    exact hs.asleep t ht hold
  · intro t ht hexited
    rw [hlive] at ht
    exact hs.status t ht (hstatus t ht hexited)
  · rintro p c ⟨hp, hsleep, hcontext⟩
    rw [hlive] at hp
    obtain ⟨hold, hsame⟩ := hasleep p hp hsleep
    rw [(hthread p hp).1]
    exact hs.younger p c ⟨hp, hold, hsame ▸ hcontext⟩
  · obtain ⟨t, ht, huid, hwait⟩ := hs.first
    exact ⟨t, (hlive t).mpr ht, by rw [(hthread t ht).1, huid], by rwa [(hthread t ht).2]⟩

/-- The slots are the same. -/
lemma same (hs : v.Settled) (hthreads : v'.threads = v.threads) : v'.Settled := by
  apply hs.keep <;> simp only [View.Live, hthreads] <;> grind

lemma dispatch (hs : v.Settled) (tid : ℕ) (ready : List ℕ) : (v.dispatch tid ready).Settled := by
  apply hs.keep <;> simp only [View.Live, View.dispatch, Function.update_apply] <;> grind

lemma preempt (hs : v.Settled) (hl : v.Listed) (ho : v.occupied = true) : v.preempt.Settled := by
  obtain ⟨_, _, hwait, huid⟩ := hl.current ho
  apply hs.keep <;> simp only [View.Live, View.preempt, View.save, Function.update_apply] <;> grind

lemma notify (hs : v.Settled) (ch : UInt8) (tid : ℕ) (waiters : List ℕ) :
    (v.notify ch tid waiters).Settled := by
  apply hs.keep <;> simp only [View.Live, View.notify, View.setStatus, Function.update_apply] <;>
    grind

/-- The running thread falls asleep, for a reason that is a proper one. -/
lemma sleep (hs : v.Settled) (hl : v.Listed) (ho : v.occupied = true) {context : Resume}
    (hcontext : context = .popChar ∨ ∃ c, context = .sysExec c ∧ v.current.thread.uid < c)
    (hthreads : v'.threads = v.save .sleeping context) : v'.Settled := by
  obtain ⟨hcur, _, hwait, huid⟩ := hl.current ho
  have hlive : ∀ t, v'.Live t ↔ v.Live t := by
    intro t
    simp only [View.Live, hthreads, View.save, Function.update_apply]
    grind
  have hself : v'.threads v.current.tid =
      { v.threads v.current.tid with
        status := .sleeping, thread := { v.current.thread with context } } := by
    rw [hthreads, View.save, Function.update_self]
  have hother : ∀ t, t ≠ v.current.tid → v'.threads t = v.threads t := by
    intro t ht
    rw [hthreads, View.save, Function.update_of_ne ht]
  constructor
  · intro t ht hsleep
    by_cases htc : t = v.current.tid
    · subst htc
      rw [hself]
      exact hcontext.imp_right (Exists.imp fun _ hc => hc.1)
    · rw [hother t htc] at hsleep ⊢
      exact hs.asleep t ((hlive t).mp ht) hsleep
  · intro t ht
    by_cases htc : t = v.current.tid
    · subst htc
      rw [hself]
      exact fun h => by cases h
    · rw [hother t htc]
      exact hs.status t ((hlive t).mp ht)
  · rintro p c ⟨hp, hsleep, hc⟩
    by_cases hpc : p = v.current.tid
    · subst hpc
      rw [hself] at hc ⊢
      rcases hcontext with rfl | ⟨c', rfl, hlt⟩
      · cases hc
      · rwa [← Resume.sysExec.inj hc]
    · rw [hother p hpc] at hsleep hc ⊢
      exact hs.younger p c ⟨(hlive p).mp hp, hsleep, hc⟩
  · obtain ⟨t, ht, hzero, hw⟩ := hs.first
    refine ⟨t, (hlive t).mpr ht, ?_⟩
    by_cases htc : t = v.current.tid
    · subst htc
      rw [hself]
      exact ⟨huid ▸ hzero, hwait ▸ hw⟩
    · rw [hother t htc]
      exact ⟨hzero, hw⟩

lemma start (hs : v.Settled) (hfree : ∀ t, v.Live t → t ≠ tid) {kstack : ℕ} {wait : ℤ} :
    (v.start tid kstack wait).Settled := by
  have hold : ∀ t, t ≠ tid → (v.start tid kstack wait).threads t = v.threads t := by
    intro t ht
    simp only [View.start, Function.update_of_ne ht]
  have hnew : (v.start tid kstack wait).threads tid = { v.threads tid with
      status := .ready, occupied := true, thread := ⟨.user, kstack, wait, v.nextUid⟩ } := by
    simp only [View.start, Function.update_self]
  have hlive : ∀ t, t ≠ tid → ((v.start tid kstack wait).Live t ↔ v.Live t) := by
    intro t ht
    simp only [View.Live, hold t ht]
  constructor
  · intro t ht hsleep
    by_cases htt : t = tid
    · subst htt
      rw [hnew] at hsleep
      cases hsleep
    · rw [hold t htt] at hsleep ⊢
      exact hs.asleep t ((hlive t htt).mp ht) hsleep
  · intro t ht
    by_cases htt : t = tid
    · subst htt
      rw [hnew]
      exact fun h => by cases h
    · rw [hold t htt]
      exact hs.status t ((hlive t htt).mp ht)
  · rintro p c ⟨hp, hsleep, hc⟩
    by_cases hpt : p = tid
    · subst hpt
      rw [hnew] at hsleep
      cases hsleep
    · rw [hold p hpt] at hsleep hc ⊢
      exact hs.younger p c ⟨(hlive p hpt).mp hp, hsleep, hc⟩
  · obtain ⟨t, ht, hfirst⟩ := hs.first
    have hne := hfree t ht
    exact ⟨t, (hlive t hne).mpr ht, by rwa [hold t hne]⟩

/-- The running thread leaves; it is not the first one. -/
lemma leave (hs : v.Settled) (hlive : ∀ t, v'.Live t ↔ v.Live t ∧ t ≠ v.current.tid)
    (hthread : ∀ t, t ≠ v.current.tid → (v'.threads t).thread = (v.threads t).thread)
    (hstatus : ∀ t, t ≠ v.current.tid →
      (v'.threads t).status = (v.threads t).status ∨ (v'.threads t).status = .ready)
    (hfirst : ∀ t, v.Live t → (v.threads t).thread.uid = 0 → (v.threads t).thread.wait ≠ -1 →
      t ≠ v.current.tid) : v'.Settled := by
  have hasleep : ∀ t, t ≠ v.current.tid → (v'.threads t).status = .sleeping →
      (v.threads t).status = .sleeping := by
    intro t ht hsleep
    rcases hstatus t ht with h | h
    · rwa [← h]
    · rw [h] at hsleep
      cases hsleep
  constructor
  · intro t ht hsleep
    obtain ⟨ht, hne⟩ := (hlive t).mp ht
    rw [hthread t hne]
    exact hs.asleep t ht (hasleep t hne hsleep)
  · intro t ht hexited
    obtain ⟨ht, hne⟩ := (hlive t).mp ht
    rcases hstatus t hne with h | h
    · exact hs.status t ht (h ▸ hexited)
    · rw [h] at hexited
      cases hexited
  · rintro p c ⟨hp, hsleep, hc⟩
    obtain ⟨hp, hne⟩ := (hlive p).mp hp
    rw [hthread p hne] at hc ⊢
    exact hs.younger p c ⟨hp, hasleep p hne hsleep, hc⟩
  · obtain ⟨t, ht, hzero, hw⟩ := hs.first
    have hne := hfirst t ht hzero hw
    exact ⟨t, (hlive t).mpr ⟨ht, hne⟩, by rw [hthread t hne]; exact ⟨hzero, hw⟩⟩

lemma exit (hs : v.Settled) (hl : v.Listed) (ho : v.occupied = true)
    (hwait : v.current.thread.wait = -1) : v.exit.Settled := by
  obtain ⟨_, _, hcw, _⟩ := hl.current ho
  apply hs.leave
  · intro t
    simp only [View.Live, View.exit, View.drop, Function.update_apply]
    grind
  · intro t ht
    simp only [View.exit, View.drop, Function.update_of_ne ht]
  · intro t ht
    simp only [View.exit, View.drop, Function.update_of_ne ht, true_or]
  · rintro t _ _ hw rfl
    exact hw (hcw.trans hwait)

lemma exitWake (hs : v.Settled) (hl : v.Listed) (ho : v.occupied = true) {p : ℕ}
    (hp : v.Awaits p v.current.thread.uid) : (v.exitWake p).Settled := by
  obtain ⟨_, _, _, hcu⟩ := hl.current ho
  have hlt := hs.younger p _ hp
  apply hs.leave
  · intro t
    have hplive := hp.1
    simp only [View.Live, View.exitWake, View.drop, Function.update_apply] at *
    have hrun := hl.status_current ho
    have hsleep := hp.2.1
    grind
  · intro t ht
    simp only [View.exitWake, View.drop, Function.update_apply]
    grind
  · intro t ht
    simp only [View.exitWake, View.drop, Function.update_apply]
    grind
  · rintro t _ hzero _ rfl
    omega

end View.Settled

lemma View.Turn.settled {root : ℕ → Prop} {v v' : View} (h : v.Turn v') (hl : v.Listed)
    (hf : v.Family root) (hs : v.Settled) : v'.Settled := by
  cases h with
  | stay => exact hs
  | dispatch _ _ _ => exact hs.dispatch _ _
  | @recheckTake tid ready _ _ _ _ _ _ => exact (hs.dispatch tid ready).same rfl
  | recheckBlock ho hr _ _ => exact (hs.dispatch _ _).sleep (hl.dispatch ho hr) rfl (.inl rfl) rfl
  | preempt ho => exact hs.preempt hl ho
  | take _ _ => exact hs.same rfl
  | block ho _ => exact hs.sleep hl ho (.inl rfl) rfl
  | put ch _ => exact hs.same rfl
  | notify ch _ => exact hs.notify ch _ _
  | notFound _ => exact hs.same rfl
  | @exec tid kstack ho hlt hfree =>
    have hne : ∀ t, v.Live t → t ≠ tid := by
      rintro t ht rfl
      rw [ht.2] at hfree
      cases hfree
    obtain ⟨hcur, _, _, huid⟩ := hl.current ho
    refine (hs.start hne).sleep (hl.start hlt hfree) ho (.inr ⟨_, rfl, ?_⟩) rfl
    change v.current.thread.uid < v.nextUid
    rw [← huid]
    exact hf.uid_lt _ hcur
  | exit ho hwait => exact hs.exit hl ho hwait
  | exitWake ho hp _ => exact hs.exitWake hl ho hp

/-! ### Chains of waiting parents -/

section
variable {root : ℕ → Prop} {v : View}

/-- A thread that sleeps for its child has one in a slot. -/
lemma View.Settled.sleeps_for (hs : v.Settled) (hf : v.Family root) {t : ℕ} (ht : v.Live t)
    (hsleep : (v.threads t).status = .sleeping) :
    (v.threads t).thread.context = .popChar ∨ ∃ t', v.AwaitsSlot t t' ∧
      (v.threads t).thread.uid < (v.threads t').thread.uid := by
  rcases hs.asleep t ht hsleep with h | ⟨c, hc⟩
  · exact .inl h
  · obtain ⟨t', ht', rfl, _⟩ := hf.child t c ⟨ht, hsleep, hc⟩
    exact .inr ⟨t', ⟨ht', ht, hsleep, hc⟩, hs.younger t _ ⟨ht, hsleep, hc⟩⟩

/-- Every chain ends: the induction is on how many numbers are left above that of the thread. -/
theorem View.Settled.chain (hs : v.Settled) (hl : v.Listed) (hf : v.Family root) :
    ∀ n t, v.Live t → v.nextUid - (v.threads t).thread.uid ≤ n →
      ∃ t', Relation.ReflTransGen v.AwaitsSlot t t' ∧
        (t' ∈ v.ready ∨ (v.occupied = true ∧ t' = v.current.tid) ∨ t' ∈ v.waiters) := by
  intro n
  induction n with
  | zero =>
    intro t ht hn
    have hlt := hf.uid_lt t ht
    omega
  | succ n ih =>
    intro t ht hn
    cases hstatus : (v.threads t).status with
    | ready => exact ⟨t, .refl, .inl ((hl.mem_ready t).mpr ⟨ht, hstatus⟩)⟩
    | running => exact ⟨t, .refl, .inr (.inl ((hl.running t ht).mp hstatus))⟩
    | exited => exact absurd hstatus (hs.status t ht)
    | sleeping =>
      rcases hs.sleeps_for hf ht hstatus with hpop | ⟨t₁, hawaits, hlt⟩
      · exact ⟨t, .refl, .inr (.inr ((hl.mem_waiters t).mpr ⟨ht, hstatus, hpop⟩))⟩
      · have hlt₁ := hf.uid_lt t₁ hawaits.1
        obtain ⟨t', hchain, hend⟩ := ih t₁ hawaits.1 (by omega)
        exact ⟨t', .head hawaits hchain, hend⟩

/-- When nothing is ready and nothing runs, somebody waits for the keyboard and every character was
read. -/
theorem View.Settled.idle (hs : v.Settled) (hl : v.Listed) (hf : v.Family root) (hd : v.Fed 0)
    (ho : v.occupied = false) (hready : v.ready = []) : v.waiters ≠ [] ∧ v.buffer = [] := by
  obtain ⟨t, ht, _⟩ := hs.first
  obtain ⟨t', _, hend⟩ := hs.chain hl hf _ t ht (le_refl _)
  rw [hready, ho] at hend
  simp only [List.not_mem_nil, Bool.false_eq_true, false_and, false_or] at hend
  have hne : v.waiters ≠ [] := List.ne_nil_of_mem hend
  have hlen := hd.enough hne
  rw [View.notified, hready] at hlen
  exact ⟨hne, List.length_eq_zero_iff.mp (by simpa [readers] using hlen)⟩

end

/-! ### Kernels that are in order -/

/-- A kernel, the lists that it stands for, and what holds of them in every run. -/
structure Steady (root : ℕ → Prop) (k : Kernel) (ready waiters : List ℕ) (buffer : List UInt8) :
    Prop where
  seen : Seen k ready waiters buffer
  listed : (k.view ready waiters buffer).Listed
  family : (k.view ready waiters buffer).Family root
  fed : (k.view ready waiters buffer).Fed 0
  inOrder : (k.view ready waiters buffer).InOrder
  settled : (k.view ready waiters buffer).Settled

section
variable {root : ℕ → Prop} {k k' : Kernel} {ready waiters ready' waiters' : List ℕ}
  {buffer buffer' : List UInt8} {e : Event} {es : List Event}

lemma Steady.setMem (h : Steady root k ready waiters buffer) (mem : Bytes.Memory)
    (hmem : k.SameHeap mem) : Steady root (k.setMem mem) ready waiters buffer :=
  ⟨⟨h.seen.linked, h.seen.heap.setMem hmem⟩, h.listed, h.family, h.fed, h.inOrder, h.settled⟩

lemma Steady.turn (h : Steady root k ready waiters buffer) (hs : Seen k' ready' waiters' buffer')
    (hturn : (k.view ready waiters buffer).Turn (k'.view ready' waiters' buffer')) :
    Steady root k' ready' waiters' buffer' :=
  ⟨hs, hturn.listed h.listed, hturn.family h.listed h.family, hturn.fed h.listed h.fed,
    hturn.inOrder h.listed h.inOrder, hturn.settled h.listed h.family h.settled⟩

/-- Step lemma. -/
lemma Steady.step (h : Steady root k ready waiters buffer)
    (hno : e = .syscall .exit → k.occupied = true → ¬ root k.current.thread.uid)
    (hok : step k e = .ok k') : ∃ ready' waiters' buffer', Steady root k' ready' waiters' buffer' ∧
      (k.view ready waiters buffer).Turn (k'.view ready' waiters' buffer') := by
  obtain ⟨ready', waiters', buffer', hs, hturn⟩ := step_refines h.seen h.listed h.family hno hok
  exact ⟨ready', waiters', buffer', h.turn hs hturn, hturn⟩

lemma Steady.readyList_eq (h : Steady root k ready waiters buffer) :
    readyList k.rrScheduler = ready :=
  h.seen.linked.readyList_eq fun t ht => ((h.listed.mem_ready t).mp ht).1.1

lemma Steady.bufferChars_eq (h : Steady root k ready waiters buffer) : bufferChars k = buffer :=
  h.seen.heap.queueItems_eq.1

lemma Steady.waitingTids_eq (h : Steady root k ready waiters buffer) : waitingTids k = waiters :=
  h.seen.heap.queueItems_eq.2

lemma Steady.readyUids_eq (h : Steady root k ready waiters buffer) :
    readyUids k = uidsOf k.threads ready := by
  rw [readyUids, h.readyList_eq]

/-- After `initThread` the kernel is in order. -/
lemma initThread_steady {sh : Program} (hk : k.Fresh) (hok : initThread k sh = .ok k') :
    ∃ waiters buffer, Steady (· = 0) k' [0] waiters buffer := by
  obtain ⟨⟨ready, waiters, buffer, hs, hl, hf, _, hd⟩, hocc⟩ := initThread_sound hk hok
  obtain ⟨hpush, _, _, _, _, hlog, kstack, hthreads⟩ := initThread_spec hk hok
  obtain ⟨s, hs', hlinked⟩ := (schedulerInit_linked k.rrScheduler).push
    (show 0 ∉ ([] : List ℕ) by simp) (by decide)
  obtain rfl := Except.ok.inj (hs'.symm.trans hpush)
  -- the ready list that the invariants speak of is the one just built
  have hready : ready = [0] := by
    rw [← hs.linked.readyList_eq fun t ht => ((hl.mem_ready t).mp ht).1.1]
    exact hlinked.readyList_eq (by decide)
  subst hready
  have hlive : ∀ t, (k'.view [0] waiters buffer).Live t → t = 0 := by
    rintro t ⟨_, h⟩
    by_contra ht
    simp only [Kernel.view, hthreads, Function.update_of_ne ht, hk.free t, Bool.false_eq_true] at h
  have hzero : (k'.view [0] waiters buffer).threads 0 = { k.threads 0 with
      status := .ready, occupied := true, thread := ⟨.user, kstack, 0, 0⟩ } := by
    simp only [Kernel.view, hthreads, Function.update_self]
  have hasleep : ∀ t, (k'.view [0] waiters buffer).Live t →
      ((k'.view [0] waiters buffer).threads t).status = .ready := by
    intro t ht
    rw [hlive t ht, hzero]
  refine ⟨waiters, buffer, hs, hl, hf, hd, ?_, ?_, ?_, ?_, 0, ?_, ?_⟩
  · rw [View.InOrder, uidsOf, show (k'.view [0] waiters buffer).ready = [0] from rfl, List.map_cons,
      hzero]
    simp [Kernel.view, hlog, dispatchedUids, pushedUids]
  · intro t ht hsleep
    rw [hasleep t ht] at hsleep
    cases hsleep
  · intro t ht hexited
    rw [hasleep t ht] at hexited
    cases hexited
  · rintro p c ⟨hp, hsleep, _⟩
    rw [hasleep p hp] at hsleep
    cases hsleep
  · exact ⟨by decide, by rw [hzero]⟩
  · rw [hzero]
    exact ⟨rfl, by simp⟩

/-! ### What is left of the scheduler -/

/-- The ring stands for one list. -/
lemma Linked.unique {s : RRScheduler} {xs ys : List ℕ} (h : Linked s xs) (h' : Linked s ys) :
    xs = ys := by
  have hx := LinkedRing.Ring.traverse_eq h (xs.length + ys.length + 1)
    (by rw [List.length_map]; omega)
  have hy := LinkedRing.Ring.traverse_eq h' (xs.length + ys.length + 1)
    (by rw [List.length_map]; omega)
  exact List.map_injective_iff.mpr (add_left_injective 1) (hx.symm.trans hy)

/-- A thread that does not run any more is not pushed by the switch. -/
lemma switchToIdle_rest {context : Resume} (h : (k.threads k.current.tid).occupied = false ∨
    (k.threads k.current.tid).status ≠ .running) (hok : switchToIdle k context = .ok k') :
    k'.rrScheduler = k.rrScheduler ∧ k'.occupied = false := by
  simp only [switchToIdle, retrieveToPool] at hok
  split_ifs at hok with hocc hrun
  · obtain rfl := Except.ok.inj hok
    exact ⟨rfl, rfl⟩
  · exact absurd hrun (h.resolve_left hocc)
  · obtain rfl := Except.ok.inj hok
    exact ⟨rfl, rfl⟩

lemma yieldCPU_rest {context : Resume} (ho : k.occupied = true)
    (hok : yieldCPU k context = .ok k') :
    k'.rrScheduler = k.rrScheduler ∧ k'.occupied = false := by
  rw [yieldCPU, if_pos ho] at hok
  obtain ⟨hrr, hocc⟩ := switchToIdle_rest (.inr (by simp [Kernel.setInfo])) hok
  exact ⟨hrr, hocc⟩

lemma popChar_rest (ho : k.occupied = true) (hok : popChar k = .ok k') :
    k'.rrScheduler = k.rrScheduler ∧
      (k'.occupied = false ∨ k'.occupied = true ∧ k'.current = k.current) := by
  rw [popChar] at hok
  split_ifs at hok
  · obtain rfl := Except.ok.inj hok
    exact ⟨rfl, .inr ⟨ho, rfl⟩⟩
  · rw [waitCondition] at hok
    split at hok
    · cases hok
    · rename_i heap waitQueue _
      obtain ⟨hrr, hocc⟩ := yieldCPU_rest (k := { k with heap, waitQueue }) ho hok
      exact ⟨hrr, .inl hocc⟩

/-! ### A key that is pressed -/

/-- A character is recorded first. -/
lemma pushChar_log {ch : UInt8} (hok : pushChar k ch = .ok k') :
    ∃ acts, k'.log = k.log ++ .charPushed ch :: acts := by
  rw [pushChar] at hok
  split at hok
  · cases hok
  · simp only [notifyCondition, wakeupCPU] at hok
    split_ifs at hok
    · rw [Kernel.push] at hok
      split at hok
      · cases hok
      · obtain rfl := Except.ok.inj hok
        exact ⟨[.pushed _], List.append_assoc _ _ _⟩
    · obtain rfl := Except.ok.inj hok
      exact ⟨[], rfl⟩

/-- What the keyboard leaves in the buffer for a character. -/
def inputChar (ch : UInt8) : UInt8 := if ch = 13 then 10 else ch

lemma step_keyboard (k : Kernel) (ch : UInt8) :
    Jokerix.step k (.keyboard (some ch)) = pushChar k (inputChar ch) := by
  simp only [Jokerix.step, external, inputChar]
  split_ifs <;> rfl

/-- While nothing is ready and nobody runs, a key wakes the first reader. -/
lemma Steady.wakes {tid : ℕ} {ch : UInt8} (h : Steady root k [] (tid :: waiters) buffer)
    (ho : k.occupied = false) (hok : pushChar k ch = .ok k') :
    Steady root k' [tid] waiters (buffer ++ [ch]) ∧ k'.view [tid] waiters (buffer ++ [ch]) =
      (k.view [] (tid :: waiters) buffer).notify ch tid waiters := by
  obtain ⟨ready', waiters', buffer', hs, hturn⟩ := pushChar_refines h.seen h.listed hok
  have h' := h.turn hs hturn
  obtain ⟨acts, hlog⟩ := pushChar_log hok
  have hocc : (k.view [] (tid :: waiters) buffer).occupied ≠ true := by
    rw [show (k.view [] (tid :: waiters) buffer).occupied = k.occupied from rfl, ho]
    decide
  generalize hv' : k'.view ready' waiters' buffer' = v' at hturn
  have hlog' : v'.log = (k.view [] (tid :: waiters) buffer).log ++ .charPushed ch :: acts := by
    rw [← hv']
    exact hlog
  cases hturn with
  | stay => simp at hlog'
  | dispatch _ hr _ => cases hr
  | recheckTake _ hr _ _ => cases hr
  | recheckBlock _ hr _ _ => cases hr
  | preempt ho' => exact absurd ho' hocc
  | take ho' _ => exact absurd ho' hocc
  | block ho' _ => exact absurd ho' hocc
  | put _ hw => cases hw
  | @notify ch' _ _ hw =>
    obtain ⟨rfl, rfl⟩ := List.cons.inj hw
    have hch : ch' = ch := by
      have hacts := List.append_cancel_left hlog'
      exact Action.charPushed.inj (List.cons.inj hacts).1
    subst hch
    obtain rfl : ready' = [tid] := congrArg View.ready hv'
    obtain rfl : waiters' = waiters := congrArg View.waiters hv'
    obtain rfl : buffer' = buffer ++ [ch'] := congrArg View.buffer hv'
    exact ⟨h', hv'⟩
  | notFound ho' => exact absurd ho' hocc
  | exec ho' _ _ => exact absurd ho' hocc
  | exit ho' _ => exact absurd ho' hocc
  | exitWake ho' _ _ => exact absurd ho' hocc

/-- A reader at the front that finds a character takes it when it is dispatched. -/
lemma Steady.takes {tid : ℕ} {ch : UInt8} (h : Steady root k (tid :: ready) waiters (ch :: buffer))
    (ho : k.occupied = false) (hreader : (k.threads tid).thread.context = .popChar)
    (hok : Jokerix.step k .dispatch = .ok k') :
    k'.occupied = true ∧ k'.current.tid = tid ∧ poppedChars k'.log = poppedChars k.log ++ [ch] ∧
      Steady root k' ready waiters buffer := by
  have hidle : ¬ k.occupied = true := by rw [ho]; decide
  rw [Jokerix.step, if_neg hidle] at hok
  obtain ⟨ready', waiters', buffer', hs, hturn⟩ := dispatch_refines h.seen h.listed ho hok
  have h' := h.turn hs hturn
  -- the front is gone, so that the turn is a dispatch
  obtain ⟨s, hpop, hlinked, _⟩ := h.seen.linked.pop
  have hrr : k'.rrScheduler = s := by
    rw [dispatch, acquireFromPool, hpop] at hok
    simp only [hreader] at hok
    exact (popChar_rest rfl hok).1
  obtain rfl : ready' = ready := (hrr ▸ hs.linked).unique hlinked
  generalize hv' : k'.view ready' waiters' buffer' = v' at hturn
  have hready : v'.ready = ready' := by rw [← hv']; rfl
  cases hturn with
  | stay => simp [Kernel.view] at hready
  | dispatch _ hr hc =>
    obtain ⟨rfl, rfl⟩ := List.cons.inj hr
    exact absurd hreader hc
  | recheckTake _ hr _ hb =>
    obtain ⟨rfl, rfl⟩ := List.cons.inj hr
    obtain ⟨rfl, rfl⟩ := List.cons.inj hb
    obtain rfl : waiters' = waiters := congrArg View.waiters hv'
    obtain rfl : buffer' = buffer := congrArg View.buffer hv'
    refine ⟨congrArg View.occupied hv', congrArg (·.current.tid) hv', ?_, h'⟩
    have hlog : k'.log = k.log ++ [.dispatched (k.threads tid).thread.uid] ++ [.charPopped ch] :=
      congrArg View.log hv'
    simp [hlog, poppedChars]
  | recheckBlock _ _ _ hb => cases hb
  | preempt ho' => exact absurd ho' hidle
  | take ho' _ => exact absurd ho' hidle
  | block ho' _ => exact absurd ho' hidle
  | put _ _ => simp [View.put, Kernel.view] at hready
  | notify _ _ =>
    have hlen := congrArg List.length hready
    simp only [View.notify, Kernel.view, List.length_append, List.length_cons] at hlen
    omega
  | notFound ho' => exact absurd ho' hidle
  | exec ho' _ _ => exact absurd ho' hidle
  | exit ho' _ => exact absurd ho' hidle
  | exitWake ho' _ _ => exact absurd ho' hidle

/-! ### No thread is lost -/

/-- The thread in slot `p` sleeps until the one in slot `t` exits. -/
def Kernel.AwaitsThread (k : Kernel) (p t : ℕ) : Prop :=
  (t < maxThread ∧ (k.threads t).occupied = true) ∧
    (p < maxThread ∧ (k.threads p).occupied = true) ∧ (k.threads p).status = .sleeping ∧
      (k.threads p).thread.context = .sysExec (k.threads t).thread.uid

/-- How often the slot `t` is named: by `CPU.current`, on the ready list and in the wait queue. -/
def Kernel.places (k : Kernel) (t : ℕ) : ℕ :=
  (if k.occupied = true ∧ t = k.current.tid then 1 else 0) +
    (readyList k.rrScheduler).count t + (waitingTids k).count t

/-- The scheduler knows of every thread: it runs, is ready or waits for a character, and is named
once for that, or it is named nowhere and waits for the exit of another one, of which the same holds
in turn. While nothing is ready or runs every character was read and a reader waits; the next
character that arrives wakes it, and it takes this character when it is dispatched. -/
structure NoneLost (k : Kernel) : Prop where
  once : ∀ t, t < maxThread → (k.threads t).occupied = true →
    k.places t = 1 ∨ k.places t = 0 ∧ ∃ t', k.AwaitsThread t t'
  chain : ∀ t, t < maxThread → (k.threads t).occupied = true →
    ∃ t', Relation.ReflTransGen k.AwaitsThread t t' ∧ k.places t' = 1
  idle : k.occupied = false → readyList k.rrScheduler = [] → bufferChars k = [] ∧
    ∃ t rest, waitingTids k = t :: rest ∧ ∀ ch k₁ k₂, Jokerix.step k (.keyboard (some ch)) =
      .ok k₁ → Jokerix.step k₁ .dispatch = .ok k₂ → k₂.occupied = true ∧ k₂.current.tid = t ∧
        poppedChars k₂.log = poppedChars k.log ++ [inputChar ch]

/-- A thread is named where its status says. -/
lemma Steady.places_eq {t : ℕ} (h : Steady root k ready waiters buffer) (hlt : t < maxThread)
    (hocc : (k.threads t).occupied = true) : k.places t = match (k.threads t).status with
      | .ready | .running => 1
      | .sleeping => if (k.threads t).thread.context = .popChar then 1 else 0
      | .exited => 0 := by
  have hlive : (k.view ready waiters buffer).Live t := ⟨hlt, hocc⟩
  have hready : t ∈ ready ↔ (k.threads t).status = .ready :=
    (h.listed.mem_ready t).trans (and_iff_right hlive)
  have hwaiters : t ∈ waiters ↔
      (k.threads t).status = .sleeping ∧ (k.threads t).thread.context = .popChar :=
    (h.listed.mem_waiters t).trans (and_iff_right hlive)
  have hrunning : (k.threads t).status = .running ↔ k.occupied = true ∧ t = k.current.tid :=
    h.listed.running t hlive
  have hnodup : ready.Nodup := h.listed.ready_nodup
  have hnodup' : waiters.Nodup := h.listed.waiters_nodup
  rw [Kernel.places, h.readyList_eq, h.waitingTids_eq, hnodup.count, hnodup'.count]
  simp only [hready, hwaiters, ← hrunning]
  cases (k.threads t).status <;> simp

lemma Steady.places_one {t : ℕ} (h : Steady root k ready waiters buffer)
    (ht : t ∈ ready ∨ (k.occupied = true ∧ t = k.current.tid) ∨ t ∈ waiters) : k.places t = 1 := by
  rcases ht with ht | ⟨ho, rfl⟩ | ht
  · obtain ⟨⟨hlt, hocc⟩, hstatus⟩ := (h.listed.mem_ready t).mp ht
    have hstatus : (k.threads t).status = .ready := hstatus
    rw [h.places_eq hlt hocc, hstatus]
  · have hlive : k.current.tid < maxThread ∧ (k.threads k.current.tid).occupied = true :=
      (h.listed.current ho).1
    have hstatus : (k.threads k.current.tid).status = .running := h.listed.status_current ho
    rw [h.places_eq hlive.1 hlive.2, hstatus]
  · obtain ⟨⟨hlt, hocc⟩, hstatus, hcontext⟩ := (h.listed.mem_waiters t).mp ht
    have hstatus : (k.threads t).status = .sleeping := hstatus
    rw [h.places_eq hlt hocc, hstatus]
    exact if_pos hcontext

lemma Steady.once {t : ℕ} (h : Steady root k ready waiters buffer) (hlt : t < maxThread)
    (hocc : (k.threads t).occupied = true) :
    k.places t = 1 ∨ k.places t = 0 ∧ ∃ t', k.AwaitsThread t t' := by
  have hlive : (k.view ready waiters buffer).Live t := ⟨hlt, hocc⟩
  rw [h.places_eq hlt hocc]
  cases hstatus : (k.threads t).status with
  | ready | running => exact .inl rfl
  | exited => exact absurd hstatus (h.settled.status t hlive)
  | sleeping =>
    rcases h.settled.asleep t hlive hstatus with hcontext | ⟨c, hcontext⟩
    · exact .inl (if_pos hcontext)
    · have hcontext : (k.threads t).thread.context = .sysExec c := hcontext
      obtain ⟨t', hlive', huid, _⟩ := h.family.child t c ⟨hlive, hstatus, hcontext⟩
      refine .inr ⟨if_neg (by rw [hcontext]; simp), t', hlive', ⟨hlt, hocc⟩, hstatus, ?_⟩
      rw [hcontext, ← huid]
      rfl

lemma Steady.noneLost (h : Steady root k ready waiters buffer) : NoneLost k := by
  refine ⟨fun t hlt hocc => h.once hlt hocc, fun t hlt hocc => ?_, fun ho hready => ?_⟩
  · obtain ⟨t', hchain, ht'⟩ := h.settled.chain h.listed h.family _ t ⟨hlt, hocc⟩ (le_refl _)
    exact ⟨t', hchain, h.places_one ht'⟩
  · rw [h.readyList_eq] at hready
    subst hready
    obtain ⟨hne, hbuffer⟩ := h.settled.idle h.listed h.family h.fed ho rfl
    obtain ⟨t, rest, hwaiters⟩ := List.exists_cons_of_ne_nil hne
    have hwaiters : waiters = t :: rest := hwaiters
    have hbuffer : buffer = [] := hbuffer
    subst hwaiters hbuffer
    refine ⟨h.bufferChars_eq, t, rest, h.waitingTids_eq, fun ch k₁ k₂ hkey hdispatch => ?_⟩
    rw [step_keyboard] at hkey
    obtain ⟨h₁, hv₁⟩ := h.wakes ho hkey
    rw [List.nil_append] at h₁ hv₁
    obtain ⟨_, _, hreader⟩ := (h.listed.mem_waiters t).mp List.mem_cons_self
    have hreader₁ : (k₁.threads t).thread.context = .popChar := by
      have hthreads :
          k₁.threads = Function.update k.threads t { k.threads t with status := .ready } :=
        congrArg View.threads hv₁
      rw [hthreads, Function.update_self]
      exact hreader
    obtain ⟨hocc, htid, hpopped, _⟩ :=
      h₁.takes ((congrArg View.occupied hv₁).trans ho) hreader₁ hdispatch
    refine ⟨hocc, htid, ?_⟩
    have hlog : k₁.log = k.log ++ [.charPushed (inputChar ch), .pushed (k.threads t).thread.uid] :=
      congrArg View.log hv₁
    rw [hpopped, hlog]
    simp [poppedChars]

end

/-- In every run in which the first thread does not exit and everything is stored elsewhere, with
any nesting of `sys_exec` and any number of readers, the scheduler loses no thread. -/
theorem none_lost (G : Globals) {k₀ k₁ : Kernel} {sh : Program} {hs : List Happening}
    {s : SystemState} (h₀ : k₀.Fresh) (hinit : initThread k₀ sh = .ok k₁)
    (hcareful : G.Careful (· = 0) (.start k₁) hs) (hrun : G.Run (.start k₁) hs s) :
    NoneLost s.kernel := by
  obtain ⟨_, _, h₁⟩ := initThread_steady h₀ hinit
  obtain ⟨_, _, _, hk⟩ := hrun.keeps
    (P := fun k => ∃ ready waiters buffer, Steady (· = 0) k ready waiters buffer)
    (fun ⟨_, _, _, hk⟩ hmem => ⟨_, _, _, hk.setMem _ hmem⟩)
    (fun ⟨_, _, _, hk⟩ hno hok =>
      let ⟨_, _, _, hk', _⟩ := hk.step hno hok
      ⟨_, _, _, hk'⟩)
    hcareful ⟨_, _, _, h₁⟩
  exact hk.noneLost

/-- The first thread waits for its child, and is on the ready list when the child has exited. -/
theorem none_lost_family : ∃ k₁ s, initThread sampleKernel sampleProgram = .ok k₁ ∧
    sampleGlobals.Run (.start k₁) familyRun s ∧ .execOk 0 1 ∈ s.kernel.log ∧
    readyList s.kernel.rrScheduler = [0] ∧ NoneLost s.kernel := by
  obtain ⟨k₁, s, hinit, hrun, hcareful, _, hready, hlog⟩ := sampleKernel_family
  exact ⟨k₁, s, hinit, hrun, by simp [hlog], hready,
    none_lost sampleGlobals sampleKernel_fresh hinit hcareful hrun⟩

end Jokerix
