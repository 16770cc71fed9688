import Jokerix.Sched.System
import Mathlib.Tactic.Push

/-!
# What the scheduler does, over lists

A `View` is the kernel with its ready list and its two queues as lists. The operations below say
what each event is for: dispatch the front thread, put the running one back, block a reader, wake
a reader, start a child and wait for it, exit. `View.Ok` is the invariant that ties the status of
a thread to the list it is in and a sleeping parent to its child, and every operation keeps it.
-/

namespace Jokerix

/-- The abstract state of the scheduler. -/
structure View where
  ready : List ℕ
  waiters : List ℕ
  buffer : List UInt8
  threads : ℕ → ThreadInfo
  current : RunningThread
  occupied : Bool
  nextUid : ℕ
  log : List Action

namespace View

variable (v : View)

/-- The pool with the running thread's slot at the given status, and its thread saved there. -/
def save (status : Status) (context : Resume) : ℕ → ThreadInfo :=
  Function.update v.threads v.current.tid
    { v.threads v.current.tid with status, thread := { v.current.thread with context } }

/-- The running thread as it is left in `CPU.current`. -/
def left (context : Resume) : RunningThread :=
  { v.current with thread := { v.current.thread with context } }

/-- The pool with one status changed. -/
def setStatus (tid : ℕ) (status : Status) : ℕ → ThreadInfo :=
  Function.update v.threads tid { v.threads tid with status }

/-- Run the front thread of the ready list. -/
def dispatch (tid : ℕ) (ready : List ℕ) : View :=
  { v with
    ready
    threads := Function.update v.threads tid { v.threads tid with status := .running, tid := tid }
    current := ⟨tid, (v.threads tid).thread⟩
    occupied := true
    log := v.log ++ [.dispatched (v.threads tid).thread.uid] }

/-- The time slice of the running thread is over. -/
def preempt : View :=
  { v with
    ready := v.ready ++ [v.current.tid]
    threads := v.save .ready .user
    current := v.left .user
    occupied := false
    log := v.log ++ [.pushed v.current.thread.uid] }

/-- The running thread finds the buffer empty. -/
def block : View :=
  { v with
    waiters := v.waiters ++ [v.current.tid]
    threads := v.save .sleeping .popChar
    current := v.left .popChar
    occupied := false }

/-- The running thread takes a character. -/
def take (ch : UInt8) (buffer : List UInt8) : View :=
  { v with buffer, log := v.log ++ [.charPopped ch] }

/-- A character arrives and nobody waits. -/
def put (ch : UInt8) : View :=
  { v with buffer := v.buffer ++ [ch], log := v.log ++ [.charPushed ch] }

/-- A character arrives and the first reader in the queue is woken. -/
def notify (ch : UInt8) (tid : ℕ) (waiters : List ℕ) : View :=
  { v with
    buffer := v.buffer ++ [ch]
    waiters
    ready := v.ready ++ [tid]
    threads := v.setStatus tid .ready
    log := v.log ++ [.charPushed ch, .pushed (v.threads tid).thread.uid] }

/-- A new thread in the free slot `tid`. -/
def start (tid kstack : ℕ) (wait : ℤ) : View :=
  { v with
    ready := v.ready ++ [tid]
    threads := Function.update v.threads tid
      { v.threads tid with
        status := .ready, occupied := true, thread := ⟨.user, kstack, wait, v.nextUid⟩ }
    nextUid := v.nextUid + 1
    log := v.log ++ [.pushed v.nextUid] }

/-- The running thread goes to sleep until its child, the thread `child`, exits. -/
def await (child : ℕ) : View :=
  { v with
    threads := v.save .sleeping (.sysExec child)
    current := v.left (.sysExec child)
    occupied := false
    log := v.log ++ [.execOk v.current.thread.uid child] }

/-- `sys_exec` of a program that is there. -/
def exec (tid kstack : ℕ) : View := (v.start tid kstack v.current.tid).await v.nextUid

/-- `sys_exec` of a program that is not there. -/
def notFound : View :=
  { v with log := v.log ++ [.execFailed v.current.thread.uid] }

/-- The pool without the running thread. -/
def drop : ℕ → ThreadInfo :=
  Function.update v.threads v.current.tid { v.threads v.current.tid with occupied := false }

/-- The running thread exits and nobody waits for it. -/
def exit : View :=
  { v with
    threads := v.drop
    current := v.left .exitFromCPU
    occupied := false
    log := v.log ++ [.exited v.current.thread.uid, .freed v.current.thread.uid] }

/-- The running thread exits and wakes the parent in slot `p`. -/
def exitWake (p : ℕ) : View :=
  { v with
    ready := v.ready ++ [p]
    threads := Function.update v.drop p { v.threads p with status := .ready }
    current := v.left .exitFromCPU
    occupied := false
    log := v.log ++ [.exited v.current.thread.uid, .pushed (v.threads p).thread.uid,
      .freed v.current.thread.uid] }

/-- Slot `t` holds a thread. -/
def Live (t : ℕ) : Prop := t < maxThread ∧ (v.threads t).occupied = true

/-- Slot `p` sleeps in the `sysExec` that created the thread `child`. -/
def Awaits (p child : ℕ) : Prop :=
  v.Live p ∧ (v.threads p).status = .sleeping ∧ (v.threads p).thread.context = .sysExec child

/-- The status of a thread agrees with the list it is in, and `CPU.current` with its slot. -/
structure Listed : Prop where
  ready_nodup : v.ready.Nodup
  mem_ready : ∀ t, t ∈ v.ready ↔ v.Live t ∧ (v.threads t).status = .ready
  waiters_nodup : v.waiters.Nodup
  mem_waiters : ∀ t, t ∈ v.waiters ↔
    v.Live t ∧ (v.threads t).status = .sleeping ∧ (v.threads t).thread.context = .popChar
  running : ∀ t, v.Live t →
    ((v.threads t).status = .running ↔ v.occupied = true ∧ t = v.current.tid)
  current : v.occupied = true → v.Live v.current.tid ∧
    (v.threads v.current.tid).thread.kstack = v.current.thread.kstack ∧
    (v.threads v.current.tid).thread.wait = v.current.thread.wait ∧
    (v.threads v.current.tid).thread.uid = v.current.thread.uid

/-- Every thread has a number of its own, and a sleeping parent and its child name each other. A
thread for which `root` holds may carry any `wait`. -/
structure Family (root : ℕ → Prop) : Prop where
  uid_lt : ∀ t, v.Live t → (v.threads t).thread.uid < v.nextUid
  uid_inj : ∀ t t', v.Live t → v.Live t' →
    (v.threads t).thread.uid = (v.threads t').thread.uid → t = t'
  parent : ∀ t, v.Live t → root (v.threads t).thread.uid ∨ (v.threads t).thread.wait = -1 ∨
    ∃ p : ℕ, (v.threads t).thread.wait = p ∧ v.Awaits p (v.threads t).thread.uid
  child : ∀ p c, v.Awaits p c →
    ∃ t, v.Live t ∧ (v.threads t).thread.uid = c ∧ (v.threads t).thread.wait = p

end View

/-! ### The lists -/

lemma nodup_concat {xs : List ℕ} {x : ℕ} (h : xs.Nodup) (hx : x ∉ xs) : (xs ++ [x]).Nodup :=
  h.append (List.nodup_singleton x) (by simpa using hx)

namespace View.Listed

variable {v : View}

lemma status_current (hv : v.Listed) (ho : v.occupied = true) :
    (v.threads v.current.tid).status = .running :=
  (hv.running _ (hv.current ho).1).mpr ⟨ho, rfl⟩

lemma dispatch (hv : v.Listed) (ho : v.occupied = false) {tid : ℕ} {ready : List ℕ}
    (hr : v.ready = tid :: ready) : (v.dispatch tid ready).Listed := by
  have hnd := hr ▸ hv.ready_nodup
  have htid := (hv.mem_ready tid).mp (hr ▸ List.mem_cons_self)
  constructor
  · exact (List.nodup_cons.mp hnd).2
  · intro t
    have h := hv.mem_ready t
    simp only [View.Live, View.dispatch, Function.update_apply] at *
    grind
  · exact hv.waiters_nodup
  · intro t
    have h := hv.mem_waiters t
    simp only [View.Live, View.dispatch, Function.update_apply] at *
    grind
  · intro t
    have h := hv.running t
    simp only [View.Live, View.dispatch, Function.update_apply] at *
    grind
  · intro _
    simp only [View.Live, View.dispatch, Function.update_self, and_true]
    exact htid.1

lemma preempt (hv : v.Listed) (ho : v.occupied = true) : v.preempt.Listed := by
  have hrun := hv.status_current ho
  obtain ⟨hlive, _⟩ := hv.current ho
  have hnot := hv.mem_ready v.current.tid
  constructor
  · exact nodup_concat hv.ready_nodup (by grind)
  · intro t
    have h := hv.mem_ready t
    simp only [View.Live, View.preempt, View.save, Function.update_apply] at *
    grind
  · exact hv.waiters_nodup
  · intro t
    have h := hv.mem_waiters t
    simp only [View.Live, View.preempt, View.save, Function.update_apply] at *
    grind
  · intro t
    have h := hv.running t
    simp only [View.Live, View.preempt, View.save, Function.update_apply] at *
    grind
  · intro h
    cases h

lemma block (hv : v.Listed) (ho : v.occupied = true) : v.block.Listed := by
  have hrun := hv.status_current ho
  obtain ⟨hlive, _⟩ := hv.current ho
  have hnot := hv.mem_waiters v.current.tid
  constructor
  · exact hv.ready_nodup
  · intro t
    have h := hv.mem_ready t
    simp only [View.Live, View.block, View.save, Function.update_apply] at *
    grind
  · exact nodup_concat hv.waiters_nodup (by grind)
  · intro t
    have h := hv.mem_waiters t
    simp only [View.Live, View.block, View.save, Function.update_apply] at *
    grind
  · intro t
    have h := hv.running t
    simp only [View.Live, View.block, View.save, Function.update_apply] at *
    grind
  · intro h
    cases h

lemma take (hv : v.Listed) (ch : UInt8) (buffer : List UInt8) : (v.take ch buffer).Listed :=
  ⟨hv.ready_nodup, hv.mem_ready, hv.waiters_nodup, hv.mem_waiters, hv.running, hv.current⟩

lemma put (hv : v.Listed) (ch : UInt8) : (v.put ch).Listed :=
  ⟨hv.ready_nodup, hv.mem_ready, hv.waiters_nodup, hv.mem_waiters, hv.running, hv.current⟩

lemma notFound (hv : v.Listed) : v.notFound.Listed :=
  ⟨hv.ready_nodup, hv.mem_ready, hv.waiters_nodup, hv.mem_waiters, hv.running, hv.current⟩

lemma notify (hv : v.Listed) {ch : UInt8} {tid : ℕ} {waiters : List ℕ}
    (hw : v.waiters = tid :: waiters) : (v.notify ch tid waiters).Listed := by
  have hnd := hw ▸ hv.waiters_nodup
  have htid := (hv.mem_waiters tid).mp (hw ▸ List.mem_cons_self)
  have hnot := hv.mem_ready tid
  have htrun := hv.running tid htid.1
  constructor
  · exact nodup_concat hv.ready_nodup (by grind)
  · intro t
    have h := hv.mem_ready t
    simp only [View.Live, View.notify, View.setStatus, Function.update_apply] at *
    grind
  · exact (List.nodup_cons.mp hnd).2
  · intro t
    have h := hv.mem_waiters t
    simp only [View.Live, View.notify, View.setStatus, Function.update_apply] at *
    grind
  · intro t
    have h := hv.running t
    simp only [View.Live, View.notify, View.setStatus, Function.update_apply] at *
    grind
  · intro ho
    have h := hv.current ho
    simp only [View.Live, View.notify, View.setStatus, Function.update_apply] at *
    grind

lemma start (hv : v.Listed) {tid kstack : ℕ} {wait : ℤ} (hlt : tid < maxThread)
    (hfree : (v.threads tid).occupied = false) : (v.start tid kstack wait).Listed := by
  have hnot := hv.mem_ready tid
  constructor
  · exact nodup_concat hv.ready_nodup (by simp only [View.Live] at hnot; grind)
  · intro t
    have h := hv.mem_ready t
    simp only [View.Live, View.start, Function.update_apply] at *
    grind
  · exact hv.waiters_nodup
  · intro t
    have h := hv.mem_waiters t
    simp only [View.Live, View.start, Function.update_apply] at *
    grind
  · intro t
    have h := hv.running t
    have hcur := hv.current
    simp only [View.Live, View.start, Function.update_apply] at *
    grind
  · intro ho
    have h := hv.current ho
    simp only [View.Live, View.start, Function.update_apply] at *
    grind

lemma await (hv : v.Listed) (ho : v.occupied = true) (c : ℕ) : (v.await c).Listed := by
  have hrun := hv.status_current ho
  obtain ⟨hlive, _⟩ := hv.current ho
  constructor
  · exact hv.ready_nodup
  · intro t
    have h := hv.mem_ready t
    simp only [View.Live, View.await, View.save, Function.update_apply] at *
    grind
  · exact hv.waiters_nodup
  · intro t
    have h := hv.mem_waiters t
    simp only [View.Live, View.await, View.save, Function.update_apply] at *
    grind
  · intro t
    have h := hv.running t
    simp only [View.Live, View.await, View.save, Function.update_apply] at *
    grind
  · intro h
    cases h

lemma exit (hv : v.Listed) (ho : v.occupied = true) : v.exit.Listed := by
  have hrun := hv.status_current ho
  obtain ⟨hlive, _⟩ := hv.current ho
  constructor
  · exact hv.ready_nodup
  · intro t
    have h := hv.mem_ready t
    simp only [View.Live, View.exit, View.drop, Function.update_apply] at *
    grind
  · exact hv.waiters_nodup
  · intro t
    have h := hv.mem_waiters t
    simp only [View.Live, View.exit, View.drop, Function.update_apply] at *
    grind
  · intro t
    have h := hv.running t
    simp only [View.Live, View.exit, View.drop, Function.update_apply] at *
    grind
  · intro h
    cases h

lemma exitWake (hv : v.Listed) (ho : v.occupied = true) {p c : ℕ} (hp : v.Awaits p c) :
    (v.exitWake p).Listed := by
  have hrun := hv.status_current ho
  obtain ⟨hlive, _⟩ := hv.current ho
  have hnot := hv.mem_ready p
  have hpw := hv.mem_waiters p
  have hne : p ≠ v.current.tid := by
    rintro rfl
    rw [hp.2.1] at hrun
    cases hrun
  constructor
  · exact nodup_concat hv.ready_nodup (by simp only [View.Awaits] at hp; grind)
  · intro t
    have h := hv.mem_ready t
    simp only [View.Live, View.Awaits, View.exitWake, View.drop, Function.update_apply] at *
    grind
  · exact hv.waiters_nodup
  · intro t
    have h := hv.mem_waiters t
    simp only [View.Live, View.Awaits, View.exitWake, View.drop, Function.update_apply] at *
    grind
  · intro t
    have h := hv.running t
    simp only [View.Live, View.Awaits, View.exitWake, View.drop, Function.update_apply] at *
    grind
  · intro h
    cases h

lemma exec (hv : v.Listed) (ho : v.occupied = true) {tid kstack : ℕ} (hlt : tid < maxThread)
    (hfree : (v.threads tid).occupied = false) : (v.exec tid kstack).Listed :=
  (hv.start hlt hfree).await ho _

end View.Listed

/-! ### Parents and children -/

namespace View.Family

variable {root : ℕ → Prop} {v v' : View}

/-- The clauses depend on who is alive, on the numbers and on who awaits whom. -/
lemma congr (hv : v.Family root) (hlive : ∀ t, v'.Live t ↔ v.Live t)
    (hthread : ∀ t, v.Live t → (v'.threads t).thread.uid = (v.threads t).thread.uid ∧
      (v'.threads t).thread.wait = (v.threads t).thread.wait)
    (hawaits : ∀ p c, v'.Awaits p c ↔ v.Awaits p c) (hnext : v'.nextUid = v.nextUid) :
    v'.Family root := by
  constructor
  · intro t ht
    rw [hlive] at ht
    rw [(hthread t ht).1, hnext]
    exact hv.uid_lt t ht
  · intro t t' ht ht' h
    rw [hlive] at ht ht'
    rw [(hthread t ht).1, (hthread t' ht').1] at h
    exact hv.uid_inj t t' ht ht' h
  · intro t ht
    rw [hlive] at ht
    rw [(hthread t ht).1, (hthread t ht).2]
    simp only [hawaits]
    exact hv.parent t ht
  · intro p c hpc
    rw [hawaits] at hpc
    obtain ⟨t, ht, h1, h2⟩ := hv.child p c hpc
    exact ⟨t, (hlive t).mpr ht, by rw [(hthread t ht).1, h1], by rw [(hthread t ht).2, h2]⟩

lemma dispatch (hv : v.Family root) (hl : v.Listed) {tid : ℕ} {ready : List ℕ}
    (hr : v.ready = tid :: ready) : (v.dispatch tid ready).Family root := by
  have htid := (hl.mem_ready tid).mp (hr ▸ List.mem_cons_self)
  apply hv.congr
  · intro t
    simp only [View.Live, View.dispatch, Function.update_apply] at *
    grind
  · intro t _
    simp only [View.dispatch, Function.update_apply]
    grind
  · intro p c
    simp only [View.Live, View.Awaits, View.dispatch, Function.update_apply] at *
    grind
  · rfl

lemma preempt (hv : v.Family root) (hl : v.Listed) (ho : v.occupied = true) :
    v.preempt.Family root := by
  have hrun := hl.status_current ho
  have hcur := hl.current ho
  apply hv.congr
  · intro t
    simp only [View.Live, View.preempt, View.save, Function.update_apply] at *
    grind
  · intro t _
    simp only [View.preempt, View.save, Function.update_apply]
    grind
  · intro p c
    simp only [View.Live, View.Awaits, View.preempt, View.save, Function.update_apply] at *
    grind
  · rfl

lemma block (hv : v.Family root) (hl : v.Listed) (ho : v.occupied = true) :
    v.block.Family root := by
  have hrun := hl.status_current ho
  have hcur := hl.current ho
  apply hv.congr
  · intro t
    simp only [View.Live, View.block, View.save, Function.update_apply] at *
    grind
  · intro t _
    simp only [View.block, View.save, Function.update_apply]
    grind
  · intro p c
    simp only [View.Live, View.Awaits, View.block, View.save, Function.update_apply] at *
    grind
  · rfl

lemma take (hv : v.Family root) (ch : UInt8) (buffer : List UInt8) :
    (v.take ch buffer).Family root := ⟨hv.uid_lt, hv.uid_inj, hv.parent, hv.child⟩

lemma put (hv : v.Family root) (ch : UInt8) : (v.put ch).Family root :=
  ⟨hv.uid_lt, hv.uid_inj, hv.parent, hv.child⟩

lemma notFound (hv : v.Family root) : v.notFound.Family root :=
  ⟨hv.uid_lt, hv.uid_inj, hv.parent, hv.child⟩

lemma notify (hv : v.Family root) (hl : v.Listed) {ch : UInt8} {tid : ℕ} {waiters : List ℕ}
    (hw : v.waiters = tid :: waiters) : (v.notify ch tid waiters).Family root := by
  have htid := (hl.mem_waiters tid).mp (hw ▸ List.mem_cons_self)
  apply hv.congr
  · intro t
    simp only [View.Live, View.notify, View.setStatus, Function.update_apply] at *
    grind
  · intro t _
    simp only [View.notify, View.setStatus, Function.update_apply]
    grind
  · intro p c
    simp only [View.Live, View.Awaits, View.notify, View.setStatus, Function.update_apply] at *
    grind
  · rfl

/-- A thread that nobody waits for, or that never exits. -/
lemma start (hv : v.Family root) {tid kstack : ℕ} {wait : ℤ} (hlt : tid < maxThread)
    (hfree : (v.threads tid).occupied = false) (hwait : root v.nextUid ∨ wait = -1) :
    (v.start tid kstack wait).Family root := by
  have hlive : ∀ t, (v.start tid kstack wait).Live t ↔ t = tid ∨ v.Live t := by
    intro t
    simp only [View.Live, View.start, Function.update_apply]
    grind
  have hold : ∀ t, v.Live t → (v.start tid kstack wait).threads t = v.threads t := by
    intro t ht
    simp only [View.start]
    exact Function.update_of_ne (by rintro rfl; simp [View.Live, hfree] at ht) _ _
  have hnew : ((v.start tid kstack wait).threads tid).thread =
      ⟨.user, kstack, wait, v.nextUid⟩ := by
    simp only [View.start, Function.update_self]
  have hawaits : ∀ p c, (v.start tid kstack wait).Awaits p c ↔ v.Awaits p c := by
    intro p c
    simp only [View.Live, View.Awaits, View.start, Function.update_apply] at *
    grind
  constructor
  · intro t ht
    rcases (hlive t).mp ht with rfl | ht
    · rw [hnew]
      exact Nat.lt_succ_self _
    · rw [hold t ht]
      exact Nat.lt_succ_of_lt (hv.uid_lt t ht)
  · intro t t' ht ht' h
    rcases (hlive t).mp ht with rfl | hold₁ <;> rcases (hlive t').mp ht' with rfl | hold₂
    · rfl
    · rw [hnew, hold t' hold₂] at h
      exact absurd h (hv.uid_lt t' hold₂).ne'
    · rw [hnew, hold t hold₁] at h
      exact absurd h (hv.uid_lt t hold₁).ne
    · rw [hold t hold₁, hold t' hold₂] at h
      exact hv.uid_inj t t' hold₁ hold₂ h
  · intro t ht
    rcases (hlive t).mp ht with rfl | ht
    · rw [hnew]
      exact hwait.imp_right .inl
    · rw [hold t ht]
      simp only [hawaits]
      exact hv.parent t ht
  · intro p c hpc
    obtain ⟨t, ht, h1, h2⟩ := hv.child p c ((hawaits p c).mp hpc)
    exact ⟨t, (hlive t).mpr (.inr ht), by rw [hold t ht, h1], by rw [hold t ht, h2]⟩

/-- A child and its parent, which goes to sleep. -/
lemma exec (hv : v.Family root) (hl : v.Listed) (ho : v.occupied = true) {tid kstack : ℕ}
    (hlt : tid < maxThread) (hfree : (v.threads tid).occupied = false) :
    (v.exec tid kstack).Family root := by
  have hrun := hl.status_current ho
  obtain ⟨hlive, _, hwait, huid⟩ := hl.current ho
  have hne : v.current.tid ≠ tid := by
    rintro h
    rw [View.Live, h, hfree] at hlive
    cases hlive.2
  have hl' : ∀ t, (v.exec tid kstack).Live t ↔ t = tid ∨ v.Live t := by
    intro t
    simp only [View.Live, View.exec, View.await, View.save, View.start, Function.update_apply] at *
    grind
  have hnew : ((v.exec tid kstack).threads tid).thread =
      ⟨.user, kstack, v.current.tid, v.nextUid⟩ := by
    simp only [View.exec, View.await, View.save, View.start]
    rw [Function.update_of_ne hne.symm, Function.update_self]
  have hold : ∀ t, v.Live t → ((v.exec tid kstack).threads t).thread.uid =
      (v.threads t).thread.uid ∧ ((v.exec tid kstack).threads t).thread.wait =
      (v.threads t).thread.wait := by
    intro t ht
    simp only [View.Live, View.exec, View.await, View.save, View.start, Function.update_apply] at *
    grind
  have hawaits : ∀ p c, (v.exec tid kstack).Awaits p c ↔
      v.Awaits p c ∨ p = v.current.tid ∧ c = v.nextUid := by
    intro p c
    simp only [View.Live, View.Awaits, View.exec, View.await, View.save, View.start,
      Function.update_apply] at *
    grind
  constructor
  · intro t ht
    rcases (hl' t).mp ht with rfl | ht
    · rw [hnew]
      exact Nat.lt_succ_self _
    · rw [(hold t ht).1]
      exact Nat.lt_succ_of_lt (hv.uid_lt t ht)
  · intro t t' ht ht' h
    rcases (hl' t).mp ht with rfl | hold₁ <;> rcases (hl' t').mp ht' with rfl | hold₂
    · rfl
    · rw [hnew, (hold t' hold₂).1] at h
      exact absurd h (hv.uid_lt t' hold₂).ne'
    · rw [hnew, (hold t hold₁).1] at h
      exact absurd h (hv.uid_lt t hold₁).ne
    · rw [(hold t hold₁).1, (hold t' hold₂).1] at h
      exact hv.uid_inj t t' hold₁ hold₂ h
  · intro t ht
    rcases (hl' t).mp ht with rfl | ht
    · rw [hnew]
      exact .inr (.inr ⟨v.current.tid, rfl, (hawaits _ _).mpr (.inr ⟨rfl, rfl⟩)⟩)
    · rw [(hold t ht).1, (hold t ht).2]
      rcases hv.parent t ht with h | h | ⟨p, h1, h2⟩
      · exact .inl h
      · exact .inr (.inl h)
      · exact .inr (.inr ⟨p, h1, (hawaits _ _).mpr (.inl h2)⟩)
  · intro p c hpc
    rcases (hawaits p c).mp hpc with hpc | ⟨rfl, rfl⟩
    · obtain ⟨t, ht, h1, h2⟩ := hv.child p c hpc
      exact ⟨t, (hl' t).mpr (.inr ht), by rw [(hold t ht).1, h1], by rw [(hold t ht).2, h2]⟩
    · exact ⟨tid, (hl' tid).mpr (.inl rfl), by rw [hnew], by rw [hnew]⟩

/-- A thread leaves that no thread waits for. -/
lemma exit (hv : v.Family root) (hl : v.Listed) (ho : v.occupied = true)
    (hwait : v.current.thread.wait = -1) : v.exit.Family root := by
  have hrun := hl.status_current ho
  obtain ⟨_, _, hcw, _⟩ := hl.current ho
  have hlive : ∀ t, v.exit.Live t ↔ v.Live t ∧ t ≠ v.current.tid := by
    intro t
    simp only [View.Live, View.exit, View.drop, Function.update_apply] at *
    grind
  have hold : ∀ t, t ≠ v.current.tid → v.exit.threads t = v.threads t :=
    fun t ht => Function.update_of_ne ht _ _
  have hawaits : ∀ p c, v.exit.Awaits p c ↔ v.Awaits p c := by
    intro p c
    simp only [View.Live, View.Awaits, View.exit, View.drop, Function.update_apply] at *
    grind
  constructor
  · intro t ht
    obtain ⟨ht, hne⟩ := (hlive t).mp ht
    rw [hold t hne]
    exact hv.uid_lt t ht
  · intro t t' ht ht' h
    obtain ⟨ht, hne⟩ := (hlive t).mp ht
    obtain ⟨ht', hne'⟩ := (hlive t').mp ht'
    rw [hold t hne, hold t' hne'] at h
    exact hv.uid_inj t t' ht ht' h
  · intro t ht
    obtain ⟨ht, hne⟩ := (hlive t).mp ht
    rw [hold t hne]
    simp only [hawaits]
    exact hv.parent t ht
  · intro p c hpc
    obtain ⟨t, ht, h1, h2⟩ := hv.child p c ((hawaits p c).mp hpc)
    have hne : t ≠ v.current.tid := by
      rintro rfl
      omega
    exact ⟨t, (hlive t).mpr ⟨ht, hne⟩, by rw [hold t hne, h1], by rw [hold t hne, h2]⟩

/-- A child leaves and its parent is woken. -/
lemma exitWake (hv : v.Family root) (hl : v.Listed) (ho : v.occupied = true) {p : ℕ}
    (hp : v.Awaits p v.current.thread.uid) (hwait : v.current.thread.wait = p) :
    (v.exitWake p).Family root := by
  have hrun := hl.status_current ho
  obtain ⟨hcur, _, hcw, hcu⟩ := hl.current ho
  have hne : p ≠ v.current.tid := by
    rintro rfl
    rw [hp.2.1] at hrun
    cases hrun
  have hlive : ∀ t, (v.exitWake p).Live t ↔ v.Live t ∧ t ≠ v.current.tid := by
    intro t
    simp only [View.Live, View.exitWake, View.drop, Function.update_apply] at *
    grind
  have hold : ∀ t, t ≠ v.current.tid → ((v.exitWake p).threads t).thread =
      (v.threads t).thread := by
    intro t ht
    simp only [View.exitWake, View.drop, Function.update_apply]
    grind
  have hawaits : ∀ q c, (v.exitWake p).Awaits q c ↔ v.Awaits q c ∧ q ≠ p := by
    intro q c
    simp only [View.Live, View.Awaits, View.exitWake, View.drop, Function.update_apply] at *
    grind
  constructor
  · intro t ht
    obtain ⟨ht, hne⟩ := (hlive t).mp ht
    rw [hold t hne]
    exact hv.uid_lt t ht
  · intro t t' ht ht' h
    obtain ⟨ht, hne⟩ := (hlive t).mp ht
    obtain ⟨ht', hne'⟩ := (hlive t').mp ht'
    rw [hold t hne, hold t' hne'] at h
    exact hv.uid_inj t t' ht ht' h
  · intro t ht
    obtain ⟨htl, htc⟩ := (hlive t).mp ht
    rw [hold t htc]
    rcases hv.parent t htl with h | h | ⟨q, h1, h2⟩
    · exact .inl h
    · exact .inr (.inl h)
    · refine .inr (.inr ⟨q, h1, (hawaits _ _).mpr ⟨h2, ?_⟩⟩)
      -- the parent that is woken waits for the running thread only
      rintro rfl
      have hctx := hp.2.2.symm.trans h2.2.2
      rw [Resume.sysExec.injEq, ← hcu] at hctx
      exact htc (hv.uid_inj t _ htl hcur hctx.symm)
  · intro q c hqc
    obtain ⟨hqc, hqp⟩ := (hawaits q c).mp hqc
    obtain ⟨t, ht, h1, h2⟩ := hv.child q c hqc
    have htc : t ≠ v.current.tid := by
      rintro rfl
      omega
    exact ⟨t, (hlive t).mpr ⟨ht, htc⟩, by rw [hold t htc, h1], by rw [hold t htc, h2]⟩

end View.Family

/-! ### What one event does -/

/-- The effect of an event, over lists. A reader that is dispatched checks the buffer again at
once. -/
inductive View.Turn : View → View → Prop
  | stay (v : View) : Turn v v
  | dispatch {v : View} {tid : ℕ} {ready : List ℕ} (ho : v.occupied = false)
      (hr : v.ready = tid :: ready) (hc : (v.threads tid).thread.context ≠ .popChar) :
      Turn v (v.dispatch tid ready)
  | recheckTake {v : View} {tid : ℕ} {ready : List ℕ} {ch : UInt8} {buffer : List UInt8}
      (ho : v.occupied = false) (hr : v.ready = tid :: ready)
      (hc : (v.threads tid).thread.context = .popChar) (hb : v.buffer = ch :: buffer) :
      Turn v ((v.dispatch tid ready).take ch buffer)
  | recheckBlock {v : View} {tid : ℕ} {ready : List ℕ} (ho : v.occupied = false)
      (hr : v.ready = tid :: ready) (hc : (v.threads tid).thread.context = .popChar)
      (hb : v.buffer = []) : Turn v (v.dispatch tid ready).block
  | preempt {v : View} (ho : v.occupied = true) : Turn v v.preempt
  | take {v : View} {ch : UInt8} {buffer : List UInt8} (ho : v.occupied = true)
      (hb : v.buffer = ch :: buffer) : Turn v (v.take ch buffer)
  | block {v : View} (ho : v.occupied = true) (hb : v.buffer = []) : Turn v v.block
  | put {v : View} (ch : UInt8) (hw : v.waiters = []) : Turn v (v.put ch)
  | notify {v : View} (ch : UInt8) {tid : ℕ} {waiters : List ℕ} (hw : v.waiters = tid :: waiters) :
      Turn v (v.notify ch tid waiters)
  | notFound {v : View} (ho : v.occupied = true) : Turn v v.notFound
  | exec {v : View} {tid kstack : ℕ} (ho : v.occupied = true) (hlt : tid < maxThread)
      (hfree : (v.threads tid).occupied = false) : Turn v (v.exec tid kstack)
  | exit {v : View} (ho : v.occupied = true) (hwait : v.current.thread.wait = -1) : Turn v v.exit
  | exitWake {v : View} {p : ℕ} (ho : v.occupied = true)
      (hp : v.Awaits p v.current.thread.uid) (hwait : v.current.thread.wait = p) :
      Turn v (v.exitWake p)

lemma View.Turn.listed {v v' : View} (h : v.Turn v') (hl : v.Listed) : v'.Listed := by
  cases h with
  | stay => exact hl
  | dispatch ho hr _ => exact hl.dispatch ho hr
  | recheckTake ho hr _ _ => exact (hl.dispatch ho hr).take _ _
  | recheckBlock ho hr _ _ => exact (hl.dispatch ho hr).block rfl
  | preempt ho => exact hl.preempt ho
  | take _ _ => exact hl.take _ _
  | block ho _ => exact hl.block ho
  | put ch _ => exact hl.put ch
  | notify ch hw => exact hl.notify hw
  | notFound _ => exact hl.notFound
  | exec ho hlt hfree => exact hl.exec ho hlt hfree
  | exit ho _ => exact hl.exit ho
  | exitWake ho hp _ => exact hl.exitWake ho hp

lemma View.Turn.family {root : ℕ → Prop} {v v' : View} (h : v.Turn v') (hl : v.Listed)
    (hf : v.Family root) : v'.Family root := by
  cases h with
  | stay => exact hf
  | dispatch _ hr _ => exact hf.dispatch hl hr
  | recheckTake _ hr _ _ => exact (hf.dispatch hl hr).take _ _
  | recheckBlock ho hr _ _ => exact (hf.dispatch hl hr).block (hl.dispatch ho hr) rfl
  | preempt ho => exact hf.preempt hl ho
  | take _ _ => exact hf.take _ _
  | block ho _ => exact hf.block hl ho
  | put ch _ => exact hf.put ch
  | notify ch hw => exact hf.notify hl hw
  | notFound _ => exact hf.notFound
  | exec ho hlt hfree => exact hf.exec hl ho hlt hfree
  | exit ho hwait => exact hf.exit hl ho hwait
  | exitWake ho hp hwait => exact hf.exitWake hl ho hp hwait

end Jokerix
