import Jokerix.Sched.Boot

/-!
# The order of dispatches

Threads are dispatched in the order in which they are pushed on the ready list. Whatever is pushed
behind a thread, the thread is reached after as many dispatches as there are threads before it.
-/

namespace Jokerix

/-- The threads pushed on the ready list, in order. -/
def pushedUids (log : List Action) : List ℕ :=
  log.filterMap fun | .pushed u => some u | _ => none

/-- The threads dispatched, in order. -/
def dispatchedUids (log : List Action) : List ℕ :=
  log.filterMap fun | .dispatched u => some u | _ => none

@[simp] lemma pushedUids_append (xs ys : List Action) :
    pushedUids (xs ++ ys) = pushedUids xs ++ pushedUids ys := List.filterMap_append

@[simp] lemma dispatchedUids_append (xs ys : List Action) :
    dispatchedUids (xs ++ ys) = dispatchedUids xs ++ dispatchedUids ys := List.filterMap_append

/-- The numbers of the threads in a list of slots. -/
def uidsOf (threads : ℕ → ThreadInfo) (tids : List ℕ) : List ℕ :=
  tids.map fun t => (threads t).thread.uid

/-- The threads that wait in the ready list, from the front. -/
def readyUids (k : Kernel) : List ℕ := uidsOf k.threads (readyList k.rrScheduler)

/-- Whatever was pushed was dispatched, in the same order, or waits in the ready list. -/
def View.InOrder (v : View) : Prop :=
  dispatchedUids v.log ++ uidsOf v.threads v.ready = pushedUids v.log

/-! ### The invariant -/

lemma uidsOf_congr {threads threads' : ℕ → ThreadInfo} {tids : List ℕ}
    (h : ∀ t ∈ tids, (threads' t).thread.uid = (threads t).thread.uid) :
    uidsOf threads' tids = uidsOf threads tids := List.map_congr_left h

/-- A change of one slot that keeps its number. -/
lemma uidsOf_update {threads : ℕ → ThreadInfo} {tid : ℕ} {info : ThreadInfo} (tids : List ℕ)
    (h : info.thread.uid = (threads tid).thread.uid) :
    uidsOf (Function.update threads tid info) tids = uidsOf threads tids := by
  apply uidsOf_congr
  intro t _
  rw [Function.update_apply]
  split_ifs with ht
  · rw [h, ht]
  · rfl

namespace View.InOrder

variable {root : ℕ → Prop} {v v' : View}

/-- Threads go to the back of the ready list, and nobody is dispatched. -/
lemma push (hv : v.InOrder) (acts : List Action) (tids : List ℕ) (hlog : v'.log = v.log ++ acts)
    (hready : v'.ready = v.ready ++ tids)
    (huid : uidsOf v'.threads v.ready = uidsOf v.threads v.ready)
    (hdispatched : dispatchedUids acts = []) (hpushed : pushedUids acts = uidsOf v'.threads tids) :
    v'.InOrder := by
  rw [View.InOrder, hlog, hready, dispatchedUids_append, pushedUids_append, hdispatched, hpushed,
    List.append_nil, uidsOf, List.map_append, ← uidsOf, ← uidsOf, huid, ← List.append_assoc, hv]

lemma dispatch (hv : v.InOrder) {tid : ℕ} {ready : List ℕ} (hr : v.ready = tid :: ready) :
    (v.dispatch tid ready).InOrder := by
  have hold := hv
  rw [View.InOrder, hr, uidsOf, List.map_cons, ← uidsOf] at hold
  have hthreads : uidsOf (v.dispatch tid ready).threads ready = uidsOf v.threads ready :=
    uidsOf_update ready rfl
  rw [View.InOrder, show (v.dispatch tid ready).ready = ready from rfl, hthreads]
  simpa [View.dispatch, dispatchedUids, pushedUids] using hold

lemma preempt (hv : v.InOrder) (hl : v.Listed) (ho : v.occupied = true) : v.preempt.InOrder := by
  obtain ⟨_, _, _, huid⟩ := hl.current ho
  refine hv.push [.pushed v.current.thread.uid] [v.current.tid] rfl rfl (uidsOf_update _ ?_) rfl ?_
  · exact huid.symm
  · simp [View.preempt, View.save, uidsOf, pushedUids]

lemma block (hv : v.InOrder) (hl : v.Listed) (ho : v.occupied = true) : v.block.InOrder := by
  obtain ⟨_, _, _, huid⟩ := hl.current ho
  refine hv.push [] [] (by simp [View.block]) (by simp [View.block]) (uidsOf_update _ ?_) rfl rfl
  exact huid.symm

lemma take (hv : v.InOrder) (ch : UInt8) (buffer : List UInt8) : (v.take ch buffer).InOrder :=
  hv.push [.charPopped ch] [] rfl (by simp [View.take]) rfl rfl rfl

lemma put (hv : v.InOrder) (ch : UInt8) : (v.put ch).InOrder :=
  hv.push [.charPushed ch] [] rfl (by simp [View.put]) rfl rfl rfl

lemma notify (hv : v.InOrder) (ch : UInt8) (tid : ℕ) (waiters : List ℕ) :
    (v.notify ch tid waiters).InOrder := by
  refine hv.push [.charPushed ch, .pushed (v.threads tid).thread.uid] [tid] rfl rfl
    (uidsOf_update _ rfl) rfl ?_
  simp [View.notify, View.setStatus, uidsOf, pushedUids]

lemma notFound (hv : v.InOrder) : v.notFound.InOrder :=
  hv.push [.execFailed v.current.thread.uid] [] rfl (by simp [View.notFound]) rfl rfl rfl

lemma start (hv : v.InOrder) (hl : v.Listed) {tid kstack : ℕ} {wait : ℤ}
    (hfree : (v.threads tid).occupied = false) : (v.start tid kstack wait).InOrder := by
  refine hv.push [.pushed v.nextUid] [tid] rfl rfl (uidsOf_congr fun t ht => ?_) rfl ?_
  · have hne : t ≠ tid := by
      rintro rfl
      have hocc := ((hl.mem_ready t).mp ht).1.2
      rw [hfree] at hocc
      cases hocc
    simp only [View.start, Function.update_of_ne hne]
  · simp [View.start, uidsOf, pushedUids]

lemma await (hv : v.InOrder) (hl : v.Listed) (ho : v.occupied = true) (c : ℕ) :
    (v.await c).InOrder := by
  obtain ⟨_, _, _, huid⟩ := hl.current ho
  refine hv.push [.execOk v.current.thread.uid c] [] rfl (by simp [View.await]) (uidsOf_update _ ?_)
    rfl rfl
  exact huid.symm

lemma exit (hv : v.InOrder) : v.exit.InOrder :=
  hv.push [.exited v.current.thread.uid, .freed v.current.thread.uid] [] rfl (by simp [View.exit])
    (uidsOf_update _ rfl) rfl rfl

lemma exitWake (hv : v.InOrder) {p : ℕ} (hp : p ≠ v.current.tid) : (v.exitWake p).InOrder := by
  refine hv.push [.exited v.current.thread.uid, .pushed (v.threads p).thread.uid,
    .freed v.current.thread.uid] [p] rfl rfl ?_ rfl ?_
  · refine (uidsOf_update v.ready ?_).trans (uidsOf_update v.ready rfl)
    simp only [View.drop, Function.update_of_ne hp]
  · simp [View.exitWake, uidsOf, pushedUids]

end View.InOrder

lemma View.Turn.inOrder {v v' : View} (h : v.Turn v') (hl : v.Listed) (hv : v.InOrder) :
    v'.InOrder := by
  cases h with
  | stay => exact hv
  | dispatch _ hr _ => exact hv.dispatch hr
  | recheckTake _ hr _ _ => exact (hv.dispatch hr).take _ _
  | recheckBlock ho hr _ _ => exact (hv.dispatch hr).block (hl.dispatch ho hr) rfl
  | preempt ho => exact hv.preempt hl ho
  | take _ _ => exact hv.take _ _
  | block ho _ => exact hv.block hl ho
  | put ch _ => exact hv.put ch
  | notify ch _ => exact hv.notify ch _ _
  | notFound _ => exact hv.notFound
  | exec ho hlt hfree => exact (hv.start hl hfree).await (hl.start hlt hfree) ho _
  | exit _ _ => exact hv.exit
  | exitWake ho hp _ =>
    apply hv.exitWake
    rintro rfl
    have hrun := hl.status_current ho
    rw [hp.2.1] at hrun
    cases hrun

end Jokerix
