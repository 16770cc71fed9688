import Jokerix.Sched.View

/-!
# Characters and readers

`View.Fed` is the invariant of standard input: the characters taken and those in the buffer are
the characters that arrived, and while readers wait there is a notified reader for every character
in the buffer. `slack` counts a notified reader that was dispatched and is about to check.
-/

namespace Jokerix

/-- The characters pushed, in order. -/
def pushedChars (log : List Action) : List UInt8 :=
  log.filterMap fun | .charPushed c => some c | _ => none

/-- The characters returned by `popChar`, in order. -/
def poppedChars (log : List Action) : List UInt8 :=
  log.filterMap fun | .charPopped c => some c | _ => none

@[simp] lemma pushedChars_append (xs ys : List Action) :
    pushedChars (xs ++ ys) = pushedChars xs ++ pushedChars ys := List.filterMap_append

@[simp] lemma poppedChars_append (xs ys : List Action) :
    poppedChars (xs ++ ys) = poppedChars xs ++ poppedChars ys := List.filterMap_append

/-- The slot's thread waited in `popChar`. -/
def isReader (info : ThreadInfo) : Bool := info.thread.context = .popChar

/-- The number of such threads in a list. -/
def readers (threads : ℕ → ThreadInfo) (tids : List ℕ) : ℕ :=
  tids.countP fun t => isReader (threads t)

namespace View

/-- The readers that were notified and are to check the buffer when they are dispatched. -/
def notified (v : View) : ℕ := readers v.threads v.ready

structure Fed (v : View) (slack : ℕ) : Prop where
  chars : poppedChars v.log ++ v.buffer = pushedChars v.log
  enough : v.waiters ≠ [] → v.buffer.length ≤ v.notified + slack

end View

namespace View.Fed

variable {v v' : View} {n : ℕ}

/-- Operations that leave the characters alone and wake no reader. -/
lemma keep (hv : v.Fed n) (hlog : pushedChars v'.log = pushedChars v.log ∧
    poppedChars v'.log = poppedChars v.log) (hbuffer : v'.buffer = v.buffer)
    (hwaiters : v'.waiters = v.waiters) (hnot : v.notified ≤ v'.notified) : v'.Fed n := by
  constructor
  · rw [hlog.1, hlog.2, hbuffer]
    exact hv.chars
  · rw [hwaiters, hbuffer]
    intro hne
    have := hv.enough hne
    omega

lemma readers_congr {ready : List ℕ} {threads threads' : ℕ → ThreadInfo}
    (h : ∀ t ∈ ready, (threads' t).thread.context = (threads t).thread.context) :
    readers threads' ready = readers threads ready := by
  apply List.countP_congr
  intro t ht
  rw [isReader, isReader, h t ht]

/-- The readers stay when only slots outside the list change and the list grows. -/
lemma readers_le {ready : List ℕ} {threads threads' : ℕ → ThreadInfo} (t : ℕ)
    (h : ∀ t ∈ ready, (threads' t).thread.context = (threads t).thread.context) :
    readers threads ready ≤ readers threads' (ready ++ [t]) := by
  rw [← readers_congr h, readers, readers, List.countP_append]
  exact Nat.le_add_right _ _

/-- Changing the status of a slot leaves its context. -/
lemma readers_update {ready : List ℕ} {threads : ℕ → ThreadInfo} {tid : ℕ} {info : ThreadInfo}
    (h : info.thread.context = (threads tid).thread.context) :
    readers (Function.update threads tid info) ready = readers threads ready := by
  apply readers_congr
  intro t _
  rw [Function.update_apply]
  split_ifs with ht
  · rw [h, ht]
  · rfl

lemma not_ready_current (hl : v.Listed) (ho : v.occupied = true) : v.current.tid ∉ v.ready := by
  intro hmem
  have h := ((hl.mem_ready _).mp hmem).2
  rw [hl.status_current ho] at h
  cases h

/-- A thread that is not a notified reader is dispatched. -/
lemma dispatch (hv : v.Fed n) {tid : ℕ} {ready : List ℕ} (hr : v.ready = tid :: ready)
    (hc : (v.threads tid).thread.context ≠ .popChar) : (v.dispatch tid ready).Fed n := by
  apply hv.keep
  · simp [View.dispatch, pushedChars, poppedChars]
  · rfl
  · rfl
  · simp only [View.notified, View.dispatch, hr]
    rw [readers_update (by rfl), readers, readers,
      List.countP_cons_of_neg (by simpa [isReader] using hc)]

/-- A notified reader is dispatched. -/
lemma dispatch_reader (hv : v.Fed n) {tid : ℕ} {ready : List ℕ} (hr : v.ready = tid :: ready) :
    (v.dispatch tid ready).Fed (n + 1) := by
  constructor
  · simpa [View.dispatch, pushedChars, poppedChars] using hv.chars
  · intro hne
    have h := hv.enough hne
    simp only [View.notified, View.dispatch, hr] at h ⊢
    rw [readers_update (by rfl)]
    rw [readers, List.countP_cons] at h
    rw [readers]
    split_ifs at h <;> omega

lemma preempt (hv : v.Fed n) (hl : v.Listed) (ho : v.occupied = true) : v.preempt.Fed n := by
  apply hv.keep
  · simp [View.preempt, pushedChars, poppedChars]
  · rfl
  · rfl
  · apply readers_le
    intro t ht
    simp only [View.preempt, View.save]
    rw [Function.update_of_ne]
    rintro rfl
    exact not_ready_current hl ho ht

/-- A reader that finds the buffer empty: there is nothing to be notified of. -/
lemma block (hv : v.Fed n) (hb : v.buffer = []) : v.block.Fed 0 := by
  constructor
  · exact hv.chars
  · intro _
    rw [show v.block.buffer = [] from hb]
    exact Nat.zero_le _

/-- A reader takes the first character. -/
lemma take (hv : v.Fed (n + 1)) {ch : UInt8} {buffer : List UInt8} (hb : v.buffer = ch :: buffer) :
    (v.take ch buffer).Fed n := by
  constructor
  · have h := hv.chars
    rw [hb] at h
    simpa [View.take, pushedChars, poppedChars] using h
  · intro hne
    have h := hv.enough hne
    rw [hb, List.length_cons] at h
    have hnot : (v.take ch buffer).notified = v.notified := rfl
    rw [hnot]
    simp only [View.take]
    omega

lemma mono {m : ℕ} (hv : v.Fed n) (h : n ≤ m) : v.Fed m :=
  ⟨hv.chars, fun hne => (hv.enough hne).trans (by omega)⟩

lemma put (hv : v.Fed n) (ch : UInt8) (hw : v.waiters = []) : (v.put ch).Fed n := by
  constructor
  · have h := hv.chars
    simp only [View.put, pushedChars_append, poppedChars_append, ← h]
    simp [pushedChars, poppedChars]
  · intro hne
    exact absurd hw hne

/-- The notified reader matches the new character. -/
lemma notify (hv : v.Fed n) {ch : UInt8} {tid : ℕ} {waiters : List ℕ} (hl : v.Listed)
    (hw : v.waiters = tid :: waiters) : (v.notify ch tid waiters).Fed n := by
  obtain ⟨_, _, hctx⟩ := (hl.mem_waiters tid).mp (hw ▸ List.mem_cons_self)
  constructor
  · have h := hv.chars
    simp only [View.notify, pushedChars_append, poppedChars_append, ← h]
    simp [pushedChars, poppedChars]
  · intro _
    have h := hv.enough (hw ▸ List.cons_ne_nil tid waiters)
    simp only [View.notified, View.notify, View.setStatus, List.length_append,
      List.length_singleton] at h ⊢
    rw [readers_update (by rfl), readers, List.countP_append,
      List.countP_singleton, if_pos (by simpa [isReader] using hctx)]
    rw [readers] at h
    omega

lemma notFound (hv : v.Fed n) : v.notFound.Fed n := by
  apply hv.keep
  · simp [View.notFound, pushedChars, poppedChars]
  · rfl
  · rfl
  · exact le_refl _

lemma start (hv : v.Fed n) (hl : v.Listed) {tid kstack : ℕ} {wait : ℤ}
    (hfree : (v.threads tid).occupied = false) : (v.start tid kstack wait).Fed n := by
  apply hv.keep
  · simp [View.start, pushedChars, poppedChars]
  · rfl
  · rfl
  · apply readers_le
    intro t ht
    simp only [View.start]
    rw [Function.update_of_ne]
    rintro rfl
    have h := ((hl.mem_ready t).mp ht).1.2
    rw [hfree] at h
    cases h

lemma await (hv : v.Fed n) (hl : v.Listed) (ho : v.occupied = true) (c : ℕ) :
    (v.await c).Fed n := by
  apply hv.keep
  · simp [View.await, pushedChars, poppedChars]
  · rfl
  · rfl
  · simp only [View.notified, View.await, View.save]
    refine (readers_congr ?_).ge
    intro t ht
    rw [Function.update_of_ne]
    rintro rfl
    exact not_ready_current hl ho ht

lemma exit (hv : v.Fed n) : v.exit.Fed n := by
  apply hv.keep
  · simp [View.exit, pushedChars, poppedChars]
  · rfl
  · rfl
  · simp only [View.notified, View.exit, View.drop]
    rw [readers_update (by rfl)]

lemma exitWake (hv : v.Fed n) (p : ℕ) : (v.exitWake p).Fed n := by
  apply hv.keep
  · simp [View.exitWake, pushedChars, poppedChars]
  · rfl
  · rfl
  · apply readers_le
    intro t _
    simp only [View.exitWake, View.drop, Function.update_apply]
    split_ifs with h1 h2
    · rw [h1]
    · rw [h2]
    · rfl

end View.Fed

lemma View.Turn.fed {v v' : View} (h : v.Turn v') (hl : v.Listed) (hv : v.Fed 0) : v'.Fed 0 := by
  cases h with
  | stay => exact hv
  | dispatch _ hr hc => exact hv.dispatch hr hc
  | recheckTake _ hr _ hb => exact (hv.dispatch_reader hr).take hb
  | recheckBlock _ hr _ hb => exact (hv.dispatch_reader hr).block hb
  | preempt ho => exact hv.preempt hl ho
  | take _ hb => exact (hv.mono (Nat.zero_le 1)).take hb
  | block _ hb => exact hv.block hb
  | put ch hw => exact hv.put ch hw
  | notify ch hw => exact hv.notify hl hw
  | notFound _ => exact hv.notFound
  | exec ho hlt hfree => exact (hv.start hl hfree).await (hl.start hlt hfree) ho _
  | exit _ _ => exact hv.exit
  | exitWake _ _ _ => exact hv.exitWake _

end Jokerix
