import Jokerix.Sched.Refine
import Jokerix.Sched.Trace
import Jokerix.Sched.Stdin

/-!
# Runs of the kernel

`Sound` collects the invariants. They hold when the first threads were started, and every event
keeps them as long as no thread that carries an arbitrary `wait` calls `sys_exit`.
-/

namespace Jokerix

/-- The kernel stands for a view that satisfies all invariants. -/
def Sound (root : ℕ → Prop) (k : Kernel) : Prop :=
  ∃ ready waiters buffer, Seen k ready waiters buffer ∧
    (k.view ready waiters buffer).Listed ∧ (k.view ready waiters buffer).Family root ∧
    (k.view ready waiters buffer).Traced ∧ (k.view ready waiters buffer).Fed 0

/-- The state of the globals before `initThread`: no slot of the pool is occupied, the queues are
empty, and the heap is in order. -/
structure Kernel.Fresh (k : Kernel) : Prop where
  free : ∀ t, (k.threads t).occupied = false
  buf : k.buf = ⟨0, 0⟩
  waitQueue : k.waitQueue = ⟨0, 0⟩
  heap : ∃ blocks, Holds k.heap blocks
  nextUid : k.nextUid = 0
  log : k.log = []

/-- Start the given programs, each with the given `wait`. -/
def startAll (k : Kernel) : List (Program × ℤ) → Except Halt Kernel
  | [] => .ok k
  | (p, wait) :: ps =>
    match startThread k p wait with
    | .error e => .error e
    | .ok k => startAll k ps

/-- No thread for which `root` holds calls `sys_exit` in the run. -/
def NoExit (root : ℕ → Prop) (k : Kernel) : List Event → Prop
  | [] => True
  | e :: es =>
    (e = .syscall .exit → k.occupied = true → ¬ root k.current.thread.uid) ∧
      ∀ k', step k e = .ok k' → NoExit root k' es

/-! ### The start -/

section
variable {root : ℕ → Prop} {k k' : Kernel}

lemma initCPU_sound (root : ℕ → Prop) (hk : k.Fresh) (hok : initCPU k = .ok k') :
    Sound root k' ∧ k'.nextUid = 0 ∧ k'.occupied = false := by
  obtain ⟨blocks, hh⟩ := hk.heap
  rw [initCPU] at hok
  split at hok
  · cases hok
  · rename_i kstack heap halloc
    obtain rfl := Except.ok.inj hok
    obtain ⟨hh', _⟩ := hh.kalloc (by decide) halloc
    have hdead : ∀ t, ¬ (k.view [] [] []).Live t := by
      rintro t ⟨_, h⟩
      rw [show ((k.view [] [] []).threads t).occupied = false from hk.free t] at h
      cases h
    refine ⟨⟨[], [], [], ⟨schedulerInit_linked _, ?_⟩, ⟨?_, ?_, ?_, ?_, ?_, ?_⟩, ⟨?_, ?_, ?_, ?_⟩,
      ⟨?_, ?_, ?_, ?_, ?_⟩, ⟨?_, ?_⟩⟩, hk.nextUid, rfl⟩
    · refine ⟨[], _, List.nodup_nil, fun t => ?_, [], [], ?_, ?_, rfl, rfl, hh'⟩
      · exact iff_of_false (by simp) (hdead t)
      · simp only [hk.buf]
        exact ⟨trivial, rfl, rfl⟩
      · simp only [hk.waitQueue]
        exact ⟨trivial, rfl, rfl⟩
    · exact List.nodup_nil
    · exact fun t => iff_of_false (by simp [Kernel.view]) fun h => hdead t h.1
    · exact List.nodup_nil
    · exact fun t => iff_of_false (by simp [Kernel.view]) fun h => hdead t h.1
    · exact fun t h => absurd h (hdead t)
    · exact fun h => by cases h
    · exact fun t h => absurd h (hdead t)
    · exact fun t _ h => absurd h (hdead t)
    · exact fun t h => absurd h (hdead t)
    · exact fun p _ h => absurd h.1 (hdead p)
    · simp only [Kernel.view, hk.log]
      exact fun u => .inl rfl
    · exact fun t h => absurd h (hdead t)
    · simp only [Kernel.view, hk.log]
      exact fun u _ => rfl
    · exact fun t h => absurd h (hdead t)
    · simp only [Kernel.view, hk.log]
      exact fun u _ => rfl
    · simp only [Kernel.view, hk.log]
      rfl
    · intro h
      exact absurd rfl h

lemma startThread_sound {p : Program} {wait : ℤ} (hk : Sound root k)
    (hwait : root k.nextUid ∨ wait = -1) (hok : startThread k p wait = .ok k') :
    Sound root k' ∧ k'.nextUid = k.nextUid + 1 ∧ k'.occupied = k.occupied := by
  obtain ⟨ready, waiters, buffer, hs, hl, hf, ht, hd⟩ := hk
  rw [startThread] at hok
  split at hok
  · cases hok
  · rename_i t heap hload
    obtain ⟨tid, hlt, hfree, hs', hv⟩ := addToPool_refines hs hl hload hok
    refine ⟨⟨ready ++ [tid], waiters, buffer, hs', ?_⟩, congrArg View.nextUid hv,
      congrArg View.occupied hv⟩
    rw [hv]
    exact ⟨hl.start hlt hfree, hf.start hlt hfree hwait, ht.start hf hlt hfree, hd.start hl hfree⟩

lemma startAll_sound {ps : List (Program × ℤ)} (hk : Sound root k)
    (hroot : ∀ i p, ps[i]? = some p → p.2 ≠ -1 → root (k.nextUid + i))
    (hok : startAll k ps = .ok k') : Sound root k' ∧ k'.occupied = k.occupied := by
  induction ps generalizing k with
  | nil =>
    obtain rfl := Except.ok.inj hok
    exact ⟨hk, rfl⟩
  | cons p ps ih =>
    rw [startAll] at hok
    split at hok
    · cases hok
    · rename_i k₁ h₁
      have hwait : root k.nextUid ∨ p.2 = -1 := by
        by_cases hw : p.2 = -1
        · exact .inr hw
        · exact .inl (hroot 0 p rfl hw)
      obtain ⟨hk₁, hnext, hocc⟩ := startThread_sound hk hwait h₁
      obtain ⟨hk', hocc'⟩ := ih hk₁ (by
        intro i q hq hw
        rw [hnext, show k.nextUid + 1 + i = k.nextUid + (i + 1) by omega]
        exact hroot (i + 1) q hq hw) hok
      exact ⟨hk', hocc'.trans hocc⟩

/-- `initThread` leaves one thread, the number `0`. -/
lemma initThread_sound {sh : Program} (hk : k.Fresh) (hok : initThread k sh = .ok k') :
    Sound (· = 0) k' ∧ k'.occupied = false := by
  rw [initThread] at hok
  split at hok
  · cases hok
  · rename_i k₁ h₁
    obtain ⟨hk₁, hnext, hocc⟩ := initCPU_sound (· = 0) hk h₁
    obtain ⟨hk', _, hocc'⟩ := startThread_sound hk₁ (.inl hnext) hok
    exact ⟨hk', hocc'.trans hocc⟩

/-! ### One event and whole runs -/

/-- Every event is a turn of the view. -/
theorem step_refines {e : Event} {ready waiters : List ℕ} {buffer : List UInt8}
    (hs : Seen k ready waiters buffer) (hl : (k.view ready waiters buffer).Listed)
    (hf : (k.view ready waiters buffer).Family root)
    (hno : e = .syscall .exit → k.occupied = true → ¬ root k.current.thread.uid)
    (hok : step k e = .ok k') : Refines k k' ready waiters buffer := by
  have hstay : Refines k k ready waiters buffer := ⟨_, _, _, hs, View.Turn.stay _⟩
  cases e with
  | dispatch =>
    rw [step] at hok
    split_ifs at hok with ho
    · obtain rfl := Except.ok.inj hok
      exact hstay
    · exact dispatch_refines hs hl (by simpa using ho) hok
  | tick => exact tickCPU_refines hs hl hok
  | keyboard ret =>
    cases ret with
    | none =>
      obtain rfl := Except.ok.inj hok
      exact hstay
    | some ch =>
      simp only [step, external] at hok
      split_ifs at hok
      · exact pushChar_refines hs hl hok
      · exact pushChar_refines hs hl hok
  | syscall call =>
    rw [step] at hok
    split_ifs at hok with ho
    · cases call with
      | write =>
        obtain rfl := Except.ok.inj hok
        exact hstay
      | exit => exact exitFromCPU_refines hs hl hf ho (hno rfl ho) hok
      | read _ =>
        rcases popChar_refines hs hl ho hok with ⟨ch, rest, rfl, hs', hv⟩ | ⟨rfl, hs', hv⟩
        · exact ⟨_, _, _, hs', hv ▸ .take ho rfl⟩
        · exact ⟨_, _, _, hs', hv ▸ .block ho rfl⟩
      | exec res => exact sysExec_refines hs hl ho hok
    · obtain rfl := Except.ok.inj hok
      exact hstay

/-- Step lemma. -/
theorem Sound.step {e : Event} (hk : Sound root k)
    (hno : e = .syscall .exit → k.occupied = true → ¬ root k.current.thread.uid)
    (hok : step k e = .ok k') : Sound root k' := by
  obtain ⟨ready, waiters, buffer, hs, hl, hf, ht, hd⟩ := hk
  obtain ⟨ready', waiters', buffer', hs', hturn⟩ := step_refines hs hl hf hno hok
  exact ⟨ready', waiters', buffer', hs', hturn.listed hl, hturn.family hl hf,
    hturn.traced hl hf ht, hturn.fed hl hd⟩

/-- Run lemma. -/
theorem Sound.run {es : List Event} (hk : Sound root k) (hno : NoExit root k es)
    (hok : run k es = .ok k') : Sound root k' := by
  induction es generalizing k with
  | nil =>
    obtain rfl := Except.ok.inj hok
    exact hk
  | cons e es ih =>
    obtain ⟨hno₁, hno₂⟩ := hno
    rw [Jokerix.run] at hok
    split at hok
    · cases hok
    · rename_i k₁ h₁
      exact ih (hk.step hno₁ h₁) (hno₂ k₁ h₁) hok

lemma NoExit.of_ne {es : List Event} (h : ∀ e ∈ es, e ≠ .syscall .exit) : NoExit root k es := by
  induction es generalizing k with
  | nil => trivial
  | cons e es ih =>
    refine ⟨fun he => absurd he (h e List.mem_cons_self), fun k' _ => ih ?_⟩
    intro e' he'
    exact h e' (List.mem_cons_of_mem e he')

lemma run_cons {e : Event} {es : List Event} (h : step k e = .ok k') :
    run k (e :: es) = run k' es := by
  rw [run, h]

end

end Jokerix
