import Jokerix.Sched.Stores

/-!
# The ready list and the thread pool agree

While control is in `idleMain` the ready list holds exactly the runnable threads, as long as the
first thread does not call `sys_exit`. The first thread's `wait` is `0`, where `-1` would say that
nobody waits for it, so its exit wakes the thread in slot `0`, which is itself.
-/

namespace Jokerix

/-- The tids linked in the ready list are distinct and are those of the runnable threads. -/
def ReadyAgrees (k : Kernel) : Prop :=
  (readyList k.rrScheduler).Nodup ∧ ∀ t, t ∈ readyList k.rrScheduler ↔
    t < maxThread ∧ (k.threads t).occupied = true ∧ (k.threads t).status = .ready

/-- A thread that exited is neither pushed nor dispatched later. -/
def ExitsForGood (log : List Action) : Prop :=
  ∀ u a b, log = a ++ .exited u :: b → .pushed u ∉ b ∧ .dispatched u ∉ b

/-- The kernel stack of a thread that exited is freed once, and no other stack is. -/
def StacksFreedOnce (log : List Action) : Prop :=
  ∀ u, log.count (.freed u) = if .exited u ∈ log then 1 else 0

/-! ### The life of a thread in the record -/

section
variable {log : List Action} {u : ℕ}

/-- How often a thread exited and how often its stack was freed, by what its life is. -/
lemma life_counts (h : life log u ≠ .broken) :
    log.count (.exited u) = (if life log u = .alive then 0 else 1) ∧
      log.count (.freed u) = if life log u = .freed then 1 else 0 := by
  induction log using List.reverseRecOn with
  | nil => exact ⟨rfl, rfl⟩
  | append_singleton log a ih =>
    have hpre : life log u ≠ .broken := Monitor.accepts_prefix _ h
    obtain ⟨hexited, hfreed⟩ := ih hpre
    rw [life_snoc] at h ⊢
    rw [List.count_append, List.count_append, hexited, hfreed]
    cases hl : life log u <;> cases a <;> simp only [hl, lifeStep] at h ⊢ <;> grind

/-- Once it exited a thread is not heard of again, except that its stack is freed. -/
lemma life_exited {a b : List Action} (h : life (a ++ .exited u :: b) u ≠ .broken) :
    .pushed u ∉ b ∧ .dispatched u ∉ b := by
  have hstart : life a u = .alive := by
    have hpre : lifeStep u (life a u) (.exited u) ≠ .broken := by
      rw [← life_snoc]
      apply Monitor.accepts_prefix (m := lifeMonitor u) b
      rwa [List.append_assoc]
    cases hl : life a u <;> simp_all [lifeStep]
  have hrun : (lifeMonitor u).after .exited b ≠ .broken := by
    rw [life, Monitor.after_append, ← life, hstart, Monitor.after_cons] at h
    simpa [lifeMonitor, lifeStep] using h
  obtain ⟨_, hno⟩ := Monitor.until_release (m := lifeMonitor u)
    (S := fun s => s = .exited ∨ s = .freed) (fun _ => False)
    (fun x => x = .pushed u ∨ x = .dispatched u) (.inl rfl)
    (by rintro s x (rfl | rfl) _ <;> cases x <;> simp only [lifeMonitor, lifeStep] <;> grind)
    (by rintro s x (rfl | rfl) (rfl | rfl) <;> simp [lifeMonitor, lifeStep])
    (fun _ _ h => h) hrun
  exact ⟨fun hmem => hno _ hmem (.inl rfl), fun hmem => hno _ hmem (.inr rfl)⟩

end

/-! ### What the invariants say -/

section
variable {root : ℕ → Prop} {k : Kernel}

lemma Sound.readyAgrees (hk : Sound root k) : ReadyAgrees k := by
  obtain ⟨ready, waiters, buffer, hs, hl, _⟩ := hk
  have hmem := hl.mem_ready
  have hlist : readyList k.rrScheduler = ready :=
    hs.linked.readyList_eq fun t ht => ((hmem t).mp ht).1.1
  rw [ReadyAgrees, hlist]
  exact ⟨hl.ready_nodup, fun t => (hmem t).trans and_assoc⟩

lemma Sound.life_settled (hk : Sound root k) (u : ℕ) :
    life k.log u = .alive ∨ life k.log u = .freed := by
  obtain ⟨_, _, _, _, _, _, ht, _⟩ := hk
  exact ht.settled u

lemma Sound.exitsForGood (hk : Sound root k) : ExitsForGood k.log := by
  intro u a b hlog
  have h := hk.life_settled u
  rw [hlog] at h
  apply life_exited (a := a)
  rcases h with h | h <;> simp [h]

lemma Sound.stacksFreedOnce (hk : Sound root k) : StacksFreedOnce k.log := by
  intro u
  have h := hk.life_settled u
  have hne : life k.log u ≠ .broken := by rcases h with h | h <;> simp [h]
  obtain ⟨hexited, hfreed⟩ := life_counts hne
  rw [hfreed]
  rcases h with h | h
  · rw [h, if_pos rfl, List.count_eq_zero] at hexited
    rw [h, if_neg hexited]
    rfl
  · rw [h, if_neg (by decide)] at hexited
    rw [h, if_pos rfl, if_pos (List.one_le_count_iff.mp hexited.ge)]

end

/-! ### The exit of the first thread -/

/-- The exit of a thread in slot `0` whose `wait` is `0` puts the free slot `0` on the ready
list. -/
lemma exitFromCPU_self {k : Kernel} {ready : List ℕ} (hs : Linked k.rrScheduler ready)
    (hnot : 0 ∉ ready) (htid : k.current.tid = 0) (hwait : k.current.thread.wait = 0) :
    ∃ k', exitFromCPU k = .ok k' ∧ k'.occupied = false ∧ Linked k'.rrScheduler (ready ++ [0]) ∧
      (k'.threads 0).occupied = false := by
  rw [exitFromCPU]
  set k₁ : Kernel := (exitFromPool k k.current.tid).record (.exited k.current.thread.uid) with hk₁
  have hwait₁ : k₁.current.thread.wait = 0 := hwait
  have hfree₁ : (k₁.threads 0).occupied = false := by
    simp only [hk₁, exitFromPool, Kernel.record, Kernel.setInfo, htid, Function.update_self]
  rw [if_pos (by rw [hwait₁]; decide), wakeupCPU, hwait₁, if_pos (by decide), Int.toNat_zero]
  set k₂ : Kernel := k₁.setInfo 0 { k₁.threads 0 with status := .ready } with hk₂
  obtain ⟨s, hlinked, hpush⟩ := Kernel.push_eq (k := k₂) (hs.exit _) hnot (by decide)
  rw [hpush]
  set k₃ : Kernel := { k₂ with rrScheduler := s }.record
    (.pushed (k₂.threads 0).thread.uid) with hk₃
  have htid₃ : k₃.current.tid = 0 := htid
  have hfree₃ : (k₃.threads 0).occupied = false := by
    simp only [hk₃, hk₂, Kernel.record, Kernel.setInfo, Function.update_self]
    exact hfree₁
  simp only
  rw [switchToIdle_gone (by rw [htid₃]; exact hfree₃)]
  exact ⟨_, rfl, rfl, hlinked, hfree₃⟩

/-- In every run in which the first thread does not exit and everything is stored elsewhere, the
ready list holds the runnable threads whenever control is in `idleMain`, a thread that exited is not
dispatched again, and its stack is freed once. -/
theorem readyList_runs (G : Globals) {k₀ k₁ : Kernel} {sh : Program} {hs : List Happening}
    {s : SystemState} (h₀ : k₀.Fresh) (hinit : initThread k₀ sh = .ok k₁)
    (hcareful : G.Careful (· = 0) (.start k₁) hs) (hrun : G.Run (.start k₁) hs s) :
    (s.kernel.occupied = false → ReadyAgrees s.kernel) ∧ ExitsForGood s.kernel.log ∧
      StacksFreedOnce s.kernel.log := by
  obtain ⟨hsound, _⟩ := initThread_sound h₀ hinit
  have hk := hrun.sound hcareful hsound
  exact ⟨fun _ => hk.readyAgrees, hk.exitsForGood, hk.stacksFreedOnce⟩

/-- The first thread executes a program, which makes a system call and exits; its traps are stored
in its own pages. -/
theorem readyList_runs_family : ∃ k₁ s, initThread sampleKernel sampleProgram = .ok k₁ ∧
    sampleGlobals.Run (.start k₁) familyRun s ∧ .exited 1 ∈ s.kernel.log ∧
    readyList s.kernel.rrScheduler = [0] ∧ ReadyAgrees s.kernel ∧ ExitsForGood s.kernel.log ∧
    StacksFreedOnce s.kernel.log := by
  obtain ⟨k₁, s, hinit, hrun, hcareful, hidle, hready, hlog⟩ := sampleKernel_family
  obtain ⟨hagrees, hexits, hfreed⟩ :=
    readyList_runs sampleGlobals sampleKernel_fresh hinit hcareful hrun
  exact ⟨k₁, s, hinit, hrun, by simp [hlog], hready, hagrees hidle, hexits, hfreed⟩

/-- The first thread is dispatched and exits: the ready list holds a slot that is free. -/
theorem not_readyAgrees_exit : ∃ k₁ s, initThread sampleKernel sampleProgram = .ok k₁ ∧
    sampleGlobals.Run (.start k₁) [⟨.dispatch, [], []⟩, ⟨.syscall .exit, [], []⟩] s ∧
    s.kernel.occupied = false ∧ readyList s.kernel.rrScheduler = [0] ∧
    (s.kernel.threads 0).occupied = false ∧ ¬ ReadyAgrees s.kernel := by
  obtain ⟨k₁, k₂, hinit, hbuf₁, hstep₁, hk₂, _⟩ := sampleKernel_dispatched
  obtain ⟨k₃, hexit, hocc₃, hlinked₃, hfree⟩ :=
    exitFromCPU_self hk₂.ready List.not_mem_nil hk₂.tid hk₂.wait
  have hstep₂ : step k₂ (.syscall .exit) = .ok k₃ := by
    rw [step, if_pos hk₂.running, syscall, hexit]
  have hlist : readyList k₃.rrScheduler = [0] := hlinked₃.readyList_eq (by decide)
  refine ⟨k₁, _, hinit, .cons (Globals.step_quiet rfl hbuf₁ hstep₁) <|
    .cons (Globals.step_quiet rfl hk₂.buf hstep₂) (.nil _), hocc₃, hlist, hfree, ?_⟩
  rintro ⟨_, hmem⟩
  have h := ((hmem 0).mp (by rw [hlist]; decide)).2.1
  rw [hfree] at h
  cases h

end Jokerix
