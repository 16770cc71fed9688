import Jokerix.Sched.Stores

/-!
# A parent waits for its child

A thread whose `sys_exec` succeeded is neither pushed nor dispatched before the thread that this
call created exits, and then it is pushed once. The record names threads by their numbers, which
are not used again, while the tids that `Thread.wait` holds are.
-/

namespace Jokerix

/-- After a successful `sys_exec` of `p` that created `c`, the parent is left alone until `c` exits;
that exit pushes it at once, and it is not pushed again before it is dispatched. -/
def ExecWaits (log : List Action) : Prop :=
  ∀ p c a b, log = a ++ .execOk p c :: b →
    (.exited c ∉ b → .pushed p ∉ b ∧ .dispatched p ∉ b) ∧
    ∀ b₁ b₂, b = b₁ ++ .exited c :: b₂ → .exited c ∉ b₁ →
      (.pushed p ∉ b₁ ∧ .dispatched p ∉ b₁) ∧ ∃ b₃, b₂ = .pushed p :: b₃ ∧
        ∀ b₄ b₅, b₃ = b₄ ++ .pushed p :: b₅ → .dispatched p ∈ b₄

/-! ### The phases of a parent in the record -/

section
variable {p c : ℕ} {b : List Action}

lemma execStep_execOk_self (s : ExecPhase) (h : execStep p s (.execOk p c) ≠ .broken) :
    execStep p s (.execOk p c) = .waiting c := by
  cases s <;> simp_all [execStep]

/-- Nothing happens to a parent that waits. -/
lemma waiting_quiet (h : (execMonitor p).after (.waiting c) b ≠ .broken) (hc : .exited c ∉ b) :
    (execMonitor p).after (.waiting c) b = .waiting c ∧ .pushed p ∉ b ∧ .dispatched p ∉ b := by
  obtain ⟨hend, hno⟩ := Monitor.until_release (m := execMonitor p) (S := (· = .waiting c))
    (· = .exited c) (fun x => x = .pushed p ∨ x = .dispatched p) rfl
    (by rintro s x rfl hx; cases x <;> simp only [execMonitor, execStep] <;> grind)
    (by rintro s x rfl (rfl | rfl) <;> simp [execMonitor, execStep])
    (fun x hx he => hc (he ▸ hx)) h
  exact ⟨hend, fun hmem => hno _ hmem (.inl rfl), fun hmem => hno _ hmem (.inr rfl)⟩

/-- A parent that was pushed is not pushed again before it is dispatched. -/
lemma woken_quiet (h : (execMonitor p).after .woken b ≠ .broken) {b₁ b₂ : List Action}
    (hb : b = b₁ ++ .pushed p :: b₂) : .dispatched p ∈ b₁ := by
  by_contra hno
  rw [hb, Monitor.after_append] at h
  have hpre : (execMonitor p).after .woken b₁ ≠ .broken := by
    intro he
    rw [he] at h
    exact h ((execMonitor p).after_bad _)
  obtain ⟨hend, _⟩ := Monitor.until_release (m := execMonitor p) (S := (· = .woken))
    (· = .dispatched p) (fun _ => False) rfl
    (by rintro s x rfl hx; cases x <;> simp only [execMonitor, execStep] <;> grind)
    (fun _ _ _ => False.elim) (fun x hx he => hno (he ▸ hx)) hpre
  rw [hend, Monitor.after_cons, show (execMonitor p).step .woken (.pushed p) = .broken by
    simp [execMonitor, execStep]] at h
  exact h ((execMonitor p).after_bad _)

/-- The exit of the child pushes the parent. -/
lemma due_pushed (h : (execMonitor p).after .due b ≠ .broken)
    (hdue : (execMonitor p).after .due b ≠ .due) :
    ∃ b', b = .pushed p :: b' ∧ (execMonitor p).after .woken b' ≠ .broken := by
  cases b with
  | nil => exact absurd rfl hdue
  | cons x b =>
    rw [Monitor.after_cons] at h
    have hstep : (execMonitor p).step .due x ≠ .broken := by
      intro he
      rw [he] at h
      exact h ((execMonitor p).after_bad _)
    obtain rfl : x = .pushed p := by
      cases x <;> simp only [execMonitor, execStep] at hstep <;> grind
    refine ⟨b, rfl, ?_⟩
    simpa [execMonitor, execStep] using h

end

/-- A record that no monitor rejects, and in which no parent is due, is in order. -/
lemma execWaits_of_phases {log : List Action}
    (h : ∀ p, execPhase log p ≠ .broken ∧ execPhase log p ≠ .due) : ExecWaits log := by
  rintro p c a b rfl
  obtain ⟨hbroken, hdue⟩ := h p
  have hstart : execStep p (execPhase a p) (.execOk p c) = .waiting c := by
    apply execStep_execOk_self
    rw [← execPhase_snoc]
    apply Monitor.accepts_prefix (m := execMonitor p) b
    rwa [List.append_assoc]
  have hafter : execPhase (a ++ .execOk p c :: b) p = (execMonitor p).after (.waiting c) b := by
    rw [← hstart]
    simp [execPhase, execMonitor]
  rw [hafter] at hbroken hdue
  refine ⟨fun hc => (waiting_quiet hbroken hc).2, ?_⟩
  rintro b₁ b₂ rfl hc
  obtain ⟨hend, hquiet⟩ := waiting_quiet (Monitor.accepts_prefix _ hbroken) hc
  have hexit : (execMonitor p).step (.waiting c) (.exited c) = .due := by
    simp [execMonitor, execStep]
  rw [Monitor.after_append, hend, Monitor.after_cons, hexit] at hbroken hdue
  obtain ⟨b₃, rfl, hwoken⟩ := due_pushed hbroken hdue
  exact ⟨hquiet, b₃, rfl, fun b₄ b₅ hb => woken_quiet hwoken hb⟩

lemma Sound.execWaits {root : ℕ → Prop} {k : Kernel} (hk : Sound root k) : ExecWaits k.log := by
  obtain ⟨ready, waiters, buffer, _, _, _, ht, _⟩ := hk
  apply execWaits_of_phases
  intro p
  by_cases hp : ∃ t, (k.view ready waiters buffer).Live t ∧ (k.threads t).thread.uid = p
  · obtain ⟨t, hlive, rfl⟩ := hp
    have hphase : execPhase k.log (k.threads t).thread.uid = phaseOf (k.threads t) :=
      ht.phase t hlive
    rw [hphase]
    exact ⟨phaseOf_ne_broken _, phaseOf_ne_due _⟩
  · have hgone : execPhase k.log p = .free := ht.gone p fun t hlive he => hp ⟨t, hlive, he⟩
    simp [hgone]

/-- The caller of `sys_exec` goes on as if nothing happened. -/
def ExecFails (k : Kernel) : Prop :=
  k.occupied = true → ∀ k', step k (.syscall (.exec none)) = .ok k' →
    k'.occupied = true ∧ k'.current = k.current ∧ k'.threads = k.threads ∧
      k'.rrScheduler = k.rrScheduler

lemma execFails (k : Kernel) : ExecFails k := by
  intro ho k' hok
  simp only [step, if_pos ho, syscall, sysExec, executeCPU] at hok
  obtain rfl := Except.ok.inj hok
  exact ⟨ho, rfl, rfl, rfl⟩

/-- In every run in which the first thread does not exit and everything is stored elsewhere, a
thread whose `sys_exec` succeeded is not dispatched before the thread that this call created exits,
and is then pushed once; a `sys_exec` that finds no program does not put its caller to sleep. -/
theorem sysExec_runs (G : Globals) {k₀ k₁ : Kernel} {sh : Program} {hs : List Happening}
    {s : SystemState} (h₀ : k₀.Fresh) (hinit : initThread k₀ sh = .ok k₁)
    (hcareful : G.Careful (· = 0) (.start k₁) hs) (hrun : G.Run (.start k₁) hs s) :
    ExecWaits s.kernel.log ∧ ExecFails s.kernel := by
  obtain ⟨hsound, _⟩ := initThread_sound h₀ hinit
  exact ⟨(hrun.sound hcareful hsound).execWaits, execFails s.kernel⟩

/-- The first thread executes a program, which makes a system call and exits; its traps are stored
in its own pages. -/
theorem sysExec_runs_family : ∃ k₁ s, initThread sampleKernel sampleProgram = .ok k₁ ∧
    sampleGlobals.Run (.start k₁) familyRun s ∧ .execOk 0 1 ∈ s.kernel.log ∧
    .exited 1 ∈ s.kernel.log ∧ ExecWaits s.kernel.log ∧ ExecFails s.kernel := by
  obtain ⟨k₁, s, hinit, hrun, hcareful, _, _, hlog⟩ := sampleKernel_family
  exact ⟨k₁, s, hinit, hrun, by simp [hlog], by simp [hlog],
    sysExec_runs sampleGlobals sampleKernel_fresh hinit hcareful hrun⟩

/-- The bytes of `sepc` that lie over `wait` when the `ecall` is at `0xfffffffc` and `sp` at
`CPU.current.thread.wait + 8`: what the trap saves, and what is left when `handleSyscall` has added
4. -/
def sepcBytes : List (ℕ × UInt8) :=
  [(0, 0xfc), (1, 0xff), (2, 0xff), (3, 0xff), (0, 0), (1, 0), (2, 0), (3, 0)]

/-- A child executes a program, which makes its `sys_exit` in this way. -/
def overWaitRun : List Happening :=
  [⟨.dispatch, [], []⟩, ⟨.syscall (.exec (some sampleProgram)), [], []⟩, ⟨.dispatch, [], []⟩,
    ⟨.syscall (.exec (some sampleProgram)), [], []⟩, ⟨.dispatch, [], []⟩,
    ⟨.syscall .exit, sepcBytes.map fun b => (waitPlace + b.1, b.2), []⟩]

/-- The exit of the grandchild wakes the first thread, whose child is alive, and not its parent. -/
theorem not_execWaits_overWait : ∃ k₁ s, initThread sampleKernel sampleProgram = .ok k₁ ∧
    sampleGlobals.Run (.start k₁) overWaitRun s ∧ .exited 0 ∉ s.kernel.log ∧
    s.kernel.log = [.pushed 0, .dispatched 0, .pushed 1, .execOk 0 1, .dispatched 1, .pushed 2,
      .execOk 1 2, .dispatched 2, .exited 2, .pushed 0, .freed 2] ∧
    ¬ ExecWaits s.kernel.log := by
  obtain ⟨k₁, k₂, hinit, hbuf₁, hstep₁, hk₂, hlog₂⟩ := sampleKernel_dispatched
  obtain ⟨k₃, k₄, hstep₂, hbuf₃, hstep₃, hk₄, hlog₄⟩ := hk₂.exec (by omega)
  obtain ⟨k₅, k₆, hstep₄, hbuf₅, hstep₅, hk₆, hlog₆⟩ := hk₄.exec (by omega)
  -- the trap makes the first thread the one to wake
  have hstored : sampleGlobals.storeAll k₆ (sepcBytes.map fun b => (waitPlace + b.1, b.2)) =
      k₆.setWait 0 := by
    rw [sampleGlobals_storeAll (by decide), hk₆.wait]
    rfl
  have hk₇ : ChildRuns (k₆.setWait 0) 2 0 :=
    ⟨hk₆.ready, hk₆.running, hk₆.tid, hk₆.uid, rfl, hk₆.slots, hk₆.free, hk₆.nextUid, hk₆.buf,
      hk₆.region, hk₆.heap⟩
  obtain ⟨k₈, hstep₈, _, _, _, hlog₈⟩ := hk₇.exit (by omega) (by omega)
  have hlog : k₈.log = [.pushed 0, .dispatched 0, .pushed 1, .execOk 0 1, .dispatched 1, .pushed 2,
      .execOk 1 2, .dispatched 2, .exited 2, .pushed 0, .freed 2] := by
    rw [hlog₈]
    change k₆.log ++ _ = _
    rw [hlog₆, hlog₄, hlog₂]
    rfl
  obtain ⟨s, hs, hrun⟩ : ∃ s : SystemState, s.kernel = k₈ ∧
      sampleGlobals.Run (.start k₁) overWaitRun s := by
    refine ⟨_, ?_, .cons (Globals.step_quiet rfl hbuf₁ hstep₁) <|
      .cons (Globals.step_quiet rfl hk₂.buf hstep₂) <|
      .cons (Globals.step_quiet rfl hbuf₃ hstep₃) <|
      .cons (Globals.step_quiet rfl hk₄.buf hstep₄) <|
      .cons (Globals.step_quiet rfl hbuf₅ hstep₅) <|
      .cons (Globals.step_quiet (by rwa [List.append_nil]) hk₇.buf hstep₈) (.nil _)⟩
    rfl
  rw [← hs] at hlog
  refine ⟨k₁, s, hinit, hrun, by simp [hlog], hlog, fun hwaits => ?_⟩
  have hwait := (hwaits 0 1 [.pushed 0, .dispatched 0, .pushed 1] [.dispatched 1, .pushed 2,
    .execOk 1 2, .dispatched 2, .exited 2, .pushed 0, .freed 2] hlog).1
  exact (hwait (by simp)).1 (by simp)

end Jokerix
