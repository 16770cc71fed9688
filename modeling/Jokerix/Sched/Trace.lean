import Jokerix.Sched.View
import Jokerix.Lib.Monitor

/-!
# What the record of actions says

Two monitors read the record of actions. `life` follows one thread: it may be pushed and
dispatched until it exits, and then its stack is freed once. `execPhase` follows one thread as a
parent: between a successful `sys_exec` and the exit of the child it is neither pushed nor
dispatched, and at that exit it is pushed once. `View.Traced` ties their states to the pool.
-/

namespace Jokerix

/-! ### The life of a thread -/

inductive Life where
  | alive
  /-- It exited and its stack is not yet freed. -/
  | exited
  | freed
  | broken
  deriving DecidableEq

def lifeStep (u : ℕ) : Life → Action → Life
  | .alive, .exited x => if x = u then .exited else .alive
  | .alive, .freed x => if x = u then .broken else .alive
  | .exited, .freed x => if x = u then .freed else .exited
  | .exited, .pushed x => if x = u then .broken else .exited
  | .exited, .dispatched x => if x = u then .broken else .exited
  | .exited, .exited x => if x = u then .broken else .exited
  | .freed, .pushed x => if x = u then .broken else .freed
  | .freed, .dispatched x => if x = u then .broken else .freed
  | .freed, .exited x => if x = u then .broken else .freed
  | .freed, .freed x => if x = u then .broken else .freed
  | s, _ => s

/-- The monitor of the thread `u`. -/
def lifeMonitor (u : ℕ) : Monitor Action Life where
  step := lifeStep u
  bad := .broken
  absorbing := fun a => by cases a <;> rfl

def life (log : List Action) (u : ℕ) : Life := (lifeMonitor u).after .alive log

lemma life_snoc (log : List Action) (a : Action) (u : ℕ) :
    life (log ++ [a]) u = lifeStep u (life log u) a := by
  simp [life, lifeMonitor]

/-! ### A parent and its child -/

inductive ExecPhase where
  | free
  /-- It waits for the exit of `child`. -/
  | waiting (child : ℕ)
  /-- The child exited; the very next action is to push the parent. -/
  | due
  /-- It was pushed and is to be dispatched. -/
  | woken
  | broken
  deriving DecidableEq

def execStep (p : ℕ) : ExecPhase → Action → ExecPhase
  | .free, .execOk x c => if x = p then .waiting c else .free
  | .waiting c, .exited x => if x = c then .due else if x = p then .broken else .waiting c
  | .waiting c, .pushed x => if x = p then .broken else .waiting c
  | .waiting c, .dispatched x => if x = p then .broken else .waiting c
  | .waiting c, .execOk x _ => if x = p then .broken else .waiting c
  | .due, .pushed x => if x = p then .woken else .broken
  | .due, _ => .broken
  | .woken, .dispatched x => if x = p then .free else .woken
  | .woken, .pushed x => if x = p then .broken else .woken
  | .woken, .execOk x _ => if x = p then .broken else .woken
  | s, _ => s

/-- The monitor of the parent `p`. -/
def execMonitor (p : ℕ) : Monitor Action ExecPhase where
  step := execStep p
  bad := .broken
  absorbing := fun a => by cases a <;> rfl

def execPhase (log : List Action) (p : ℕ) : ExecPhase := (execMonitor p).after .free log

lemma execPhase_snoc (log : List Action) (a : Action) (p : ℕ) :
    execPhase (log ++ [a]) p = execStep p (execPhase log p) a := by
  simp [execPhase, execMonitor]

/-- The phase that a thread in the pool is in. -/
def phaseOf (info : ThreadInfo) : ExecPhase :=
  match info.status, info.thread.context with
  | .ready, .sysExec _ => .woken
  | .sleeping, .sysExec c => .waiting c
  | _, _ => .free

/-! ### The pool and the record agree -/

/-- The monitors are in the states that the pool says. -/
structure View.Traced (v : View) : Prop where
  settled : ∀ u, life v.log u = .alive ∨ life v.log u = .freed
  alive : ∀ t, v.Live t → life v.log (v.threads t).thread.uid = .alive
  fresh : ∀ u, v.nextUid ≤ u → life v.log u = .alive
  phase : ∀ t, v.Live t → execPhase v.log (v.threads t).thread.uid = phaseOf (v.threads t)
  gone : ∀ u, (∀ t, v.Live t → (v.threads t).thread.uid ≠ u) → execPhase v.log u = .free

lemma life_pushed {log : List Action} {x : ℕ} (h : life log x = .alive) (u : ℕ) :
    life (log ++ [.pushed x]) u = life log u := by
  rw [life_snoc]
  by_cases hu : x = u
  · rw [← hu, h]
    rfl
  · cases life log u <;> simp only [lifeStep, if_neg hu]

lemma life_dispatched {log : List Action} {x : ℕ} (h : life log x = .alive) (u : ℕ) :
    life (log ++ [.dispatched x]) u = life log u := by
  rw [life_snoc]
  by_cases hu : x = u
  · rw [← hu, h]
    rfl
  · cases life log u <;> simp only [lifeStep, if_neg hu]

/-- The other actions do not concern the life of a thread. -/
lemma life_other {log : List Action} {a : Action} (u : ℕ)
    (h : (∃ x c, a = .execOk x c) ∨ (∃ x, a = .execFailed x) ∨ (∃ c, a = .charPushed c) ∨
      ∃ c, a = .charPopped c) : life (log ++ [a]) u = life log u := by
  rw [life_snoc]
  rcases h with ⟨x, c, rfl⟩ | ⟨x, rfl⟩ | ⟨c, rfl⟩ | ⟨c, rfl⟩ <;> cases life log u <;> rfl

/-- Once a thread exited and its stack was freed its life is over. -/
lemma life_left {log : List Action} {x : ℕ} (h : life log x = .alive) (u : ℕ) :
    life (log ++ [.exited x, .freed x]) u = if x = u then .freed else life log u := by
  rw [show log ++ [.exited x, .freed x] = log ++ [.exited x] ++ [.freed x] by simp, life_snoc,
    life_snoc]
  by_cases hu : x = u
  · rw [if_pos hu, ← hu, h]
    simp [lifeStep]
  · rw [if_neg hu]
    cases life log u <;> simp only [lifeStep, if_neg hu]

/-- The push of another thread does not interrupt that. -/
lemma life_left_pushed {log : List Action} {x y : ℕ} (hx : life log x = .alive)
    (hy : life log y = .alive) (hxy : x ≠ y) (u : ℕ) :
    life (log ++ [.exited x] ++ [.pushed y] ++ [.freed x]) u =
      if x = u then .freed else life log u := by
  rw [life_snoc, life_snoc, life_snoc]
  by_cases hu : x = u
  · rw [if_pos hu, ← hu, hx]
    simp [lifeStep, hxy.symm]
  · rw [if_neg hu]
    by_cases hyu : y = u
    · rw [← hyu, hy]
      simp [lifeStep, hxy]
    · cases life log u <;> simp only [lifeStep, if_neg hu, if_neg hyu]

lemma phaseOf_ne_due (info : ThreadInfo) : phaseOf info ≠ .due := by
  unfold phaseOf
  split <;> simp

lemma phaseOf_ne_broken (info : ThreadInfo) : phaseOf info ≠ .broken := by
  unfold phaseOf
  split <;> simp

lemma phaseOf_eq_waiting {info : ThreadInfo} {c : ℕ} (h : phaseOf info = .waiting c) :
    info.status = .sleeping ∧ info.thread.context = .sysExec c := by
  unfold phaseOf at h
  split at h
  · cases h
  · rename_i c' hs hctx
    obtain rfl := ExecPhase.waiting.inj h
    exact ⟨hs, hctx⟩
  · cases h

/-- An action about another thread. -/
lemma execStep_pushed {p x : ℕ} {s : ExecPhase} (hs : s ≠ .due) (hx : x ≠ p) :
    execStep p s (.pushed x) = s := by
  cases s <;> simp_all [execStep]

lemma execStep_dispatched {p x : ℕ} {s : ExecPhase} (hs : s ≠ .due) (hx : x ≠ p) :
    execStep p s (.dispatched x) = s := by
  cases s <;> simp_all [execStep]

lemma execStep_execOk {p x c : ℕ} {s : ExecPhase} (hs : s ≠ .due) (hx : x ≠ p) :
    execStep p s (.execOk x c) = s := by
  cases s <;> simp_all [execStep]

lemma execStep_exited {p x : ℕ} {s : ExecPhase} (hs : s ≠ .due) (hx : x ≠ p)
    (hw : s ≠ .waiting x) : execStep p s (.exited x) = s := by
  cases s <;> simp_all [execStep, eq_comm]

lemma execStep_other {p : ℕ} {a : Action} {s : ExecPhase} (hs : s ≠ .due)
    (h : (∃ x, a = .freed x) ∨ (∃ x, a = .execFailed x) ∨ (∃ c, a = .charPushed c) ∨
      ∃ c, a = .charPopped c) : execStep p s a = s := by
  rcases h with ⟨x, rfl⟩ | ⟨x, rfl⟩ | ⟨c, rfl⟩ | ⟨c, rfl⟩ <;> cases s <;> simp_all [execStep]

namespace View.Traced

variable {root : ℕ → Prop} {v v' : View}

/-- For operations that change neither who is alive nor anybody's number. -/
lemma keep (ht : v.Traced) (hlive : ∀ t, v'.Live t ↔ v.Live t)
    (huid : ∀ t, v.Live t → (v'.threads t).thread.uid = (v.threads t).thread.uid)
    (hnext : v'.nextUid = v.nextUid) (hlife : ∀ u, life v'.log u = life v.log u)
    (hphase : ∀ t, v.Live t → execPhase v'.log (v.threads t).thread.uid = phaseOf (v'.threads t))
    (hgone : ∀ u, (∀ t, v.Live t → (v.threads t).thread.uid ≠ u) → execPhase v'.log u = .free) :
    v'.Traced := by
  constructor
  · intro u
    rw [hlife]
    exact ht.settled u
  · intro t h
    rw [hlive] at h
    rw [hlife, huid t h]
    exact ht.alive t h
  · intro u hu
    rw [hlife]
    exact ht.fresh u (hnext ▸ hu)
  · intro t h
    rw [hlive] at h
    rw [huid t h]
    exact hphase t h
  · intro u hu
    apply hgone
    intro t h
    rw [← huid t h]
    exact hu t ((hlive t).mpr h)

lemma dispatch (ht : v.Traced) (hl : v.Listed) (hf : v.Family root) {tid : ℕ} {ready : List ℕ}
    (hr : v.ready = tid :: ready) : (v.dispatch tid ready).Traced := by
  obtain ⟨hlive, hready⟩ := (hl.mem_ready tid).mp (hr ▸ List.mem_cons_self)
  have hph := ht.phase tid hlive
  apply ht.keep
  · intro t
    simp only [View.Live, View.dispatch, Function.update_apply]
    grind
  · intro t _
    simp only [View.dispatch, Function.update_apply]
    grind
  · rfl
  · exact life_dispatched (ht.alive tid hlive)
  · intro t h
    simp only [View.dispatch, execPhase_snoc, ht.phase t h]
    by_cases htt : t = tid
    · subst htt
      rw [Function.update_self]
      simp only [phaseOf, hready]
      split <;> simp_all [execStep]
    · rw [Function.update_of_ne htt, execStep_dispatched (phaseOf_ne_due _)]
      exact fun he => htt (hf.uid_inj _ _ hlive h he).symm
  · intro u hu
    simp only [View.dispatch, execPhase_snoc, ht.gone u hu]
    rfl

lemma preempt (ht : v.Traced) (hl : v.Listed) (hf : v.Family root) (ho : v.occupied = true) :
    v.preempt.Traced := by
  have hrun := hl.status_current ho
  obtain ⟨hlive, _, _, huid⟩ := hl.current ho
  apply ht.keep
  · intro t
    simp only [View.Live, View.preempt, View.save, Function.update_apply]
    grind
  · intro t _
    simp only [View.preempt, View.save, Function.update_apply]
    grind
  · rfl
  · exact life_pushed (huid ▸ ht.alive _ hlive)
  · intro t h
    simp only [View.preempt, View.save, execPhase_snoc, ht.phase t h]
    by_cases htt : t = v.current.tid
    · subst htt
      rw [Function.update_self]
      simp only [phaseOf, hrun]
      rfl
    · rw [Function.update_of_ne htt, execStep_pushed (phaseOf_ne_due _)]
      rw [← huid]
      exact fun he => htt (hf.uid_inj _ _ hlive h he).symm
  · intro u hu
    simp only [View.preempt, execPhase_snoc, ht.gone u hu]
    rfl

lemma block (ht : v.Traced) (hl : v.Listed) (ho : v.occupied = true) : v.block.Traced := by
  have hrun := hl.status_current ho
  obtain ⟨hlive, _, _, huid⟩ := hl.current ho
  apply ht.keep
  · intro t
    simp only [View.Live, View.block, View.save, Function.update_apply]
    grind
  · intro t _
    simp only [View.block, View.save, Function.update_apply]
    grind
  · rfl
  · exact fun u => rfl
  · intro t h
    simp only [View.block, View.save, ht.phase t h]
    by_cases htt : t = v.current.tid
    · subst htt
      rw [Function.update_self]
      simp only [phaseOf, hrun]
    · rw [Function.update_of_ne htt]
  · exact ht.gone

/-- Actions that concern no thread as a parent or child. -/
lemma note (ht : v.Traced) {a : Action} (hlive : ∀ t, v'.threads t = v.threads t)
    (hnext : v'.nextUid = v.nextUid) (hlog : v'.log = v.log ++ [a])
    (ha : (∃ x, a = .execFailed x) ∨ (∃ c, a = .charPushed c) ∨ ∃ c, a = .charPopped c) :
    v'.Traced := by
  apply ht.keep
  · intro t
    simp only [View.Live, hlive]
  · intro t _
    rw [hlive]
  · exact hnext
  · intro u
    rw [hlog]
    exact life_other u (.inr ha)
  · intro t h
    rw [hlog, execPhase_snoc, ht.phase t h, hlive]
    exact execStep_other (phaseOf_ne_due _) (.inr ha)
  · intro u hu
    rw [hlog, execPhase_snoc, ht.gone u hu]
    exact execStep_other (by simp) (.inr ha)

lemma take (ht : v.Traced) (ch : UInt8) (buffer : List UInt8) : (v.take ch buffer).Traced :=
  ht.note (fun _ => rfl) rfl rfl (.inr (.inr ⟨ch, rfl⟩))

lemma put (ht : v.Traced) (ch : UInt8) : (v.put ch).Traced :=
  ht.note (fun _ => rfl) rfl rfl (.inr (.inl ⟨ch, rfl⟩))

lemma notFound (ht : v.Traced) : v.notFound.Traced :=
  ht.note (fun _ => rfl) rfl rfl (.inl ⟨_, rfl⟩)

lemma notify (ht : v.Traced) (hl : v.Listed) (hf : v.Family root) {ch : UInt8} {tid : ℕ}
    {waiters : List ℕ} (hw : v.waiters = tid :: waiters) : (v.notify ch tid waiters).Traced := by
  obtain ⟨hlive, hsleep, hctx⟩ := (hl.mem_waiters tid).mp (hw ▸ List.mem_cons_self)
  have hlog : (v.notify ch tid waiters).log =
      (v.put ch).log ++ [.pushed (v.threads tid).thread.uid] := by
    simp [View.notify, View.put]
  have ht' := ht.put ch
  apply ht'.keep
  · intro t
    simp only [View.Live, View.notify, View.put, View.setStatus, Function.update_apply]
    grind
  · intro t _
    simp only [View.notify, View.put, View.setStatus, Function.update_apply]
    grind
  · rfl
  · intro u
    rw [hlog]
    exact life_pushed (ht'.alive tid hlive) u
  · intro t h
    rw [hlog, execPhase_snoc, ht'.phase t h]
    simp only [View.notify, View.put, View.setStatus]
    by_cases htt : t = tid
    · subst htt
      rw [Function.update_self]
      simp only [phaseOf, hsleep, hctx]
      rfl
    · rw [Function.update_of_ne htt, execStep_pushed (phaseOf_ne_due _)]
      exact fun he => htt (hf.uid_inj _ _ hlive h he).symm
  · intro u hu
    rw [hlog, execPhase_snoc, ht'.gone u hu]
    rfl

lemma start (ht : v.Traced) (hf : v.Family root) {tid kstack : ℕ} {wait : ℤ} (hlt : tid < maxThread)
    (hfree : (v.threads tid).occupied = false) : (v.start tid kstack wait).Traced := by
  have hlive : ∀ t, (v.start tid kstack wait).Live t ↔ t = tid ∨ v.Live t := by
    intro t
    simp only [View.Live, View.start, Function.update_apply]
    grind
  have hold : ∀ t, v.Live t → (v.start tid kstack wait).threads t = v.threads t := by
    intro t h
    exact Function.update_of_ne (by rintro rfl; simp [View.Live, hfree] at h) _ _
  have hnew : (v.start tid kstack wait).threads tid = { v.threads tid with
      status := .ready, occupied := true, thread := ⟨.user, kstack, wait, v.nextUid⟩ } :=
    Function.update_self _ _ _
  have hlife := life_pushed (ht.fresh v.nextUid (le_refl _))
  have hfresh : execPhase v.log v.nextUid = .free :=
    ht.gone v.nextUid fun t h => (hf.uid_lt t h).ne
  constructor
  · intro u
    simp only [View.start, hlife]
    exact ht.settled u
  · intro t h
    rcases (hlive t).mp h with rfl | h
    · rw [hnew]
      exact (hlife _).trans (ht.fresh _ (le_refl _))
    · rw [hold t h]
      exact (hlife _).trans (ht.alive t h)
  · intro u hu
    exact (hlife u).trans (ht.fresh u (Nat.le_of_succ_le hu))
  · intro t h
    rcases (hlive t).mp h with rfl | h
    · rw [hnew]
      simp only [View.start, execPhase_snoc, hfresh]
      rfl
    · rw [hold t h]
      simp only [View.start, execPhase_snoc, ht.phase t h]
      exact execStep_pushed (phaseOf_ne_due _) (hf.uid_lt t h).ne'
  · intro u hu
    simp only [View.start, execPhase_snoc]
    rw [ht.gone u]
    · rfl
    · intro t h
      rw [← hold t h]
      exact hu t ((hlive t).mpr (.inr h))

lemma await (ht : v.Traced) (hl : v.Listed) (huniq : ∀ t t', v.Live t → v.Live t' →
    (v.threads t).thread.uid = (v.threads t').thread.uid → t = t') (ho : v.occupied = true)
    (c : ℕ) : (v.await c).Traced := by
  have hrun := hl.status_current ho
  obtain ⟨hlive, _, _, huid⟩ := hl.current ho
  apply ht.keep
  · intro t
    simp only [View.Live, View.await, View.save, Function.update_apply]
    grind
  · intro t _
    simp only [View.await, View.save, Function.update_apply]
    grind
  · rfl
  · exact fun u => life_other u (.inl ⟨_, _, rfl⟩)
  · intro t h
    simp only [View.await, View.save, execPhase_snoc, ht.phase t h]
    by_cases htt : t = v.current.tid
    · subst htt
      rw [Function.update_self, huid]
      simp [phaseOf, hrun, execStep]
    · rw [Function.update_of_ne htt, execStep_execOk (phaseOf_ne_due _)]
      rw [← huid]
      exact fun he => htt (huniq _ _ hlive h he).symm
  · intro u hu
    simp only [View.await, execPhase_snoc, ht.gone u hu]
    exact execStep_execOk (by simp) (by rw [← huid]; exact hu _ hlive)

lemma exec (ht : v.Traced) (hl : v.Listed) (hf : v.Family root) (ho : v.occupied = true)
    {tid kstack : ℕ} (hlt : tid < maxThread) (hfree : (v.threads tid).occupied = false) :
    (v.exec tid kstack).Traced := by
  refine (ht.start hf hlt hfree).await (hl.start hlt hfree) ?_ ho _
  -- the numbers do not depend on the links between parents and children
  have hroot : v.Family fun _ => True := ⟨hf.uid_lt, hf.uid_inj, fun _ _ => .inl trivial, hf.child⟩
  exact (hroot.start hlt hfree (.inl trivial)).uid_inj

/-- Only its own parent waits for the running thread. -/
lemma waits_current (hl : v.Listed) (hf : v.Family root) (ho : v.occupied = true) {t : ℕ}
    (h : v.Live t) (hw : phaseOf (v.threads t) = .waiting v.current.thread.uid) :
    v.current.thread.wait = t := by
  obtain ⟨hcur, _, hcw, huid⟩ := hl.current ho
  obtain ⟨hs, hctx⟩ := phaseOf_eq_waiting hw
  obtain ⟨t', h', hu, hwait⟩ := hf.child t _ ⟨h, hs, hctx⟩
  obtain rfl := hf.uid_inj t' _ h' hcur (hu.trans huid.symm)
  rw [← hcw, hwait]

lemma exit (ht : v.Traced) (hl : v.Listed) (hf : v.Family root) (ho : v.occupied = true)
    (hwait : v.current.thread.wait = -1) : v.exit.Traced := by
  have hrun := hl.status_current ho
  obtain ⟨hcur, _, _, huid⟩ := hl.current ho
  have hlive : ∀ t, v.exit.Live t ↔ v.Live t ∧ t ≠ v.current.tid := by
    intro t
    simp only [View.Live, View.exit, View.drop, Function.update_apply]
    grind
  have hold : ∀ t, t ≠ v.current.tid → v.exit.threads t = v.threads t :=
    fun t h => Function.update_of_ne h _ _
  have hother : ∀ t, v.Live t → t ≠ v.current.tid →
      v.current.thread.uid ≠ (v.threads t).thread.uid := by
    intro t h hne he
    exact hne (hf.uid_inj _ _ h hcur (he.symm.trans huid.symm))
  have hlife := life_left (huid ▸ ht.alive _ hcur)
  have hlog : v.exit.log =
      v.log ++ [.exited v.current.thread.uid] ++ [.freed v.current.thread.uid] := by
    simp [View.exit]
  constructor
  · intro u
    simp only [View.exit, hlife]
    split_ifs
    · exact .inr rfl
    · exact ht.settled u
  · intro t h
    obtain ⟨h, hne⟩ := (hlive t).mp h
    rw [hold t hne]
    refine (hlife _).trans ?_
    rw [if_neg (hother t h hne)]
    exact ht.alive t h
  · intro u hu
    refine (hlife u).trans ?_
    have hlt := huid ▸ hf.uid_lt _ hcur
    rw [if_neg (by simp only [View.exit] at hu; omega)]
    exact ht.fresh u hu
  · intro t h
    obtain ⟨h, hne⟩ := (hlive t).mp h
    have hw : phaseOf (v.threads t) ≠ .waiting v.current.thread.uid := by
      intro he
      have := waits_current hl hf ho h he
      omega
    rw [hold t hne, hlog, execPhase_snoc, execPhase_snoc, ht.phase t h,
      execStep_exited (phaseOf_ne_due _) (hother t h hne) hw,
      execStep_other (phaseOf_ne_due _) (.inl ⟨_, rfl⟩)]
  · intro u hu
    have hfree : execPhase v.log u = .free := by
      by_cases huc : v.current.thread.uid = u
      · rw [← huc, ← huid, ht.phase _ hcur]
        simp only [phaseOf, hrun]
      · apply ht.gone
        intro t h
        by_cases htt : t = v.current.tid
        · rw [htt, huid]
          exact huc
        · rw [← hold t htt]
          exact hu t ((hlive t).mpr ⟨h, htt⟩)
    rw [hlog, execPhase_snoc, execPhase_snoc, hfree]
    rfl

lemma exitWake (ht : v.Traced) (hl : v.Listed) (hf : v.Family root) (ho : v.occupied = true) {p : ℕ}
    (hp : v.Awaits p v.current.thread.uid) (hwait : v.current.thread.wait = p) :
    (v.exitWake p).Traced := by
  have hrun := hl.status_current ho
  obtain ⟨hcur, _, _, huid⟩ := hl.current ho
  have hpc : p ≠ v.current.tid := by
    rintro rfl
    rw [hp.2.1] at hrun
    cases hrun
  have hlive : ∀ t, (v.exitWake p).Live t ↔ v.Live t ∧ t ≠ v.current.tid := by
    intro t
    simp only [View.Live, View.exitWake, View.drop, Function.update_apply]
    grind
  have hold : ∀ t, t ≠ v.current.tid → t ≠ p → (v.exitWake p).threads t = v.threads t := by
    intro t h1 h2
    simp only [View.exitWake, View.drop, Function.update_of_ne h1, Function.update_of_ne h2]
  have hparent : (v.exitWake p).threads p = { v.threads p with status := .ready } :=
    Function.update_self _ _ _
  have hother : ∀ t, v.Live t → t ≠ v.current.tid →
      v.current.thread.uid ≠ (v.threads t).thread.uid := by
    intro t h hne he
    exact hne (hf.uid_inj _ _ h hcur (he.symm.trans huid.symm))
  set x := v.current.thread.uid with hx
  set y := (v.threads p).thread.uid with hy
  have hlog : (v.exitWake p).log = v.log ++ [.exited x] ++ [.pushed y] ++ [.freed x] := by
    simp [View.exitWake, hx, hy]
  have hxy : x ≠ y := hother p hp.1 hpc
  have halive : life v.log x = .alive := huid ▸ ht.alive _ hcur
  have hlife : ∀ u, life (v.exitWake p).log u = if x = u then .freed else life v.log u :=
    fun u => hlog ▸ life_left_pushed halive (hy ▸ ht.alive p hp.1) hxy u
  constructor
  · intro u
    rw [hlife]
    split_ifs
    · exact .inr rfl
    · exact ht.settled u
  · intro t h
    obtain ⟨h, hne⟩ := (hlive t).mp h
    have hu : ((v.exitWake p).threads t).thread.uid = (v.threads t).thread.uid := by
      by_cases htp : t = p
      · rw [htp, hparent]
      · rw [hold t hne htp]
    rw [hu, hlife, if_neg (hother t h hne)]
    exact ht.alive t h
  · intro u hu
    have hlt := huid ▸ hf.uid_lt _ hcur
    rw [hlife, if_neg (by simp only [View.exitWake] at hu; omega)]
    exact ht.fresh u hu
  · intro t h
    obtain ⟨h, hne⟩ := (hlive t).mp h
    by_cases htp : t = p
    · rw [htp]
      have hph : execPhase v.log y = .waiting x := by
        rw [hy, ht.phase _ hp.1]
        simp only [phaseOf, hp.2.1, hp.2.2]
      rw [hparent, ← hy, hlog, execPhase_snoc, execPhase_snoc, execPhase_snoc, hph]
      simp [execStep, phaseOf, hp.2.2]
    · have hw : phaseOf (v.threads t) ≠ .waiting x := by
        intro he
        have := waits_current hl hf ho h he
        omega
      have hyt : y ≠ (v.threads t).thread.uid := fun he => htp (hf.uid_inj _ _ h hp.1 he.symm)
      rw [hold t hne htp, hlog, execPhase_snoc, execPhase_snoc, execPhase_snoc, ht.phase t h,
        execStep_exited (phaseOf_ne_due _) (hother t h hne) hw,
        execStep_pushed (phaseOf_ne_due _) hyt, execStep_other (phaseOf_ne_due _) (.inl ⟨_, rfl⟩)]
  · intro u hu
    have hyu : y ≠ u := by
      have h := hu p ((hlive p).mpr ⟨hp.1, hpc⟩)
      rwa [hparent] at h
    have hfree : execPhase v.log u = .free := by
      by_cases huc : x = u
      · have hph := ht.phase _ hcur
        rw [huid, huc] at hph
        rw [hph]
        simp only [phaseOf, hrun]
      · apply ht.gone
        intro t h
        by_cases htt : t = v.current.tid
        · rw [htt, huid]
          exact huc
        · by_cases htp : t = p
          · rw [htp]
            exact hyu
          · rw [← hold t htt htp]
            exact hu t ((hlive t).mpr ⟨h, htt⟩)
    rw [hlog, execPhase_snoc, execPhase_snoc, execPhase_snoc, hfree]
    rfl

end View.Traced

lemma View.Turn.traced {root : ℕ → Prop} {v v' : View} (h : v.Turn v') (hl : v.Listed)
    (hf : v.Family root) (ht : v.Traced) : v'.Traced := by
  cases h with
  | stay => exact ht
  | dispatch _ hr _ => exact ht.dispatch hl hf hr
  | recheckTake _ hr _ _ => exact (ht.dispatch hl hf hr).take _ _
  | recheckBlock ho hr _ _ => exact (ht.dispatch hl hf hr).block (hl.dispatch ho hr) rfl
  | preempt ho => exact ht.preempt hl hf ho
  | take _ _ => exact ht.take _ _
  | block ho _ => exact ht.block hl ho
  | put ch _ => exact ht.put ch
  | notify ch hw => exact ht.notify hl hf hw
  | notFound _ => exact ht.notFound
  | exec ho hlt hfree => exact ht.exec hl hf ho hlt hfree
  | exit ho hwait => exact ht.exit hl hf ho hwait
  | exitWake ho hp hwait => exact ht.exitWake hl hf ho hp hwait

end Jokerix
