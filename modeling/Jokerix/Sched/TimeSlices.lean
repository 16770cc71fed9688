import Jokerix.Sched.RoundRobin
import Mathlib.Data.Set.Insert
import Mathlib.Logic.Relation

/-!
# Time slices

The calls that the thread pool makes to the scheduler, in the order in which it may make them: a
thread is pushed before it is popped, and between two ticks it neither leaves the processor nor is
it pushed. A slice is then filled before it is used, and no tick finds it empty.
-/

namespace Jokerix

/-! ### The protocol of the pool -/

/-- The scheduler, with what the pool did to it. -/
structure SliceState where
  sched : RRScheduler
  /-- The thread that was popped and runs. -/
  running : Option ℕ
  /-- The tids that were pushed after their last pop. -/
  pushed : Set ℕ
  /-- The ticks since the last pop. -/
  ticks : ℕ

/-- What the pool calls. `yield` calls nothing: the running thread goes to sleep. -/
inductive PoolCall where
  | push (tid : ℕ)
  | pop
  | tick
  | yield
  | exit

/-- A call that follows the protocol. A thread runs from its pop until `schedulerTick` returns `1`
or until it yields or exits, and it is not pushed while it runs. -/
inductive Calls : PoolCall → SliceState → SliceState → Prop where
  | push {st : SliceState} {tid : ℕ} {sched : RRScheduler} (hrunning : st.running ≠ some tid)
      (hpush : schedulerPush st.sched tid = .ok sched) :
      Calls (.push tid) st { st with sched, pushed := insert tid st.pushed }
  | popNone {st : SliceState} {sched : RRScheduler} (hidle : st.running = none)
      (hpop : schedulerPop st.sched = (none, sched)) : Calls .pop st { st with sched }
  | pop {st : SliceState} {tid : ℕ} {sched : RRScheduler} (hidle : st.running = none)
      (hpop : schedulerPop st.sched = (some tid, sched)) (hpushed : tid ∈ st.pushed) :
      Calls .pop st ⟨sched, some tid, st.pushed \ {tid}, 0⟩
  | tick {st : SliceState} {tid : ℕ} {expired : Bool} {sched : RRScheduler}
      (hrunning : st.running = some tid) (htick : schedulerTick st.sched = (expired, sched)) :
      Calls .tick st { st with
        sched, running := if expired then none else some tid, ticks := st.ticks + 1 }
  | yield {st : SliceState} {tid : ℕ} (hrunning : st.running = some tid) :
      Calls .yield st { st with running := none }
  | exit {st : SliceState} {tid : ℕ} (hrunning : st.running = some tid) :
      Calls .exit st { st with sched := schedulerExit st.sched tid, running := none }

/-- Any number of calls. -/
def CallsAny : SliceState → SliceState → Prop :=
  Relation.ReflTransGen fun st st' => ∃ c, Calls c st st'

/-- The pool has not called the scheduler yet; no slice is larger than `maxTime`. -/
structure SlicesStart (maxTime : ℕ) (st : SliceState) : Prop where
  max : st.sched.maxTime = maxTime
  time : ∀ i, (st.sched.threads i).time ≤ maxTime
  running : st.running = none
  pushed : st.pushed = ∅
  ticks : st.ticks = 0

section
variable {s s' : RRScheduler} {st st' : SliceState} {tid maxTime : ℕ} {c : PoolCall}

/-! ### What the calls do to the slices -/

/-- A push fills an empty slice. -/
lemma schedulerPush_time (hpush : schedulerPush s tid = .ok s') :
    s'.maxTime = s.maxTime ∧ s'.current = s.current ∧ ∀ i, (s'.threads i).time =
      if i = tid + 1 ∧ (s.threads i).time = 0 then s.maxTime else (s.threads i).time := by
  rw [schedulerPush] at hpush
  split_ifs at hpush
  obtain rfl := Except.ok.inj hpush
  refine ⟨rfl, rfl, fun i => ?_⟩
  simp only [Function.update_apply]
  grind

/-- A pop leaves the slices alone. -/
lemma schedulerPop_time {ret : Option ℕ} (hpop : schedulerPop s = (ret, s')) :
    s'.maxTime = s.maxTime ∧ (∀ i, (s'.threads i).time = (s.threads i).time) ∧
      ∀ tid, ret = some tid → s'.current = tid + 1 := by
  rw [schedulerPop] at hpop
  split_ifs at hpop with hne
  · obtain ⟨rfl, rfl⟩ := Prod.mk.inj hpop
    refine ⟨rfl, fun i => ?_, fun tid heq => ?_⟩
    · simp only [Function.update_apply]
      grind
    · obtain rfl := Option.some.inj heq
      simp only
      omega
  · obtain ⟨rfl, rfl⟩ := Prod.mk.inj hpop
    exact ⟨rfl, fun _ => rfl, fun _ heq => by cases heq⟩

/-- A tick takes one from a slice that is not empty, and reports when it was the last. -/
lemma schedulerTick_time {expired : Bool} (hcur : s.current ≠ 0)
    (hpos : (s.threads s.current).time ≠ 0) (hlt : (s.threads s.current).time < 2 ^ 64)
    (htick : schedulerTick s = (expired, s')) :
    s'.maxTime = s.maxTime ∧ s'.current = s.current ∧
      (s'.threads s.current).time + 1 = (s.threads s.current).time ∧
      (expired = true ↔ (s'.threads s.current).time = 0) ∧
      ∀ i ≠ s.current, s'.threads i = s.threads i := by
  rw [schedulerTick, if_pos hcur] at htick
  obtain ⟨rfl, rfl⟩ := Prod.mk.inj htick
  refine ⟨rfl, rfl, ?_, ?_, fun i hi => Function.update_of_ne hi _ _⟩
  · simp only [Function.update_self]
    omega
  · simp only [Function.update_self, decide_eq_true_eq]

/-! ### The invariant -/

/-- Pushed threads have a slice, and so has the one that runs; what is left of its slice and the
ticks that it had are at most `maxTime` together. -/
structure SlicesInv (maxTime : ℕ) (st : SliceState) : Prop where
  max : st.sched.maxTime = maxTime
  time : ∀ i, (st.sched.threads i).time ≤ maxTime
  pushed : ∀ tid ∈ st.pushed, (st.sched.threads (tid + 1)).time ≠ 0
  ticks : st.ticks ≤ maxTime
  running : ∀ tid, st.running = some tid → tid ∉ st.pushed ∧ st.sched.current = tid + 1 ∧
    (st.sched.threads (tid + 1)).time ≠ 0 ∧
    st.ticks + (st.sched.threads (tid + 1)).time ≤ maxTime

lemma SlicesStart.inv (h : SlicesStart maxTime st) : SlicesInv maxTime st := by
  refine ⟨h.max, h.time, ?_, ?_, ?_⟩
  · rw [h.pushed]
    exact fun _ hmem => hmem.elim
  · rw [h.ticks]
    exact Nat.zero_le _
  · rw [h.running]
    exact fun _ heq => nomatch heq

/-- Step lemma: a call keeps the invariant. -/
lemma SlicesInv.call (h1 : 1 ≤ maxTime) (h64 : maxTime < 2 ^ 64) (h : SlicesInv maxTime st)
    (hcall : Calls c st st') : SlicesInv maxTime st' := by
  cases hcall with
  | @push _ tid sched hrunning hpush =>
    obtain ⟨hmax, hcur, htime⟩ := schedulerPush_time hpush
    have hkeep : ∀ i, (st.sched.threads i).time ≠ 0 →
        (sched.threads i).time = (st.sched.threads i).time := by
      intro i hi
      rw [htime, if_neg fun hand => hi hand.2]
    refine ⟨hmax.trans h.max, fun i => ?_, ?_, h.ticks, fun t ht => ?_⟩
    · simp only [htime, h.max]
      split_ifs
      · exact le_rfl
      · exact h.time i
    · rintro t (rfl | ht)
      · simp only [htime, h.max, true_and]
        split_ifs <;> omega
      · simp only [hkeep _ (h.pushed t ht)]
        exact h.pushed t ht
    · obtain ⟨hnot, hcurrent, hpos, hsum⟩ := h.running t ht
      simp only [hkeep _ hpos]
      refine ⟨?_, hcur.trans hcurrent, hpos, hsum⟩
      rintro (rfl | hmem)
      · exact hrunning ht
      · exact hnot hmem
  | @popNone _ sched hidle hpop =>
    obtain ⟨hmax, htime, _⟩ := schedulerPop_time hpop
    refine ⟨hmax.trans h.max, fun i => ?_, fun t ht => ?_, h.ticks, fun t ht => ?_⟩
    · rw [htime]
      exact h.time i
    · rw [htime]
      exact h.pushed t ht
    · rw [hidle] at ht
      cases ht
  | @pop _ tid sched hidle hpop hpushed =>
    obtain ⟨hmax, htime, hcur⟩ := schedulerPop_time hpop
    refine ⟨hmax.trans h.max, fun i => ?_, fun t ht => ?_, Nat.zero_le _, fun t ht => ?_⟩
    · rw [htime]
      exact h.time i
    · rw [htime]
      exact h.pushed t ht.1
    · obtain rfl := Option.some.inj ht
      simp only [htime, Nat.zero_add]
      exact ⟨fun hmem => hmem.2 rfl, hcur _ rfl, h.pushed _ hpushed, h.time _⟩
  | @tick _ tid expired sched hrunning htick =>
    obtain ⟨hnot, hcurrent, hpos, hsum⟩ := h.running tid hrunning
    have hle := h.time (tid + 1)
    obtain ⟨hmax, hcur, htime, hexpired, hother⟩ := schedulerTick_time
      (by rw [hcurrent]; exact Nat.succ_ne_zero _) (by rwa [hcurrent]) (by rw [hcurrent]; omega)
      htick
    rw [hcurrent] at hcur htime hexpired hother
    refine ⟨hmax.trans h.max, fun i => ?_, fun t ht => ?_, by simp only; omega, fun t ht => ?_⟩
    · by_cases hi : i = tid + 1
      · rw [hi]
        simp only
        omega
      · simp only [hother i hi]
        exact h.time i
    · have hne : t + 1 ≠ tid + 1 := by
        rintro heq
        obtain rfl : t = tid := by omega
        exact hnot ht
      simp only [hother _ hne]
      exact h.pushed t ht
    · cases expired with
      | true => cases ht
      | false =>
        obtain rfl := Option.some.inj ht
        have hleft : (sched.threads (tid + 1)).time ≠ 0 := fun h0 => nomatch hexpired.mpr h0
        exact ⟨hnot, hcur, hleft, by simp only; omega⟩
  | yield => exact ⟨h.max, h.time, h.pushed, h.ticks, fun _ ht => nomatch ht⟩
  | @exit _ tid hrunning =>
    have hsched : (schedulerExit st.sched tid).threads = st.sched.threads ∧
        (schedulerExit st.sched tid).maxTime = st.sched.maxTime := by
      rw [schedulerExit]
      split_ifs <;> exact ⟨rfl, rfl⟩
    refine ⟨hsched.2.trans h.max, fun i => ?_, fun t ht => ?_, h.ticks, fun _ ht => nomatch ht⟩
    · simp only [hsched.1]
      exact h.time i
    · simp only [hsched.1]
      exact h.pushed t ht

/-- Run lemma. -/
lemma SlicesInv.calls (h1 : 1 ≤ maxTime) (h64 : maxTime < 2 ^ 64) (h : SlicesInv maxTime st)
    (hcalls : CallsAny st st') : SlicesInv maxTime st' := by
  induction hcalls with
  | refl => exact h
  | tail _ hcall ih =>
    obtain ⟨_, hcall⟩ := hcall
    exact ih.call h1 h64 hcall

end

/-- In every sequence of calls that follows the protocol, no tick decrements a slice that is empty,
and no dispatch has more than `maxTime` ticks. -/
theorem slices_never_wrap (maxTime : ℕ) (st₀ st : SliceState) (h1 : 1 ≤ maxTime)
    (h64 : maxTime < 2 ^ 64) (h₀ : SlicesStart maxTime st₀) (hcalls : CallsAny st₀ st) :
    (∀ st', Calls .tick st st' →
      st.sched.current ≠ 0 ∧ (st.sched.threads st.sched.current).time ≠ 0) ∧
    st.ticks ≤ maxTime := by
  have h := h₀.inv.calls h1 h64 hcalls
  refine ⟨fun st' hcall => ?_, h.ticks⟩
  cases hcall with
  | tick hrunning _ =>
    obtain ⟨_, hcurrent, hpos, _⟩ := h.running _ hrunning
    rw [hcurrent]
    exact ⟨Nat.succ_ne_zero _, hpos⟩

/-- Two threads are pushed. The first is dispatched, its tick uses its slice up, it is pushed again,
and the second is dispatched. -/
theorem slices_never_wrap_second : ∃ st₀ st, SlicesStart 1 st₀ ∧ CallsAny st₀ st ∧
    st.running = some 1 ∧ 0 ∈ st.pushed ∧
    (∀ st', Calls .tick st st' →
      st.sched.current ≠ 0 ∧ (st.sched.threads st.sched.current).time ≠ 0) ∧ st.ticks ≤ 1 := by
  let s₀ := schedulerInit ⟨fun _ => ⟨0, 0, 0, 0⟩, 0, 0⟩
  let st₀ : SliceState := ⟨s₀, none, ∅, 0⟩
  have h₀ : SlicesStart 1 st₀ := by
    refine ⟨rfl, fun i => ?_, rfl, rfl, rfl⟩
    simp only [st₀, s₀, schedulerInit, Function.update_apply]
    split_ifs <;> exact Nat.zero_le _
  have hnext : ∀ {st st' : SliceState} {c : PoolCall}, CallsAny st₀ st → Calls c st st' →
      CallsAny st₀ st' := fun hcalls hcall => hcalls.tail ⟨_, hcall⟩
  obtain ⟨s₁, hpush, hlinked⟩ := (schedulerInit_linked ⟨fun _ => ⟨0, 0, 0, 0⟩, 0, 0⟩).push
    (show 0 ∉ ([] : List ℕ) by simp) (by decide)
  obtain ⟨s₂, hpush', hlinked⟩ := (show Linked s₁ [0] from hlinked).push (show 1 ∉ [0] by simp)
    (by decide)
  obtain ⟨s₃, hpop, hlinked, _⟩ := (show Linked s₂ [0, 1] from hlinked).pop
  have h₁ : CallsAny st₀ ⟨s₁, none, insert 0 ∅, 0⟩ := hnext .refl (.push (by simp [st₀]) hpush)
  have h₂ := hnext h₁ (.push (by simp) hpush')
  have h₃ := hnext h₂ (.pop rfl hpop (.inr (Set.mem_insert 0 ∅)))
  obtain ⟨expired, s₄, htick⟩ : ∃ expired s₄, schedulerTick s₃ = (expired, s₄) := ⟨_, _, rfl⟩
  have h₄ := hnext h₃ (.tick rfl htick)
  have hlinked : Linked s₄ [1] := by
    have h := hlinked.tick
    rwa [htick] at h
  -- otherwise it could have another tick
  obtain rfl : expired = true := by
    cases expired with
    | true => rfl
    | false =>
      have h₅ := hnext h₄ (.tick rfl rfl)
      have hticks := (slices_never_wrap 1 st₀ _ le_rfl (by decide) h₀ h₅).2
      simp only at hticks
      omega
  obtain ⟨s₅, hpush'', hlinked⟩ := hlinked.push (show 0 ∉ [1] by simp) (by decide)
  obtain ⟨s₆, hpop', _⟩ := (show Linked s₅ [1, 0] from hlinked).pop
  have h₅ := hnext h₄ (.push (by simp) hpush'')
  have h₆ := hnext h₅ (.pop rfl hpop' (.inr ⟨Set.mem_insert 1 _, by simp⟩))
  exact ⟨st₀, _, h₀, h₆, rfl, ⟨Set.mem_insert 0 _, by simp⟩,
    slices_never_wrap 1 st₀ _ le_rfl (by decide) h₀ h₆⟩

end Jokerix
