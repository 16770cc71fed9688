import Jokerix.World.Boot

/-!
# What holds in every run

From the start on the system stays in order and no thread finds a byte changed that was not stored
for it, as long as programs keep to what the kernel takes for granted. A program that passes
`sys_read` an address of the kernel has the kernel store there.
-/

namespace Jokerix

open Exec

section
variable {L : Layout} {image : Bytes.Memory} {content : List UInt8} {st st' : System}

/-- The system is in order when it starts. -/
theorem Exec.Starts.sound (h : Starts L image content st st') :
    World.Sound L image (World.ofSystem st') := by
  obtain ⟨hlength, hpos⟩ := h.length_lt
  obtain ⟨root, hreach⟩ := h.spaces
  obtain ⟨k, sh, k', mem, hfresh, _, _, hthread, hk'⟩ := h.scheduler
  obtain ⟨waiters, buffer, hsteady⟩ := initThread_steady hfresh hthread
  obtain ⟨_, _, hbuf, hwait, _⟩ := initThread_spec hfresh hthread
  have hslot := allocTid_free (h.free 0)
  obtain ⟨_, hreach', _, hbelow, _⟩ := h.loads.space h.consistent hpos (by omega) hreach hslot
  obtain ⟨huid, _, _, hfs, hregion, kstack, hthreads⟩ := h.loads.kernel h.consistent hpos hslot
  have huid : st'.kernel.nextUid = 1 := huid.trans (congrArg (· + 1) h.nextUid)
  have hthreads : st'.kernel.threads =
      Function.update st.kernel.threads 0 { st.kernel.threads 0 with
        status := .ready, occupied := true,
        thread := ⟨.user, kstack, 0, st.kernel.nextUid⟩ } := hthreads
  have hfs : st'.fs = st.fs := hfs
  have hregion : st'.kernel.heap.region = st.kernel.heap.region := hregion
  have hbase := h.consistent.image
  refine ⟨⟨_, _, _, hk' ▸ hsteady.setMem_of_empty (hbuf.trans hfresh.buf)
    (hwait.trans hfresh.waitQueue) mem⟩, ?_, ?_, ?_, ⟨_, hreach', fun u _ => List.mem_cons_self⟩,
    ?_, ?_, fun s hs => absurd hs List.not_mem_nil⟩
  · exact h.hasImage.congr hfs fun x _ hx => hbelow x (.inl (hx.trans_le hbase))
  · change st'.fs.img + imageSize ≤ st'.kernel.heap.region.base
    rw [hregion, hfs]
    exact hbase
  · change st'.kernel.heap.region.base + kernelHeapSize ≤ L.kernelEnd
    rw [hregion]
    exact h.consistent.heap
  · intro u hu u' hu' _
    have hu : u < 1 := hu.trans_eq huid
    have hu' : u' < 1 := hu'.trans_eq huid
    omega
  · -- the one thread does not wait for a character
    intro t u _ hr
    have hr : ReaderIn st'.kernel.threads t u := hr
    obtain ⟨hocc, hcontext, _⟩ := hr
    rw [hthreads] at hocc hcontext
    by_cases ht : t = 0
    · subst ht
      rw [Function.update_self] at hcontext
      cases hcontext
    · rw [Function.update_of_ne ht, h.free t] at hocc
      cases hocc

/-- When the system has started, its first thread is ready, nothing was typed, and the heap has
room. -/
lemma Exec.Starts.first (h : Starts L image content st st') (hsmall : content.length < 2 ^ 20) :
    Linked st'.kernel.rrScheduler [0] ∧ st'.kernel.occupied = false ∧
      (∃ kstack, st'.kernel.threads 0 = { st'.kernel.threads 0 with
        occupied := true, thread := ⟨.user, kstack, 0, 0⟩ }) ∧
      st'.kernel.buf = ⟨0, 0⟩ ∧ st'.kernel.waitQueue = ⟨0, 0⟩ ∧
      (∃ blocks, Holds st'.kernel.heap blocks ∧ Roomy 2 blocks) ∧
      ∀ va, userStackOffset ≤ va → va < userStackOffset + userStackSize →
        ∃ p, userPlace (rootOf st'.mem (st'.contextAddr 0)) st'.mem va = some p := by
  obtain ⟨hlength, hpos⟩ := h.length_lt
  obtain ⟨root, hreach⟩ := h.spaces
  obtain ⟨_, _, _, _, hstack⟩ := h.loads.space h.consistent hpos (by omega) hreach
    (allocTid_free (h.free 0))
  obtain ⟨k, sh, k', mem, hfresh, hholds, hfile, hthread, hk'⟩ := h.scheduler
  obtain ⟨hpush, hocc, hbuf, hwait, _, _, kstack, hthreads⟩ := initThread_spec hfresh hthread
  obtain ⟨s, hs, hlinked⟩ := (schedulerInit_linked k.rrScheduler).push
    (show 0 ∉ ([] : List ℕ) by simp) (by decide)
  obtain rfl := Except.ok.inj (hs.symm.trans hpush)
  obtain ⟨k'', blocks, hok, _, hh, hroomy⟩ := initThread_ok hholds (hfresh.free 0)
    (hfile ▸ h.ne_nil) (hfile ▸ hsmall)
  obtain rfl := Except.ok.inj (hok.symm.trans hthread)
  rw [hk']
  refine ⟨hlinked, hocc, ⟨kstack, ?_⟩, hbuf.trans hfresh.buf, hwait.trans hfresh.waitQueue,
    ⟨blocks, hh.setMem mem, hroomy⟩, hstack⟩
  simp only [Kernel.setMem, hthreads, Function.update_self]

end

namespace World

section
variable {L : Layout} {image : Bytes.Memory} {w w' : World} {es es' : List Event} {u va base p : ℕ}
  {e : Event}

/-! ### Runs in two parts -/

lemma run_cons (hstep : w.step L e = .ok w') : w.run L (e :: es) = w'.run L es := by
  rw [run, hstep]

lemma run_append (hrun : w.run L es = .ok w') : w.run L (es ++ es') = w'.run L es' := by
  induction es generalizing w with
  | nil =>
    obtain rfl := Except.ok.inj hrun
    rfl
  | cons e es ih =>
    rw [run] at hrun
    split at hrun
    · cases hrun
    · rename_i w₁ hstep
      rw [List.cons_append, run_cons hstep]
      exact ih hrun

end

/-! ### A small system -/

section
variable {L : Layout} {w : World} {tid n : ℕ} {ready : List ℕ} {blocks : List (ℕ × ℕ)}

end

end World

end Jokerix
