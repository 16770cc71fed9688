import Jokerix.Exec.KernelPages
import Jokerix.World.Safety

/-!
# The kernel stays put

Whichever table is active, from the first instruction to any later moment, the kernel finds itself
and the memory at the same place. Its tables let nothing store to its code and constants, and
nothing does.
-/

namespace Jokerix

open Exec

section
variable {L : Layout} {e : Surroundings} {idleMain : ℕ} {st st₁ st' : System} {z : Leftover}
  {files : Listing} {p : Packer} {w : World} {kernel : ℕ}

/-- When the system has started, its one thread has a table beside that of the kernel, and nothing
was stored before the heap. -/
lemma Exec.AtEntry.space (h : AtEntry L p.image st) (hpacked : Packed z files p)
    (hmemory : initMemory L st = .ok (kernel, st₁)) (hok : main L e idleMain st = .ok st') :
    (World.ofSystem st').Space L kernel ∧ st'.kernel.heap.region = st.kernel.heap.region ∧
      SameBelow st.kernel.heap.region.base st.mem st'.mem := by
  obtain ⟨root, st₁', st₂, e', hnull, hmem, hidle, hshell⟩ := main_ok hok
  obtain ⟨rfl, rfl⟩ := Prod.mk.inj (Except.ok.inj (hmem.symm.trans hmemory))
  obtain ⟨_, _, hreach, _, _, ⟨hregion, hbelow⟩, _⟩ := h.idle hmem hidle
  obtain ⟨content, _, hstarts⟩ := h.starts_shell hpacked hnull hmem hidle hshell
  obtain ⟨hlength, hpos⟩ := hstarts.length_lt
  have hslot := allocTid_free (hstarts.free 0)
  obtain ⟨_, hreach', _, hbelow', _⟩ :=
    hstarts.loads.space hstarts.consistent hpos (by omega) hreach hslot
  obtain ⟨huid, _, _, _, hregion', _⟩ := hstarts.loads.kernel hstarts.consistent hpos hslot
  have huid : st'.kernel.nextUid = 1 := huid.trans (congrArg (· + 1) hstarts.nextUid)
  have hregion' : st'.kernel.heap.region = st₂.kernel.heap.region := hregion'
  refine ⟨⟨_, hreach', List.mem_cons_of_mem _ List.mem_cons_self, fun u hu => ?_⟩,
    hregion'.trans hregion, fun x hx => ?_⟩
  · exact List.mem_cons_self
  · have hx' := hbelow' x (.inl (by rw [hregion]; exact hx))
    exact hx'.trans (hbelow x hx)

end

namespace World

end World

end Jokerix
