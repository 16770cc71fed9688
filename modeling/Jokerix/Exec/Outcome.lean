import Jokerix.Exec.ElfFile
import Jokerix.Exec.Steps
import Jokerix.Fs.ReadBack

/-!
# How an execution ends

With enough memory a mappable ELF file is executed, and an execution that does not find its file
leaves the kernel as it was. Whatever else `lookup` finds stops the machine. What a path names is
what the tree of the host has there; what `lookup` reaches may be something else.
-/

namespace Jokerix.Exec

/-! ### What `lookup` finds -/

/-- The bytes of the image as they lie in memory. -/
def System.image (st : System) : Bytes.Memory := fun x => st.mem (st.fs.img + x)

/-- `lookup` finds a file with this content. -/
structure FindsFile (st : System) (path content : List UInt8) : Prop where
  found : lookup st.fs st.mem 0 path ≠ 0
  file : ∃ b, lookup st.fs st.mem 0 path = st.fs.img + b * blockSize ∧ FileIn st.image b content

/-- `lookup` finds a directory. -/
structure FindsDir (st : System) (path : List UInt8) : Prop where
  found : lookup st.fs st.mem 0 path ≠ 0
  dir : ∃ b < blockNum, lookup st.fs st.mem 0 path = st.fs.img + b * blockSize ∧
    (inodeAt st.image b).type = typeDir

/-! ### The state of the kernel -/

/-- The parts of the kernel are intact: the image and the heap lie in the kernel, the blocks and the
frames in use are accounted for, and the threads on the ready list occupy their slots. -/
structure Consistent (L : Layout) (st : System) : Prop where
  image : st.fs.img + imageSize ≤ st.kernel.heap.region.base
  heap : st.kernel.heap.region.base + kernelHeapSize ≤ L.kernelEnd
  blocks : ∃ blocks, Holds st.kernel.heap blocks
  frames : ∃ roots, Reach L st.machine roots
  ready : ∃ ready, Linked st.kernel.rrScheduler ready ∧
    ∀ tid ∈ ready, tid < maxThread ∧ (st.kernel.threads tid).occupied = true

/-- There is enough heap for the file and for a stack, there are enough frames, and a slot is
free. -/
structure Enough (st : System) (content : List UInt8) : Prop where
  heap : ∃ buf h kstack h',
    kalloc st.kernel.heap (BitVec.ofNat 32 content.length) = .ok (buf, h) ∧
    kalloc h (BitVec.ofNat 32 kernelStackSize) = .ok (kstack, h')
  frames : fileFrames content ≤ room st.machine
  slot : ∃ tid, allocTid st.kernel.threads = some tid

/-- One thread was added, which is ready, and nothing else changed in the pool. -/
structure AddsThread (hostTid : ℤ) (st st' : System) : Prop where
  thread : ∃ tid kstack, tid < maxThread ∧ (st.kernel.threads tid).occupied = false ∧
    st'.kernel.threads = Function.update st.kernel.threads tid { st.kernel.threads tid with
      status := .ready, occupied := true, thread := ⟨.user, kstack, hostTid, st.kernel.nextUid⟩ } ∧
    readyList st'.kernel.rrScheduler = readyList st.kernel.rrScheduler ++ [tid]

/-- What the path names in the tree. -/
def named (root : Listing) (path : List UInt8) : Option Entry :=
  ((root.graph.resolve slash [] path).bind root.place).map Prod.snd

/-- What is reached instead when every `'/'` that directly follows another one starts from the root
again. -/
def reached (root : Listing) (path : List UInt8) : Option Entry :=
  let rest := root.graph.lastRestart slash [] path
  if [slash, slash] <+: rest.2 then none
  else ((root.graph.resolve slash rest.1 rest.2).bind root.place).map Prod.snd

/-- The address space of a thread can be built from the content in a buffer. -/
def LoaderAccepts (L : Layout) (e : Surroundings) (st : System) (content : List UInt8) : Prop :=
  ∃ buf h root m, kalloc st.kernel.heap (BitVec.ofNat 32 content.length) = .ok (buf, h) ∧
    newProgramMapping L e ⟨Bytes.store h.mem buf content, st.sta⟩ buf = .ok (root, m)

/-- The segments of a well-formed ELF file have pages of their own, and another file happens to be
accepted. -/
structure Loadable (L : Layout) (e : Surroundings) (st : System) (content : List UInt8) : Prop where
  elf : WellFormedElf content → Mappable content
  other : ¬ WellFormedElf content → LoaderAccepts L e st content

section
variable {L : Layout} {e : Surroundings} {st st' : System} {path content : List UInt8} {hostTid : ℤ}
  {b buf : ℕ} {h : KernelHeap}

/-! ### The file in its buffer -/

lemma toInt_ofNat {n : ℕ} (hn : n < 2 ^ 31) : (BitVec.ofNat 32 n).toInt = n := by
  rw [BitVec.toInt_eq_toNat_of_lt (by rw [BitVec.toNat_ofNat]; omega), BitVec.toNat_ofNat,
    Nat.mod_eq_of_lt (by omega)]

/-- The kernel image lies below the frames. -/
lemma inFrame_le {p x : ℕ} (hp : L.startPpn ≤ p) (hp' : p < endPpn) (hx : InFrame p x) :
    L.kernelEnd ≤ x := by
  by_contra hlt
  exact kernelEnd_outside (not_le.mp hlt) p hp hp' hx

lemma Consistent.imageAt (hc : Consistent L st) : ImageAt st.mem st.fs.img st.image := by
  have himage := hc.image
  have hfits := st.kernel.heap.region.fits
  exact ⟨fun _ _ => rfl, by omega⟩

/-- A change of the memory below the end of the kernel leaves the frames alone. -/
lemma Consistent.owned (hc : Consistent L st) {mem : Bytes.Memory}
    (hmem : ∀ x, L.kernelEnd ≤ x → mem x = st.mem x) :
    ∃ owner, Owned UserEntry L.startPpn ⟨mem, st.sta⟩ owner := by
  obtain ⟨roots, hreach⟩ := hc.frames
  obtain ⟨owner, ho, _⟩ := hreach.inv
  refine ⟨owner, ho.congr rfl fun p r path x hp hx => hmem x ?_⟩
  obtain ⟨h1, h2⟩ := ho.used _ _ hp
  exact inFrame_le h1 h2 hx

/-- What is known when the file has been read. -/
structure Loaded (L : Layout) (st : System) (content : List UInt8) (buf : ℕ) (mem : Bytes.Memory) :
    Prop where
  holds : BufferHolds mem buf content
  pos : buf ≠ 0
  fits : buf + content.length ≤ L.kernelEnd
  owned : ∃ owner, Owned UserEntry L.startPpn ⟨mem, st.sta⟩ owner

/-- The image stays when a block is allocated. -/
lemma Consistent.imageAt_kalloc (hc : Consistent L st) {size : BitVec 32}
    (hok : kalloc st.kernel.heap size = .ok (buf, h)) : ImageAt h.mem st.fs.img st.image := by
  refine ⟨fun x hx => ?_, hc.imageAt.fits⟩
  by_cases hpos : size.toInt ≤ 0
  · rw [kalloc, if_pos hpos] at hok
    obtain ⟨_, rfl⟩ := Prod.mk.inj (Except.ok.inj hok)
    rfl
  · obtain ⟨blocks, hb⟩ := hc.blocks
    obtain ⟨hh, _, hregion, hmem⟩ := hb.kalloc (by omega) hok
    obtain ⟨_, hlow, _⟩ := hh.inside List.mem_cons_self
    rw [hregion] at hlow
    have himage := hc.image
    simp only at hlow
    rw [hmem, Bytes.fill_of_not_mem (by omega)]
    rfl

/-- The content of a file that was read lies in the buffer, of which nothing is read when it is
empty. -/
lemma Consistent.readall (hc : Consistent L st) (hf : FileIn st.image b content)
    (hbuf : kalloc st.kernel.heap (BitVec.ofNat 32 content.length) = .ok (buf, h)) :
    ∃ r, readall st.fs.img h.mem (st.fs.img + b * blockSize) buf = .ok r ∧
      r.mem = Bytes.store h.mem buf content := by
  by_cases hne : content = []
  · subst hne
    obtain ⟨r, hr, hmem⟩ := hf.readall_mem_nil (hc.imageAt_kalloc hbuf) buf
    exact ⟨r, hr, hmem⟩
  · have hlen := hf.length_le
    have hpos := List.length_pos_iff.mpr hne
    have hint := toInt_ofNat (show content.length < 2 ^ 31 by omega)
    have hsize := le_kallocBytes (show 0 < (BitVec.ofNat 32 content.length).toInt by omega)
    obtain ⟨blocks, hb⟩ := hc.blocks
    obtain ⟨hh, _, hregion, _⟩ := hb.kalloc (by omega) hbuf
    obtain ⟨_, hlow, hhigh⟩ := hh.inside List.mem_cons_self
    rw [hregion] at hlow hhigh
    rw [hint] at hsize
    simp only at hlow hhigh hsize
    have himage := hc.image
    have hfits := st.kernel.heap.region.fits
    have hsep : buf + content.length ≤ st.fs.img ∨ st.fs.img + imageSize ≤ buf := by omega
    obtain ⟨r, hr, _, hrmem⟩ := hf.readall (hc.imageAt_kalloc hbuf) hsep (by omega) hne
    exact ⟨r, hr, hrmem⟩

lemma Consistent.loaded (hc : Consistent L st) (hf : FileIn st.image b content) (hne : content ≠ [])
    (hbuf : kalloc st.kernel.heap (BitVec.ofNat 32 content.length) = .ok (buf, h)) :
    Loaded L st content buf (Bytes.store h.mem buf content) := by
  have hlen := hf.length_le
  have hpos := List.length_pos_iff.mpr hne
  have hint := toInt_ofNat (show content.length < 2 ^ 31 by omega)
  have hsize := le_kallocBytes (show 0 < (BitVec.ofNat 32 content.length).toInt by omega)
  obtain ⟨blocks, hb⟩ := hc.blocks
  obtain ⟨hh, _, hregion, hmem⟩ := hb.kalloc (by omega) hbuf
  obtain ⟨_, hlow, hhigh⟩ := hh.inside List.mem_cons_self
  rw [hregion] at hlow hhigh
  rw [hint] at hsize
  simp only at hlow hhigh hsize
  have hheap := hc.heap
  have hbase := st.kernel.heap.region.pos
  refine ⟨fun i hi => ?_, by omega, by omega, hc.owned fun x hx => ?_⟩
  · rw [Bytes.store_of_mem (by omega) (by omega), Nat.add_sub_cancel_left]
  · rw [Bytes.store_of_not_mem (by omega), hmem, Bytes.fill_of_not_mem (by omega)]
    rfl

/-- The address space of the thread can be built exactly when the file is mappable. -/
lemma Loaded.mapping_iff {mem : Bytes.Memory} (h : Loaded L st content buf mem)
    (hwf : WellFormedElf content) (hroom : fileFrames content ≤ room st.machine) :
    (∃ root m, newProgramMapping L e ⟨mem, st.sta⟩ buf = .ok (root, m)) ↔ Mappable content := by
  obtain ⟨owner, ho⟩ := h.owned
  rw [newProgramMapping_of_ne h.pos]
  exact h.holds.newUserThreadMapping_iff hwf h.fits ho hroom

/-! ### The outcome -/

/-- A path leads to one file, and not to a directory as well. -/
lemma FindsFile.unique {content' : List UInt8} (hn : FindsFile st path content)
    (hn' : FindsFile st path content') : content = content' := by
  obtain ⟨b, hb, hf⟩ := hn.file
  obtain ⟨b', hb', hf'⟩ := hn'.file
  obtain rfl : b = b' := Nat.eq_of_mul_eq_mul_right (show 0 < blockSize by decide)
    (Nat.add_left_cancel (hb.symm.trans hb'))
  exact hf.unique hf'

lemma FindsFile.size (hn : FindsFile st path content) (hc : Consistent L st) :
    (readInode st.mem (lookup st.fs st.mem 0 path)).size = content.length := by
  obtain ⟨b, hb, hf⟩ := hn.file
  rw [hb]
  exact (hf.numbers hc.imageAt).2.1

/-- A thread was created only from a content that is accepted. -/
lemma Executed.accepted (hx : Executed L e st path hostTid st') (hc : Consistent L st)
    (hn : FindsFile st path content) : LoaderAccepts L e st content := by
  have hsize := hn.size hc
  obtain ⟨b, hb, hf⟩ := hn.file
  obtain ⟨buf, h, r, t, h', k', hbuf, hread, hcreated, _⟩ := hx.steps
  rw [hsize] at hbuf
  obtain ⟨r', hread', hmem⟩ := hc.readall hf hbuf
  rw [hb, hread'] at hread
  obtain rfl := Except.ok.inj hread
  obtain ⟨root, m, _, hmapped, _⟩ := hcreated.steps
  exact ⟨buf, h, root, m, hbuf, by rw [← hmem]; exact hmapped⟩

/-- With enough of everything, a file is executed exactly when its content is accepted. -/
theorem FindsFile.executes_iff (hn : FindsFile st path content) (hc : Consistent L st)
    (henough : Enough st content) :
    (∃ st', executeCPU L e st path hostTid = .ok (true, st') ∧ AddsThread hostTid st st') ↔
      LoaderAccepts L e st content := by
  constructor
  · rintro ⟨st', hok, _⟩
    rcases executeCPU_cases hok with ⟨hres, _⟩ | ⟨_, hx⟩
    · exact absurd hres hn.found
    · exact hx.accepted hc hn
  · rintro ⟨buf, h, root, m, hbuf, hmapped⟩
    have hsize := hn.size hc
    obtain ⟨b, hb, hf⟩ := hn.file
    obtain ⟨buf', h₁, kstack, h', hbuf', hstack⟩ := henough.heap
    obtain ⟨rfl, rfl⟩ := Prod.mk.inj (Except.ok.inj (hbuf.symm.trans hbuf'))
    obtain ⟨tid, hslot⟩ := henough.slot
    obtain ⟨r, hread, hmem⟩ := hc.readall hf hbuf
    obtain ⟨mem', hstack'⟩ := kalloc_setMem m.mem hstack
    set heap := kfree { h' with
      mem := (newUserThreadContext e mem' (readElfHeader (e.view mem' buf) buf).entry
        (userStackOffset + userStackSize) (kstack + kernelStackSize)
        (satpOf root)).2 } buf with hheap
    obtain ⟨ready, hlinked, hocc⟩ := hc.ready
    obtain ⟨hlt, hfree⟩ := allocTid_spec hslot
    obtain ⟨k', hpool, hthreads, hready⟩ := addToPool_ready (k := { st.kernel with heap }) hlinked
      hocc hslot ⟨.user, kstack, hostTid, 0⟩
    exact ⟨_, executeCPU_ok hn.found (by rw [hsize]; exact hbuf) (by rw [hb]; exact hread)
      (by rw [hmem]; exact hmapped) hstack' hpool, ⟨tid, kstack, hlt, hfree, hthreads, hready⟩⟩

lemma FindsFile.loaderAccepts_iff (hn : FindsFile st path content) (hc : Consistent L st)
    (henough : Enough st content) (hwf : WellFormedElf content) :
    LoaderAccepts L e st content ↔ Mappable content := by
  obtain ⟨b, hb, hf⟩ := hn.file
  have hne : content ≠ [] := List.length_pos_iff.mp (lt_of_lt_of_le (by decide) hwf.header)
  constructor
  · rintro ⟨buf, h, root, m, hbuf, hmapped⟩
    exact ((hc.loaded hf hne hbuf).mapping_iff hwf henough.frames).mp ⟨root, m, hmapped⟩
  · intro hmap
    obtain ⟨buf, h, _, _, hbuf, _⟩ := henough.heap
    obtain ⟨root, m, hmapped⟩ := ((hc.loaded hf hne hbuf).mapping_iff hwf henough.frames).mpr hmap
    exact ⟨buf, h, root, m, hbuf, hmapped⟩

/-- A mappable ELF file is executed. -/
theorem executeCPU_elf (hc : Consistent L st) (hn : FindsFile st path content)
    (hwf : WellFormedElf content) (hmap : Mappable content) (henough : Enough st content) :
    ∃ st', executeCPU L e st path hostTid = .ok (true, st') ∧ AddsThread hostTid st st' :=
  (hn.executes_iff hc henough).mpr ((hn.loaderAccepts_iff hc henough hwf).mpr hmap)

/-- The system has the file driver on an image that was packed. -/
structure HasImage (st : System) (image : Bytes.Memory) : Prop where
  fs : st.fs = initFs st.mem st.fs.img
  image : ImageAt st.mem st.fs.img image

variable {z : Leftover} {p : Packer} {root : Listing} {node : Node} {k : ℕ}

/-- A path of the tree leads to the file. -/
lemma findsFile_of_packed (h : Packed z root p) (hp : root.Proper) (hst : HasImage st p.image)
    (hplace : root.place node = some (k, .file content))
    (hpath : path = nodePath node ∨ path = slash :: nodePath node) : FindsFile st path content := by
  have hlookup := h.lookup_nodePath hp hst.image hplace hpath
  rw [← hst.fs] at hlookup
  obtain ⟨name, hfile⟩ := h.place hplace
  refine ⟨?_, _, hlookup, (FileAt.fileIn hfile h.inv).congr hst.image.bytes⟩
  rw [hlookup]
  exact h.inodeAddr_ne_zero _ (by rw [hplace]; rfl)

lemma HasImage.type_dir {b parent : ℕ} {name : List UInt8} {bs : List ℕ}
    (himg : HasImage st p.image)
    (h : Packed z root p) (hdir : DirAt z p k b parent name bs) :
    (inodeAt st.image b).type = typeDir := by
  have hcopy : ImageAt st.image 0 p.image :=
    ⟨fun x hx => by rw [Nat.zero_add]; exact himg.image.bytes x hx, by decide⟩
  have htype := (hcopy.inode (h.inv.lt_of_mem hdir.used)).type
  rw [Nat.zero_add] at htype
  exact htype.trans hdir.type

/-- On a packed image `lookup` does what the search in the tree does, which ends at a place of the
tree. -/
lemma HasImage.lookup_search (himg : HasImage st p.image) (h : Packed z root p)
    (path : List UInt8) :
    lookup st.fs st.mem 0 path =
        inodeAddr st.fs.img p.image root (root.graph.search slash [] path) ∧
      ∀ node, root.graph.search slash [] path = some node → (root.place node).isSome := by
  have hn : ∀ n, (none : Option Node) = some n → (root.place n).isSome := fun _ h => by cases h
  have hlookup := h.lookup_start himg.image hn path
  rw [← himg.fs, show inodeAddr st.fs.img p.image root none = 0 from rfl, Option.getD_none]
    at hlookup
  refine ⟨hlookup, fun node hsearch => ?_⟩
  exact Paths.Graph.search_induction (P := fun n => (root.place n).isSome) rfl
    (fun _ _ _ => Listing.place_step) rfl hsearch

end

/-- A kernel image with room for the image of the file system and for the heap. -/
def execLayout : Layout :=
  { sampleLayout with
    bssStart := 0xffffffff80320000
    kernelEnd := 0xffffffff80c00000
    data_le := by decide
    bss_le := by decide
    bss_aligned := by decide
    end_aligned := by decide
    room := by decide }

/-- Where the image of the file system lies. -/
def sampleImg : ℕ := 0xffffffff80210000

/-- The globals as they are at first, with an image of the file system in memory. -/
def sampleSystem (image : Bytes.Memory) (sta : FrameTree) : System :=
  let mem : Bytes.Memory := fun x => image (x - sampleImg)
  ⟨{ sampleKernel with heap := { sampleKernel.heap with mem } }, initFs mem sampleImg, sta⟩

lemma sampleSystem_image (image : Bytes.Memory) (sta : FrameTree) :
    HasImage (sampleSystem image sta) image := by
  refine ⟨rfl, fun x _ => ?_, show sampleImg + imageSize ≤ 2 ^ 64 by decide⟩
  change image (sampleImg + x - sampleImg) = image x
  rw [Nat.add_sub_cancel_left]

lemma execLayout_startPpn : execLayout.startPpn = 0x80c01 := by decide

/-- The allocator of the small system, and its free frames. -/
lemma execLayout_start (image : Bytes.Memory) :
    ∃ sta, Consistent execLayout (sampleSystem image sta) ∧
      300 ≤ room (sampleSystem image sta).machine := by
  have hlt : execLayout.startPpn < memoryEndPaddr / pageSize := by
    rw [execLayout_startPpn]
    simp only [memoryEndPaddr, pageSize]
    norm_num
  obtain ⟨sta, hnew⟩ := (newAllocator_ok_iff ⟨fun _ => 0, 0, 0, 0⟩ hlt.le (by decide)).mpr (by
    rw [execLayout_startPpn]
    simp only [memoryEndPaddr, pageSize, maxPhysicalPages]
    norm_num)
  set mem := (sampleSystem image sta).mem with hmem
  have hroom := room_newAllocator (m := ⟨mem, fun _ => 0, 0, 0, 0⟩) hlt.le hnew
  refine ⟨sta, ⟨?_, ?_, ⟨[], (holds_initHeap sampleHeap).setMem _⟩,
    ⟨[], .init (m := ⟨mem, fun _ => 0, 0, 0, 0⟩) hnew⟩, [],
      LinkedRing.Ring.nil rfl rfl, by simp⟩, ?_⟩
  · change sampleImg + imageSize ≤ 0xffffffff80400000
    decide
  · change 0xffffffff80400000 + kernelHeapSize ≤ 0xffffffff80c00000
    decide
  · rw [execLayout_startPpn, endPpn_eq] at hroom
    change 300 ≤ room ⟨mem, sta⟩
    rw [hroom]
    omega

/-- A directory with an ELF file `a`, which has one segment of one byte. -/
def elfDir : Listing := .file letterA (oneByteElf 0x10000) .nil

lemma length_oneByteElf : (oneByteElf 0x10000).length = 121 := by decide

lemma elfDir_proper : elfDir.Proper := by
  simp [elfDir, letterA, Listing.Proper, dot, dotdot, Listing.names]

lemma elfDir_fits : elfDir.Fits := by
  rw [Listing.Fits, elfDir, Listing.blocks, length_oneByteElf]
  decide

lemma mksfs_elfDir : ∃ p, mksfs leftoverZero elfDir = .ok p ∧ Packed leftoverZero elfDir p :=
  mksfs_ok elfDir_proper elfDir_fits ⟨by decide, trivial⟩
    (Listing.rootClear_of_zero (z := leftoverZero) (fun _ => rfl) _)

lemma fileHeader_oneByteElf : fileHeader (oneByteElf 0x10000) = ⟨elfMagic, 0x10000, 64, 1⟩ := by
  decide +kernel

lemma progHeader_oneByteElf : readProgHeader (fileMemory (oneByteElf 0x10000)) 64 =
    ⟨elfProgLoad, elfProgFlagRead, 120, 0x10000, 1, 1⟩ := by
  decide +kernel

lemma wellFormed_oneByteElf : WellFormedElf (oneByteElf 0x10000) := by
  refine ⟨by decide, by decide, ?_, ?_⟩
  · rw [fileHeader_oneByteElf, length_oneByteElf]
    decide
  · rw [fileHeader_oneByteElf, length_oneByteElf]
    intro i hi
    obtain rfl : i = 0 := by simpa using hi
    simp only [progHeader, Nat.zero_mul, Nat.add_zero, progHeader_oneByteElf]
    decide

lemma segments_oneByteElf : elfSegments (fileMemory (oneByteElf 0x10000)) 0 =
    [⟨0x10000, 0x10001, convertElfFlags elfProgFlagRead⟩] := by
  have hheader : readElfHeader (fileMemory (oneByteElf 0x10000)) 0 = _ := fileHeader_oneByteElf
  simp only [elfSegments, hheader]
  change loadSegments _ 64 1 = _
  rw [loadSegments, progHeader_oneByteElf]
  rfl

lemma mappable_oneByteElf : Mappable (oneByteElf 0x10000) := by
  obtain ⟨_, hstart, _⟩ := userStack_pages
  have hseg : ∀ seg ∈ elfSegments (fileMemory (oneByteElf 0x10000)) 0,
      seg.pages = 1 ∧ seg.startVpn = 0x10 := by
    rw [segments_oneByteElf]
    simp only [List.mem_singleton, forall_eq]
    decide
  refine ⟨fun seg hmem => ?_, ?_⟩
  · obtain ⟨h1, h2⟩ := hseg seg hmem
    refine ⟨by rw [h1]; norm_num, fun k hk vpn _ _ => ?_, fun k hk k' hk' => ?_⟩
    · rw [h2]
      omega
    · rw [h2, hstart]
      obtain ⟨hpages, _⟩ := userStack_pages
      omega
  · rw [segments_oneByteElf]
    exact List.pairwise_singleton _ _

lemma fileFrames_oneByteElf : fileFrames (oneByteElf 0x10000) ≤ 300 := by
  rw [fileFrames, loadFrames, segments_oneByteElf]
  decide

/-- The small system has enough of everything for the file. -/
lemma enough_oneByteElf {image : Bytes.Memory} {sta : FrameTree}
    (hroom : 300 ≤ room (sampleSystem image sta).machine) :
    Enough (sampleSystem image sta) (oneByteElf 0x10000) := by
  refine ⟨?_, fileFrames_oneByteElf.trans hroom, 0, allocTid_free rfl⟩
  have hh : Holds (sampleSystem image sta).kernel.heap [] := (holds_initHeap sampleHeap).setMem _
  rw [length_oneByteElf]
  obtain ⟨buf, h, hok, _, hh₁, hroom₁⟩ := hh.kalloc_roomy (BitVec.ofNat 32 121) (n := 0)
    ⟨le_refl _, by simp⟩ (by omega) (by decide) (by decide)
  obtain ⟨kstack, h', hok', _⟩ := hh₁.kalloc_roomy (BitVec.ofNat 32 kernelStackSize)
    hroom₁ (by omega)
    (by decide) (by decide)
  exact ⟨buf, h, kstack, h', hok, hok'⟩

/-- What a call of the small system finds. -/
def sampleSurroundings : Surroundings :=
  ⟨⟨0, 0, fun _ => 0, fun _ => 0, 0, 0⟩, 0, 0xffffffff80200400, fun _ => none⟩

end Jokerix.Exec
