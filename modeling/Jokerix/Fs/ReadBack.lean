import Jokerix.Fs.Lookup
import Jokerix.Fs.OneOwner
import Jokerix.Vm.MapPages

/-!
# Reading a file back

On an image that the packer has written, `readall` puts the bytes of a file into its buffer and
reads nothing outside of the image, unless the file is empty. The block count of an empty file is
`2^20`.
-/

namespace Jokerix

/-- Every byte of these ranges lies in the image. -/
def ReadsImage (img : ℕ) (reads : List (ℕ × ℕ)) : Prop :=
  ∀ r ∈ reads, ∀ x, r.1 ≤ x → x < r.1 + r.2 → img ≤ x ∧ x < img + imageSize

/-- The path of a node. -/
def nodePath (n : Node) : List UInt8 := Paths.join slash n.reverse

section
variable {mem image : Bytes.Memory} {img b buf k n : ℕ} {content : List UInt8} {s : ReadState}

/-! ### Copying a block -/

lemma copyBytes_eq_store {dst src : ℕ} (hsrc : src + n ≤ 2 ^ 64)
    (hsep : src + n ≤ dst ∨ dst + n ≤ src) :
    copyBytes mem dst src n = Bytes.store mem dst (Bytes.load mem src n) := by
  funext x
  by_cases hx : dst ≤ x ∧ x < dst + n
  · obtain ⟨i, rfl⟩ := Nat.exists_eq_add_of_le hx.1
    have hi : i < n := by omega
    rw [copyBytes_inside hi fun j _ => by omega,
      Bytes.store_of_mem (by omega) (by rw [Bytes.length_load]; omega), Nat.add_sub_cancel_left,
      Bytes.getD_load hi]
  · rw [copyBytes_outside (by omega),
      Bytes.store_of_not_mem (by rw [Bytes.length_load]; omega)]

/-- What is in the buffer after `k` blocks. -/
structure Reading (mem : Bytes.Memory) (img buf : ℕ) (content : List UInt8) (k : ℕ)
    (s : ReadState) :
    Prop where
  mem : s.mem = Bytes.store mem buf (content.take (k * blockSize))
  buf : s.buf = (buf + (content.take (k * blockSize)).length) % 2 ^ 64
  left : s.l = ((content.drop (k * blockSize)).length : ℕ)
  reads : ReadsImage img s.reads

lemma ReadsImage.append {reads reads' : List (ℕ × ℕ)} (h : ReadsImage img reads)
    (h' : ReadsImage img reads') : ReadsImage img (reads ++ reads') := fun r hr =>
  (List.mem_append.mp hr).elim (h r) (h' r)

lemma ReadsImage.singleton {a w : ℕ} (h : img ≤ a) (h' : a + w ≤ img + imageSize) :
    ReadsImage img [(a, w)] := by
  intro r hr x h1 h2
  rw [List.mem_singleton] at hr
  subst hr
  simp only at h1 h2
  omega

/-- The image stays as it is while a buffer apart from it is filled. -/
lemma ImageAt.store (h : ImageAt mem img image) {bs : List UInt8}
    (hsep : buf + bs.length ≤ img ∨ img + imageSize ≤ buf) :
    ImageAt (Bytes.store mem buf bs) img image :=
  ⟨fun x hx => by rw [Bytes.store_of_not_mem (by omega), h.bytes x hx], h.fits⟩

lemma Reading.imageAt (h : Reading mem img buf content k s) (himg : ImageAt mem img image)
    (hsep : buf + content.length ≤ img ∨ img + imageSize ≤ buf) : ImageAt s.mem img image := by
  rw [h.mem]
  refine himg.store ?_
  rw [List.length_take]
  omega

/-- The bytes of a block are the next ones of the file. -/
lemma BlockHolds.load (h : BlockHolds image b content k) (himg : ImageAt mem img image)
    (hb : b < blockNum) :
    Bytes.load mem (img + b * blockSize) (min blockSize (content.drop (k * blockSize)).length) =
      (content.drop (k * blockSize)).take blockSize := by
  have hle := block_le hb
  refine List.ext_getElem (by simp) fun i h1 h2 => ?_
  rw [Bytes.length_load, List.length_drop] at h1
  simp only [Bytes.load, List.getElem_map, List.getElem_range, List.getElem_take,
    List.getElem_drop]
  rw [Nat.add_assoc, himg.bytes _ (by omega), h i (by omega) (by omega),
    List.getD_eq_getElem _ _ (by omega)]

lemma copySize_eq (n : ℕ) :
    (if (n : ℤ) ≥ 4096 then 4096 else (n : ℤ)) = ((min blockSize n : ℕ) : ℤ) := by
  rw [blockSize]
  split_ifs <;> omega

lemma toNat_add_mod (a n : ℕ) : (((a : ℤ) + (n : ℤ)) % 2 ^ 64).toNat = (a + n) % 2 ^ 64 := by
  omega

/-- The step of the loops: the next block of the file is appended to what is in the buffer. -/
lemma Reading.readBlock (h : Reading mem img buf content k s) (himg : ImageAt mem img image)
    (hsep : buf + content.length ≤ img ∨ img + imageSize ≤ buf)
    (hbuf : buf + content.length ≤ 2 ^ 64)
    (hk : k < dataBlocks content.length) (hb : b < blockNum)
    (hholds : BlockHolds image b content k) :
    Reading mem img buf content (k + 1) (Jokerix.readBlock s (img + b * blockSize)) := by
  have hlt := lt_dataBlocks hk
  have hle := block_le hb
  have hfits := himg.fits
  have himg' := h.imageAt himg hsep
  set rest := content.drop (k * blockSize) with hrest
  have hdrop : rest.length = content.length - k * blockSize := List.length_drop
  have htake : (content.take (k * blockSize)).length = k * blockSize := by
    rw [List.length_take]
    omega
  have hnext : content.take ((k + 1) * blockSize) =
      content.take (k * blockSize) ++ rest.take blockSize := by
    rw [Nat.succ_mul, List.take_add]
  have hrest' : content.drop ((k + 1) * blockSize) = rest.drop blockSize := by
    rw [Nat.succ_mul, hrest, List.drop_drop]
  have hcopy : (if s.l ≥ 4096 then 4096 else s.l) = ((min blockSize rest.length : ℕ) : ℤ) := by
    rw [h.left, copySize_eq]
  have hbuf' : s.buf = buf + k * blockSize := by
    rw [h.buf, htake, Nat.mod_eq_of_lt (by omega)]
  have hcopied : copyByteToBuf s.mem (img + b * blockSize) s.buf (min blockSize rest.length : ℕ) =
      Bytes.store s.mem s.buf (rest.take blockSize) := by
    rw [copyByteToBuf, Int.toNat_natCast, copyBytes_eq_store (by omega) (by omega),
      hholds.load himg' hb]
  simp only [Jokerix.readBlock, hcopy]
  constructor
  · rw [hcopied, h.mem, hbuf', hnext, Bytes.store_append, htake]
  · rw [toNat_add_mod, hbuf', hnext, List.length_append, htake, List.length_take, Nat.add_assoc]
  · simp only [h.left, hrest', List.length_drop]
    omega
  · rw [Int.toNat_natCast]
    exact h.reads.append (ReadsImage.singleton (by omega) (by omega))

/-! ### The loops -/

lemma foldl_range_induction {σ : Type*} {P : ℕ → σ → Prop} {f : σ → ℕ → σ} {s : σ} (h : P 0 s)
    (hstep : ∀ i < n, ∀ s, P i s → P (i + 1) (f s i)) : P n ((List.range n).foldl f s) := by
  induction n with
  | zero => exact h
  | succ n ih =>
    rw [List.range_succ, List.foldl_append, List.foldl_cons, List.foldl_nil]
    exact hstep n (Nat.lt_succ_self n) _ (ih fun i hi => hstep i (by omega))

/-- A file in the image: its inode lies in the block `b`, and it has this content. -/
structure FileIn (image : Bytes.Memory) (b : ℕ) (content : List UInt8) : Prop where
  block : b < blockNum
  type : (inodeAt image b).type = typeFile
  size : (inodeAt image b).size = content.length
  blocks : (inodeAt image b).blocks = fileBlocks content.length
  data : ∀ k < dataBlocks content.length, entryBlock image (inodeAt image b) k < blockNum ∧
    BlockHolds image (entryBlock image (inodeAt image b) k) content k
  indirect : directNum < dataBlocks content.length → (inodeAt image b).indirect < blockNum
  max : dataBlocks content.length ≤ blockNum

variable {z : Leftover} {p : Packer} {m : ℕ} {name : List UInt8}

lemma FileAt.fileIn (h : FileAt z p m b name content) (hi : PackInv p) :
    FileIn p.image b content := by
  refine ⟨hi.lt_of_mem h.used, h.type, h.size, h.blocks, fun k hk => ?_, fun hlt => ?_, h.max⟩
  · obtain ⟨hu, hholds⟩ := h.data k hk
    exact ⟨hi.lt_of_mem hu, hholds⟩
  · have hu := h.indirect
    rw [if_neg (by omega)] at hu
    exact hi.lt_of_mem hu

/-- A copy of the image has the same files. -/
lemma FileIn.congr {image' : Bytes.Memory} (h : FileIn image b content)
    (heq : ∀ x < imageSize, image' x = image x) : FileIn image' b content := by
  have himg : ImageAt image' 0 image := ⟨by simpa using heq, by decide⟩
  have hag : (inodeAt image' b).Agrees (inodeAt image b) := by
    have := himg.inode h.block
    rwa [Nat.zero_add] at this
  have hentry : ∀ k < dataBlocks content.length,
      entryBlock image' (inodeAt image' b) k = entryBlock image (inodeAt image b) k := by
    intro k hk
    have hmax := h.max
    simp only [blockNum] at hmax
    refine entryBlock_congr (hag.direct k) (fun _ => hag.indirect) (fun hge _ x h1 h2 => ?_)
      (by rw [directNum, indirectNum]; omega)
    exact heq x (h2.trans_le (block_le (h.indirect (by omega))))
  refine ⟨h.block, by rw [hag.type, h.type], by rw [hag.size, h.size], by rw [hag.blocks, h.blocks],
    fun k hk => ?_, fun hlt => by rw [hag.indirect]; exact h.indirect hlt, h.max⟩
  obtain ⟨hb, hholds⟩ := h.data k hk
  rw [hentry k hk]
  refine ⟨hb, fun t ht hlt => ?_⟩
  rw [heq _ (lt_of_lt_of_le (Nat.add_lt_add_left ht _) (block_le hb))]
  exact hholds t ht hlt

/-- An inode has one content. -/
lemma FileIn.unique {content' : List UInt8} (h : FileIn image b content)
    (h' : FileIn image b content') : content = content' := by
  have hlen : content.length = content'.length := h.size.symm.trans h'.size
  refine List.ext_getElem hlen fun i h1 h2 => ?_
  have hk : i / blockSize < dataBlocks content.length := by
    simp only [dataBlocks, blockSize]
    omega
  have hsplit : i / blockSize * blockSize + i % blockSize = i := Nat.div_add_mod' _ _
  have hmod : i % blockSize < blockSize := Nat.mod_lt _ (by decide)
  have hbyte := (h.data _ hk).2 _ hmod (by omega)
  have hbyte' := (h'.data _ (hlen ▸ hk)).2 _ hmod (by omega)
  rw [hsplit] at hbyte hbyte'
  rw [hbyte', List.getD_eq_getElem _ _ h1, List.getD_eq_getElem _ _ h2] at hbyte
  exact hbyte.symm

/-- The number of blocks is right for a file that is not empty. -/
lemma fileBlocks_eq {l : ℕ} (hpos : 0 < l) (hle : l ≤ 2 ^ 32) : fileBlocks l = dataBlocks l := by
  simp only [fileBlocks, dataBlocks, blockSize]
  omega

/-- A file is smaller than the image. -/
lemma FileIn.length_le (h : FileIn image b content) : content.length ≤ 2 ^ 20 := by
  have hmax := h.max
  simp only [dataBlocks, blockSize, blockNum] at hmax
  omega

/-- The inode says how much there is to read. -/
lemma FileIn.numbers (h : FileIn image b content) (himg : ImageAt mem img image) :
    (readInode mem (img + b * blockSize)).type = typeFile ∧
      (readInode mem (img + b * blockSize)).size = content.length ∧
      (BitVec.ofNat 32 (readInode mem (img + b * blockSize)).size).toInt = content.length := by
  have hag := himg.inode h.block
  have hlt := h.length_le
  refine ⟨by rw [hag.type, h.type], by rw [hag.size, h.size], ?_⟩
  rw [hag.size, h.size, BitVec.toInt_eq_toNat_of_lt (by rw [BitVec.toNat_ofNat]; omega),
    BitVec.toNat_ofNat, Nat.mod_eq_of_lt (by omega)]

/-- The block at a position of a file is the next one to read. -/
lemma FileIn.readBlock (h : FileIn image b content) (himg : ImageAt mem img image)
    (hsep : buf + content.length ≤ img ∨ img + imageSize ≤ buf)
    (hbuf : buf + content.length ≤ 2 ^ 64) (hk : k < dataBlocks content.length)
    (hr : Reading mem img buf content k s) :
    Reading mem img buf content (k + 1) (Jokerix.readBlock s
      (kernelBlockAddr img (entryBlock image (inodeAt image b) k))) := by
  obtain ⟨hb, hholds⟩ := h.data k hk
  rw [kernelBlockAddr_eq himg.fits hb]
  exact hr.readBlock himg hsep hbuf hk hb hholds

lemma FileIn.readDirect (h : FileIn image b content) (himg : ImageAt mem img image)
    (hsep : buf + content.length ≤ img ∨ img + imageSize ≤ buf)
    (hbuf : buf + content.length ≤ 2 ^ 64) (hk : k < dataBlocks content.length)
    (hdirect : k < directNum) (hr : Reading mem img buf content k s) :
    Reading mem img buf content (k + 1) (Jokerix.readDirect img (img + b * blockSize) s k) := by
  have hag := (hr.imageAt himg hsep).inode h.block
  have hblock := h.readBlock himg hsep hbuf hk hr
  rw [entryBlock, if_pos hdirect, ← hag.direct k hdirect] at hblock
  exact hblock

lemma FileIn.readIndirect (h : FileIn image b content) (himg : ImageAt mem img image)
    (hsep : buf + content.length ≤ img ∨ img + imageSize ≤ buf)
    (hbuf : buf + content.length ≤ 2 ^ 64) (hk : directNum + k < dataBlocks content.length)
    (hr : Reading mem img buf content (directNum + k) s) :
    Reading mem img buf content (directNum + (k + 1)) (Jokerix.readIndirect img
      (kernelBlockAddr img (inodeAt image b).indirect) s k) := by
  have hind := h.indirect (by omega)
  have hle := block_le hind
  have hmax := h.max
  have hinside : 4 * k + 4 ≤ blockSize := by
    simp only [blockSize, blockNum, directNum] at *
    omega
  have himg' := hr.imageAt himg hsep
  have hblock := h.readBlock himg hsep hbuf hk (s := { s with
    reads := s.reads ++ [(kernelBlockAddr img (inodeAt image b).indirect + 4 * k, 4)] }) ?_
  · rw [entryBlock, if_neg (by omega), Nat.add_sub_cancel_left] at hblock
    rw [Jokerix.readIndirect]
    simp only [kernelBlockAddr_eq himg.fits hind] at hblock ⊢
    rw [Nat.add_assoc img, himg'.loadLE (by omega), ← Nat.add_assoc img]
    exact hblock
  · refine ⟨hr.mem, hr.buf, hr.left, hr.reads.append (ReadsImage.singleton ?_ ?_)⟩ <;>
      rw [kernelBlockAddr_eq himg.fits hind] <;> omega

/-- A file that is not empty is read block by block. -/
lemma FileIn.reading (h : FileIn image b content) (himg : ImageAt mem img image)
    (hsep : buf + content.length ≤ img ∨ img + imageSize ≤ buf)
    (hbuf : buf + content.length ≤ 2 ^ 64) (hne : content ≠ []) :
    ∃ r, Jokerix.readall img mem (img + b * blockSize) buf = .ok r ∧
      Reading mem img buf content (dataBlocks content.length) r := by
  have hpos := List.length_pos_iff.mpr hne
  have hmax := h.max
  obtain ⟨htype, _, hsize⟩ := h.numbers himg
  have hag := himg.inode h.block
  have hle := block_le h.block
  have hb : (BitVec.ofNat 32 (readInode mem (img + b * blockSize)).blocks).toInt =
      dataBlocks content.length := by
    have hlt := h.length_le
    have hcount : fileBlocks content.length = dataBlocks content.length :=
      fileBlocks_eq hpos (by omega)
    rw [hag.blocks, h.blocks, hcount]
    rw [blockNum] at hmax
    rw [BitVec.toInt_eq_toNat_of_lt (by rw [BitVec.toNat_ofNat]; omega), BitVec.toNat_ofNat,
      Nat.mod_eq_of_lt (by omega)]
  have hstart : Reading mem img buf content 0 ⟨mem, buf, content.length,
      [(img + b * blockSize, sizeofInode)]⟩ := by
    have hinode : sizeofInode ≤ blockSize := by decide
    have hlt : buf < 2 ^ 64 := by omega
    refine ⟨?_, ?_, ?_, ReadsImage.singleton (by omega) (by omega)⟩
    · rw [Nat.zero_mul, List.take_zero]
      rfl
    · simp only [Nat.zero_mul, List.take_zero, List.length_nil, Nat.add_zero]
      rw [Nat.mod_eq_of_lt hlt]
    · rw [Nat.zero_mul, List.drop_zero]
  rw [Jokerix.readall]
  simp only [hb, hsize, if_neg (not_not.mpr htype)]
  split_ifs with hdirect
  · refine ⟨_, rfl, ?_⟩
    rw [Int.toNat_natCast]
    exact foldl_range_induction hstart fun i hi r hr =>
      h.readDirect himg hsep hbuf hi (by rw [directNum]; omega) hr
  · have hfirst : Reading mem img buf content directNum _ :=
      foldl_range_induction hstart fun i hi r hr =>
        h.readDirect himg hsep hbuf (by rw [directNum] at hi; omega) hi hr
    refine ⟨_, rfl, ?_⟩
    have hag' := (hfirst.imageAt himg hsep).inode h.block
    set rest := ((dataBlocks content.length : ℤ) - 12).toNat with hrest
    have hsum : directNum + rest = dataBlocks content.length := by
      rw [directNum]
      omega
    rw [directNum] at hag'
    rw [hag'.indirect, ← hsum]
    refine foldl_range_induction (P := fun i r => Reading mem img buf content (directNum + i) r)
      hfirst ?_
    intro i hi r hr
    exact h.readIndirect himg hsep hbuf (by omega) hr

/-- The buffer holds the file in the end. -/
lemma FileIn.readall (h : FileIn image b content) (himg : ImageAt mem img image)
    (hsep : buf + content.length ≤ img ∨ img + imageSize ≤ buf)
    (hbuf : buf + content.length ≤ 2 ^ 64) (hne : content ≠ []) :
    ∃ r, Jokerix.readall img mem (img + b * blockSize) buf = .ok r ∧ ReadsImage img r.reads ∧
      r.mem = Bytes.store mem buf content := by
  obtain ⟨r, hr, hreading⟩ := h.reading himg hsep hbuf hne
  have htake : content.take (dataBlocks content.length * blockSize) = content := by
    apply List.take_of_length_le
    simp only [dataBlocks, blockSize]
    omega
  exact ⟨r, hr, hreading.reads, by rw [hreading.mem, htake]⟩

/-! ### Paths to files -/

variable {root d : Listing} {c : List UInt8} {j o : ℕ} {e : Entry} {node : Node}

lemma Listing.Proper.find (hp : d.Proper) (h : d.find c = some (j, o, e)) :
    (c ≠ [] ∧ slash ∉ c) ∧ (c ≠ dot ∧ c ≠ dotdot) ∧ ∀ sub, e = .dir sub → sub.Proper := by
  induction d generalizing j o with
  | nil => cases h
  | other _ _ ih => exact ih hp h
  | file name content rest ih =>
    obtain ⟨hdot, hdotdot, _, hrest⟩ := hp
    rw [Listing.find] at h
    split_ifs at h with hname
    · cases h
      subst hname
      exact ⟨⟨name.ne_nil, name.no_slash⟩, ⟨hdot, hdotdot⟩, fun sub h => by cases h⟩
    · simp only [Option.map_eq_some_iff, Prod.exists, Prod.mk.injEq] at h
      obtain ⟨j', o', e', h', rfl, rfl, rfl⟩ := h
      exact ih hrest h'
  | dir name sub rest _ ih =>
    obtain ⟨hdot, hdotdot, _, hsub, hrest⟩ := hp
    rw [Listing.find] at h
    split_ifs at h with hname
    · cases h
      subst hname
      refine ⟨⟨name.ne_nil, name.no_slash⟩, ⟨hdot, hdotdot⟩, ?_⟩
      rintro sub' ⟨⟩
      exact hsub
    · simp only [Option.map_eq_some_iff, Prod.exists, Prod.mk.injEq] at h
      obtain ⟨j', o', e', h', rfl, rfl, rfl⟩ := h
      exact ih hrest h'

/-- The names on the way to a node lead to it. -/
lemma Listing.follow_place (hp : root.Proper) (h : root.place node = some (k, e)) :
    root.graph.follow [] node.reverse = some node ∧ (∀ c ∈ node, c ≠ [] ∧ slash ∉ c) ∧
      ∀ sub, e = .dir sub → sub.Proper := by
  induction node generalizing k e with
  | nil =>
    cases h
    refine ⟨rfl, by simp, ?_⟩
    rintro sub ⟨⟩
    exact hp
  | cons c node ih =>
    have hsome : (root.place (c :: node)).isSome := by rw [h]; rfl
    obtain ⟨m, d, j, o, hplace, hfind, rfl⟩ := Listing.place_cons h
    obtain ⟨hfollow, hparts, hsub⟩ := ih hplace
    obtain ⟨hc, ⟨hdot, hdotdot⟩, hproper⟩ := (hsub d rfl).find hfind
    have hdir : root.graph.isDir node = true := by
      change root.isDir node = true
      rw [Listing.isDir, hplace]
    have hstep : root.graph.step node c = some (c :: node) := by
      rw [Paths.Graph.step, if_pos hdir, if_neg (show c ≠ root.graph.stay from hdot),
        if_neg (show c ≠ root.graph.up from hdotdot)]
      exact if_pos hsome
    refine ⟨?_, List.forall_mem_cons.mpr ⟨hc, hparts⟩, hproper⟩
    rw [List.reverse_cons, Paths.Graph.follow_append, hfollow]
    simp [hstep]

/-- The kernel finds a node at its path, with a slash in front or without. -/
lemma Packed.lookup_nodePath (h : Packed z root p) (hp : root.Proper)
    (himg : ImageAt mem img p.image) (hplace : root.place node = some (k, e)) {path : List UInt8}
    (hpath : path = nodePath node ∨ path = slash :: nodePath node) :
    lookup (Jokerix.initFs mem img) mem 0 path = inodeAddr img p.image root (some node) := by
  obtain ⟨hfollow, hparts, _⟩ := Listing.follow_place hp hplace
  have hparts' : ∀ c ∈ node.reverse, c ≠ [] ∧ slash ∉ c := fun c hc =>
    hparts c (List.mem_reverse.mp hc)
  have hsearch : root.graph.search slash [] (nodePath node) = some node := by
    rw [nodePath, Paths.Graph.search_join hparts', hfollow]
  have hstart : ∀ n, (none : Option Node) = some n → (root.place n).isSome := fun _ h => nomatch h
  have hlookup := h.lookup_start himg hstart path
  rw [Option.getD_none] at hlookup
  rcases hpath with rfl | rfl
  · rwa [hsearch] at hlookup
  · have hhead : (nodePath node).head? ≠ some slash := Paths.head?_join_ne hparts'
    rw [Paths.Graph.search_sep hhead] at hlookup
    rw [← hsearch]
    exact hlookup

/-! ### Empty files -/

/-- A block of which nothing is left to read changes nothing. -/
lemma readBlock_of_zero {s : ReadState} (hl : s.l = 0) (src : ℕ) :
    (readBlock s src).mem = s.mem ∧ (readBlock s src).l = 0 := by
  simp [readBlock, hl, copyByteToBuf, copyBytes]

/-- Whatever is read of an empty file, the memory stays. -/
lemma FileIn.readall_mem_nil (h : FileIn image b []) (himg : ImageAt mem img image) (buf : ℕ) :
    ∃ r, Jokerix.readall img mem (img + b * blockSize) buf = .ok r ∧ r.mem = mem := by
  obtain ⟨htype, _, hsize⟩ := h.numbers himg
  have hdirect : ∀ n (s : ReadState), s.mem = mem ∧ s.l = 0 →
      ((List.range n).foldl (Jokerix.readDirect img (img + b * blockSize)) s).mem = mem ∧
        ((List.range n).foldl (Jokerix.readDirect img (img + b * blockSize)) s).l = 0 := by
    intro n s hs
    refine foldl_range_induction (P := fun _ (r : ReadState) => r.mem = mem ∧ r.l = 0) hs ?_
    rintro i _ r ⟨rfl, hl⟩
    exact readBlock_of_zero hl _
  have hindirect : ∀ n u (s : ReadState), s.mem = mem ∧ s.l = 0 →
      ((List.range n).foldl (Jokerix.readIndirect img u) s).mem = mem := by
    intro n u s hs
    refine (foldl_range_induction (P := fun _ (r : ReadState) => r.mem = mem ∧ r.l = 0) hs ?_).1
    rintro i _ r ⟨rfl, hl⟩
    exact readBlock_of_zero (s := { r with reads := r.reads ++ [(u + 4 * i, 4)] }) hl _
  rw [Jokerix.readall]
  simp only [if_neg (not_not.mpr htype), hsize]
  split_ifs
  · exact ⟨_, rfl, (hdirect _ _ ⟨rfl, rfl⟩).1⟩
  · exact ⟨_, rfl, hindirect _ _ _ (hdirect _ _ ⟨rfl, rfl⟩)⟩

end

end Jokerix
