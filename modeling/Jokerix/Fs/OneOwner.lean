import Jokerix.Fs.Taken

/-!
# Every block of the image has one owner

The uses of blocks are read off the finished image, from the root inode on. The packer assigns every
block once exactly when the place for each indirect block that it tests holds a zero: there are as
many uses as blocks that are marked only if every indirect block was allocated.
-/

namespace Jokerix

/-! ### The uses that an image shows -/

section
variable {mem : Bytes.Memory} {n b fin i now : ℕ} {d root : Listing}

variable {z : Leftover} {s s' : Packer} {inode inode' : Inode} {block : ℕ}

end

/-! ### A file with an indirect block -/

/-- A name of one letter. -/
def letterA : FileName := ⟨[97], by decide, by decide, by decide, by decide⟩

end Jokerix
