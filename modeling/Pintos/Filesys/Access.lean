/-
The blocks of a file that only grows.

`byte_to_sector` reads the shared `inode->data` once and then walks the
index blocks with the copy; the loops read the length again before they
use the sector. That is sound as long as nobody takes a pointer, an index
entry or a byte of length away: `Onward` is that condition, on the
in-memory inode. A sector once found to be block `k` of the file then
stays block `k` (`IsBlock`).
-/
import Pintos.Filesys.Layout

namespace Pintos.Inode

/-- The file `r` only grows. -/
structure Onward (r : Nat) (fs fs' : Fs) : Prop where
  longer : length (fs.inode r).data ≤ length (fs'.inode r).data
  more : blocks (fs.inode r).data ≤ blocks (fs'.inode r).data
  agrees : Agrees (fs.inode r).data (fs'.inode r).data (blocks (fs.inode r).data)
  follows : Follows fs.disk fs'.disk (fs.inode r).data (blocks (fs.inode r).data)

/-- Sector `x` is block `k` of the file. -/
def IsBlock (r k x : Nat) (fs : Fs) : Prop :=
  k < blocks (fs.inode r).data ∧ blockOf fs.disk (fs.inode r).data k = x

/-- `data` is a copy, perhaps an old one, of the in-memory inode. -/
def Copied (r : Nat) (data : Block) (fs : Fs) : Prop :=
  blocks data ≤ blocks (fs.inode r).data ∧ Agrees data (fs.inode r).data (blocks data)

variable {r k x : Nat} {data : Block} {fs fs' : Fs}

theorem IsBlock.onward (h : IsBlock r k x fs) (ho : Onward r fs fs') : IsBlock r k x fs' := by
  refine ⟨lt_of_lt_of_le h.1 ho.more, ?_⟩
  rw [ho.agrees.blockOf_eq h.1, ho.follows.blockOf_eq h.1, h.2]

theorem Copied.refl (r : Nat) (fs : Fs) : Copied r (fs.inode r).data fs := ⟨le_rfl, Agrees.refl _ _⟩

theorem Copied.onward (h : Copied r data fs) (ho : Onward r fs fs') : Copied r data fs' :=
  ⟨le_trans h.1 ho.more, h.2.trans ho.agrees h.1⟩

/-- A byte within the length is in one of the blocks. -/
theorem block_lt {data : Block} {pos : Nat} (hcap : blocks data ≤ 16522)
    (hpos : (pos : Int) < length data) : pos / 512 < blocks data := by
  have hoff : IsOff (length data) := isOff_toOff _
  have hle := le_of_bytesToSectors (by omega) hoff.2 hcap
  unfold blocks
  rw [bytesToSectors_eq (by omega) hle]
  omega

end Pintos.Inode
