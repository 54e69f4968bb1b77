/-
A sector as the file system reads it: bytes, the 32-bit words of an index
block, and the fields of `struct inode_disk`.

A block is a function of the byte offset; the bytes at 512 and beyond are
whatever lies behind the buffer in memory and are never written.
-/
import Mathlib.Data.Int.DivMod
import Mathlib.Tactic.Ring

namespace Pintos.Inode

abbrev Block := Nat → UInt8

/-- `BLOCK_SECTOR_SIZE`. -/
def sectorSize : Nat := 512

/-- `DIRECT_NUM`. -/
def directNum : Nat := 10

/-- `BLOCKS_IN_INDIRECT`. -/
def blocksInIndirect : Nat := 128

/-- Word `i` of a buffer of `block_sector_t`. -/
def word (b : Block) (i : Nat) : Nat :=
  (b (4 * i)).toNat + 256 * (b (4 * i + 1)).toNat +
    65536 * (b (4 * i + 2)).toNat + 16777216 * (b (4 * i + 3)).toNat

def setWord (b : Block) (i v : Nat) : Block := fun j =>
  if j < sectorSize ∧ j / 4 = i then UInt8.ofNat (v / 256 ^ (j % 4))
  else b j

/-- The static buffer `zeros`. -/
def zeros : Block := fun _ => 0

/-- `memset (buffer, 0, BLOCKS_IN_INDIRECT)`: 128 bytes, not words, of a
buffer with arbitrary contents. -/
def memset (junk : Block) : Block := fun j =>
  if j < blocksInIndirect then 0 else junk j

variable {b : Block} {i : Nat} {v size : Int}

/-- The word that was written. -/
theorem word_setWord_self {v : Nat} (hi : i < 128)
    (hv : v < 4294967296) : word (setWord b i v) i = v := by
  unfold word setWord sectorSize
  rw [if_pos (by omega), if_pos (by omega), if_pos (by omega), if_pos (by omega)]
  have h0 : 4 * i % 4 = 0 := by omega
  have h1 : (4 * i + 1) % 4 = 1 := by omega
  have h2 : (4 * i + 2) % 4 = 2 := by omega
  have h3 : (4 * i + 3) % 4 = 3 := by omega
  rw [h0, h1, h2, h3]
  simp only [UInt8.toNat_ofNat']
  omega

/-- The other words stay. -/
theorem word_setWord_ne {j v : Nat} (hj : j ≠ i) : word (setWord b i v) j = word b j := by
  unfold word setWord
  rw [if_neg (by omega), if_neg (by omega), if_neg (by omega), if_neg (by omega)]

theorem word_memset {junk : Block} (hi : i < 32) : word (memset junk) i = 0 := by
  unfold word memset blocksInIndirect
  rw [if_pos (by omega), if_pos (by omega), if_pos (by omega), if_pos (by omega)]
  rfl

-- ==== inode_disk

/-- A word as an `off_t`. -/
def toOff (w : Nat) : Int := Int.bmod w 4294967296

/-- An `off_t` as a word. -/
def ofOff (v : Int) : Nat := (v % 4294967296).toNat

def isdir (b : Block) : Bool := b 48 != 0

def eof (b : Block) : Int := toOff (word b 13)

def length (b : Block) : Int := toOff (word b 14)

def setEof (b : Block) (v : Int) : Block := setWord b 13 (ofOff v)

def setLength (b : Block) (v : Int) : Block := setWord b 14 (ofOff v)

def setIsdir (b : Block) (v : Bool) : Block := fun j =>
  if j = 48 then (if v then 1 else 0) else b j

/-- `INODE_MAGIC`. -/
def inodeMagic : Nat := 0x494e4f44

/-- `bytes_to_sectors`: the sum is an `int`, the quotient a `size_t`. -/
def bytesToSectors (size : Int) : Nat :=
  ((Int.bmod (size + 511) 4294967296).tdiv 512 % 4294967296).toNat

/-- The range of an `off_t`. -/
def IsOff (v : Int) : Prop := -2147483648 ≤ v ∧ v < 2147483648

theorem toOff_ofOff (h : IsOff v) : toOff (ofOff v) = v := by
  obtain ⟨h1, h2⟩ := h
  unfold toOff ofOff
  rw [Int.bmod_def]
  omega

theorem ofOff_lt (v : Int) : ofOff v < 4294967296 := by
  unfold ofOff
  omega

theorem isOff_toOff (w : Nat) : IsOff (toOff w) := by
  unfold IsOff toOff
  rw [Int.bmod_def]
  omega

theorem length_setLength (h : IsOff v) : length (setLength b v) = v := by
  unfold length setLength
  rw [word_setWord_self (by omega) (ofOff_lt v), toOff_ofOff h]

theorem eof_setEof (h : IsOff v) : eof (setEof b v) = v := by
  unfold eof setEof
  rw [word_setWord_self (by omega) (ofOff_lt v), toOff_ofOff h]

/-- `bytes_to_sectors` without overflow. -/
theorem bytesToSectors_eq (h0 : 0 ≤ size) (h : size ≤ 2147483136) :
    bytesToSectors size = ((size + 511) / 512).toNat := by
  have hsum : Int.bmod (size + 511) 4294967296 = size + 511 := by
    rw [Int.bmod_def]
    omega
  unfold bytesToSectors
  rw [hsum, Int.tdiv_eq_ediv_of_nonneg (by omega)]
  omega

/-- Near the end of the range the sum overflows, and the result is far
beyond any file. -/
theorem le_of_bytesToSectors (h0 : 0 ≤ size) (hoff : size < 2147483648)
    (h : bytesToSectors size ≤ 16522) : size ≤ 2147483136 := by
  by_contra hgt
  have hsum : Int.bmod (size + 511) 4294967296 = size + 511 - 4294967296 := by
    rw [Int.bmod_def]
    omega
  unfold bytesToSectors at h
  rw [hsum] at h
  have hneg : (size + 511 - 4294967296).tdiv 512 = -((4294967296 - (size + 511)) / 512) := by
    rw [← Int.tdiv_eq_ediv_of_nonneg (by omega), ← Int.neg_tdiv]
    congr 1
    omega
  omega

end Pintos.Inode
