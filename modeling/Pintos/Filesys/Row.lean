/-
Files whose blocks lie in a row.

`row n ..` is a volume with the free map's inode at sector 0 and one file,
of `n` whole blocks, open. Every sector number on it is a formula: the
inode is at sector 2, the indirect block at 3, the double indirect block
at 4, the indirect blocks under it from 10 on, and block `i` at 64 + `i`.
So the behaviour of the code at a given size can be looked at without
first building a file of that size.

`stale` is what the double indirect block holds past the part that was
cleared when it was made. `used` words of the free map are all ones.

# It is a file

`row_holds`, `row_tail`: the pointers lead to a sector for each block, and
are null after the last one, for every `n` that the cleared part of the
double indirect block is enough for.
-/
import Pintos.Filesys.Layout

namespace Pintos.Inode

/-- A block given by its words. -/
def ofWords (f : Nat → Nat) : Block := fun b =>
  UInt8.ofNat (f (b / 4) / 256 ^ (b % 4))

theorem word_ofWords {f : Nat → Nat} {i : Nat} (h : f i < 4294967296) :
    word (ofWords f) i = f i := by
  have hd0 : 4 * i / 4 = i := by omega
  have hd1 : (4 * i + 1) / 4 = i := by omega
  have hd2 : (4 * i + 2) / 4 = i := by omega
  have hd3 : (4 * i + 3) / 4 = i := by omega
  have h0 : 4 * i % 4 = 0 := by omega
  have h1 : (4 * i + 1) % 4 = 1 := by omega
  have h2 : (4 * i + 2) % 4 = 2 := by omega
  have h3 : (4 * i + 3) % 4 = 3 := by omega
  unfold word ofWords
  rw [hd0, hd1, hd2, hd3, h0, h1, h2, h3]
  simp only [UInt8.toNat_ofNat']
  omega

-- ==== the volume

def rowInode (n : Nat) : Block := ofWords fun i =>
  if i < 10 then (if i < n then 64 + i else 0)
  else if i = 10 then (if 10 < n then 3 else 0)
  else if i = 11 then (if 138 < n then 4 else 0)
  else if i = 13 ∨ i = 14 then 512 * n
  else 0

def rowDisk (n stale : Nat) : Nat → Block := fun x =>
  if x = 2 then rowInode n
  else if x = 3 then ofWords fun j => if 10 + j < n then 74 + j else 0
  else if x = 4 then ofWords fun k =>
    if 138 + 128 * k < n then 10 + k else if k < 32 then 0 else stale
  else if 10 ≤ x ∧ x < 64 then ofWords fun j =>
    if 138 + 128 * (x - 10) + j < n then 202 + 128 * (x - 10) + j else 0
  else zeros

def rowOwner (n : Nat) : Owner := fun x =>
  if x = 0 then some (0, .header)
  else if x = 2 then some (2, .header)
  else if x = 3 then (if 10 < n then some (2, .indirect) else none)
  else if x = 4 then (if 138 < n then some (2, .double) else none)
  else if 10 ≤ x ∧ x < 64 then
    (if 138 + 128 * (x - 10) < n then some (2, .inner (x - 10)) else none)
  else if 64 ≤ x ∧ x < 64 + n then some (2, .data (x - 64))
  else none

def rowMap (size used : Nat) : Bitmap where
  bitCnt := size
  bits := fun e => if e < used then BitVec.allOnes 32 else 0#32

def rowMemInode (n : Nat) : MemInode where
  sector := 2
  openCnt := 1
  removed := false
  denyWriteCnt := 0
  data := rowInode n
  lock := none

def row (n stale size used : Nat) : Fs where
  size := size
  disk := rowDisk n stale
  freeMap := rowMap size used
  mapFile := false
  stored := rowMap size used
  inode := fun _ => rowMemInode n
  count := 1
  openInodes := [0]

-- ==== the words

section Words

variable {n stale size used i k : Nat}
variable {x : Nat} {z : Nat × Slot}

section

variable (hn : n ≤ 4234)

include hn

theorem rowInode_word (i : Nat) : word (rowInode n) i =
    if i < 10 then (if i < n then 64 + i else 0)
    else if i = 10 then (if 10 < n then 3 else 0)
    else if i = 11 then (if 138 < n then 4 else 0)
    else if i = 13 ∨ i = 14 then 512 * n
    else 0 := by
  refine word_ofWords ?_
  split
  · split <;> omega
  split
  · split <;> omega
  split
  · split <;> omega
  split <;> omega

theorem rowInode_size (hi : i = 13 ∨ i = 14) :
    toOff (word (rowInode n) i) = ((512 * n : Nat) : Int) := by
  unfold toOff
  rw [rowInode_word hn, if_neg (by omega), if_neg (by omega),
    if_neg (by omega), if_pos hi, Int.bmod_def]
  omega

/-- The file has `n` sectors of bytes. -/
theorem rowInode_length : length (rowInode n) = ((512 * n : Nat) : Int) :=
  rowInode_size hn (by decide)

/-- All of them can be read. -/
theorem rowInode_eof : eof (rowInode n) = ((512 * n : Nat) : Int) := rowInode_size hn (by decide)

/-- It has `n` blocks. -/
theorem rowInode_blocks : blocks (rowInode n) = n := by
  unfold blocks
  rw [rowInode_length hn, bytesToSectors_eq (by omega) (by omega)]
  omega

theorem rowInode_indirect (h : 10 < n) : word (rowInode n) 10 = 3 := by
  rw [rowInode_word hn, if_neg (by omega), if_pos rfl, if_pos h]

theorem rowInode_double (h : 138 < n) : word (rowInode n) 11 = 4 := by
  rw [rowInode_word hn, if_neg (by omega), if_neg (by omega), if_pos rfl, if_pos h]

end

/-- The words of the double indirect block; those from the 32nd on are not
in use. -/
theorem rowDisk_word (hlt : (if 138 + 128 * k < n then 10 + k
      else if k < 32 then 0 else stale) < 4294967296) :
    word (rowDisk n stale 4) k = if 138 + 128 * k < n then 10 + k
      else if k < 32 then 0 else stale := by
  unfold rowDisk
  rw [if_neg (by omega), if_neg (by omega), if_pos rfl]
  exact word_ofWords hlt

theorem rowDisk_double (hn : n ≤ 4234) (h : 138 + 128 * k < n) :
    word (rowDisk n stale 4) k = 10 + k := by
  rw [rowDisk_word (by rw [if_pos h]; omega), if_pos h]

theorem rowDisk_null (hk : k < 32) (h : n ≤ 138 + 128 * k) : word (rowDisk n stale 4) k = 0 := by
  rw [rowDisk_word (by rw [if_neg (by omega), if_pos hk]; omega), if_neg (by omega), if_pos hk]

/-- Block `i` is at its place in the row. -/
theorem row_blockOf (hn : n ≤ 4234) (hi : i < n) :
    blockOf (rowDisk n stale) (rowInode n) i = 64 + i := by
  unfold blockOf
  split
  next h1 => rw [rowInode_word hn, if_pos h1, if_pos hi]
  rename_i h1
  by_cases h2 : i < 138
  · have hword : word (rowDisk n stale 3) (i - 10) =
        if 10 + (i - 10) < n then 74 + (i - 10) else 0 :=
      word_ofWords (f := fun j => if 10 + j < n then 74 + j else 0) (by
        split <;> omega)
    rw [if_pos h2, rowInode_indirect hn (by omega), hword, if_pos (by omega)]
    omega
  · have hin : 138 + 128 * ((i - 138) / 128) < n := inner_index (by omega) hi
    rw [if_neg h2, rowInode_double hn (by omega), rowDisk_double hn hin]
    obtain ⟨k, hk⟩ : ∃ k, (i - 138) / 128 = k := ⟨_, rfl⟩
    unfold rowDisk
    rw [if_neg (by omega), if_neg (by omega), if_neg (by omega),
      if_pos (by omega), Nat.add_sub_cancel_left]
    rw [word_ofWords (by split <;> omega), if_pos (by omega)]
    omega

-- ==== the owner

theorem rowOwner_used (h : rowOwner n x = some z) : x < 64 + n := by
  unfold rowOwner at h
  split at h
  · omega
  split at h
  · omega
  split at h
  · omega
  split at h
  · omega
  split at h
  · omega
  split at h
  · omega
  · cases h

/-- A slot says where its sector is. -/
def rowSector : Slot → Nat
  | .header => 2
  | .indirect => 3
  | .double => 4
  | .inner k => 10 + k
  | .data i => 64 + i

theorem rowOwner_some (h : rowOwner n x = some z) : z = (0, .header) ∧ x = 0 ∨
      z.1 = 2 ∧ x = rowSector z.2 ∧ (z.2 ≠ .header → z.2.start < n) := by
  unfold rowOwner at h
  split at h
  next hx =>
    cases h
    exact .inl ⟨rfl, hx⟩
  refine .inr ?_
  split at h
  next hx =>
    cases h
    exact ⟨rfl, hx, fun hne => absurd rfl hne⟩
  split at h
  next hx =>
    split at h <;> cases h
    next hn => exact ⟨rfl, hx, fun _ => hn⟩
  split at h
  next hx =>
    split at h <;> cases h
    next hn => exact ⟨rfl, hx, fun _ => hn⟩
  split at h
  next hx =>
    split at h <;> cases h
    next hn =>
      refine ⟨rfl, ?_, fun _ => hn⟩
      show x = 10 + (x - 10)
      omega
  obtain ⟨hx, ⟨⟩⟩ := Option.ite_none_right_eq_some.mp h
  refine ⟨rfl, ?_, fun _ => ?_⟩
  · show x = 64 + (x - 64)
    omega
  · show x - 64 < n
    omega

/-- The file owns no block past its last. -/
theorem rowOwner_bounded : Bounded (rowOwner n) 2 n n where
  data := by
    intro x i hx
    rcases rowOwner_some hx with ⟨heq, -⟩ | ⟨-, -, hn⟩
    · cases heq
    · exact hn (by simp)
  index := by
    intro x slot hx hslot
    rcases rowOwner_some hx with ⟨heq, -⟩ | ⟨-, -, hn⟩
    · cases heq
    · refine hn ?_
      rintro rfl
      cases hslot

theorem rowOwner_inj {y : Nat} (hx : rowOwner n x = some z)
    (hy : rowOwner n y = some z) : x = y := by
  rcases rowOwner_some hx with ⟨h1, h2⟩ | ⟨h1, h2, -⟩
  · rcases rowOwner_some hy with ⟨h3, h4⟩ | ⟨h3, h4, -⟩
    · rw [h2, h4]
    · simp [h1] at h3
  · rcases rowOwner_some hy with ⟨h3, h4⟩ | ⟨h3, h4, -⟩
    · simp [h3] at h1
    · rw [h2, h4]

/-- Every block of the file is where its index says. -/
theorem row_mapped (hn : n ≤ 4234) : Mapped (rowDisk n stale) (rowOwner n) 2 (rowInode n) n where
  cap := by omega
  data := by
    intro i hi
    rw [row_blockOf hn hi]
    unfold rowOwner
    rw [if_neg (by omega), if_neg (by omega), if_neg (by omega), if_neg (by omega),
      if_neg (by omega), if_pos (by omega), Nat.add_sub_cancel_left]
  indirect := by
    intro h
    rw [rowInode_indirect hn h]
    unfold rowOwner
    rw [if_neg (by omega), if_neg (by omega), if_pos rfl, if_pos h]
  double := by
    intro h
    rw [rowInode_double hn h]
    unfold rowOwner
    rw [if_neg (by omega), if_neg (by omega), if_neg (by omega), if_pos rfl, if_pos h]
  inner := by
    intro k hk
    rw [rowInode_double hn (by omega), rowDisk_double hn hk]
    unfold rowOwner
    rw [if_neg (by omega), if_neg (by omega), if_neg (by omega), if_neg (by omega),
      if_pos (by omega), Nat.add_sub_cancel_left, if_pos hk]

/-- No pointer leads past the last block. -/
theorem row_tail (hn : n ≤ 4234) : Tail 32 (rowDisk n stale) (rowInode n) n where
  direct := by
    intro i hi h
    rw [rowInode_word hn, if_pos h, if_neg (by omega)]
  indirect := by
    intro h
    rw [rowInode_word hn, if_neg (by omega), if_pos rfl, if_neg (by omega)]
  double := by
    intro h
    rw [rowInode_word hn, if_neg (by omega), if_neg (by omega), if_pos rfl, if_neg (by omega)]
  inner := by
    intro h k hk hle
    rw [rowInode_double hn h, rowDisk_null hk hle]

/-- The sectors in front are in use. -/
theorem rowMap_test (hx : x < 32 * used) : (rowMap size used).test x = true := by
  rw [Bitmap.test_eq]
  show (if Bitmap.elemIdx x < used then BitVec.allOnes 32
    else 0#32).getLsbD (x % 32) = true
  unfold Bitmap.elemIdx
  rw [if_pos (by omega), BitVec.getLsbD_allOnes]
  exact decide_eq_true (Nat.mod_lt x (by omega))

/-- The volume is in order. -/
theorem row_holds (hn : n ≤ 4234) (hused : 64 + n ≤ 32 * used) (hfit : 32 * used ≤ size)
    (hsize : size < 4294967296) : Holds [0, 2] (rowOwner n) (row n stale size used) where
  size := hsize
  bits := rfl
  used := by
    intro x z hx
    have hlt := rowOwner_used hx
    exact ⟨show x < size by omega, rowMap_test (by omega)⟩
  inj := fun x y z => rowOwner_inj
  header := by
    intro I hI
    rcases List.mem_pair.mp hI with rfl | rfl <;> rfl
  mapped := by
    intro I hI
    rcases List.mem_pair.mp hI with rfl | rfl
    · have hzero : blocks ((row n stale size used).disk 0) = 0 := by
        show blocks zeros = 0
        decide
      exact ⟨by omega, fun i hi => by omega, fun h => by omega,
        fun h => by omega, fun k hk => by omega⟩
    · show Mapped (rowDisk n stale) (rowOwner n) 2 (rowInode n) (blocks (rowInode n))
      rw [rowInode_blocks hn]
      exact row_mapped hn

end Words

end Pintos.Inode
