/-
`filesys/inode.c` and the allocator of `filesys/free-map.c`, as programs
over the block device and the shared memory of the file system.

# Commands

A command is what one thread does between two points at which another
may run: a `block_read`, a `block_write`, a load of the in-memory inode
from its sector, a scan of the free map, a lock operation, or an access
to the fields of a `struct inode`. Sector numbers past the end of the
device and failed assertions stop the kernel; a lock that is taken blocks
(and stops the kernel if its holder asks again).

# What is left out

Memory is available: no `malloc` or `calloc` fails. `bitmap_write` is one
command: the free map's file has its full length since its creation, so
the call never reaches `sector_allocate`, and no other file uses the
sectors it writes; the file's contents are kept as a bitmap (`stored`).
`junk` supplies the contents of the uninitialised stack buffers.
-/
import Pintos.Data.Bitmap
import Pintos.Filesys.Block
import Pintos.Lib.Resume

namespace Pintos.Inode

open Resume

abbrev Tid := Nat

/-- A `struct inode`. -/
structure MemInode where
  sector : Nat
  openCnt : Int
  removed : Bool
  denyWriteCnt : Nat
  data : Block
  /-- The holder of `inode_lock`. -/
  lock : Option Tid

structure Fs where
  /-- Sectors of `fs_device`. -/
  size : Nat
  disk : Nat → Block
  freeMap : Bitmap
  /-- `free_map_file != NULL`. -/
  mapFile : Bool
  /-- The contents of the free map's file. -/
  stored : Bitmap
  inode : Nat → MemInode
  /-- The number of `struct inode`s allocated so far. -/
  count : Nat
  openInodes : List Nat

inductive Cmd where
  | blockRead (s : Nat)
  | blockWrite (s : Nat) (b : Block)
  | scanAndFlip
  /-- `bitmap_set_multiple (free_map, s, 1, false)`. -/
  | setFree (s : Nat)
  /-- `ASSERT (bitmap_all (free_map, s, 1))`. -/
  | assertUsed (s : Nat)
  | bitmapWrite
  | mapFile
  | assert (b : Bool)
  /-- The fields of a `struct inode`. -/
  | inode (r : Nat)
  /-- `block_read (fs_device, inode->sector, &inode->data)`. -/
  | load (r : Nat)
  | acquire (r : Nat)
  | release (r : Nat)
  /-- The search of `inode_open`. -/
  | findOpen (s : Nat)
  | reopen (r : Nat)
  /-- `malloc`, `list_push_front` and the initialisations. -/
  | newInode (s : Nat)
  /-- `--inode->open_cnt`. -/
  | dropRef (r : Nat)
  | unlist (r : Nat)

def Ret : Cmd → Type
  | .blockRead _ => Block
  | .scanAndFlip => Option Nat
  | .bitmapWrite | .mapFile => Bool
  | .inode _ => MemInode
  | .findOpen _ => Option Nat
  | .newInode _ => Nat
  | .dropRef _ => Int
  | .blockWrite _ _ | .setFree _ | .assertUsed _ | .assert _ | .load _
  | .acquire _ | .release _ | .reopen _ | .unlist _ => Unit

namespace Fs

def setDisk (fs : Fs) (s : Nat) (b : Block) : Fs :=
  { fs with disk := fun x => if x = s then b else fs.disk x }

def setInode (fs : Fs) (r : Nat) (i : MemInode) : Fs :=
  { fs with inode := fun x => if x = r then i else fs.inode x }

/-- One command of thread `t`. -/
def act (t : Tid) : (c : Cmd) → Fs → Option (Ret c × Fs)
  | .blockRead s, fs => if s < fs.size then some (fs.disk s, fs) else none
  | .blockWrite s b, fs =>
    if s < fs.size then some ((), fs.setDisk s b) else none
  | .scanAndFlip, fs =>
    some ((fs.freeMap.scanAndFlip 0 1 false).1,
      { fs with freeMap := (fs.freeMap.scanAndFlip 0 1 false).2 })
  | .setFree s, fs => some ((), { fs with freeMap := fs.freeMap.setMultiple s 1 false })
  | .assertUsed s, fs => if fs.freeMap.all s 1 then some ((), fs) else none
  | .bitmapWrite, fs => some (true, { fs with stored := fs.freeMap })
  | .mapFile, fs => some (fs.mapFile, fs)
  | .assert b, fs => if b then some ((), fs) else none
  | .inode r, fs => some (fs.inode r, fs)
  | .load r, fs =>
    if (fs.inode r).sector < fs.size then
      some ((), fs.setInode r { fs.inode r with data := fs.disk (fs.inode r).sector })
    else none
  | .acquire r, fs =>
    if (fs.inode r).lock = none then
      some ((), fs.setInode r { fs.inode r with lock := some t })
    else none
  | .release r, fs =>
    if (fs.inode r).lock = some t then
      some ((), fs.setInode r { fs.inode r with lock := none })
    else none
  | .findOpen s, fs => some (fs.openInodes.find? fun r => (fs.inode r).sector == s, fs)
  | .reopen r, fs =>
    some ((), fs.setInode r { fs.inode r with openCnt := (fs.inode r).openCnt + 1 })
  | .newInode s, fs =>
    some (fs.count, { fs with
      count := fs.count + 1
      openInodes := fs.count :: fs.openInodes }.setInode fs.count
        { sector := s, openCnt := 1, removed := false, denyWriteCnt := 0
          data := (fs.inode fs.count).data, lock := none })
  | .dropRef r, fs =>
    some ((fs.inode r).openCnt - 1, fs.setInode r
      { fs.inode r with openCnt := (fs.inode r).openCnt - 1 })
  | .unlist r, fs => some ((), { fs with openInodes := fs.openInodes.erase r })

end Fs

variable {fs fs' : Fs} {t : Tid} {v : Unit} {r : Nat}

/-- What a `block_read` does. -/
theorem act_blockRead {x : Nat} {v : Block} (h : fs.act t (.blockRead x) = some (v, fs')) :
    v = fs.disk x ∧ fs' = fs := by
  obtain ⟨-, h⟩ := Option.ite_none_right_eq_some.mp h
  injection h with h
  injection h with hv h
  exact ⟨hv.symm, h.symm⟩

theorem act_inode {v : MemInode} (h : fs.act t (.inode r) = some (v, fs')) :
    v = fs.inode r ∧ fs' = fs := by
  injection h with h
  injection h with hv h
  exact ⟨hv.symm, h.symm⟩

/-- What a `block_write` does. -/
theorem act_blockWrite {x : Nat} {b : Block} (h : fs.act t (.blockWrite x b) = some (v, fs')) :
    fs' = fs.setDisk x b := by
  obtain ⟨-, h⟩ := Option.ite_none_right_eq_some.mp h
  injection h with h
  injection h with _ h
  exact h.symm

/-- What a guarded update of an inode in memory does. -/
theorem guarded_setInode {c : Prop} [Decidable c] {i : MemInode}
    (h : (if c then some ((), fs.setInode r i) else none) = some (v, fs')) :
    c ∧ fs' = fs.setInode r i := by
  obtain ⟨hc, h⟩ := Option.ite_none_right_eq_some.mp h
  injection h with h
  injection h with _ h
  exact ⟨hc, h.symm⟩

theorem act_load (h : fs.act t (.load r) = some (v, fs')) : fs' = fs.setInode r
      { fs.inode r with data := fs.disk (fs.inode r).sector } :=
  (guarded_setInode h).2

theorem act_acquire (h : fs.act t (.acquire r) = some (v, fs')) :
    (fs.inode r).lock = none ∧ fs' = fs.setInode r { fs.inode r with lock := some t } :=
  guarded_setInode h

theorem act_release (h : fs.act t (.release r) = some (v, fs')) :
    (fs.inode r).lock = some t ∧ fs' = fs.setInode r { fs.inode r with lock := none } :=
  guarded_setInode h

theorem act_assert {b : Bool} (h : fs.act t (.assert b) = some (v, fs')) : b = true ∧ fs' = fs := by
  obtain ⟨hb, h⟩ := Option.ite_none_right_eq_some.mp h
  injection h with h
  injection h with _ h
  exact ⟨hb, h.symm⟩

abbrev P := Prog Cmd Ret

def run (c : Cmd) : P (Ret c) := Prog.call c

def blockRead (s : Nat) : P Block := run (.blockRead s)

def blockWrite (s : Nat) (b : Block) : P Unit := run (.blockWrite s b)

def getInode (r : Nat) : P MemInode := run (.inode r)

def loadInode (r : Nat) : P Unit := run (.load r)

def scanAndFlip : P (Option Nat) := run .scanAndFlip

def setFree (s : Nat) : P Unit := run (.setFree s)

def assertUsed (s : Nat) : P Unit := run (.assertUsed s)

def bitmapWrite : P Bool := run .bitmapWrite

def mapFileOpen : P Bool := run .mapFile

def kassert (b : Bool) : P Unit := run (.assert b)

def acquire (r : Nat) : P Unit := run (.acquire r)

def release (r : Nat) : P Unit := run (.release r)

def findOpen (s : Nat) : P (Option Nat) := run (.findOpen s)

def reopen (r : Nat) : P Unit := run (.reopen r)

def newInode (s : Nat) : P Nat := run (.newInode s)

def dropRef (r : Nat) : P Int := run (.dropRef r)

def unlist (r : Nat) : P Unit := run (.unlist r)

-- ==== running alone

section Exec

open Resume.Prog

variable (t : Tid) (fs : Fs) (r s : Nat)

/-- A command that has run alone has had its effect. -/
theorem act_of_run {t : Tid} {fs : Fs} {c : Cmd} {v : Ret c × Fs}
    (h : (run c).exec (Fs.act t) fs = some v) : fs.act t c = some v :=
  (exec_call (C := Cmd) c fs).symm.trans h

theorem exec_getInode : (getInode r).exec (Fs.act t) fs = some (fs.inode r, fs) :=
  exec_call (C := Cmd) (Cmd.inode r) fs

theorem exec_findOpen : (findOpen s).exec (Fs.act t) fs
    = some (fs.openInodes.find? fun r => (fs.inode r).sector == s, fs) :=
  exec_call (C := Cmd) (Cmd.findOpen s) fs

theorem exec_newInode : (newInode s).exec (Fs.act t) fs
    = some (fs.count, { fs with
        count := fs.count + 1
        openInodes := fs.count :: fs.openInodes }.setInode fs.count
          { sector := s, openCnt := 1, removed := false, denyWriteCnt := 0
            data := (fs.inode fs.count).data, lock := none }) :=
  exec_call (C := Cmd) (Cmd.newInode s) fs

theorem exec_loadInode : (loadInode r).exec (Fs.act t) fs
    = if (fs.inode r).sector < fs.size then
        some ((), fs.setInode r { fs.inode r with data := fs.disk (fs.inode r).sector })
      else none :=
  exec_call (C := Cmd) (Cmd.load r) fs

theorem exec_dropRef : (dropRef r).exec (Fs.act t) fs
    = some ((fs.inode r).openCnt - 1, fs.setInode r
      { fs.inode r with openCnt := (fs.inode r).openCnt - 1 }) :=
  exec_call (C := Cmd) (Cmd.dropRef r) fs

theorem exec_unlist : (unlist r).exec (Fs.act t) fs
    = some ((), { fs with openInodes := fs.openInodes.erase r }) :=
  exec_call (C := Cmd) (Cmd.unlist r) fs

end Exec

-- ==== free-map.c

/-- `free_map_allocate (1, &sector)`. -/
def freeMapAllocate : P (Option Nat) := do
  let sector ← scanAndFlip
  match sector with
  | none => pure none
  | some s =>
    if ← mapFileOpen then
      if ← bitmapWrite then pure (some s)
      else do
        setFree s
        pure none
    else pure (some s)

/-- `free_map_release (sector, 1)`. -/
def freeMapRelease (s : Nat) : P Unit := do
  assertUsed s
  setFree s
  let _ ← bitmapWrite
  pure ()

-- ==== growth

/-- What is done before index `i` into an array of `n` elements is used. -/
abbrev Use := Nat → Nat → P Unit

/-- As in the source. -/
def unchecked : Use := fun _ _ => pure ()

/-- With an assertion that the index is one. -/
def checked : Use := fun i n => kassert (decide (i < n))

section Growth

variable (use : Use)

/-- The loop of `indirect_block_allocate`; it stops early, without notice,
when the free map is exhausted. -/
def fillIndirect : Nat → Nat → Block → P Block
  | 0, _, buffer => pure buffer
  | add + 1, current, buffer => do
      use current blocksInIndirect
      let sector ← freeMapAllocate
      match sector with
      | none => pure buffer
      | some s => do
          blockWrite s zeros
          fillIndirect add (current + 1) (setWord buffer current s)

/-- The rest of `indirect_block_allocate`, with the block's sector. -/
def extendIndirect (current add : Nat) (buffer : Block) (sector : Nat) : P Nat := do
  let buffer ← fillIndirect use add current buffer
  blockWrite sector buffer
  pure sector

def indirectBlockAllocate (junk : Block) (current add indirect : Nat) : P Nat :=
  if indirect = 0 then do
    let sector ← freeMapAllocate
    match sector with
    | none => pure 0
    | some s => extendIndirect use current add (memset junk) s
  else do
    let buffer ← blockRead indirect
    extendIndirect use current add buffer indirect

/-- The loop of `double_indirect_block_allocate`; `fuel` bounds the number
of indirect blocks. -/
def fillDouble (junk : Nat → Block) : Nat → Nat → Nat → Block → P Block
  | 0, _, _, buffer => pure buffer
  | fuel + 1, current, add, buffer =>
    if add = 0 then pure buffer
    else do
      let index := current / blocksInIndirect
      let remaining := blocksInIndirect - current % blocksInIndirect
      let sectors := min add remaining
      use index blocksInIndirect
      let s ← indirectBlockAllocate use (junk fuel)
        (current % blocksInIndirect) sectors (word buffer index)
      fillDouble junk fuel (current + sectors) (add - sectors) (setWord buffer index s)

def extendDouble (junk : Nat → Block) (current add : Nat) (buffer : Block)
    (sector : Nat) : P Nat := do
  let buffer ← fillDouble use junk add current add buffer
  blockWrite sector buffer
  pure sector

def doubleIndirectBlockAllocate (junk : Nat → Block) (current add double : Nat) : P Nat :=
  if double = 0 then do
    let sector ← freeMapAllocate
    match sector with
    | none => pure 0
    | some s => extendDouble use junk current add (memset (junk add)) s
  else do
    let buffer ← blockRead double
    extendDouble use junk current add buffer double

/-- What `sector_allocate` leaves: its result and the changed inode. -/
structure Grown where
  ok : Bool
  ino : Block

/-- The loop over the direct blocks, with what is left to add. -/
def allocateDirect : Nat → Nat → Block → P (Grown × Nat × Nat)
  | 0, current, ino => pure (⟨true, ino⟩, current, 0)
  | add + 1, current, ino =>
    if current < directNum then do
      use current directNum
      let sector ← freeMapAllocate
      match sector with
      | none => pure (⟨false, ino⟩, current, add + 1)
      | some s => do
          blockWrite s zeros
          allocateDirect add (current + 1) (setWord ino current s)
    else pure (⟨true, ino⟩, current, add + 1)

/-- The double indirect block, if there is anything left for it. -/
def allocateDouble (junk : Nat → Block) (current add : Nat) (ino : Block) : P Grown :=
  if 0 < add then do
    let s ← doubleIndirectBlockAllocate use (fun k => junk (k + 1))
      (current - directNum - blocksInIndirect) add (word ino 11)
    pure ⟨decide (s ≠ 0), setWord ino 11 s⟩
  else pure ⟨true, ino⟩

/-- The index blocks. -/
def allocateIndirect (junk : Nat → Block) (current add : Nat) (ino : Block) : P Grown :=
  if 0 < add ∧ current < directNum + blocksInIndirect then do
    let sectors := if add > blocksInIndirect then blocksInIndirect else add
    let s ← indirectBlockAllocate use (junk 0) (current - directNum) sectors (word ino 10)
    if s = 0 then pure ⟨false, setWord ino 10 s⟩
    else
      allocateDouble use junk (current + sectors) (add - sectors) (setWord ino 10 s)
  else allocateDouble use junk current add ino

/-- The most sectors a file can have. -/
def maxSectors : Nat := directNum + blocksInIndirect + blocksInIndirect * blocksInIndirect

/-- `sector_allocate`, by what is done before an index is used. -/
def sectorAllocateWith (junk : Nat → Block) (add : Nat) (ino : Block) : P Grown :=
  let current := bytesToSectors (length ino)
  if (current + add) % 4294967296 > maxSectors then pure ⟨false, ino⟩
  else if add = 0 then pure ⟨true, ino⟩
  else do
    let (g, current, add) ← allocateDirect use add current ino
    if g.ok then allocateIndirect use junk current add g.ino
    else pure g

end Growth

def sectorAllocate : (Nat → Block) → Nat → Block → P Grown := sectorAllocateWith unchecked

/-- The `calloc`ed inode that `inode_create` fills in. -/
def blankInode (dir : Bool) : Block := setIsdir (setWord (setLength zeros 0) 15 inodeMagic) dir

def inodeCreate (junk : Nat → Block) (sector : Nat) (len : Int) (dir : Bool) : P Bool := do
  kassert (decide (0 ≤ len))
  let g ← sectorAllocate junk (bytesToSectors len) (blankInode dir)
  if g.ok then do
    blockWrite sector (setEof (setLength g.ino len) len)
    pure true
  else pure false

-- ==== access

/-- The sector of block `n`, from the pointers in `data`. -/
def followPointers (data : Block) (n : Nat) : P Nat :=
  if n < directNum then pure (word data n)
  else if n < blocksInIndirect + directNum then do
    let buffer ← blockRead (word data 10)
    pure (word buffer (n - directNum))
  else do
    let buffer ← blockRead (word data 11)
    let buffer2 ← blockRead (word buffer ((n - directNum - blocksInIndirect) / blocksInIndirect))
    pure (word buffer2 ((n - directNum - blocksInIndirect) % blocksInIndirect))

/-- `(block_sector_t) -1`. -/
def noSector : Nat := 4294967295

def byteToSector (r pos : Nat) : P Nat := do
  let i ← getInode r
  if (pos : Int) ≤ length i.data then followPointers i.data (pos / sectorSize)
  else pure noSector

/-- The bytes to move in one round of the loops below; 0 ends them. -/
def chunkSize (size : Nat) (left : Int) (sectorOfs : Nat) : Nat :=
  min size (min left.toNat (sectorSize - sectorOfs))

def readLoop (r : Nat) : Nat → Nat → Nat → P (List UInt8)
  | 0, _, _ => pure []
  | fuel + 1, size, offset =>
    if size = 0 then pure []
    else do
      let sector ← byteToSector r offset
      let i ← getInode r
      let ofs := offset % sectorSize
      let chunk := chunkSize size (eof i.data - offset) ofs
      if chunk = 0 then pure []
      else do
        let b ← blockRead sector
        let rest ← readLoop r fuel (size - chunk) (offset + chunk)
        pure ((List.range chunk).map (fun j => b (ofs + j)) ++ rest)

def inodeReadAt (r size offset : Nat) : P (List UInt8) := readLoop r size size offset

/-- `chunk` bytes of `buf`, from byte `done` on, put into `b` at `ofs`. -/
def patch (b : Block) (ofs chunk : Nat) (buf : Nat → UInt8) (done : Nat) : Block := fun j =>
  if ofs ≤ j ∧ j < ofs + chunk then buf (done + (j - ofs)) else b j

/-- One round of the data loop: a whole sector directly, part of one
through the bounce buffer. -/
def writeChunk (sector ofs chunk : Nat) (buf : Nat → UInt8) (done : Nat) : P Unit :=
  if ofs = 0 ∧ chunk = sectorSize then
    blockWrite sector (patch zeros ofs chunk buf done)
  else if 0 < ofs ∨ chunk < sectorSize - ofs then do
    let bounce ← blockRead sector
    blockWrite sector (patch bounce ofs chunk buf done)
  else blockWrite sector (patch zeros ofs chunk buf done)

/-- A chunk that is not a whole sector. -/
def needsBounce (ofs chunk : Nat) : Bool := !(ofs == 0 && chunk == sectorSize)

/-- The data loop; `mem` is whether there is memory for the bounce buffer,
without which it ends at the first sector that needs it. -/
def writeLoop (mem : Bool) (r : Nat) (buf : Nat → UInt8) : Nat → Nat → Nat → Nat → P Nat
  | 0, _, _, done => pure done
  | fuel + 1, size, offset, done =>
    if size = 0 then pure done
    else do
      let sector ← byteToSector r offset
      let i ← getInode r
      let ofs := offset % sectorSize
      let chunk := chunkSize size (length i.data - offset) ofs
      if chunk = 0 then pure done
      else if needsBounce ofs chunk && !mem then pure done
      else do
        writeChunk sector ofs chunk buf done
        writeLoop mem r buf fuel (size - chunk) (offset + chunk) (done + chunk)

/-- `offset + size` in `off_t`. -/
def newLength (offset size : Nat) : Int := toOff (offset + size)

/-- The private copy grows. -/
def growInode (junk : Nat → Block) (i : MemInode) (len : Int) (ino : Block) : P Block :=
  if bytesToSectors len > bytesToSectors (length i.data) then do
    let g ← sectorAllocate junk (bytesToSectors len - bytesToSectors (length i.data)) ino
    pure g.ino
  else pure ino

/-- The new length goes to disk and back into memory. -/
def publishLength (r sector : Nat) (len : Int) (ino : Block) : P Block :=
  if len > length ino then do
    blockWrite sector (setLength ino len)
    loadInode r
    pure (setLength ino len)
  else pure ino

/-- The new end of file goes to disk and back into memory. -/
def publishEof (r sector : Nat) (len : Int) (ino : Block) : P Unit :=
  if len > eof ino then do
    blockWrite sector (setEof ino len)
    loadInode r
  else pure ()

def acquireFile (r : Nat) : P Unit := do
  let i ← getInode r
  if isdir i.data then pure () else acquire r

def releaseFile (r : Nat) : P Unit := do
  let i ← getInode r
  if isdir i.data then pure () else release r

/-- `inode_write_at`, with or without memory for the bounce buffer. -/
def inodeWriteAtMem (mem : Bool) (junk : Nat → Block) (r : Nat) (buf : Nat → UInt8)
    (size offset : Nat) : P Nat := do
  let i ← getInode r
  if i.denyWriteCnt ≠ 0 then pure 0
  else do
    let len := newLength offset size
    acquireFile r
    let i ← getInode r
    let ino ← blockRead i.sector
    let ino ← growInode junk i len ino
    let ino ← publishLength r i.sector len ino
    releaseFile r
    let written ← writeLoop mem r buf size size offset 0
    publishEof r i.sector len ino
    pure written

def inodeWriteAt : (Nat → Block) → Nat → (Nat → UInt8) → Nat → Nat → P Nat := inodeWriteAtMem true

-- ==== open and close

def inodeOpen (s : Nat) : P Nat := do
  let found ← findOpen s
  match found with
  | some r => do
      reopen r
      pure r
  | none => do
      let r ← newInode s
      loadInode r
      pure r

/-- `while (i < n && buffer[i] != 0) free_map_release (buffer[i++], 1)`;
returns the final `i`. -/
def releaseEntries (buffer : Block) (n : Nat) : Nat → Nat → P Nat
  | 0, i => pure i
  | fuel + 1, i =>
    if i < n ∧ word buffer i ≠ 0 then do
      freeMapRelease (word buffer i)
      releaseEntries buffer n fuel (i + 1)
    else pure i

/-- The loop over the indirect blocks under the double indirect block. -/
def releaseIndirects (buffer : Block) : Nat → Nat → P Unit
  | 0, _ => pure ()
  | fuel + 1, i =>
    if i < blocksInIndirect ∧ word buffer i ≠ 0 then do
      let buffer2 ← blockRead (word buffer i)
      let _ ← releaseEntries buffer2 blocksInIndirect blocksInIndirect 0
      freeMapRelease (word buffer i)
      releaseIndirects buffer fuel (i + 1)
    else pure ()

/-- The blocks of a removed inode; `junk` is the uninitialised buffer that
is looked at when there is no indirect block. The loops test an index
before they use it, the tests between the levels do not. -/
def releaseBlocks (use : Use) (junk : Block) (i : MemInode) : P Unit := do
  freeMapRelease i.sector
  let n ← releaseEntries i.data directNum directNum 0
  use n directNum
  let (buffer, n) ←
    if word i.data n ≠ 0 ∧ word i.data 10 ≠ 0 then do
      let buffer ← blockRead (word i.data 10)
      let n ← releaseEntries buffer blocksInIndirect blocksInIndirect 0
      freeMapRelease (word i.data 10)
      pure (buffer, n)
    else pure (junk, n)
  use n blocksInIndirect
  if word buffer n ≠ 0 ∧ word i.data 11 ≠ 0 then do
    let buffer ← blockRead (word i.data 11)
    releaseIndirects buffer blocksInIndirect 0
    freeMapRelease (word i.data 11)
  else pure ()

/-- `inode_close`, by what is done before an index is used. -/
def inodeCloseWith (use : Use) (junk : Block) (r : Nat) : P Unit := do
  let n ← dropRef r
  if n = 0 then do
    unlist r
    let i ← getInode r
    if i.removed then releaseBlocks use junk i else pure ()
  else pure ()

def inodeClose : Block → Nat → P Unit := inodeCloseWith unchecked

end Pintos.Inode
