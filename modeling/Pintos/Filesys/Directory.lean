/-
`filesys/directory.c` and `filesys/filesys.c`: path resolution and the
operations on the directory tree, executed one at a time.

# The inode layer

Only what the directory layer sees of an inode is kept. On disk, an inode
is its `isdir` flag and its contents read as directory entries; `owner` is
the inode a data sector belongs to, so that growing a file takes sectors
that were free and the last close of a removed inode frees its own. In
memory, `inode_open` finds the `struct inode` of a sector if there is one,
so between two calls a sector has at most one and the sector names it. An
`inode_close` on an inode that is not allocated is recorded in `dangling`
and changes nothing else.

# Outside choices

`Choices` are the outcomes of the `malloc` calls (`true` once the list is
exhausted) and the sectors `free_map_allocate` hands out (none once the
list is exhausted). A failed assertion, a `PANIC` and an access through a
null pointer stop the kernel. A ghost beside the choices records whether
the data of a regular file have been read as directory entries
(`readEntries`).
-/
import Pintos.Lib.Oracle
import Pintos.Filesys.Path

namespace Pintos.Directory

open Oracle Oracle.Prog

-- ==== state

abbrev Name := List Char

abbrev Path := List Char

/-- `NAME_MAX`. -/
def nameMax : Nat := 14

def freeMapSector : Nat := 0

def rootDirSector : Nat := 1

def dot : Name := ['.']

def dotDot : Name := ['.', '.']

/-- `struct dir_entry`. -/
structure Entry where
  inodeSector : Nat
  name : Name
  inUse : Bool
  deriving DecidableEq, Repr

/-- A slot of a file that was extended and not written. -/
def Entry.zero : Entry := ⟨0, [], false⟩

/-- `sizeof (struct dir_entry)`. -/
def entrySize : Nat := 20

/-- An on-disk inode: its kind and its contents as directory entries. -/
structure Node where
  isdir : Bool
  entries : List Entry
  deriving DecidableEq, Repr

/-- The fields of a `struct inode` that count its users. -/
structure Opened where
  openCnt : Nat
  removed : Bool
  deriving DecidableEq, Repr

@[ext]
structure Vol where
  /-- The inode a sector holds; `none` for a data sector. -/
  node : Nat → Option Node
  /-- The bits of the free map. -/
  used : Nat → Bool
  /-- The inode a data sector belongs to. -/
  owner : Nat → Option Nat
  /-- `open_inodes`. -/
  opened : Nat → Option Opened
  /-- `inode_close` has been applied to an inode that was not allocated. -/
  dangling : Bool
  /-- Part of an entry was written to sector 0, in place of a sector that
  its directory did not get. -/
  spilled : Bool

structure Choices where
  mem : List Bool
  sectors : List Nat

structure Outside extends Choices where
  /-- A ghost: entries were read from the data of a regular file. -/
  misread : Bool

abbrev M := Prog Outside Vol

namespace Vol

def entries (v : Vol) (s : Nat) : List Entry :=
  match v.node s with
  | some n => n.entries
  | none => []

/-- `inode_isdir`. -/
def isdir (v : Vol) (s : Nat) : Bool :=
  match v.node s with
  | some n => n.isdir
  | none => false

/-- A file that is not a directory. -/
def isRegular (v : Vol) (s : Nat) : Bool :=
  match v.node s with
  | some n => !n.isdir
  | none => false

/-- `inode_is_removed`. -/
def isRemoved (v : Vol) (s : Nat) : Bool :=
  match v.opened s with
  | some i => i.removed
  | none => false

def openCnt (v : Vol) (s : Nat) : Nat :=
  match v.opened s with
  | some i => i.openCnt
  | none => 0

def setOpened (v : Vol) (s : Nat) (o : Option Opened) : Vol :=
  { v with opened := fun t => if t = s then o else v.opened t }

def spill (v : Vol) : Vol := { v with spilled := true }

def setNode (v : Vol) (s : Nat) (n : Option Node) : Vol :=
  { v with node := fun t => if t = s then n else v.node t }

def setUsed (v : Vol) (s : Nat) (b : Bool) : Vol :=
  { v with used := fun t => if t = s then b else v.used t }

/-- One more user of an inode. -/
def bump (v : Vol) (s : Nat) : Vol :=
  v.setOpened s (some
    (match v.opened s with
    | some i => { i with openCnt := i.openCnt + 1 }
    | none => ⟨1, false⟩))

/-- Free an inode's sector and the sectors of its data. -/
def release (v : Vol) (s : Nat) : Vol :=
  { v with
    used := fun b =>
      if b = s ∨ v.owner b = some s then false else v.used b
    owner := fun b => if v.owner b = some s then none else v.owner b }

/-- `inode_close`. -/
def drop (v : Vol) (s : Nat) : Vol :=
  match v.opened s with
  | none => { v with dangling := true }
  | some ⟨0, _⟩ => { v with dangling := true }
  | some ⟨1, removed⟩ =>
    if removed then (v.setOpened s none).release s
    else v.setOpened s none
  | some ⟨n + 2, removed⟩ => v.setOpened s (some ⟨n + 1, removed⟩)

/-- `inode_remove`. -/
def markRemoved (v : Vol) (s : Nat) : Vol :=
  match v.opened s with
  | some i => v.setOpened s (some { i with removed := true })
  | none => v

/-- `b` becomes a zeroed data sector of `s`. -/
def own (v : Vol) (b s : Nat) : Vol :=
  { v with
    owner := fun t => if t = b then some s else v.owner t
    node := fun t => if t = b then none else v.node t }

/-- Forget the data sectors of the inode a sector held before. -/
def disown (v : Vol) (s : Nat) : Vol :=
  { v with owner := fun b => if v.owner b = some s then none else v.owner b }

end Vol

-- ==== paths

def tokens (path : Path) : List Name := Path.tokens ['/'] path

def getName (path : Path) : Name := Path.getName '/' path

def dirPath (path : Path) : Path := Path.dirPath '/' path

-- ==== memory and free sectors

def malloc : M Bool := draw fun o _ =>
  match o.mem with
  | [] => some (true, o)
  | b :: rest => some (b, { o with mem := rest })

/-- A `malloc` whose result is written through unchecked. -/
def mallocUnchecked : M Unit := do
  if ← malloc then pure () else stop

/-- The next sector of the choices; it has to be free. -/
def nextSector : M (Option Nat) := draw fun o v =>
  match o.sectors with
  | [] => some (none, o)
  | s :: rest =>
    if v.used s then none else some (some s, { o with sectors := rest })

/-- `free_map_allocate (1, ..)`. -/
def freeMapAllocate : M (Option Nat) := do
  match ← nextSector with
  | none => pure none
  | some s =>
    modify (·.setUsed s true)
    pure (some s)

-- ==== inodes

/-- `inode_open`; `none` when `malloc` fails. -/
def inodeOpen (s : Nat) : M (Option Nat) := do
  match (← get).opened s with
  | some _ =>
    modify (·.bump s)
    pure (some s)
  | none =>
    if ← malloc then
      modify (·.bump s)
      pure (some s)
    else
      pure none

def inodeReopen (s : Nat) : M Unit := modify (·.bump s)

def inodeClose (s : Nat) : M Unit := modify (·.drop s)

/-- Add `n` data sectors to an inode; `false` when the disk is full. -/
def grow (s : Nat) : Nat → M Bool
  | 0 => pure true
  | n + 1 => do
      match ← freeMapAllocate with
      | none => pure false
      | some b =>
        modify (·.own b s)
        grow s n

/-- `bytes_to_sectors`. -/
def bytesToSectors (size : Nat) : Nat := (size + 511) / 512

def inodeCreate (s length : Nat) (isdir : Bool) : M Bool := do
  if ← malloc then
    modify (·.disown s)
    if ← grow s (bytesToSectors length) then
      modify (·.setNode s (some ⟨isdir, List.replicate (length / entrySize) Entry.zero⟩))
      pure true
    else
      pure false
  else
    pure false

def inodeRemove (s : Nat) : M Unit := modify (·.markRemoved s)

-- ==== directories

/-- `dir_open`; it takes over the reference to the inode. -/
def dirOpen : Option Nat → M (Option Nat)
  | some s => do
      if ← malloc then
        pure (some s)
      else
        inodeClose s
        pure none
  | none => do
      let _ ← malloc
      pure none

def dirOpenRoot : M (Option Nat) := do
  dirOpen (← inodeOpen rootDirSector)

def dirReopen (d : Nat) : M (Option Nat) := do
  inodeReopen d
  dirOpen (some d)

def dirClose : Option Nat → M Unit
  | some d => inodeClose d
  | none => pure ()

def Entry.holds (e : Entry) (name : Name) : Bool := e.inUse && decide (e.name = name)

/-- `lookup`: the first entry in use with the name, and its slot. -/
def lookup (es : List Entry) (name : Name) : Option (Nat × Entry) :=
  match es.findIdx? (·.holds name) with
  | some i => (es[i]?).map fun e => (i, e)
  | none => none

/-- The reads of a directory's slots with `inode_read_at`. -/
def readEntries (d : Nat) : M (List Entry) := draw fun o v =>
  some (v.entries d, { o with misread := o.misread || v.isRegular d })

def dirLookup (d : Nat) (name : Name) : M (Option Nat) := do
  match lookup (← readEntries d) name with
  | some (_, e) => inodeOpen e.inodeSector
  | none => pure none

/-- The loop of `get_dir`: `d` is `cur_dir`. -/
def getDirLoop : List Name → Nat → M (Option Nat)
  | [], d => pure (some d)
  | token :: rest, d => do
      match ← dirLookup d token with
      | none =>
        dirClose (some d)
        pure none
      | some inode =>
        match ← dirOpen (some inode) with
        | none =>
          dirClose (some d)
          pure none
        | some sub =>
          dirClose (some d)
          getDirLoop rest sub

/-- The directory `get_dir` starts from; `cwd` is `current_directory`. -/
def getDirStart (cwd : Option Nat) (path : Path) : M (Option Nat) :=
  if path.head? = some '/' then dirOpenRoot
  else
    match cwd with
    | none => dirOpenRoot
    | some d => dirReopen d

def getDir (cwd : Option Nat) (path : Path) : M (Option Nat) := do
  match ← getDirStart cwd path with
  | none => stop
  | some start =>
    match ← getDirLoop (tokens path) start with
    | none => pure none
    | some d =>
      if (← get).isRemoved d then
        dirClose (some d)
        pure none
      else
        pure (some d)

/-- The slot `dir_add` writes: the first free one, or the end. -/
def freeSlot (es : List Entry) : Nat := es.findIdx (fun e => !e.inUse)

def writeSlot (es : List Entry) (i : Nat) (e : Entry) : List Entry :=
  if i < es.length then es.set i e else es ++ [e]

/-- `inode_write_at` of one entry by the holder of the inode's lock. On an
inode that is not a directory it takes the lock again, which asserts. That
`sector_allocate` fails is not noticed: the length grows, and what has no
sector goes to sector 0. The entries are then what the directory would
read back until sector 0 is written again. -/
def writeEntry (d i : Nat) (e : Entry) : M Bool := do
  let v ← get
  match v.node d with
  | some ⟨true, es⟩ =>
    let more := bytesToSectors (entrySize * (i + 1)) - bytesToSectors (entrySize * es.length)
    if ← grow d more then pure () else modify (·.spill)
    modify (·.setNode d (some ⟨true, writeSlot es i e⟩))
    pure true
  | _ => stop

/-- The check of `NAME` in `dir_add`. -/
def validName (name : Name) : Bool := decide (name ≠ [] ∧ name.length ≤ nameMax)

def dirAdd (d : Nat) (name : Name) (inodeSector : Nat) : M Bool := do
  if validName name then
    let es ← readEntries d
    match lookup es name with
    | some _ => pure false
    | none => writeEntry d (freeSlot es) ⟨inodeSector, name, true⟩
  else
    pure false

/-- The scan of `dir_remove` from the third slot on. -/
def isEmpty (es : List Entry) : Bool := (es.drop 2).all (fun e => !e.inUse)

/-- The end of `dir_remove`: erase the entry at slot `i`, remove the inode
and close it. -/
def eraseEntry (d i : Nat) (e : Entry) (inode : Nat) : M Bool := do
  if ← writeEntry d i { e with inUse := false } then
    inodeRemove inode
    inodeClose inode
    pure true
  else
    inodeClose inode
    pure false

def dirRemove (d : Nat) (name : Name) : M Bool := do
  match lookup (← readEntries d) name with
  | none => pure false
  | some (i, e) =>
    match ← inodeOpen e.inodeSector with
    | none => pure false
    | some inode =>
      let v ← get
      if v.isdir inode then
        if 1 < v.openCnt inode then
          inodeClose inode
          pure false
        else
          match ← dirOpen (some inode) with
          -- The inode is freed; the scan finds no entry in it.
          | none => eraseEntry d i e inode
          | some _ =>
            if isEmpty (← readEntries inode) then
              eraseEntry d i e inode
            else
              inodeClose inode
              pure false
      else
        eraseEntry d i e inode

-- ==== filesys

/-- `get_name` of the path and the copy of its directory part. -/
def splitPath (path : Path) : M (Name × Path) := do
  mallocUnchecked
  mallocUnchecked
  mallocUnchecked
  pure (getName path, dirPath path)

def filesysChdir (cwd : Option Nat) (path : Path) : M (Option Nat) := do
  match ← getDir cwd path with
  | none => pure none
  | some d =>
    dirClose cwd
    pure (some d)

/-- The conjunction in `filesys_create`: the sector allocated, and whether
all of it succeeded. -/
def createEntry (parent : Option Nat) (name : Name) (size : Nat)
    (isdir : Bool) : M (Option Nat × Bool) :=
  match parent with
  | none => pure (none, false)
  | some d => do
      match ← freeMapAllocate with
      | none => pure (none, false)
      | some s =>
        if ← inodeCreate s size isdir then
          let ok ← dirAdd d name s
          pure (some s, ok)
        else
          pure (some s, false)

/-- The entries `.` and `..` of a new directory. -/
def addDots (child parent : Nat) : M Unit := do
  let inode ← inodeOpen child
  match ← dirOpen inode with
  | none => stop
  | some c =>
    if ← dirAdd c dot child then
      if ← dirAdd c dotDot parent then
        dirClose (some c)
        -- The reference of `inode` went to `child_dir`.
        inodeClose child
      else stop
    else stop

/-- What follows the conjunction in `filesys_create`. -/
def finishCreate (parent : Option Nat) (isdir : Bool) : Option Nat × Bool → M Unit
  | (some s, true) =>
    match parent with
    | some d => if isdir then addDots s d else pure ()
    | none => pure ()
  | (some s, false) => modify (·.setUsed s false)
  | (none, _) => pure ()

def filesysCreate (cwd : Option Nat) (path : Path) (size : Nat) (isdir : Bool) : M Bool := do
  let (name, dir) ← splitPath path
  let parent ← getDir cwd dir
  let made ← createEntry parent name size isdir
  finishCreate parent isdir made
  dirClose parent
  pure made.2

/-- What `filesys_open` hands to its caller. -/
inductive Opening where
  | file (s : Nat)
  | failed
  /-- A null pointer; the reference to an inode marked removed stays. -/
  | failedHolding (s : Nat)
  deriving DecidableEq, Repr

/-- `file_open` on the inode that `filesys_open` arrived at. -/
def fileOpen : Option Nat → M Opening
  | none => pure .failed
  | some s => do
      if (← get).isRemoved s then
        pure (.failedHolding s)
      else if ← malloc then
        pure (.file s)
      else
        inodeClose s
        pure .failed

def filesysOpen (cwd : Option Nat) (path : Path) : M Opening := do
  let (name, dir) ← splitPath path
  match ← getDir cwd dir with
  | none => pure .failed
  | some d =>
    if name = [] then
      fileOpen (some d)
    else
      let inode ← dirLookup d name
      dirClose (some d)
      fileOpen inode

def filesysRemove (cwd : Option Nat) (path : Path) : M Bool := do
  let (name, dir) ← splitPath path
  match ← getDir cwd dir with
  | none => pure false
  | some d =>
    let success ← dirRemove d name
    dirClose (some d)
    pure success

end Pintos.Directory
