/-
`syscall_handler` and the system calls, as far as they go through
pointers that the user supplied.

# Scope

Each call is followed down to its last access to user memory: the words
of the argument slots, path strings (`get_name`, `get_dir` and their
callers), command lines, and the buffers of `read`, `write` and `readdir`
with the loops of `inode_read_at` and `inode_write_at`. What a call does
after that, or to kernel objects only, is left out. Of an open file the
model keeps what decides how many bytes move: its kind, position, end of
file, length in memory and on disk, the write denial and its contents. Disk accesses succeed;
a `malloc` of a bounce buffer and the `palloc_get_page`s of
`process_execute` may fail.
-/
import Pintos.Userprog.UserMemory
import Pintos.Userprog.Readdir

namespace Pintos.Syscall

open Logged
open Slots (Raw entryName)
open Directory (nameMax)
open Readdir (nextEntry dot dotDot)

-- ==== kernel

/-- A `struct file`, its inode, and the `struct dir` opened with it. -/
structure OpenFile where
  isdir : Bool
  pos : Nat
  eof : Nat
  /-- `length` in memory and on disk. -/
  length : Nat
  diskLength : Nat
  denyWrite : Bool
  content : Nat → UInt8
  /-- The bytes of the directory, and the position of `dir_temp`. -/
  entries : List UInt8
  dirPos : Nat

structure Kernel where
  pd : PageDir
  /-- `file_list` of the process. -/
  files : List (Int × OpenFile)
  /-- The two pages of `process_execute` are available. -/
  page : Bool
  page' : Bool
  /-- `malloc` of a bounce buffer succeeds. -/
  bounce : Bool

/-- `get_file`. -/
def Kernel.getFile (k : Kernel) (fd : Int) : Option OpenFile :=
  (k.files.find? fun f => f.1 == fd).map fun f => f.2

-- ==== paths

def getName (pd : PageDir) (path : Addr) : UM (List UInt8) := do
  let _ ← strlen pd path
  let len ← strlen pd path
  let s ← strlcpy pd path (len + 1)
  pure (Path.getName 0x2f s)

/-- The name and the path of its directory, as `filesys_create`,
`filesys_open` and `filesys_remove` compute them. -/
def splitPath (pd : PageDir) (path : Addr) : UM (List UInt8 × List UInt8) := do
  let name ← getName pd path
  let _ ← strlen pd path
  let len ← strlen pd path
  let dir ← strlcpy pd path (len - name.length + 1)
  pure (dir, name)

/-- The copy `get_dir` makes when it is given a user path. -/
def copyPath (pd : PageDir) (path : Addr) : UM (List UInt8) := do
  let _ ← strlen pd path
  let len ← strlen pd path
  strlcpy pd path (len + 1)

-- ==== calls

def exec (k : Kernel) (cmdLine : Addr) : UM Unit :=
  if k.page then do
    let _ ← strlcpy k.pd cmdLine pgSize
    if k.page' then do
      let _ ← strlcpy k.pd cmdLine pgSize
      pure ()
    else pure ()
  else pure ()

def create (k : Kernel) (path : Addr) : UM Unit := do
  let _ ← splitPath k.pd path
  pure ()

def openCall (k : Kernel) (path : Addr) : UM Unit := do
  let len ← strlen k.pd path
  if len = 0 then pure () else do
    let _ ← splitPath k.pd path
    pure ()

def chdir (k : Kernel) (path : Addr) : UM Unit := do
  let _ ← copyPath k.pd path
  pure ()

/-- The copying loop that `inode_read_at` and `inode_write_at` share:
sector by sector, through a bounce buffer where a sector is not moved as
a whole. `op i` accesses byte `i` of the user buffer; `limit` is the end
of file that bounds the transfer. -/
def transfer {β : Type} (op : Nat → UM β) (bounce : Bool)
    (limit offset : Nat) : Nat → Nat → Nat → UM Nat
  | 0, _, done => pure done
  | fuel + 1, size, done =>
    let sectorOfs := (offset + done) % 512
    let minLeft := min (limit - (offset + done)) (512 - sectorOfs)
    let chunkSize := min size minLeft
    if chunkSize = 0 then pure done
    else if (sectorOfs = 0 ∧ chunkSize = 512) ∨ bounce = true then do
      let _ ← mapRange op done chunkSize
      transfer op bounce limit offset fuel (size - chunkSize) (done + chunkSize)
    else pure done

def inodeReadAt (k : Kernel) (f : OpenFile) (buffer : Addr) (size : Int) : UM Nat :=
  transfer (fun i => store k.pd (wrap (buffer + i)) (f.content (f.pos + i)))
    k.bounce f.eof f.pos size.toNat size.toNat 0

/-- `length` as the data loop of `inode_write_at` sees it. -/
def OpenFile.grown (f : OpenFile) (size : Int) : Int :=
  let newLength := Int.bmod (f.pos + size) 4294967296
  if newLength > f.diskLength then newLength else f.length

def inodeWriteAt (k : Kernel) (f : OpenFile) (buffer : Addr) (size : Int) : UM Nat :=
  if f.denyWrite then pure 0
  else transfer (fun i => load k.pd (wrap (buffer + i))) k.bounce
    (f.grown size).toNat f.pos size.toNat size.toNat 0

def read (k : Kernel) (fd : Int) (buffer : Addr) (size : Nat) : UM Unit :=
  match k.getFile fd with
  | none => stop (.exit (-1))
  | some f => do
      let _ ← inodeReadAt k f buffer (signed size)
      pure ()

/-- `putbuf`. -/
def putbuf (k : Kernel) (buffer : Addr) (n : Nat) : UM Unit := do
  let _ ← loadBytes k.pd buffer 0 n
  pure ()

def write (k : Kernel) (fd : Int) (buffer : Addr) (size : Nat) : UM Unit :=
  if fd = 1 then putbuf k buffer size
  else if fd ≠ 0 then
    match k.getFile fd with
    | none => stop (.exit (-1))
    | some f =>
      if f.isdir then pure () else do
        let _ ← inodeWriteAt k f buffer (signed size)
        pure ()
  else stop (.exit (-1))

/-- What `strlcpy (name, e.name, NAME_MAX + 1)` copies. -/
def text (e : Raw) : List UInt8 := (entryName e).take nameMax

/-- Byte `i` of it. -/
def textByte (e : Raw) (i : Nat) : UInt8 := (text e).getD i 0

/-- `dir_readdir` on the bytes `c`: the position after it. -/
def dirReaddir (pd : PageDir) (name : Addr) (c : List UInt8) (pos : Nat) : UM Nat :=
  match nextEntry c pos with
  | (some e, pos) => do
      let _ ← storeBytes pd name (textByte e) 0 ((text e).length + 1)
      pure pos
  | (none, pos) => pure pos

/-- `strcmp (a, b) == 0` for a user string and a literal, from byte `i`. -/
def strcmpFrom (pd : PageDir) (a : Addr) : List UInt8 → Nat → UM Bool
  | [], i => do
      let x ← load pd (wrap (a + i))
      pure (x == 0)
  | c :: rest, i => do
      let x ← load pd (wrap (a + i))
      if x ≠ 0 ∧ x = c then strcmpFrom pd a rest (i + 1) else pure false

/-- The end of `readdir`, after its first `dir_readdir`. -/
def skipDots (pd : PageDir) (name : Addr) (c : List UInt8) (pos : Nat) : UM Unit := do
  if ← strcmpFrom pd name dot 0 then do
    let pos ← dirReaddir pd name c pos
    let _ ← dirReaddir pd name c pos
    pure ()
  else if ← strcmpFrom pd name dotDot 0 then do
    let _ ← dirReaddir pd name c pos
    pure ()
  else pure ()

def readdir (k : Kernel) (fd : Int) (name : Addr) : UM Unit :=
  match k.getFile fd with
  | none => pure ()
  | some f =>
    if f.isdir then do
      let pos ← dirReaddir k.pd name f.entries f.dirPos
      skipDots k.pd name f.entries pos
    else pure ()

/-- The calls that only look a descriptor up. -/
def onFile (k : Kernel) (fd : Int) : UM Unit :=
  match k.getFile fd with
  | none => stop (.exit (-1))
  | some _ => pure ()

-- ==== handler

inductive Call where
  | sysHalt
  | sysExit
  | sysExec
  | sysWait
  | sysCreate
  | sysRemove
  | sysOpen
  | sysFilesize
  | sysRead
  | sysWrite
  | sysSeek
  | sysTell
  | sysClose
  | sysChdir
  | sysMkdir
  | sysReaddir
  | sysIsdir
  | sysInumber
  deriving DecidableEq, Repr

/-- The numbers of `syscall-nr.h`; 13 and 14 have no case. -/
def Call.ofNumber : Nat → Option Call
  | 0 => some .sysHalt
  | 1 => some .sysExit
  | 2 => some .sysExec
  | 3 => some .sysWait
  | 4 => some .sysCreate
  | 5 => some .sysRemove
  | 6 => some .sysOpen
  | 7 => some .sysFilesize
  | 8 => some .sysRead
  | 9 => some .sysWrite
  | 10 => some .sysSeek
  | 11 => some .sysTell
  | 12 => some .sysClose
  | 15 => some .sysChdir
  | 16 => some .sysMkdir
  | 17 => some .sysReaddir
  | 18 => some .sysIsdir
  | 19 => some .sysInumber
  | _ => none

/-- A call of `check_esp` before a system call. -/
inductive Check where
  /-- `check_esp (esp + i)`. -/
  | slot (i : Nat)
  /-- `check_esp (*(esp + i))`. -/
  | pointer (i : Nat)
  deriving DecidableEq, Repr

def Call.checks : Call → List Check
  | .sysHalt => []
  | .sysExit | .sysWait | .sysFilesize | .sysTell | .sysClose | .sysIsdir
  | .sysInumber => [.slot 1]
  | .sysExec | .sysRemove | .sysOpen | .sysChdir | .sysMkdir => [.slot 1, .pointer 1]
  | .sysCreate => [.slot 1, .pointer 1, .slot 2]
  | .sysRead | .sysWrite => [.slot 1, .slot 2, .pointer 2, .slot 3]
  | .sysSeek => [.slot 1, .slot 2]
  | .sysReaddir => [.slot 1, .slot 2, .pointer 2]

/-- The number of argument words the call is passed. -/
def Call.argc : Call → Nat
  | .sysHalt => 0
  | .sysExit | .sysWait | .sysFilesize | .sysTell | .sysClose | .sysIsdir
  | .sysInumber | .sysExec | .sysRemove | .sysOpen | .sysChdir
  | .sysMkdir => 1
  | .sysCreate | .sysSeek | .sysReaddir => 2
  | .sysRead | .sysWrite => 3

/-- The address of `esp + i`. -/
def slotAt (esp : Addr) (i : Nat) : Addr := wrap (esp + 4 * i)

def checkArgs (pd : PageDir) (esp : Addr) : List Check → UM Unit
  | [] => pure ()
  | .slot i :: rest => do
      checkEsp pd (slotAt esp i)
      checkArgs pd esp rest
  | .pointer i :: rest => do
      let p ← word pd (slotAt esp i)
      checkEsp pd p
      checkArgs pd esp rest

/-- The call itself, given its arguments. -/
def Call.run (k : Kernel) (c : Call) (arg : Nat → Nat) : UM Unit :=
  match c with
  | .sysHalt => stop .powerOff
  | .sysExit => stop (.exit (signed (arg 1)))
  | .sysWait => pure ()
  | .sysExec => exec k (arg 1)
  | .sysCreate | .sysRemove | .sysMkdir => create k (arg 1)
  | .sysOpen => openCall k (arg 1)
  | .sysChdir => chdir k (arg 1)
  | .sysRead => read k (signed (arg 1)) (arg 2) (arg 3)
  | .sysWrite => write k (signed (arg 1)) (arg 2) (arg 3)
  | .sysReaddir => readdir k (signed (arg 1)) (arg 2)
  | .sysFilesize | .sysSeek | .sysTell | .sysClose | .sysIsdir
  | .sysInumber => onFile k (signed (arg 1))

def syscallHandler (k : Kernel) (esp : Addr) : UM Unit := do
  checkEsp k.pd esp
  let number ← word k.pd esp
  match Call.ofNumber number with
  | none => pure ()
  | some c => do
      checkArgs k.pd esp c.checks
      let args ← mapRange (fun i => word k.pd (slotAt esp i)) 1 c.argc
      c.run k fun i => args.getD (i - 1) 0

/-- The process is terminated with −1, or everything the kernel touches
through its pointers is a mapped user address. -/
def Confined (k : Kernel) (m : Mem) (esp : Addr) : Prop :=
  Fails (.exit (-1)) (syscallHandler k esp) m ∨
    Logs (fun a => k.pd.user a = true) (syscallHandler k esp) m

end Pintos.Syscall
