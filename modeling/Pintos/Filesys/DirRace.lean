/-
`filesys_remove (d)` by one process while another runs
`filesys_create (d/x)`.

# Grain

Both calls are cut at every `block_read` and `block_write` that touches
the two directories: one slot of a directory is read at a time, the
search of `open_inodes`, the allocation and the load of `inode_open` are
separate, and `dir_add` writes the slot, then the end of file on disk,
then the end of file in memory. Locks are taken where `dir_add` and
`dir_remove` take them; `get_dir` takes none.

# State

The two processes have the parent of `d` as their working directory, so
its `struct inode` is open throughout. The open inodes are those of the
sector of `d`; there may be several. `slots` is the number of directory
entries below the end of file, per struct and on disk.

Memory for the second handle of `dir_remove` is available; every other
outcome (allocations, the new file's sector, the writes) is arbitrary.
-/
import Pintos.Filesys.InodeCache

namespace Pintos.DirRace

open Transition List Option
open InodeCache (Ref OpenInodes)

-- ==== state

/-- `struct dir_entry`, less the sector number. -/
structure Entry where
  inUse : Bool
  name : String
  deriving DecidableEq, Repr, Inhabited

/-- A slot that holds the name, as `lookup` tests it. -/
def Entry.holds (e : Entry) (name : String) : Bool := e.inUse && e.name == name

/-- What is seen of a `struct inode` of the directory `d`. -/
structure Body where
  slots : Nat
  locked : Bool

abbrev Inode := InodeCache.Inode Body

/-- Program points of `filesys_remove (d)`. -/
inductive RPoint where
  | start
  /-- `lookup` of `d`, at this slot of the parent. -/
  | lookup (j : Nat)
  /-- `inode_open`, the entry was found at `ofs`. -/
  | search (ofs : Nat)
  | missed (ofs : Nat)
  | loading (i : Ref) (ofs : Nat)
  /-- At `inode_is_open`. -/
  | opened (i : Ref) (ofs : Nat)
  /-- Looking for entries in `d`, at slot `j`. -/
  | scan (i : Ref) (ofs j : Nat)
  | erase (i : Ref) (ofs : Nat)
  | mark (i : Ref)
  | close (i : Option Ref) (result : Bool)
  | unlock (result : Bool)
  | done (result : Bool)
  deriving DecidableEq, Repr

/-- Program points of `filesys_create (d/x)`. -/
inductive CPoint where
  | start
  /-- `get_dir`: `lookup` of `d`, at this slot of the parent. -/
  | lookup (j : Nat)
  | search
  | missed
  | loading (i : Ref)
  | dirOpen (i : Ref)
  /-- At `inode_is_removed`. -/
  | check (i : Ref)
  /-- `free_map_allocate` and `inode_create`. -/
  | alloc (i : Ref)
  | lock (i : Ref)
  /-- `dir_add`: `lookup` of `x`. -/
  | addLookup (i : Ref) (j : Nat)
  /-- `dir_add`: the search for a free slot. -/
  | addFree (i : Ref) (j : Nat)
  | write (i : Ref) (j : Nat)
  /-- The new end of file goes to disk. -/
  | sync (i : Ref) (j : Nat)
  /-- The new end of file is read back into memory. -/
  | publish (i : Ref) (j : Nat)
  | unlock (i : Ref) (result : Bool)
  | close (i : Ref) (result : Bool)
  | done (result : Bool)
  deriving DecidableEq, Repr

structure State extends OpenInodes Body where
  /-- The names of the directory and of the new file. -/
  d : String
  x : String
  /-- The sector of `d`. -/
  sector : Nat
  parent : List Entry
  target : List Entry
  parentLocked : Bool
  diskSlots : Nat
  remover : RPoint
  creator : CPoint

/-- One step of either process; `ok` is the outcome of the allocation or
of the write it makes, if any. -/
inductive Act where
  | remove (ok : Bool)
  | create (ok : Bool)

namespace State

-- ==== common parts

def withInodes (k : State) (l : OpenInodes Body) : State := { k with toOpenInodes := l }

def modBody (k : State) (i : Ref) (f : Body → Body) : State :=
  k.withInodes (k.modInode i fun v => { v with body := f v.body })

/-- `malloc` and publication in `inode_open`. -/
def publishInode (k : State) : State :=
  k.withInodes (k.publish k.sector { slots := 0, locked := false })

/-- The `block_read` of `inode_open`. -/
def loadInode (k : State) (i : Ref) : State := k.modBody i fun v => { v with slots := k.diskSlots }

/-- A read of slot `j` of `d` through the struct `i`; past the end of file
the read comes back short. -/
def readSlot (k : State) (i : Ref) (j : Nat) : Option Entry :=
  if j < (k.inode i).body.slots then some (k.target.getD j default) else none

-- ==== filesys_remove

def rgoto (k : State) (pt : RPoint) : State := { k with remover := pt }

def cgoto (k : State) (pt : CPoint) : State := { k with creator := pt }

def removeStep (ok : Bool) (k : State) : Option State :=
  match k.remover with
  | .start =>
    if k.parentLocked then none
    else some ({ k with parentLocked := true }.rgoto (.lookup 0))
  | .lookup j =>
    some (k.rgoto (match k.parent[j]? with
      | none => .close none false
      | some e => if e.holds k.d then .search j else .lookup (j + 1)))
  | .search ofs =>
    match k.find k.sector with
    | some i => some ((k.withInodes (k.inodeReopen i)).rgoto (.opened i ofs))
    | none => some (k.rgoto (.missed ofs))
  | .missed ofs =>
    if ok then some (k.publishInode.rgoto (.loading k.count ofs))
    else some (k.rgoto (.close none false))
  | .loading i ofs => some ((k.loadInode i).rgoto (.opened i ofs))
  | .opened i ofs =>
    some (k.rgoto (if 1 < (k.inode i).openCnt then .close (some i) false
      else .scan i ofs 2))
  | .scan i ofs j =>
    some (k.rgoto (match k.readSlot i j with
      | none => .erase i ofs
      | some e =>
        if e.inUse then .close (some i) false else .scan i ofs (j + 1)))
  | .erase i ofs =>
    if ok then
      some ({ k with parent :=
        k.parent.modify ofs fun e => { e with inUse := false } }.rgoto
        (.mark i))
    else some (k.rgoto (.close (some i) false))
  | .mark i =>
    some ((k.withInodes (k.modInode i fun v => { v with removed := true })).rgoto
      (.close (some i) true))
  | .close none result => some (k.rgoto (.unlock result))
  | .close (some i) result => some ((k.withInodes (k.inodeClose i)).rgoto (.unlock result))
  | .unlock result => some ({ k with parentLocked := false }.rgoto (.done result))
  | .done _ => none

-- ==== filesys_create

/-- The check of the name in `dir_add`. -/
def nameOk (name : String) : Bool := decide (0 < name.length ∧ name.length ≤ 14)

/-- The slot of the new entry reaches the disk. -/
def writeSlot (k : State) (j : Nat) : State :=
  { k with target :=
      if j < k.target.length then
        k.target.set j { inUse := true, name := k.x }
      else k.target ++ [{ inUse := true, name := k.x }] }

def createStep (ok : Bool) (k : State) : Option State :=
  match k.creator with
  | .start => some (k.cgoto (.lookup 0))
  | .lookup j =>
    some (k.cgoto (match k.parent[j]? with
      | none => .done false
      | some e => if e.holds k.d then .search else .lookup (j + 1)))
  | .search =>
    match k.find k.sector with
    | some i => some ((k.withInodes (k.inodeReopen i)).cgoto (.dirOpen i))
    | none => some (k.cgoto .missed)
  | .missed =>
    if ok then some (k.publishInode.cgoto (.loading k.count))
    else some (k.cgoto (.done false))
  | .loading i => some ((k.loadInode i).cgoto (.dirOpen i))
  | .dirOpen i => some (k.cgoto (if ok then .check i else .close i false))
  | .check i =>
    some (k.cgoto (if (k.inode i).removed then .close i false
      else .alloc i))
  | .alloc i => some (k.cgoto (if ok then .lock i else .close i false))
  | .lock i =>
    if (k.inode i).body.locked then none
    else some ((k.modBody i fun v => { v with locked := true }).cgoto
      (if nameOk k.x then .addLookup i 0 else .unlock i false))
  | .addLookup i j =>
    some (k.cgoto (match k.readSlot i j with
      | none => .addFree i 0
      | some e =>
        if e.holds k.x then .unlock i false else .addLookup i (j + 1)))
  | .addFree i j =>
    some (k.cgoto (match k.readSlot i j with
      | none => .write i j
      | some e => if e.inUse then .addFree i (j + 1) else .write i j))
  | .write i j =>
    if ok then some ((k.writeSlot j).cgoto (.sync i j))
    else some (k.cgoto (.unlock i false))
  | .sync i j => some ({ k with diskSlots := max k.diskSlots (j + 1) }.cgoto (.publish i j))
  | .publish i j =>
    some ((k.modBody i fun v => { v with slots := max v.slots (j + 1) }).cgoto (.unlock i true))
  | .unlock i result =>
    some ((k.modBody i fun v => { v with locked := false }).cgoto (.close i result))
  | .close i result => some ((k.withInodes (k.inodeClose i)).cgoto (.done result))
  | .done _ => none

def step (a : Act) (k : State) : Option State :=
  match a with
  | .remove ok => k.removeStep ok
  | .create ok => k.createStep ok

/-- `d` is an entry of the parent, closed, with nothing in it but its `.`
and `..`; neither call has begun. -/
structure Start (k : State) : Prop where
  listed : ∃ e ∈ k.parent, e.holds k.d = true
  slots : k.diskSlots = k.target.length
  dots : 2 ≤ k.target.length ∧ ∀ j, j < 2 → (k.target.getD j default).inUse = true
  empty : ∀ j, 2 ≤ j → (k.target.getD j default).inUse = false
  closed : k.openInodes = []
  unlocked : k.parentLocked = false
  remover : k.remover = .start
  creator : k.creator = .start

end State

-- ==== two clients of a cache

/-- What a process has of `inode_open`: its reference, and whether it is
between a failed search and the end of the load. -/
structure Client where
  ref : Option Ref
  opening : Bool
  deriving DecidableEq, Repr

/-- Two clients share at most one struct, whose count is their number, and
an opener is alone. -/
structure Cache (list : List Ref) (cnt : Ref → Int) (a b : Client) : Prop where
  refA : ∀ i, a.ref = some i → list = [i]
  refB : ∀ i, b.ref = some i → list = [i]
  cnt : ∀ i, i ∈ list → cnt i =
    (if a.ref = some i then 1 else 0) + (if b.ref = some i then 1 else 0)
  owned : ∀ i, i ∈ list → a.ref = some i ∨ b.ref = some i
  openA : a.opening = true → b.ref = none ∧ b.opening = false
  openB : b.opening = true → a.ref = none ∧ a.opening = false
  missA : a.opening = true → a.ref = none → list = []
  missB : b.opening = true → b.ref = none → list = []

variable {list : List Ref} {cnt cnt' : Ref → Int} {a b : Client} {i : Ref} {o : Bool}

section

variable (h : Cache list cnt a b)

include h

theorem Cache.symm : Cache list cnt b a :=
  ⟨h.refB, h.refA, fun i hi => by rw [h.cnt i hi, Int.add_comm],
    fun i hi => (h.owned i hi).symm, h.openB, h.openA, h.missB, h.missA⟩

theorem Cache.congr (hc : ∀ i, i ∈ list → cnt' i = cnt i) : Cache list cnt' a b :=
  { h with cnt := fun i hi => (hc i hi).trans (h.cnt i hi) }

/-- With no client holding anything, nothing is open. -/
theorem Cache.empty (ha : a.ref = none) (hb : b.ref = none) : list = [] := by
  cases hl : list with
  | nil => rfl
  | cons i rest =>
    rcases h.owned i (hl ▸ mem_cons_self ..) with hi | hi
    · simp [ha] at hi
    · simp [hb] at hi

/-- A struct that `a` does not hold is held by `b`. -/
theorem Cache.other (ha : a.ref = none) (hi : i ∈ list) : b.ref = some i :=
  (h.owned i hi).resolve_left (by rw [ha]; simp)

end

theorem Cache.mem (h : Cache list cnt ⟨some i, o⟩ b) : i ∈ list :=
  h.refA i rfl ▸ mem_singleton_self i

theorem Cache.only {n : Ref} (h : Cache list cnt ⟨some i, o⟩ b) (hn : n ∈ list) : n = i :=
  mem_singleton.mp (h.refA i rfl ▸ hn)

/-- Nobody opens while a struct is held. -/
theorem Cache.settled (h : Cache list cnt ⟨some i, false⟩ b) : b.opening = false := by
  cases ho : b.opening with
  | false => rfl
  | true => exact absurd (h.openB ho).1 (by simp)

/-- The search found `i`. -/
theorem Cache.reopen (h : Cache list cnt ⟨none, false⟩ b) (hb : b.opening = false) (hi : i ∈ list)
    (hc : cnt' i = cnt i + 1) : Cache list cnt' ⟨some i, false⟩ b := by
  have hbi := h.other rfl hi
  have hl := h.refB i hbi
  refine ⟨?_, h.refB, ?_, ?_, nofun, ?_, nofun, h.missB⟩
  · intro j hj
    rw [hl, some.inj hj]
  · intro j hj
    rw [hl, mem_singleton] at hj
    rw [hj, hc, h.cnt i hi, hbi]
    simp
  · exact fun j hj => (h.owned j hj).imp_left nofun
  · intro ho
    simp [hb] at ho

/-- The search found nothing. -/
theorem Cache.miss (h : Cache [] cnt ⟨none, false⟩ b)
    (hb : b.opening = false) : Cache [] cnt ⟨none, true⟩ b := by
  refine ⟨h.refA, h.refB, h.cnt, h.owned, ?_, ?_, fun _ _ => rfl, h.missB⟩
  · intro _
    refine ⟨?_, hb⟩
    cases hr : b.ref with
    | none => rfl
    | some i => exact absurd (h.refB i hr) (by simp)
  · intro ho
    simp [hb] at ho

/-- The missing struct is published. -/
theorem Cache.publish (h : Cache list cnt ⟨none, true⟩ b)
    (hc : cnt' i = 1) : Cache (i :: list) cnt' ⟨some i, true⟩ b := by
  have hl := h.missA rfl rfl
  obtain ⟨hb, ho⟩ := h.openA rfl
  refine ⟨?_, ?_, ?_, ?_, fun _ => ⟨hb, ho⟩, ?_, nofun, ?_⟩
  · intro j hj
    rw [hl, some.inj hj]
  · intro j hj
    simp [hb] at hj
  · intro j hj
    rw [hl, mem_singleton] at hj
    rw [hj, hc, hb]
    simp
  · intro j hj
    rw [hl, mem_singleton] at hj
    exact .inl (by rw [hj])
  · intro h'
    simp [ho] at h'
  · intro h'
    simp [ho] at h'

/-- The end of an opening: loaded, or without memory. -/
theorem Cache.opened (h : Cache list cnt ⟨a.ref, true⟩ b) : Cache list cnt ⟨a.ref, false⟩ b := by
  refine ⟨h.refA, h.refB, h.cnt, h.owned, nofun, ?_, nofun, h.missB⟩
  intro ho
  simp [(h.openA rfl).2] at ho

/-- `inode_close`. -/
theorem Cache.close (h : Cache list cnt ⟨some i, false⟩ b)
    (hc : ∀ j, cnt' j = if j = i then cnt i - 1 else cnt j) :
    Cache (if cnt i - 1 = 0 then list.erase i else list) cnt' ⟨none, false⟩ b := by
  have hl := h.refA i rfl
  have hcnt := h.cnt i h.mem
  rw [if_pos rfl] at hcnt
  have hopen {p : Prop} (ho : b.opening = true) : p := by
    simp [h.settled] at ho
  by_cases hbi : b.ref = some i
  · rw [if_pos hbi] at hcnt
    rw [if_neg (by omega), hl]
    refine ⟨nofun, ?_, ?_, ?_, nofun, hopen, nofun, hopen⟩
    · intro j hj
      exact hl ▸ h.refB j hj
    · intro j hj
      rw [mem_singleton] at hj
      rw [hj, hc, if_pos rfl, if_pos hbi]
      simp only [reduceCtorEq, if_false]
      omega
    · intro j hj
      rw [mem_singleton] at hj
      exact .inr (by rw [hj, hbi])
  · rw [if_neg hbi] at hcnt
    have hnone : b.ref = none := by
      cases hr : b.ref with
      | none => rfl
      | some j =>
        have := h.refB j hr
        rw [hl] at this
        injection this with hij
        exact absurd (hij ▸ hr) hbi
    rw [if_pos (by omega), hl, erase_cons_head]
    refine ⟨nofun, ?_, nofun, nofun, nofun, hopen, nofun, hopen⟩
    intro j hj
    simp [hnone] at hj

-- ==== what a point tells

def RPoint.client : RPoint → Client
  | .loading i _ => ⟨some i, true⟩
  | .opened i _ | .scan i _ _ | .erase i _ | .mark i => ⟨some i, false⟩
  | .close i _ => ⟨i, false⟩
  | .missed _ => ⟨none, true⟩
  | .start | .lookup _ | .search _ | .unlock _ | .done _ => ⟨none, false⟩

def CPoint.client : CPoint → Client
  | .loading i => ⟨some i, true⟩
  | .dirOpen i | .check i | .alloc i | .lock i | .addLookup i _
  | .addFree i _ | .write i _ | .sync i _ | .publish i _ | .unlock i _
  | .close i _ => ⟨some i, false⟩
  | .missed => ⟨none, true⟩
  | .start | .lookup _ | .search | .done _ => ⟨none, false⟩

/-- Past a check of the open count that went through. -/
def RPoint.passed : RPoint → Bool
  | .scan _ _ _ | .erase _ _ | .mark _ | .close _ true | .unlock true
  | .done true => true
  | _ => false

/-- On the way to returning true, or returned so. -/
def CPoint.added : CPoint → Bool
  | .unlock _ true | .close _ true | .done true => true
  | _ => false

/-- How far a struct's end of file is behind the disk's. -/
def CPoint.reach : CPoint → Nat → Nat
  | .publish _ j, n => max n (j + 1)
  | _, n => n

/-- How far the disk's end of file is behind the slots written. -/
def CPoint.extent : CPoint → Nat → Nat
  | .sync _ j, n => max n (j + 1)
  | _, n => n

namespace State

/-- Slot `j` of `d` is in use. -/
def used (k : State) (j : Nat) : Prop := (k.target.getD j default).inUse = true

/-- Some slot from `start` on is in use, below the end of file. -/
def Occupied (k : State) (start : Nat) : Prop := ∃ m, start ≤ m ∧ m < k.diskSlots ∧ k.used m

/-- What the creator knows of the slot it is after. -/
def Progress (k : State) : Prop :=
  match k.creator with
  | .addFree _ j => j ≤ k.diskSlots
  | .write _ j => 2 ≤ j ∧ j ≤ k.diskSlots
  | .sync _ j => 2 ≤ j ∧ k.used j
  | .publish _ j => 2 ≤ j ∧ j < k.diskSlots ∧ k.used j
  | .unlock _ true | .close _ true | .done true => k.Occupied 2
  | _ => True

/-- The runs in which the searches of `open_inodes` for `d` do not overlap
another opening of it, and `get_dir` does not search once the removal is
past its check of the open count. -/
def resolveGuard (a : Act) (k : State) : Prop :=
  match a with
  | .remove _ => (∃ ofs, k.remover = .search ofs) → k.creator.client.opening = false
  | .create _ => k.creator = .search → k.remover.client.opening = false ∧ k.remover.passed = false

structure Inv (k : State) : Prop where
  cache : Cache k.openInodes (fun i => (k.inode i).openCnt) k.remover.client k.creator.client
  sector : ∀ i, i ∈ k.openInodes → (k.inode i).sector = k.sector
  slots : ∀ i, i ∈ k.openInodes → k.remover.client.opening = false →
    k.creator.client.opening = false → k.diskSlots = k.creator.reach (k.inode i).body.slots
  len : k.target.length = k.creator.extent k.diskSlots
  dots : 2 ≤ k.diskSlots ∧ k.used 0 ∧ k.used 1
  progress : k.Progress
  /-- Past the open-count check the creator holds nothing. -/
  outside : k.remover.passed = true → k.creator.client = ⟨none, false⟩
  /-- If it is done, its entry is still to be scanned. -/
  scan : ∀ i ofs j, k.remover = .scan i ofs j → k.creator.added = true → k.Occupied j
  late : k.remover.passed = true → (∀ i ofs j, k.remover ≠ .scan i ofs j) → k.creator.added = false
  removed : ∀ i, i ∈ k.openInodes → (k.inode i).removed = true → k.remover = .close (some i) true

/-- The structs open after a step were open before it, with the same
sector, end of file and mark. -/
def Kept (l l' : OpenInodes Body) : Prop :=
  ∀ n, n ∈ l'.openInodes → n ∈ l.openInodes ∧
    (l'.inode n).sector = (l.inode n).sector ∧
    (l'.inode n).body.slots = (l.inode n).body.slots ∧
    (l'.inode n).removed = (l.inode n).removed

theorem kept_inodeReopen (l : OpenInodes Body) (i : Ref) : Kept l (l.inodeReopen i) :=
  fun n hn => ⟨hn, l.inodeReopen_same (fun v => v.sector) (fun _ _ => rfl) i n,
    l.inodeReopen_same (fun v => v.body.slots) (fun _ _ => rfl) i n,
    l.inodeReopen_same (fun v => v.removed) (fun _ _ => rfl) i n⟩

theorem kept_inodeClose (l : OpenInodes Body) (i : Ref) : Kept l (l.inodeClose i) :=
  fun n hn => ⟨(l.inodeClose_sublist i).subset hn,
    l.inodeClose_same (fun v => v.sector) (fun _ _ => rfl) i n,
    l.inodeClose_same (fun v => v.body.slots) (fun _ _ => rfl) i n,
    l.inodeClose_same (fun v => v.removed) (fun _ _ => rfl) i n⟩

/-- Only the body of a struct changes. -/
theorem modBody_rest (k : State) (i : Ref) (f : Body → Body) (n : Ref) :
    ((k.modBody i f).inode n).openCnt = (k.inode n).openCnt ∧
      ((k.modBody i f).inode n).sector = (k.inode n).sector ∧
      ((k.modBody i f).inode n).removed = (k.inode n).removed := by
  show (if n = i then _ else _ : Inode).openCnt = _ ∧ (if n = i then _ else _ : Inode).sector = _ ∧
    (if n = i then _ else _ : Inode).removed = _
  split
  case isTrue h =>
    rw [h]
    exact ⟨rfl, rfl, rfl⟩
  case isFalse => exact ⟨rfl, rfl, rfl⟩

theorem inodeClose_openCnt (k : State) (i n : Ref) : ((k.inodeClose i).inode n).openCnt =
      if n = i then (k.inode i).openCnt - 1 else (k.inode n).openCnt := by
  show (if n = i then _ else _ : Inode).openCnt = _
  split <;> rfl

variable {k k' : State} {n : Ref}

/-- The struct just published is the only one. -/
theorem publishInode_only (hl : k.openInodes = []) (hn : n ∈ k.publishInode.openInodes) :
    (k.publishInode.inode n).sector = k.sector ∧ (k.publishInode.inode n).removed = false := by
  change n ∈ k.count :: k.openInodes at hn
  rw [hl, mem_singleton] at hn
  show (if n = k.count then _ else _ : Inode).sector = _ ∧
    (if n = k.count then _ else _ : Inode).removed = false
  rw [if_pos hn]
  exact ⟨rfl, rfl⟩

section Kept

variable {l : OpenInodes Body} (hi : Inv k) (hk : Kept k.toOpenInodes l) (hn : n ∈ l.openInodes)

include hi hk hn

theorem Inv.sectorKept : (l.inode n).sector = k.sector := by
  obtain ⟨hn, hs, -⟩ := hk n hn
  exact hs.trans (hi.sector n hn)

theorem Inv.slotsKept (hr : k.remover.client.opening = false)
    (hc : k.creator.client.opening = false) :
    k.diskSlots = k.creator.reach (l.inode n).body.slots := by
  obtain ⟨hn, -, hs, -⟩ := hk n hn
  rw [hs]
  exact hi.slots n hn hr hc

theorem Inv.removedKept (hr : (l.inode n).removed = true) : k.remover = .close (some n) true := by
  obtain ⟨hn, -, -, hs⟩ := hk n hn
  exact hi.removed n hn (hs ▸ hr)

end Kept

/-- The parent is outside the invariant. -/
theorem Inv.ofParent (h : Inv k) (parent : List Entry) (locked : Bool) :
    Inv { k with parent := parent, parentLocked := locked } :=
  ⟨h.cache, h.sector, h.slots, h.len, h.dots, h.progress, h.outside, h.scan, h.late, h.removed⟩

-- ==== the remover's steps

section Remover

variable {k k' : State} {i : Ref} {ofs j : Nat} {p : RPoint}

/-- A move of the remover that neither opens nor closes. -/
theorem Inv.rmove (hi : Inv k) (pt : RPoint) (hpt : k.remover = p) (hclient : pt.client = p.client)
    (houtside : pt.passed = true → k.creator.client = ⟨none, false⟩)
    (hscan : ∀ i ofs j, pt = .scan i ofs j → k.creator.added = true → k.Occupied j)
    (hlate : pt.passed = true → (∀ i ofs j, pt ≠ .scan i ofs j) → k.creator.added = false)
    (hremoved : ∀ i, p ≠ .close (some i) true) : Inv (k.rgoto pt) := by
  subst hpt
  exact { hi with
    cache := (show pt.client = _ from hclient) ▸ hi.cache
    slots := fun i hmem ho => hi.slots i hmem (hclient ▸ ho)
    outside := houtside
    scan := hscan
    late := hlate
    removed := fun i hmem hr => absurd (hi.removed i hmem hr) (hremoved i) }

/-- A move that is not, or no longer, past the open-count check. -/
theorem Inv.rfail (hi : Inv k) (pt : RPoint) (hpt : k.remover = p) (hclient : pt.client = p.client)
    (hpassed : pt.passed = false) (hremoved : ∀ i, p ≠ .close (some i) true) :
    Inv (k.rgoto pt) := by
  refine hi.rmove pt hpt hclient ?_ ?_ ?_ hremoved
  · rw [hpassed]
    nofun
  · rintro i ofs j rfl
    cases hpassed
  · rw [hpassed]
    nofun

/-- Past the scan, on the way to returning true. -/
theorem Inv.rlate (hi : Inv k) (pt : RPoint) (hpt : k.remover = p) (hclient : pt.client = p.client)
    (hpassed : p.passed = true) (hscan : ∀ i ofs j, p ≠ .scan i ofs j)
    (hscan' : ∀ i ofs j, pt ≠ .scan i ofs j) (hremoved : ∀ i, p ≠ .close (some i) true) :
    Inv (k.rgoto pt) := by
  subst hpt
  exact hi.rmove pt rfl hclient (fun _ => hi.outside hpassed)
    (fun i ofs j h => absurd h (hscan' i ofs j)) (fun _ _ => hi.late hpassed hscan) hremoved

/-- The check of the open count. -/
theorem Inv.countCheck (hi : Inv k) (hpt : k.remover = .opened i ofs) :
    Inv (k.rgoto (if 1 < (k.inode i).openCnt then .close (some i) false else .scan i ofs 2)) := by
  split
  case isTrue => exact hi.rfail _ hpt rfl rfl nofun
  case isFalse hcnt =>
    have hc := hi.cache
    rw [hpt] at hc
    change Cache _ _ ⟨some i, false⟩ _ at hc
    -- a count of one is the remover's own
    have href : k.creator.client.ref = none := by
      cases hr : k.creator.client.ref with
      | none => rfl
      | some n =>
        have hin : i = n := mem_singleton.mp (hc.refB n hr ▸ hc.mem)
        have := hc.cnt i hc.mem
        rw [if_pos rfl, if_pos (hin ▸ hr)] at this
        omega
    have hnone : k.creator.client = ⟨none, false⟩ := by
      have hopen := hc.settled
      cases hcc : k.creator.client
      rw [hcc] at href hopen
      simp only at href hopen
      rw [href, hopen]
    refine hi.rmove _ hpt rfl (fun _ => hnone) ?_ ?_ nofun
    · intro i' ofs' j' h ha
      injection h with _ _ hj
      rw [← hj]
      have hp := hi.progress
      unfold Progress at hp
      cases hcr : k.creator with
      | done r =>
        rw [hcr] at hp ha
        cases r with
        | true => exact hp
        | false => cases ha
      | unlock n r | close n r =>
        rw [hcr] at hnone
        cases hnone
      | _ =>
        rw [hcr] at ha
        cases ha
    · exact fun _ h => absurd rfl (h i ofs 2)

/-- A creator that holds nothing is not at `publish`. -/
theorem reach_of_idle (h : k.creator.client.ref = none) (n : Nat) : k.creator.reach n = n := by
  cases hcr : k.creator with
  | publish i j =>
    rw [hcr] at h
    cases h
  | _ => rfl

variable (hi : Inv k)

include hi

/-- One slot of the emptiness scan. -/
theorem Inv.scanSlot (hpt : k.remover = .scan i ofs j) :
    Inv (k.rgoto (match k.readSlot i j with
      | none => .erase i ofs
      | some e =>
        if e.inUse then .close (some i) false else .scan i ofs (j + 1))) := by
  have hnone : k.creator.client = ⟨none, false⟩ := hi.outside (hpt ▸ rfl)
  have hc := hi.cache
  rw [hpt] at hc
  have hslots := hi.slots i hc.mem (hpt ▸ rfl) (by rw [hnone])
  rw [reach_of_idle (by rw [hnone])] at hslots
  unfold readSlot
  by_cases hj : j < (k.inode i).body.slots
  · rw [if_pos hj]
    simp only
    split
    case isTrue => exact hi.rfail _ hpt rfl rfl nofun
    case isFalse hused =>
      refine hi.rmove _ hpt rfl (fun _ => hnone) ?_ ?_ nofun
      · intro i' ofs' j' h ha
        injection h with _ _ hj'
        obtain ⟨m, hm, hlt, hu⟩ := hi.scan i ofs j hpt ha
        refine ⟨m, ?_, hlt, hu⟩
        have : m ≠ j := by
          rintro rfl
          exact hused hu
        omega
      · exact fun _ h => absurd rfl (h i ofs (j + 1))
  · rw [if_neg hj]
    refine hi.rmove _ hpt rfl (fun _ => hnone) nofun ?_ nofun
    intro _ _
    cases ha : k.creator.added with
    | false => rfl
    | true =>
      obtain ⟨m, hm, hlt, -⟩ := hi.scan i ofs j hpt ha
      omega

/-- A search that fails finds the list empty. -/
theorem Inv.find_none (hf : k.find k.sector = none) : k.openInodes = [] :=
  eq_nil_iff_forall_not_mem.mpr fun n hn => OpenInodes.find_none hf n hn (hi.sector n hn)

/-- `inode_open` finds a struct of `d`. -/
theorem Inv.rfound (hpt : k.remover = .search ofs) (hg : k.creator.client.opening = false)
    (hmem : i ∈ k.openInodes) : Inv ((k.withInodes (k.inodeReopen i)).rgoto (.opened i ofs)) := by
  have hc := hpt ▸ hi.cache
  refine { hi with
    cache := hc.reopen hg hmem ?_
    sector := fun n hn => hi.sectorKept (kept_inodeReopen _ i) hn
    slots := fun n hn _ => hi.slotsKept (kept_inodeReopen _ i) hn (hpt ▸ rfl)
    outside := nofun
    scan := nofun
    late := nofun
    removed := fun n hn hr => ?_ }
  · show (if i = i then _ else _ : Inode).openCnt = _
    rw [if_pos rfl]
  · have := hi.removedKept (kept_inodeReopen _ i) hn hr
    simp [hpt] at this

/-- `inode_open` finds none. -/
theorem Inv.rmiss (hpt : k.remover = .search ofs) (hg : k.creator.client.opening = false)
    (hl : k.openInodes = []) : Inv (k.rgoto (.missed ofs)) := by
  have hc := hi.cache
  rw [hpt, hl] at hc
  refine { hi with
    cache := ?_
    slots := fun _ _ => nofun
    outside := nofun
    scan := nofun
    late := nofun
    removed := fun n hn => ?_ }
  · show Cache k.openInodes _ _ _
    rw [hl]
    exact hc.miss hg
  · change n ∈ k.openInodes at hn
    simp [hl] at hn

/-- A failed `malloc` in `inode_open`. -/
theorem Inv.rnomem (hpt : k.remover = .missed ofs) : Inv (k.rgoto (.close none false)) := by
  have hc := hpt ▸ hi.cache
  have hl := hc.missA rfl rfl
  have hnot {p : Prop} {n : Ref} (hn : n ∈ k.openInodes) : p := by
    simp [hl] at hn
  exact { hi with
    cache := hc.opened (a := ⟨none, true⟩)
    slots := fun _ hn => hnot hn
    outside := nofun
    scan := nofun
    late := nofun
    removed := fun _ hn => hnot hn }

theorem Inv.rpublish (hpt : k.remover = .missed ofs) :
    Inv (k.publishInode.rgoto (.loading k.count ofs)) := by
  have hc := hpt ▸ hi.cache
  refine { hi with
    cache := hc.publish ?_
    sector := fun _ hn => (publishInode_only (hc.missA rfl rfl) hn).1
    slots := fun _ _ => nofun
    outside := nofun
    scan := nofun
    late := nofun
    removed := fun n hn hr => ?_ }
  · show (if k.count = k.count then _ else _ : Inode).openCnt = _
    rw [if_pos rfl]
  · cases hr.symm.trans (publishInode_only (hc.missA rfl rfl) hn).2

theorem Inv.rload (hpt : k.remover = .loading i ofs) :
    Inv ((k.loadInode i).rgoto (.opened i ofs)) := by
  have hc := hpt ▸ hi.cache
  have hrest := k.modBody_rest i fun v => { v with slots := k.diskSlots }
  refine { hi with
    cache := (hc.opened (a := ⟨some i, true⟩)).congr fun n _ => (hrest n).1
    sector := fun n hn => (hrest n).2.1.trans (hi.sector n hn)
    slots := fun n hn _ _ => ?_
    outside := nofun
    scan := nofun
    late := nofun
    removed := fun n hn hr => ?_ }
  · show _ = k.creator.reach (if n = i then _ else _ : Inode).body.slots
    rw [if_pos (hc.only hn), reach_of_idle (hc.openA rfl).1]
    rfl
  · have := hi.removed n hn ((hrest n).2.2.symm.trans hr)
    simp [hpt] at this

/-- `inode_remove`. -/
theorem Inv.rmark (hpt : k.remover = .mark i) :
    Inv ((k.withInodes (k.modInode i fun v => { v with removed := true })).rgoto
      (.close (some i) true)) := by
  have hc := hpt ▸ hi.cache
  have hpassed : k.remover.passed = true := hpt ▸ rfl
  have hsame {α : Type} (g : Inode → α) (hg : ∀ v b, g { v with removed := b } = g v) (n : Ref) :=
    k.modInode_same g i (fun v => { v with removed := true }) (hg _ _) n
  refine { hi with
    cache := hc.congr fun n _ => hsame (fun v => v.openCnt) (fun _ _ => rfl) n
    sector := fun n hn => (hsame (fun v => v.sector) (fun _ _ => rfl) n).trans (hi.sector n hn)
    slots := fun n hn _ ho => ?_
    outside := fun _ => hi.outside hpassed
    scan := nofun
    late := fun _ _ => hi.late hpassed (by rw [hpt]; simp)
    removed := fun n hn _ => ?_ }
  · exact hsame (fun v => v.body.slots) (fun _ _ => rfl) n ▸ hi.slots n hn (hpt ▸ rfl) ho
  · rw [hc.only hn]
    rfl

theorem Inv.rclose {result : Bool} (hpt : k.remover = .close (some i) result) :
    Inv ((k.withInodes (k.inodeClose i)).rgoto (.unlock result)) := by
  have hc := hpt ▸ hi.cache
  have hc' := hc.close (inodeClose_openCnt k i)
  have hpassed : (RPoint.unlock result).passed = true → k.remover.passed = true := by
    rw [hpt]
    cases result
    · nofun
    · exact fun _ => rfl
  refine { hi with
    cache := hc'
    sector := fun n hn => hi.sectorKept (kept_inodeClose _ i) hn
    slots := fun n hn _ => hi.slotsKept (kept_inodeClose _ i) hn (hpt ▸ rfl)
    outside := fun h => hi.outside (hpassed h)
    scan := nofun
    late := fun h _ => hi.late (hpassed h) (by rw [hpt]; simp)
    removed := fun n hn hr => ?_ }
  have hrem := hi.removedKept (kept_inodeClose _ i) hn hr
  rw [hpt] at hrem
  injection hrem with _ hres
  -- the removal was not shared, so the struct is gone from the list
  have hout := hi.outside (by rw [hpt, hres]; rfl)
  rw [hout] at hc'
  have := hc'.empty rfl rfl
  change n ∈ (if _ then _ else _ : List Ref) at hn
  simp [this] at hn

/-- Every step of the removal. -/
theorem Inv.removeStep {ok : Bool} (hg : resolveGuard (.remove ok) k)
    (h : k.removeStep ok = some k') : Inv k' := by
  unfold State.removeStep at h
  cases hpt : k.remover <;> rw [hpt] at h
  case start =>
    obtain ⟨-, ⟨⟩⟩ := ite_none_left_eq_some.mp h
    exact (hi.rfail (.lookup 0) hpt rfl rfl nofun).ofParent _ true
  case lookup j =>
    cases h
    split
    · exact hi.rfail _ hpt rfl rfl nofun
    · split <;> exact hi.rfail _ hpt rfl rfl nofun
  case search ofs =>
    simp only at h
    split at h
    case h_1 i hf =>
      cases h
      exact hi.rfound hpt (hg ⟨ofs, hpt⟩) (OpenInodes.find_some hf).1
    case h_2 hf =>
      cases h
      exact hi.rmiss hpt (hg ⟨ofs, hpt⟩) (hi.find_none hf)
  case missed ofs =>
    simp only at h
    split at h
    · cases h
      exact hi.rpublish hpt
    · cases h
      exact hi.rnomem hpt
  case loading i ofs =>
    cases h
    exact hi.rload hpt
  case opened i ofs =>
    cases h
    exact hi.countCheck hpt
  case scan i ofs j =>
    cases h
    exact hi.scanSlot hpt
  case erase i ofs =>
    simp only at h
    split at h
    · cases h
      exact (hi.rlate (.mark i) hpt rfl rfl nofun nofun nofun).ofParent _ _
    · cases h
      exact hi.rfail _ hpt rfl rfl nofun
  case mark i =>
    cases h
    exact hi.rmark hpt
  case close i result =>
    cases i with
    | none =>
      cases h
      cases result with
      | false => exact hi.rfail _ hpt rfl rfl nofun
      | true => exact hi.rlate _ hpt rfl rfl nofun nofun nofun
    | some i =>
      cases h
      exact hi.rclose hpt
  case unlock result =>
    cases h
    cases result with
    | false => exact (hi.rfail (.done _) hpt rfl rfl nofun).ofParent _ _
    | true => exact (hi.rlate (.done _) hpt rfl rfl nofun nofun nofun).ofParent _ _
  case done result => cases h

end Remover

-- ==== the creator's steps

section Creator

variable {k k' : State} {i : Ref} {j : Nat} {p : CPoint}

/-- The invariant as the creator sees it. -/
theorem Inv.ofCreator (hcache : Cache k'.openInodes (fun i => (k'.inode i).openCnt)
      k'.remover.client k'.creator.client)
    (hsector : ∀ i, i ∈ k'.openInodes → (k'.inode i).sector = k'.sector)
    (hslots : ∀ i, i ∈ k'.openInodes → k'.remover.client.opening = false →
      k'.creator.client.opening = false → k'.diskSlots = k'.creator.reach (k'.inode i).body.slots)
    (hlen : k'.target.length = k'.creator.extent k'.diskSlots)
    (hdots : 2 ≤ k'.diskSlots ∧ k'.used 0 ∧ k'.used 1) (hprogress : k'.Progress)
    (hsafe : k'.remover.passed = true →
      k'.creator.client = ⟨none, false⟩ ∧ k'.creator.added = false)
    (hremoved : ∀ i, i ∈ k'.openInodes → (k'.inode i).removed = true →
      k'.remover = .close (some i) true) : Inv k' := by
  refine ⟨hcache, hsector, hslots, hlen, hdots, hprogress, fun h => (hsafe h).1, ?_,
    fun h _ => (hsafe h).2, hremoved⟩
  intro i ofs j h ha
  rw [(hsafe (h ▸ rfl)).2] at ha
  cases ha

section

variable (hi : Inv k)

include hi

/-- While the creator holds something the check has not been passed. -/
theorem Inv.not_passed (hpt : k.creator = p) (h : p.client ≠ ⟨none, false⟩) {q : Prop}
    (hpassed : k.remover.passed = true) : q :=
  absurd (hpt ▸ hi.outside hpassed) h

/-- A move of the creator that neither opens, closes nor writes. -/
theorem Inv.cmove (pt : CPoint) (hpt : k.creator = p) (hclient : pt.client = p.client)
    (hreach : pt.reach = p.reach) (hextent : pt.extent = p.extent)
    (hprogress : (k.cgoto pt).Progress) (hsafe : k.remover.passed = true → pt.added = false) :
    Inv (k.cgoto pt) := by
  subst hpt
  refine .ofCreator ?_ hi.sector ?_ ?_ hi.dots hprogress ?_ hi.removed
  · show Cache _ _ _ pt.client
    rw [hclient]
    exact hi.cache
  · intro i hmem hr hc
    show _ = pt.reach _
    rw [hreach]
    exact hi.slots i hmem hr (hclient ▸ hc)
  · show _ = pt.extent _
    rw [hextent]
    exact hi.len
  · exact fun h => ⟨hclient.trans (hi.outside h), hsafe h⟩

/-- `inode_open` finds a struct of `d`. -/
theorem Inv.cfound (hpt : k.creator = .search) (hg : k.remover.client.opening = false)
    (hp : k.remover.passed = false) (hmem : i ∈ k.openInodes) :
    Inv ((k.withInodes (k.inodeReopen i)).cgoto (.dirOpen i)) := by
  have hc := hpt ▸ hi.cache.symm
  have hlen := hpt ▸ hi.len
  refine .ofCreator (hc.reopen hg hmem ?_).symm
    (fun n hn => hi.sectorKept (kept_inodeReopen _ i) hn) ?_ hlen hi.dots trivial ?_
    (fun n hn hr => hi.removedKept (kept_inodeReopen _ i) hn hr)
  · show (if i = i then _ else _ : Inode).openCnt = _
    rw [if_pos rfl]
  · intro n hn hr _
    have := hi.slotsKept (kept_inodeReopen _ i) hn hr (hpt ▸ rfl)
    rw [hpt] at this
    exact this
  · intro h
    exact absurd (hp.symm.trans h) Bool.false_ne_true

/-- `inode_open` finds none. -/
theorem Inv.cmiss (hpt : k.creator = .search) (hg : k.remover.client.opening = false)
    (hp : k.remover.passed = false) (hl : k.openInodes = []) : Inv (k.cgoto .missed) := by
  have hc := hpt ▸ hi.cache.symm
  have hlen := hpt ▸ hi.len
  rw [hl] at hc
  refine .ofCreator ?_ hi.sector (fun _ _ _ => nofun) hlen hi.dots trivial ?_ hi.removed
  · show Cache k.openInodes _ _ _
    rw [hl]
    exact (hc.miss hg).symm
  · intro h
    exact absurd (hp.symm.trans h) Bool.false_ne_true

/-- A failed `malloc` in `inode_open`. -/
theorem Inv.cnomem (hpt : k.creator = .missed) : Inv (k.cgoto (.done false)) := by
  have hc := hpt ▸ hi.cache.symm
  have hlen := hpt ▸ hi.len
  have hl := hc.missA rfl rfl
  refine .ofCreator (hc.opened (a := ⟨none, true⟩)).symm hi.sector ?_
    hlen hi.dots trivial (fun _ => ⟨rfl, rfl⟩) hi.removed
  intro n hn
  change n ∈ k.openInodes at hn
  simp [hl] at hn

theorem Inv.cpublish (hpt : k.creator = .missed) :
    Inv (k.publishInode.cgoto (.loading k.count)) := by
  have hc := hpt ▸ hi.cache.symm
  have hlen := hpt ▸ hi.len
  refine .ofCreator (hc.publish ?_).symm (fun _ hn => (publishInode_only (hc.missA rfl rfl) hn).1)
    (fun _ _ _ => nofun) hlen hi.dots trivial (hi.not_passed hpt nofun) ?_
  · show (if k.count = k.count then _ else _ : Inode).openCnt = _
    rw [if_pos rfl]
  · intro n hn hr
    cases hr.symm.trans (publishInode_only (hc.missA rfl rfl) hn).2

theorem Inv.cload (hpt : k.creator = .loading i) : Inv ((k.loadInode i).cgoto (.dirOpen i)) := by
  have hc := hpt ▸ hi.cache.symm
  have hlen := hpt ▸ hi.len
  have hrest := k.modBody_rest i fun v => { v with slots := k.diskSlots }
  refine .ofCreator ((hc.opened (a := ⟨some i, true⟩)).congr fun n _ => (hrest n).1).symm
    (fun n hn => (hrest n).2.1.trans (hi.sector n hn)) ?_
    hlen hi.dots trivial (hi.not_passed hpt nofun) ?_
  · intro n hn _ _
    show _ = (if n = i then _ else _ : Inode).body.slots
    rw [if_pos (hc.only hn)]
    rfl
  · intro n hn hr
    exact hi.removed n hn ((hrest n).2.2.symm.trans hr)

/-- A change of the struct's lock. -/
theorem Inv.clock (b : Bool) : Inv (k.modBody i fun v => { v with locked := b }) := by
  have hrest := k.modBody_rest i fun v => { v with locked := b }
  have hk : Kept k.toOpenInodes (k.modBody i fun v => { v with locked := b }).toOpenInodes :=
    fun n hn => ⟨hn, (hrest n).2.1, k.modInode_same (fun v => v.body.slots) i
      (fun v => { v with body := { v.body with locked := b } }) rfl n, (hrest n).2.2⟩
  exact ⟨hi.cache.congr fun n _ => (hrest n).1,
    fun _ hn => hi.sectorKept hk hn, fun _ hn => hi.slotsKept hk hn, hi.len, hi.dots, hi.progress,
    hi.outside, hi.scan, hi.late, fun _ hn => hi.removedKept hk hn⟩

/-- The end of file the creator's struct has, away from `publish`. -/
theorem Inv.cslots (hc : k.creator.client = ⟨some i, false⟩)
    (hreach : k.creator.reach = fun n => n) :
    k.diskSlots = (k.inode i).body.slots := by
  have hcache := hi.cache.symm
  rw [hc] at hcache
  have := hi.slots i hcache.mem hcache.settled (by rw [hc])
  rw [hreach] at this
  exact this

/-- The search for a free slot. -/
theorem Inv.freeSlot (hpt : k.creator = .addFree i j) :
    Inv (k.cgoto (match k.readSlot i j with
      | none => .write i j
      | some e => if e.inUse then .addFree i (j + 1) else .write i j)) := by
  have hslots := hi.cslots (i := i) (hpt ▸ rfl) (hpt ▸ rfl)
  have hp := hi.progress
  unfold Progress at hp
  rw [hpt] at hp
  obtain ⟨h2, h0, h1⟩ := hi.dots
  have hwrite : 2 ≤ j → Inv (k.cgoto (.write i j)) := fun hj =>
    hi.cmove _ hpt rfl rfl rfl ⟨hj, hp⟩ (fun _ => rfl)
  unfold readSlot
  by_cases hj : j < (k.inode i).body.slots
  · rw [if_pos hj]
    simp only
    split
    case isTrue =>
      exact hi.cmove _ hpt rfl rfl rfl (show j + 1 ≤ k.diskSlots by omega) (fun _ => rfl)
    case isFalse hfree =>
      -- the entries `.` and `..` are in use
      have hj0 : j ≠ 0 := by
        rintro rfl
        exact hfree h0
      have hj1 : j ≠ 1 := by
        rintro rfl
        exact hfree h1
      exact hwrite (by omega)
  · rw [if_neg hj]
    exact hwrite (by omega)

end

theorem used_writeSlot (hj : j ≤ k.target.length) (n : Nat) :
    (k.writeSlot j).used n ↔ n = j ∨ k.used n := by
  unfold writeSlot used
  simp only [getD_eq_getElem?_getD]
  split
  case isTrue h =>
    rw [getElem?_set]
    split
    case isTrue hn => simp [hn]
    case isFalse hn => simp [Ne.symm hn]
  case isFalse h =>
    have hlen : k.target.length = j := by omega
    rw [getElem?_append]
    split
    case isTrue hn =>
      have : n ≠ j := by omega
      simp [this]
    case isFalse hn =>
      by_cases hnj : n = j
      · simp [hnj, hlen]
      · have hgt : j < n := by omega
        have : k.target[n]? = none := getElem?_eq_none (by omega)
        have h1 : ([{ inUse := true, name := k.x }] : List Entry)[n - j]? =
            none := getElem?_eq_none (by simp; omega)
        rw [hlen, h1, this]
        simp [hnj]

theorem length_writeSlot (hj : j ≤ k.target.length) :
    (k.writeSlot j).target.length = max k.target.length (j + 1) := by
  show (if _ then _ else _ : List Entry).length = _
  split
  case isTrue h =>
    rw [length_set]
    omega
  case isFalse h =>
    rw [length_append, length_singleton]
    omega

theorem Inv.cwrite (hi : Inv k) (hpt : k.creator = .write i j) :
    Inv ((k.writeSlot j).cgoto (.sync i j)) := by
  have ⟨hc, _, hslots, hlen, _, hp, _, _, _, _⟩ := hi
  unfold Progress at hp
  rw [hpt] at hp hc hlen hslots
  change k.target.length = k.diskSlots at hlen
  have hj : j ≤ k.target.length := by omega
  have hused : ∀ {n}, k.used n → (k.writeSlot j).used n :=
    fun h => (used_writeSlot hj _).mpr (.inr h)
  refine .ofCreator hc hi.sector (fun n hn hr _ => hslots n hn hr rfl) ?_ ⟨hi.dots.1,
    hused hi.dots.2.1, hused hi.dots.2.2⟩ ?_ (hi.not_passed hpt nofun) hi.removed
  · show (k.writeSlot j).target.length = max k.diskSlots (j + 1)
    rw [length_writeSlot hj, hlen]
  · exact ⟨hp.1, (used_writeSlot hj j).mpr (.inl rfl)⟩

theorem Inv.csync (hi : Inv k) (hpt : k.creator = .sync i j) :
    Inv ({ k with diskSlots := max k.diskSlots (j + 1) }.cgoto (.publish i j)) := by
  have ⟨hc, _, hslots, hlen, _, hp, _, _, _, _⟩ := hi
  unfold Progress at hp
  rw [hpt] at hp hc hlen hslots
  obtain ⟨h2, h0, h1⟩ := hi.dots
  refine .ofCreator hc hi.sector ?_ hlen ⟨Nat.le_trans h2 (Nat.le_max_left ..), h0, h1⟩ ⟨hp.1,
    Nat.le_max_right .., hp.2⟩ (hi.not_passed hpt nofun) hi.removed
  intro n hn hr _
  have : k.diskSlots = (k.inode n).body.slots := hslots n hn hr rfl
  show max k.diskSlots (j + 1) = max (k.inode n).body.slots (j + 1)
  rw [this]

theorem Inv.cpublished (hi : Inv k) (hpt : k.creator = .publish i j) : Inv ((k.modBody i fun v =>
      { v with slots := max v.slots (j + 1) }).cgoto (.unlock i true)) := by
  have ⟨hc, _, hslots, hlen, _, hp, _, _, _, _⟩ := hi
  unfold Progress at hp
  rw [hpt] at hp hc hlen hslots
  have hrest := k.modBody_rest i fun v => { v with slots := max v.slots (j + 1) }
  refine .ofCreator (hc.congr fun n _ => (hrest n).1)
    (fun n hn => (hrest n).2.1.trans (hi.sector n hn)) ?_ hlen hi.dots ⟨j, hp⟩
    (hi.not_passed hpt nofun) ?_
  · intro n hn hr _
    have := hslots n hn hr rfl
    have hn := hc.symm.only hn
    show _ = (if n = i then _ else _ : Inode).body.slots
    rw [if_pos hn, ← hn]
    exact this
  · intro n hn hr
    exact hi.removed n hn ((hrest n).2.2.symm.trans hr)

theorem Inv.cclose {result : Bool} (hi : Inv k) (hpt : k.creator = .close i result) :
    Inv ((k.withInodes (k.inodeClose i)).cgoto (.done result)) := by
  have ⟨hc, _, hslots, hlen, _, hp, _, _, _, _⟩ := hi
  replace hc := hc.symm
  unfold Progress at hp
  rw [hpt] at hp hc hlen hslots
  refine .ofCreator (hc.close (inodeClose_openCnt k i)).symm
    (fun n hn => hi.sectorKept (kept_inodeClose _ i) hn) ?_ hlen hi.dots ?_
    (hi.not_passed hpt nofun) (fun n hn hr => hi.removedKept (kept_inodeClose _ i) hn hr)
  · intro n hn hr _
    have := hi.slotsKept (kept_inodeClose _ i) hn hr (hpt ▸ rfl)
    rw [hpt] at this
    exact this
  · cases result with
    | false => trivial
    | true => exact hp

/-- Every step of the creation. -/
theorem Inv.createStep {ok : Bool} (hi : Inv k) (hg : resolveGuard (.create ok) k)
    (h : k.createStep ok = some k') : Inv k' := by
  unfold State.createStep at h
  -- moves between points with the same reference
  have hmove : ∀ pt : CPoint, pt.client = k.creator.client → pt.reach = k.creator.reach → pt.extent
      = k.creator.extent → (k.cgoto pt).Progress → pt.added = false → Inv (k.cgoto pt) :=
    fun pt hc hr he hp ha => hi.cmove pt rfl hc hr he hp (fun _ => ha)
  cases hpt : k.creator <;> rw [hpt] at h hmove
  case start =>
    cases h
    exact hmove _ rfl rfl rfl trivial rfl
  case lookup j =>
    cases h
    split
    · exact hmove _ rfl rfl rfl trivial rfl
    · split <;> exact hmove _ rfl rfl rfl trivial rfl
  case search =>
    simp only at h
    obtain ⟨ho, hp⟩ := hg hpt
    split at h
    case h_1 i hf =>
      cases h
      exact hi.cfound hpt ho hp (OpenInodes.find_some hf).1
    case h_2 hf =>
      cases h
      exact hi.cmiss hpt ho hp (hi.find_none hf)
  case missed =>
    simp only at h
    split at h
    · cases h
      exact hi.cpublish hpt
    · cases h
      exact hi.cnomem hpt
  case loading i =>
    cases h
    exact hi.cload hpt
  case dirOpen i | check i | alloc i =>
    cases h
    split <;> exact hmove _ rfl rfl rfl trivial rfl
  case lock i =>
    obtain ⟨-, ⟨⟩⟩ := ite_none_left_eq_some.mp h
    split
    · exact (hmove (.addLookup i 0) rfl rfl rfl trivial rfl).clock true
    · exact (hmove (.unlock i false) rfl rfl rfl trivial rfl).clock true
  case addLookup i j =>
    cases h
    split
    · exact hmove _ rfl rfl rfl (Nat.zero_le _) rfl
    · split <;> exact hmove _ rfl rfl rfl trivial rfl
  case addFree i j =>
    cases h
    exact hi.freeSlot hpt
  case write i j =>
    simp only at h
    split at h
    · cases h
      exact hi.cwrite hpt
    · cases h
      exact hmove _ rfl rfl rfl trivial rfl
  case sync i j =>
    cases h
    exact hi.csync hpt
  case publish i j =>
    cases h
    exact hi.cpublished hpt
  case unlock i result =>
    cases h
    have hp := hi.progress
    unfold Progress at hp
    rw [hpt] at hp
    have hprogress : (k.cgoto (.close i result)).Progress := by
      cases result with
      | false => trivial
      | true => exact hp
    exact (hi.cmove (.close i result) hpt rfl rfl rfl hprogress
      (hi.not_passed hpt nofun)).clock false
  case close i result =>
    cases h
    exact hi.cclose hpt
  case done result => cases h

end Creator

-- ==== runs

theorem Inv.start (h : Start k) : Inv k := by
  have hnot {p : Prop} {i : Ref} (hi : i ∈ k.openInodes) : p := by
    simp [h.closed] at hi
  refine ⟨?_, fun _ hi => hnot hi, fun _ hi => hnot hi, ?_, ?_, ?_, ?_, ?_, ?_, fun _ hi => hnot hi⟩
  · rw [h.closed, h.remover, h.creator]
    exact ⟨nofun, nofun, nofun, nofun, nofun, nofun, nofun, nofun⟩
  · rw [h.creator]
    exact h.slots.symm
  · exact ⟨h.slots ▸ h.dots.1, h.dots.2 0 (by decide), h.dots.2 1 (by decide)⟩
  · unfold Progress
    rw [h.creator]
    trivial
  · rw [h.remover]
    nofun
  · rw [h.remover]
    nofun
  · rw [h.remover]
    nofun

theorem reachable_inv : ∀ k, Reach Start step resolveGuard k → Inv k :=
  Reach.induct (P := Inv) (fun _ => .start) fun a _ _ _ hi hok hs => by
      cases a with
      | remove ok => exact hi.removeStep hok hs
      | create ok => exact hi.createStep hok hs

/-- Removal excludes creation: not both calls return true, and nothing is
written to a directory that is marked removed. -/
def Exclusive (k : State) : Prop :=
  ¬(k.remover = .done true ∧ k.creator = .done true) ∧
  ∀ i j, k.creator = .write i j → (k.inode i).removed = false

theorem Inv.exclusive (hi : Inv k) : Exclusive k := by
  constructor
  · rintro ⟨hr, hc⟩
    have := hi.late (hr ▸ rfl) (by rw [hr]; simp)
    rw [hc] at this
    cases this
  · intro i j hc
    have hcache := hi.cache
    rw [hc] at hcache
    have hl := hcache.refB i rfl
    cases hrem : (k.inode i).removed with
    | false => rfl
    | true =>
      have := hi.removed i (hl ▸ mem_singleton_self i) hrem
      have hout := hi.outside (this ▸ rfl)
      rw [hc] at hout
      cases hout

/-- In every run whose searches for the inode of `d` all meet the guard,
every state reached has the removal exclude the creation. -/
theorem remove_excludes_create {k : State} (h : Reach Start step resolveGuard k) : Exclusive k :=
  (reachable_inv k h).exclusive

/-- A parent that holds `d`, which holds its two dots. -/
def twoDots : State where
  d := "d"
  x := "x"
  parent := [⟨true, "."⟩, ⟨true, ".."⟩, ⟨true, "d"⟩]
  target := [⟨true, "."⟩, ⟨true, ".."⟩]
  parentLocked := false
  sector := 5
  inode := fun _ => ⟨0, 0, false, 0, false⟩
  count := 0
  openInodes := []
  diskSlots := 2
  remover := .start
  creator := .start

theorem twoDots_start : Start twoDots where
  listed := ⟨⟨true, "d"⟩, by decide, by decide⟩
  slots := rfl
  dots := ⟨by decide, by decide⟩
  empty := by
    intro j hj
    have : twoDots.target[j]? = none := getElem?_eq_none hj
    rw [getD_eq_getElem?_getD, this]
    rfl
  closed := rfl
  unlocked := rfl
  remover := rfl
  creator := rfl

instance (a : Act) (k : State) : Decidable (resolveGuard a k) :=
  match a with
  | .remove _ => decidable_of_iff
      ((match k.remover with | .search _ => true | _ => false) = true →
        k.creator.client.opening = false)
      (by
        unfold resolveGuard
        cases k.remover <;> simp)
  | .create _ => inferInstanceAs (Decidable (_ → _ ∧ _))

/-- The creation resolves `d` and adds its entry first; the removal, which
looked `d` up before, finds it open and gives up. -/
theorem remove_excludes_create_busy :
    ∃ k, Reach Start step resolveGuard k ∧ k.creator = .done true ∧
      k.remover = .done false ∧ Exclusive k := by
  have h0 : Reach Start step resolveGuard twoDots := .init twoDots_start
  obtain ⟨k, hr, hc, hrm⟩ := h0.of_runAll
    (List.replicate 4 (.remove true) ++ List.replicate 7 (.create true) ++
      List.replicate 4 (.remove true) ++ List.replicate 15 (.create true))
    (fun k => k.creator = .done true ∧ k.remover = .done false) (by decide)
  exact ⟨k, hr, hc, hrm, remove_excludes_create hr⟩

/-- The creation resolves `d` between the removal's check of the open
count and its `inode_remove`: both calls return true, and the entry is
written to a directory that is marked removed. -/
theorem remove_create_race :
    (∃ k, Reach Start step anyStep k ∧ k.remover = .done true ∧ k.creator = .done true) ∧
    ∃ k, Reach Start step anyStep k ∧ ∃ i j, k.creator = .write i j ∧
      (k.inode i).removed = true := by
  have h0 : Reach Start step anyStep twoDots := .init twoDots_start
  constructor
  · obtain ⟨k, hr, hk⟩ := h0.of_runAll
      (List.replicate 8 (.remove true) ++ List.replicate 8 (.create true) ++
        List.replicate 5 (.remove true) ++ List.replicate 12 (.create true))
      (fun k => k.remover = .done true ∧ k.creator = .done true) (by decide)
    exact ⟨k, hr, hk⟩
  · obtain ⟨k, hr, hc, hrem⟩ := h0.of_runAll
      (List.replicate 8 (.remove true) ++ List.replicate 8 (.create true) ++
        List.replicate 5 (.remove true) ++ List.replicate 7 (.create true))
      (fun k => k.creator = .write 0 2 ∧ (k.inode 0).removed = true) (by decide)
    exact ⟨k, hr, 0, 2, hc, hrem⟩

end State

end Pintos.DirRace
