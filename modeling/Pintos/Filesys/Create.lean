/-
`filesys_create` over the block device, and the references that it takes
on the way to the parent.

# The model

The directory functions are programs over the device and the inodes in
memory. A `struct dir` is the number of its inode. A string is the list of
its bytes before the null byte. Memory is available, as for the functions
of `inode.c`; `Stack` supplies what is on the stack.

# What is open

It is seen through `view`: the inodes on `open_inodes` with all their
fields. `get_dir` adds one reference (`Ref`) or none, whatever the
directories on the way are; `inode_close` takes it back.
-/
import Pintos.Filesys.Path
import Pintos.Filesys.Slots
import Pintos.Filesys.Removal
import Pintos.Filesys.Lookup

namespace Pintos.Create

open Resume Prog Components Function List Option Slots
open Inode
open Slots (Raw decode inUse entryName inodeSector fillEntry)
open Directory (entrySize nameMax rootDirSector)

-- ==== directories

def dot : List UInt8 := [46]

def dotDot : List UInt8 := [46, 46]

/-- A `struct dir_entry` that was read as a whole. -/
def entryOf (bytes : List UInt8) : Raw := fun j => bytes.getD j 0

/-- More rounds than a loop over the slots makes up to the short read. -/
def slots (i : MemInode) : Nat := (eof i.data).toNat + 1

/-- The loop of `lookup`. -/
def lookupLoop (r : Nat) (name : List UInt8) : Nat → Nat → P (Option (Raw × Nat))
  | 0, _ => pure none
  | fuel + 1, ofs => do
      let bytes ← inodeReadAt r entrySize ofs
      if bytes.length = entrySize then
        if inUse (entryOf bytes) = true ∧ name = entryName (entryOf bytes)
        then pure (some (entryOf bytes, ofs))
        else lookupLoop r name fuel (ofs + entrySize)
      else pure none

def lookup (r : Nat) (name : List UInt8) : P (Option (Raw × Nat)) := do
  let i ← getInode r
  lookupLoop r name (slots i) 0

def dirLookup (r : Nat) (name : List UInt8) : P (Option Nat) := do
  let found ← lookup r name
  match found with
  | none => pure none
  | some (e, _) => do
      let inode ← inodeOpen (inodeSector e)
      pure (some inode)

/-- The search for a free slot in `dir_add`: `ofs`, and what is in `e`. -/
def freeLoop (r : Nat) : Nat → Nat → Raw → P (Nat × Raw)
  | 0, ofs, e => pure (ofs, e)
  | fuel + 1, ofs, e => do
      let bytes ← inodeReadAt r entrySize ofs
      if bytes.length = entrySize then
        if inUse (entryOf bytes) = false then pure (ofs, entryOf bytes)
        else freeLoop r fuel (ofs + entrySize) (entryOf bytes)
      else pure (ofs, fun j => if j < bytes.length then bytes.getD j 0 else e j)

/-- `dir_add` past its two checks. -/
def writeSlot (junk : Nat → Block) (e : Raw) (r : Nat) (name : List UInt8)
    (sector : Nat) : P Bool := do
  let i ← getInode r
  let (ofs, e) ← freeLoop r (slots i) 0 e
  let written ← inodeWriteAt junk r (fillEntry e name sector) entrySize ofs
  pure (decide (written = entrySize))

/-- What `dir_add` does under the lock. -/
def addEntry (junk : Nat → Block) (e : Raw) (r : Nat) (name : List UInt8) (sector : Nat) : P Bool :=
  if name = [] ∨ name.length > nameMax then pure false
  else do
    let found ← lookup r name
    if found.isSome then pure false
    else writeSlot junk e r name sector

def dirAdd (junk : Nat → Block) (e : Raw) (r : Nat) (name : List UInt8)
    (sector : Nat) : P Bool := do
  acquire r
  let success ← addEntry junk e r name sector
  release r
  pure success

-- ==== paths

def tokens (path : List UInt8) : List (List UInt8) := Path.tokens [47] path

def getName (path : List UInt8) : List UInt8 := Path.getName 47 path

def dirPath (path : List UInt8) : List UInt8 := Path.dirPath 47 path

/-- The directory `get_dir` starts from; `cwd` is `current_directory`. -/
def getDirStart (cwd : Option Nat) (path : List UInt8) : P Nat :=
  if path.head? = some 47 then inodeOpen rootDirSector
  else
    match cwd with
    | none => inodeOpen rootDirSector
    | some r => do
        reopen r
        pure r

/-- The loop of `get_dir`; `r` is `cur_dir`. -/
def getDirLoop (junk : Nat → Block) : List (List UInt8) → Nat → P (Option Nat)
  | [], r => pure (some r)
  | token :: rest, r => do
      let found ← dirLookup r token
      match found with
      | none => do
          inodeClose (junk rest.length) r
          pure none
      | some sub => do
          inodeClose (junk rest.length) r
          getDirLoop junk rest sub

def getDir (junk : Nat → Block) (cwd : Option Nat) (path : List UInt8) : P (Option Nat) := do
  let start ← getDirStart cwd path
  let found ← getDirLoop junk (tokens path) start
  match found with
  | none => pure none
  | some r => do
      let i ← getInode r
      if i.removed then do
        inodeClose (junk (tokens path).length) r
        pure none
      else pure (some r)

-- ==== create

/-- What is on the stack of `filesys_create` and of what it calls. -/
structure Stack where
  walk : Nat → Block
  inode : Nat → Block
  entry : Nat → Block
  dots : Nat → Block
  close : Block
  raw : Raw

/-- The conjunction: the sector allocated, and whether all of it
succeeded. -/
def createEntry (k : Stack) (parent : Option Nat) (name : List UInt8)
    (size : Int) (isdir : Bool) : P (Option Nat × Bool) :=
  match parent with
  | none => pure (none, false)
  | some r => do
      let sector ← freeMapAllocate
      match sector with
      | none => pure (none, false)
      | some s => do
          let made ← inodeCreate k.inode s size isdir
          if made then do
            let added ← dirAdd k.entry k.raw r name s
            pure (some s, added)
          else pure (some s, false)

/-- The entries `.` and `..` of a new directory. -/
def addDots (k : Stack) (child parent : Nat) : P Unit := do
  let inode ← inodeOpen child
  let added ← dirAdd k.dots k.raw inode dot child
  kassert added
  let i ← getInode parent
  let added ← dirAdd k.dots k.raw inode dotDot i.sector
  kassert added
  inodeClose k.close inode
  -- the reference of `inode` went to `child_dir`
  inodeClose k.close inode

/-- What follows the conjunction. -/
def finishCreate (k : Stack) (parent : Option Nat) (isdir : Bool) : Option Nat × Bool → P Unit
  | (some s, true) =>
    match parent with
    | some r => if isdir then addDots k s r else pure ()
    | none => pure ()
  | (some s, false) => if s ≠ 0 then freeMapRelease s else pure ()
  | (none, _) => pure ()

def dirClose (junk : Block) : Option Nat → P Unit
  | some r => inodeClose junk r
  | none => pure ()

def filesysCreate (k : Stack) (cwd : Option Nat) (path : List UInt8)
    (size : Int) (isdir : Bool) : P Bool := do
  let parent ← getDir k.walk cwd (dirPath path)
  let made ← createEntry k parent (getName path) size isdir
  finishCreate k parent isdir made
  dirClose k.close parent
  pure made.2

-- ==== what is open

/-- The inodes on `open_inodes`. -/
def view (fs : Fs) : Nat → Option MemInode := fun r =>
  if r ∈ fs.openInodes then some (fs.inode r) else none

/-- One more reference. -/
def up (i : MemInode) : MemInode := { i with openCnt := i.openCnt + 1 }

def down (i : MemInode) : MemInode := { i with openCnt := i.openCnt - 1 }

/-- `w` is `v` with one more reference to `r`. -/
def Ref (r : Nat) (v w : Nat → Option MemInode) : Prop :=
  (∃ i, v r = some i ∧ w = update v r (some (up i))) ∨
    ∃ i, v r = none ∧ i.openCnt = 1 ∧ i.removed = false ∧ w = update v r (some i)

/-- `inode_close (r)`, on what is open. -/
def closed (r : Nat) (v : Nat → Option MemInode) : Nat → Option MemInode :=
  match v r with
  | none => v
  | some i => update v r (if i.openCnt - 1 = 0 then none else some (down i))

/-- One more reference to the inode that was found, if there is one. -/
def RefOpt : Option Nat → (Nat → Option MemInode) → (Nat → Option MemInode) → Prop
  | some r, v, w => Ref r v w
  | none, v, w => w = v

/-- Every open inode is in use. -/
def Counted (v : Nat → Option MemInode) : Prop := ∀ r i, v r = some i → 1 ≤ i.openCnt

section Views

variable {v w u : Nat → Option MemInode} {r sub : Nat}

theorem down_up (i : MemInode) : down (up i) = i := by
  unfold down up
  cases i
  simp

theorem Ref.other (h : Ref r v w) {x : Nat} (hx : x ≠ r) : w x = v x := by
  rcases h with ⟨i, -, rfl⟩ | ⟨i, -, -, -, rfl⟩ <;> exact update_of_ne hx ..

theorem Ref.some (h : Ref r v w) : ∃ i, w r = some i := by
  rcases h with ⟨i, -, rfl⟩ | ⟨i, -, -, -, rfl⟩
  · exact ⟨up i, update_self ..⟩
  · exact ⟨i, update_self ..⟩

/-- The last reference to an inode that was not open is not to a removed
one. -/
theorem Ref.not_last (h : Ref r v w) (hv : Counted v) {i : MemInode}
    (hi : w r = .some i) : i.openCnt = 1 → i.removed = false := by
  rcases h with ⟨j, hj, rfl⟩ | ⟨j, -, -, hrem, rfl⟩
  · rw [update_self] at hi
    cases hi
    intro hone
    have hpos := hv r j hj
    have hcnt : j.openCnt + 1 = 1 := hone
    omega
  · rw [update_self] at hi
    cases hi
    exact fun _ => hrem

theorem Ref.counted (h : Ref r v w) (hv : Counted v) : Counted w := by
  intro x i hi
  by_cases hx : x = r
  · subst hx
    rcases h with ⟨j, hj, rfl⟩ | ⟨j, -, hone, -, rfl⟩
    · rw [update_self] at hi
      cases hi
      exact Int.le_add_one (hv x j hj)
    · rw [update_self] at hi
      cases hi
      exact hone.ge
  · exact hv x i (h.other hx ▸ hi)

theorem Ref.keeps (h : Ref r v w) {x : Nat} (hx : ∃ i, v x = .some i) : ∃ i, w x = .some i := by
  by_cases hxr : x = r
  · exact hxr ▸ h.some
  · rwa [h.other hxr]

/-- With another reference taken after it. -/
theorem Ref.not_last_before (h' : Ref sub w u) (h : Ref r v w) (hv : Counted v) {i : MemInode}
    (hi : u r = .some i) : i.openCnt = 1 → i.removed = false := by
  by_cases heq : r = sub
  · subst heq
    exact h'.not_last (h.counted hv) hi
  · exact h.not_last hv (h'.other heq ▸ hi)

/-- Closing takes the reference back. -/
theorem Ref.closed (h : Ref r v w) (hv : Counted v) : closed r w = v := by
  unfold Create.closed
  rcases h with ⟨i, hi, rfl⟩ | ⟨i, hi, hone, -, rfl⟩
  · have hpos := hv r i hi
    have hne : (up i).openCnt - 1 ≠ 0 := by
      show i.openCnt + 1 - 1 ≠ 0
      omega
    rw [update_self]
    dsimp only
    rw [if_neg hne, down_up, update_idem, ← hi, update_eq_self]
  · rw [update_self]
    dsimp only
    rw [if_pos (sub_eq_zero.mpr hone), update_idem, ← hi, update_eq_self]

/-- A reference that was taken before another is given back. -/
theorem Ref.closed_before (h : Ref r v w) (h' : Ref sub w u)
    (hv : Counted v) : Ref sub v (Create.closed r u) := by
  by_cases heq : sub = r
  · -- the second reference is to the same inode
    subst heq
    rw [h'.closed (h.counted hv)]
    exact h
  · have hsub := h.other heq
    have hback := h.closed hv
    have hcomm : ∀ x, u = update w sub x → Create.closed r u = update v sub x := by
      rintro x rfl
      rw [← hback]
      unfold Create.closed
      rw [update_of_ne (Ne.symm heq)]
      split
      · rfl
      · exact update_comm heq ..
    rcases h' with ⟨j, hj, hu⟩ | ⟨j, hj, hone, hrem, hu⟩
    · exact .inl ⟨j, hsub.symm.trans hj, hcomm _ hu⟩
    · exact .inr ⟨j, hsub.symm.trans hj, hone, hrem, hcomm _ hu⟩

end Views

-- ==== open and close

/-- The device and the free map are as before. -/
structure Still (fs fs' : Fs) : Prop where
  disk : fs'.disk = fs.disk
  freeMap : fs'.freeMap = fs.freeMap

/-- The list of open inodes is in order. -/
structure Listed (fs : Fs) : Prop where
  nodup : fs.openInodes.Nodup
  born : ∀ r ∈ fs.openInodes, r < fs.count
  counted : Counted (view fs)

section Cache

variable {t : Tid} {fs fs' fs'' : Fs} {r s : Nat}

theorem Still.refl (fs : Fs) : Still fs fs := ⟨rfl, rfl⟩

theorem Still.trans (h : Still fs fs') (h' : Still fs' fs'') : Still fs fs'' :=
  ⟨h'.disk.trans h.disk, h'.freeMap.trans h.freeMap⟩

theorem view_of_mem (h : r ∈ fs.openInodes) : view fs r = some (fs.inode r) := if_pos h

variable {i : MemInode} {v : Unit}

theorem mem_of_view (h : view fs r = some i) : r ∈ fs.openInodes ∧ fs.inode r = i := by
  unfold view at h
  split at h
  next hmem => exact ⟨hmem, some.inj h⟩
  next => cases h

/-- One open inode is written. -/
theorem view_setInode (h : r ∈ fs.openInodes) (i : MemInode) :
    view (fs.setInode r i) = update (view fs) r (some i) := by
  funext x
  by_cases hx : x = r
  · subst hx
    rw [update_self]
    exact (if_pos h).trans (congrArg some (if_pos rfl))
  · rw [update_of_ne hx]
    unfold view Fs.setInode
    dsimp only
    rw [if_neg hx]

section

variable (h : Listed fs)

include h

theorem Listed.setInode (hr : r ∈ fs.openInodes) (hi : 1 ≤ i.openCnt) :
    Listed (fs.setInode r i) := by
  refine ⟨h.nodup, h.born, fun x j hj => ?_⟩
  rw [view_setInode hr] at hj
  by_cases hx : x = r
  · subst hx
    rw [update_self] at hj
    cases hj
    exact hi
  · rw [update_of_ne hx] at hj
    exact h.counted x j hj

/-- `inode_reopen`. -/
theorem reopen_ends (hr : r ∈ fs.openInodes) (he : (reopen r).exec (Fs.act t) fs = some (v, fs')) :
    Still fs fs' ∧ Listed fs' ∧ Ref r (view fs) (view fs') := by
  cases he
  exact ⟨⟨rfl, rfl⟩, h.setInode hr (Int.le_add_one (h.counted r _ (view_of_mem hr))),
    .inl ⟨fs.inode r, view_of_mem hr, view_setInode hr _⟩⟩

/-- A new inode on the list. -/
theorem Listed.publish (hi : i.openCnt = 1) (hrem : i.removed = false) {fs' : Fs}
    (hstill : Still fs fs') (hcount : fs'.count = fs.count + 1)
    (hlist : fs'.openInodes = fs.count :: fs.openInodes)
    (hinode : ∀ x, fs'.inode x = if x = fs.count then i else fs.inode x) :
    Still fs fs' ∧ Listed fs' ∧ Ref fs.count (view fs) (view fs') := by
  have hnew : fs.count ∉ fs.openInodes := fun hmem => lt_irrefl _ (h.born _ hmem)
  have hview : view fs' = update (view fs) fs.count (some i) := by
    funext x
    by_cases hx : x = fs.count
    · subst hx
      rw [update_self]
      unfold view
      rw [hlist, if_pos mem_cons_self, hinode, if_pos rfl]
    · rw [update_of_ne hx]
      unfold view
      rw [hlist, hinode, if_neg hx]
      simp only [mem_cons, hx, false_or]
  have href : Ref fs.count (view fs) (view fs') := .inr ⟨i, if_neg hnew, hi, hrem, hview⟩
  refine ⟨hstill, ⟨?_, ?_, href.counted h.counted⟩, href⟩
  · rw [hlist]
    exact nodup_cons.mpr ⟨hnew, h.nodup⟩
  · rw [hlist, hcount]
    intro x hx
    rcases mem_cons.mp hx with rfl | hx
    · exact Nat.lt_succ_self _
    · exact Nat.lt_succ_of_lt (h.born x hx)

/-- `inode_open`, if the sector is on the device. -/
theorem inodeOpen_ends (he : (inodeOpen s).exec (Fs.act t) fs = some (r, fs')) :
    Still fs fs' ∧ Listed fs' ∧ Ref r (view fs) (view fs') := by
  obtain ⟨found, fs₁, hfind, he⟩ := exec_bind_some he
  cases hfind
  cases hf : fs.openInodes.find? fun r => (fs.inode r).sector == s with
  | some r₀ =>
    rw [hf] at he
    obtain ⟨v, fs₂, hreopen, he⟩ := exec_bind_some he
    cases he
    exact reopen_ends h (mem_of_find?_eq_some hf) hreopen
  | none =>
    rw [hf] at he
    obtain ⟨r₀, fs₂, hnew, he⟩ := exec_bind_some he
    cases hnew
    obtain ⟨v, fs₃, hload, he⟩ := exec_bind_some he
    cases he
    rw [exec_loadInode] at hload
    obtain ⟨-, ⟨⟩⟩ := ite_none_right_eq_some.mp hload
    refine h.publish (i := ⟨s, 1, false, 0, fs.disk s, none⟩) rfl rfl ⟨rfl, rfl⟩ rfl rfl fun x => ?_
    simp only [Fs.setInode, ↓reduceIte]
    split <;> rfl

/-- An inode goes off the list. -/
theorem Listed.unlist (hstill : Still fs fs') (hcount : fs'.count = fs.count)
    (hlist : fs'.openInodes = fs.openInodes.erase r)
    (hinode : ∀ x, x ≠ r → fs'.inode x = fs.inode x) :
    Still fs fs' ∧ Listed fs' ∧ view fs' = update (view fs) r none := by
  have hview : view fs' = update (view fs) r none := by
    funext x
    by_cases hx : x = r
    · subst hx
      rw [update_self]
      refine if_neg fun hmem => ?_
      rw [hlist] at hmem
      exact (h.nodup.mem_erase_iff.mp hmem).1 rfl
    · rw [update_of_ne hx]
      unfold view
      rw [hlist, hinode x hx]
      simp only [mem_erase_of_ne hx]
  refine ⟨hstill, ⟨?_, ?_, ?_⟩, hview⟩
  · rw [hlist]
    exact h.nodup.erase r
  · rw [hlist, hcount]
    exact fun x hx => h.born x (mem_of_mem_erase hx)
  · rw [hview]
    intro x j hj
    by_cases hx : x = r
    · subst hx
      simp [update_self] at hj
    · rw [update_of_ne hx] at hj
      exact h.counted x j hj

/-- `inode_close`, if it is not the last reference to a removed inode. -/
theorem inodeClose_ends (hi : view fs r = some i) (hrem : i.openCnt = 1 → i.removed = false)
    {junk : Block} (he : (inodeClose junk r).exec (Fs.act t) fs = some (v, fs')) :
    Still fs fs' ∧ Listed fs' ∧ view fs' = closed r (view fs) := by
  obtain ⟨hr, rfl⟩ := mem_of_view hi
  have hpos := h.counted r _ hi
  have hclosed : closed r (view fs) = update (view fs) r (if (fs.inode r).openCnt - 1 = 0 then none
        else some (down (fs.inode r))) := by
    unfold closed
    rw [hi]
  obtain ⟨n, fs₁, hdrop, he⟩ := exec_bind_some he
  rw [exec_dropRef] at hdrop
  cases hdrop
  by_cases hlast : (fs.inode r).openCnt - 1 = 0
  · rw [if_pos hlast] at he
    obtain ⟨u, fs₂, hunlist, he⟩ := exec_bind_some he
    cases hunlist
    obtain ⟨j, fs₃, hget, he⟩ := exec_bind_some he
    cases hget
    have hkept : (fs.inode r).removed = false := hrem (by omega)
    split at he
    next hremoved => simp [Fs.setInode, hkept] at hremoved
    next =>
      cases he
      rw [hclosed, if_pos hlast]
      exact h.unlist ⟨rfl, rfl⟩ rfl rfl fun x hx => if_neg hx
  · rw [if_neg hlast] at he
    cases he
    refine ⟨⟨rfl, rfl⟩, h.setInode hr ?_, ?_⟩
    · show 1 ≤ (fs.inode r).openCnt - 1
      omega
    · rw [view_setInode hr, hclosed, if_neg hlast]
      rfl

end

end Cache

-- ==== get_dir

section Walk

variable {t : Tid} {fs fs' : Fs} {r : Nat}

theorem lookupLoop_looks (r : Nat) (name : List UInt8) (fuel ofs : Nat) :
    (lookupLoop r name fuel ofs).Only Looks := by
  induction fuel generalizing ofs with
  | zero => trivial
  | succ fuel ih =>
    refine (inodeReadAt_looks r entrySize ofs).bind fun bytes => ?_
    exact .ite (Only.ite trivial (ih _)) trivial

theorem lookup_looks (r : Nat) (name : List UInt8) : (lookup r name).Only Looks :=
  Only.bind ⟨trivial, fun _ => trivial⟩ fun _ => lookupLoop_looks r name _ _

variable {found : Option Nat} {junk : Nat → Block}

/-- `dir_lookup` opens what it finds. -/
theorem dirLookup_ends (h : Listed fs) {name : List UInt8}
    (he : (dirLookup r name).exec (Fs.act t) fs = some (found, fs')) :
    Still fs fs' ∧ Listed fs' ∧ RefOpt found (view fs) (view fs') := by
  obtain ⟨e, fs₁, hlook, he⟩ := exec_bind_some he
  cases Only.exec_same Looks.same (lookup_looks r name) hlook
  cases e with
  | none =>
    cases he
    exact ⟨.refl fs, h, rfl⟩
  | some e =>
    obtain ⟨inode, fs₂, hopen, he⟩ := exec_bind_some he
    cases he
    exact inodeOpen_ends h hopen

/-- The loop of `get_dir` moves one reference along the path. -/
theorem getDirLoop_ends {v : Nat → Option MemInode} (hv : Counted v) (names : List (List UInt8))
    (h : Listed fs) (href : Ref r v (view fs))
    (he : (getDirLoop junk names r).exec (Fs.act t) fs = some (found, fs')) :
    Still fs fs' ∧ Listed fs' ∧ RefOpt found v (view fs') := by
  induction names generalizing r fs with
  | nil =>
    cases he
    exact ⟨.refl _, h, href⟩
  | cons token rest ih =>
    obtain ⟨e, fs₁, hlook, he⟩ := exec_bind_some he
    obtain ⟨hstill, hlist, hsub⟩ := dirLookup_ends h hlook
    cases e with
    | none =>
      obtain ⟨u, fs₂, hclose, he⟩ := exec_bind_some he
      cases he
      have hsame : view fs₁ = view fs := hsub
      rw [← hsame] at href
      obtain ⟨i, hi⟩ := href.some
      obtain ⟨hstill', hlist', hview⟩ := inodeClose_ends hlist hi (href.not_last hv hi) hclose
      exact ⟨hstill.trans hstill', hlist', hview.trans (href.closed hv)⟩
    | some sub =>
      obtain ⟨u, fs₂, hclose, he⟩ := exec_bind_some he
      replace hsub : Ref sub (view fs) (view fs₁) := hsub
      obtain ⟨i, hi⟩ := hsub.keeps href.some
      obtain ⟨hstill', hlist', hview⟩ := inodeClose_ends hlist hi
        (hsub.not_last_before href hv hi) hclose
      obtain ⟨hstill'', hrest⟩ := ih hlist' (hview ▸ href.closed_before hsub hv) he
      exact ⟨(hstill.trans hstill').trans hstill'', hrest⟩

/-- `get_dir` returns one more reference, or leaves what is open as it
was. -/
theorem getDir_ends (h : Listed fs) {cwd : Option Nat}
    (hcwd : ∀ r, cwd = some r → r ∈ fs.openInodes) {path : List UInt8}
    (he : (getDir junk cwd path).exec (Fs.act t) fs = some (found, fs')) :
    Still fs fs' ∧ Listed fs' ∧ RefOpt found (view fs) (view fs') := by
  obtain ⟨r, fs₁, hstart, he⟩ := exec_bind_some he
  have hfirst : Still fs fs₁ ∧ Listed fs₁ ∧ Ref r (view fs) (view fs₁) := by
    unfold getDirStart at hstart
    split at hstart
    · exact inodeOpen_ends h hstart
    · cases cwd with
      | none => exact inodeOpen_ends h hstart
      | some r₀ =>
        obtain ⟨u, fs₂, hreopen, hstart⟩ := exec_bind_some hstart
        cases hstart
        exact reopen_ends h (hcwd r rfl) hreopen
  obtain ⟨hstill, hlist, href⟩ := hfirst
  obtain ⟨e, fs₂, hloop, he⟩ := exec_bind_some he
  obtain ⟨hstill', hlist', hd⟩ := getDirLoop_ends h.counted (tokens path) hlist href hloop
  have hall := hstill.trans hstill'
  cases e with
  | none =>
    cases he
    exact ⟨hall, hlist', hd⟩
  | some d =>
    replace hd : Ref d (view fs) (view fs₂) := hd
    obtain ⟨i, fs₃, hget, he⟩ := exec_bind_some he
    cases hget
    split at he
    · obtain ⟨u, fs₄, hclose, he⟩ := exec_bind_some he
      cases he
      obtain ⟨i, hi⟩ := hd.some
      obtain ⟨hstill'', hlist'', hview⟩ := inodeClose_ends hlist' hi
        (hd.not_last h.counted hi) hclose
      exact ⟨hall.trans hstill'', hlist'', hview.trans (hd.closed h.counted)⟩
    · cases he
      exact ⟨hall, hlist', hd⟩

end Walk

-- ==== the directory layer

section Layers

variable {owner : Owner} {I r t : Nat} {fs : Fs}

theorem entryOf_slice {c : List UInt8} {ofs j : Nat} (hj : j < 20) :
    entryOf ((c.drop ofs).take 20) j = byte c (ofs + j) := by
  unfold entryOf byte
  rw [getD_eq_getElem?_getD, getD_eq_getElem?_getD, getElem?_take_of_lt hj, getElem?_drop]

/-- On a file that is an array of bytes the loop is the one over the
bytes. -/
theorem lookupLoop_refines (h : OnDisk owner I r fs)
    (hlen : eof (fs.inode r).data ≤ length (fs.inode r).data)
    (hend : EndOnDevice fs (fs.inode r).data) (name : List UInt8) (fuel ofs : Nat) (e : Raw) :
    (Slots.lookupLoop (contents fs r) name fuel ofs e = none ∧
        (lookupLoop r name fuel ofs).exec (Fs.act t) fs = some (none, fs)) ∨
      ∃ e₁ k e₂, Slots.lookupLoop (contents fs r) name fuel ofs e =
          some (e₁, k) ∧
        (lookupLoop r name fuel ofs).exec (Fs.act t) fs =
          some (some (e₂, k), fs) ∧ ∀ j, j < 20 → e₂ j = e₁ j := by
  induction fuel generalizing ofs e with
  | zero => exact .inl ⟨rfl, rfl⟩
  | succ fuel ih =>
    have hread : (inodeReadAt r entrySize ofs).exec (Fs.act t) fs =
        some (((contents fs r).drop ofs).take entrySize, fs) :=
      h.inodeReadAt hlen fun _ => hend
    generalize contents fs r = c at hread ih ⊢
    have hcount : ((c.drop ofs).take entrySize).length = (readEntry c ofs e).1 := by
      rw [length_take, length_drop]
      rfl
    unfold Slots.lookupLoop lookupLoop
    rw [exec_seq hread]
    dsimp only
    rw [hcount]
    by_cases hn : (readEntry c ofs e).1 = entrySize
    · have hbytes j (hj : j < 20) :
          entryOf ((c.drop ofs).take entrySize) j = (readEntry c ofs e).2 j := by
        exact (entryOf_slice hj).trans (if_pos (hj.trans_eq hn.symm)).symm
      rw [if_pos hn, if_pos hn, inUse_congr hbytes, entryName_congr hbytes]
      by_cases hhit : inUse (readEntry c ofs e).2 = true ∧ name = entryName (readEntry c ofs e).2
      · rw [if_pos hhit, if_pos hhit]
        exact .inr ⟨_, _, _, rfl, rfl, hbytes⟩
      · rw [if_neg hhit, if_neg hhit]
        exact ih _ _
    · rw [if_neg hn, if_neg hn]
      exact .inl ⟨rfl, rfl⟩

/-- The entries `a`, one that was `b` and is not in use, and `b`. -/
def listing : Block
  | 0 => 5 | 4 => 97 | 19 => 1
  | 20 => 9 | 24 => 98
  | 40 => 7 | 44 => 98 | 59 => 1
  | _ => 0

end Layers

end Pintos.Create
