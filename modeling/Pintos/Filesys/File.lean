/-
`filesys/file.c`: open files, their `deny_write` flags, and the counts of
the inodes they share.

The operations run one at a time, so each is one action; `inode_open` and
`inode_close` are the programs of the inode layer, run alone. A failed
`malloc` in `inode_open` and a failed `calloc` in `file_open` are choices
of the action. A `struct file` is named by its number in order of
allocation; `openFiles` are those not closed.
-/
import Pintos.Filesys.Inode
import Pintos.Lib.Transition
import Mathlib.Data.List.Count

namespace Pintos

open Transition List Option

namespace Inode

/-- `inode_deny_write`; it asserts after the increment. -/
def inodeDenyWrite (r : Nat) (fs : Fs) : Option Fs :=
  if ((fs.inode r).denyWriteCnt + 1 : Int) ≤ (fs.inode r).openCnt then
    some (fs.setInode r { fs.inode r with denyWriteCnt := (fs.inode r).denyWriteCnt + 1 })
  else none

/-- `inode_allow_write`. -/
def inodeAllowWrite (r : Nat) (fs : Fs) : Option Fs :=
  if 0 < (fs.inode r).denyWriteCnt
      ∧ ((fs.inode r).denyWriteCnt : Int) ≤ (fs.inode r).openCnt then
    some (fs.setInode r { fs.inode r with denyWriteCnt := (fs.inode r).denyWriteCnt - 1 })
  else none

end Inode

/-- `struct file`. -/
structure File where
  inode : Nat
  pos : Nat
  denyWrite : Bool

structure FileTable where
  fs : Inode.Fs
  file : Nat → File
  openFiles : List Nat
  /-- The number of `struct file`s allocated so far. -/
  count : Nat

namespace FileTable

open Inode Resume.Prog

/-- `t` is the running thread, `junk` an uninitialised buffer. -/
inductive Act where
  | fileOpen (t : Inode.Tid) (sector : Nat) (malloc calloc : Bool) (junk : Block)
  | fileReopen (t : Inode.Tid) (f : Nat) (calloc : Bool) (junk : Block)
  | fileDenyWrite (f : Nat)
  | fileAllowWrite (f : Nat)
  | fileClose (t : Inode.Tid) (f : Nat) (junk : Block)

def setDeny (x : FileTable) (f : Nat) (b : Bool) : FileTable :=
  { x with file := fun g =>
      if g = f then { x.file f with denyWrite := b } else x.file g }

/-- `file_open (inode)` for an inode that is not null. -/
def fileOpen (t : Inode.Tid) (r : Nat) (calloc : Bool) (junk : Block)
    (x : FileTable) : Option FileTable :=
  if calloc then
    some { x with
      file := fun g => if g = x.count then ⟨r, 0, false⟩ else x.file g
      openFiles := x.count :: x.openFiles
      count := x.count + 1 }
  else
    ((inodeClose junk r).exec (Fs.act t) x.fs).map fun (_, fs) => { x with fs := fs }

def fileDenyWrite (f : Nat) (x : FileTable) : Option FileTable :=
  if (x.file f).denyWrite then some x
  else
    (inodeDenyWrite (x.file f).inode x.fs).map fun fs => { x.setDeny f true with fs := fs }

def fileAllowWrite (f : Nat) (x : FileTable) : Option FileTable :=
  if (x.file f).denyWrite then
    (inodeAllowWrite (x.file f).inode x.fs).map fun fs => { x.setDeny f false with fs := fs }
  else some x

def fileClose (t : Inode.Tid) (f : Nat) (junk : Block) (x : FileTable) : Option FileTable :=
  (x.fileAllowWrite f).bind fun x =>
    ((inodeClose junk (x.file f).inode).exec (Fs.act t) x.fs).map
      fun (_, fs) => { x with fs := fs, openFiles := x.openFiles.erase f }

def step (a : Act) (x : FileTable) : Option FileTable :=
  match a with
  | .fileOpen t s malloc calloc junk =>
    if x.fs.openInodes.any (fun r => (x.fs.inode r).sector == s)
        ∨ malloc then
      ((inodeOpen s).exec (Fs.act t) x.fs).bind fun (r, fs) =>
        fileOpen t r calloc junk { x with fs := fs }
    else some x
  | .fileReopen t f calloc junk =>
    if f ∈ x.openFiles then
      ((reopen (x.file f).inode).exec (Fs.act t) x.fs).bind fun (_, fs) =>
        fileOpen t (x.file f).inode calloc junk { x with fs := fs }
    else none
  | .fileDenyWrite f => if f ∈ x.openFiles then x.fileDenyWrite f else none
  | .fileAllowWrite f =>
    if f ∈ x.openFiles then x.fileAllowWrite f else none
  | .fileClose t f junk =>
    if f ∈ x.openFiles then x.fileClose t f junk else none

/-- No file and no inode is open. -/
def Start (x : FileTable) : Prop := x.openFiles = [] ∧ x.fs.openInodes = []

-- ==== the programs

variable {t : Inode.Tid} {fs fs' : Fs} {r s : Nat}

/-- `inode_open`: the open inode of the sector, or a new one. -/
theorem inodeOpen_exec {v : Nat × Fs} (h : (inodeOpen s).exec (Fs.act t) fs = some v) :
    (v.1 ∈ fs.openInodes ∧ v.2 = fs.setInode v.1
      { fs.inode v.1 with openCnt := (fs.inode v.1).openCnt + 1 })
    ∨ (v.1 = fs.count ∧ v.2.count = fs.count + 1
      ∧ v.2.openInodes = fs.count :: fs.openInodes
      ∧ (∀ q, q ≠ fs.count → v.2.inode q = fs.inode q)
      ∧ (v.2.inode fs.count).openCnt = 1
      ∧ (v.2.inode fs.count).denyWriteCnt = 0
      ∧ (v.2.inode fs.count).removed = false) := by
  unfold Inode.inodeOpen at h
  rw [exec_seq (exec_findOpen ..)] at h
  split at h
  next r hf =>
    cases h
    exact .inl ⟨mem_of_find?_eq_some hf, rfl⟩
  next hf =>
    right
    rw [exec_seq (exec_newInode ..), exec_bind, exec_loadInode] at h
    split at h
    next =>
      cases h
      refine ⟨rfl, rfl, rfl, fun q hq => ?_, ?_, ?_, ?_⟩ <;> simp_all [Fs.setInode]
    next => cases h

/-- `inode_close` of an inode that is not removed. -/
theorem inodeClose_exec (junk : Block) (hr : (fs.inode r).removed = false) :
    ∃ fs', (inodeClose junk r).exec (Fs.act t) fs = some ((), fs')
      ∧ fs'.count = fs.count
      ∧ fs'.inode = (fs.setInode r { fs.inode r with
          openCnt := (fs.inode r).openCnt - 1 }).inode
      ∧ fs'.openInodes = if (fs.inode r).openCnt - 1 = 0 then
          fs.openInodes.erase r else fs.openInodes := by
  unfold Inode.inodeClose inodeCloseWith
  rw [exec_seq (exec_dropRef ..)]
  split
  next h =>
    rw [exec_seq (exec_unlist ..), exec_seq (exec_getInode ..)]
    have hrem : ((fs.setInode r { fs.inode r with
        openCnt := (fs.inode r).openCnt - 1 }).inode r).removed
        = false := by
      simpa [Fs.setInode] using hr
    rw [hrem]
    exact ⟨_, rfl, rfl, rfl, rfl⟩
  next h => exact ⟨_, rfl, rfl, rfl, rfl⟩

/-- While some file denies writes, `inode_write_at` does nothing. -/
theorem inodeWriteAt_denied {junk : Nat → Block} {buf : Nat → UInt8}
    {size offset : Nat} (h : 0 < (fs.inode r).denyWriteCnt) :
    (inodeWriteAt junk r buf size offset).exec (Fs.act t) fs = some (0, fs) := by
  unfold inodeWriteAt inodeWriteAtMem
  rw [exec_seq (exec_getInode ..), if_pos (Nat.pos_iff_ne_zero.mp h)]
  rfl

-- ==== the invariant

/-- The open files of an inode. -/
def refs (x : FileTable) (r : Nat) : Nat := x.openFiles.countP fun f => (x.file f).inode == r

/-- Those that deny writes. -/
def denies (x : FileTable) (r : Nat) : Nat :=
  x.openFiles.countP fun f => (x.file f).inode == r && (x.file f).denyWrite

@[simp] theorem refs_fs (x : FileTable) (fs : Fs) (r : Nat) :
    ({ x with fs := fs } : FileTable).refs r = x.refs r := rfl

@[simp] theorem denies_fs (x : FileTable) (fs : Fs) (r : Nat) :
    ({ x with fs := fs } : FileTable).denies r = x.denies r := rfl

/-- The counts of every open inode; `p` is an inode pointer that is in no
file, between `inode_open` and `file_open`. -/
structure Counted (x : FileTable) (p : Option Nat) : Prop where
  nodup : x.openFiles.Nodup
  fresh : ∀ f ∈ x.openFiles, f < x.count
  live : ∀ f ∈ x.openFiles, (x.file f).inode ∈ x.fs.openInodes
  listed : x.fs.openInodes.Nodup
  born : ∀ r ∈ x.fs.openInodes, r < x.fs.count
  refs : ∀ r ∈ x.fs.openInodes, (x.fs.inode r).openCnt = x.refs r + if p = some r then 1 else 0
  deny : ∀ r ∈ x.fs.openInodes, (x.fs.inode r).denyWriteCnt = x.denies r
  kept : ∀ r ∈ x.fs.openInodes, (x.fs.inode r).removed = false
  extra : ∀ r, p = some r → r ∈ x.fs.openInodes

theorem denies_le_refs (x : FileTable) (r : Nat) : x.denies r ≤ x.refs r := by
  refine countP_mono_left fun f _ h => ?_
  simp only [Bool.and_eq_true] at h
  exact h.1

/-- Counting after a change of one member. -/
theorem countP_change {l : List Nat} (hl : l.Nodup) {f : Nat} (hf : f ∈ l)
    {p q : Nat → Bool} (h : ∀ g, g ≠ f → p g = q g) :
    l.countP p + (if q f then 1 else 0) = l.countP q + if p f then 1 else 0 := by
  have hperm := perm_cons_erase hf
  have hrest : (l.erase f).countP p = (l.erase f).countP q := by
    refine countP_congr fun g hg => ?_
    rw [h g (hl.mem_erase_iff.mp hg).1]
  rw [hperm.countP_eq, hperm.countP_eq, countP_cons, countP_cons, hrest]
  omega

/-- Only the count of openers of one inode differs. -/
theorem setOpenCnt_inode (fs : Fs) (r : Nat) (n : Int) (q : Nat) :
    ((fs.setInode r { fs.inode r with openCnt := n }).inode q).denyWriteCnt
        = (fs.inode q).denyWriteCnt
      ∧ ((fs.setInode r { fs.inode r with openCnt := n }).inode q).removed = (fs.inode q).removed
      ∧ ((fs.setInode r { fs.inode r with openCnt := n }).inode q).openCnt
        = if q = r then n else (fs.inode q).openCnt := by
  by_cases hq : q = r <;> simp [Fs.setInode, hq]

section Steps

variable {x x' : FileTable} {t : Inode.Tid} {r : Nat}

/-- One more reference to an open inode. -/
theorem Counted.reopen (hc : Counted x none) (hr : r ∈ x.fs.openInodes) :
    Counted { x with fs := x.fs.setInode r { x.fs.inode r with
      openCnt := (x.fs.inode r).openCnt + 1 } } (some r) := by
  have hfield := setOpenCnt_inode x.fs r ((x.fs.inode r).openCnt + 1)
  refine ⟨hc.nodup, hc.fresh, hc.live, hc.listed, hc.born, fun q hq => ?_,
    fun q hq => (hfield q).1.trans (hc.deny q hq), fun q hq => (hfield q).2.1.trans (hc.kept q hq),
    fun q hq => some.inj hq ▸ hr⟩
  have h := hc.refs q hq
  rw [(hfield q).2.2]
  by_cases hqr : q = r
  · simpa [hqr] using h
  · simpa [hqr, Ne.symm hqr] using h

theorem Counted.inodeOpen (hc : Counted x none) {s : Nat} {v : Nat × Fs}
    (h : (inodeOpen s).exec (Fs.act t) x.fs = some v) :
    Counted { x with fs := v.2 } (some v.1) := by
  rcases inodeOpen_exec h with ⟨hr, hv⟩ | ⟨hr, hcnt, hlist, hold, ho, hd, hk⟩
  · rw [hv]
    exact hc.reopen hr
  · -- the new inode is in no file
    have hnew : x.fs.count ∉ x.fs.openInodes := fun hm => lt_irrefl _ (hc.born _ hm)
    have hnone : x.refs x.fs.count = 0 := by
      refine countP_eq_zero.mpr fun f hf h => hnew ?_
      rw [← beq_iff_eq.mp h]
      exact hc.live f hf
    have hdnone : x.denies x.fs.count = 0 := Nat.le_zero.mp (hnone ▸ denies_le_refs x _)
    have hkept {q : Nat} (hq : q ∈ x.fs.openInodes) : v.2.inode q = x.fs.inode q :=
      hold q fun he => hnew (he ▸ hq)
    refine ⟨hc.nodup, hc.fresh, ?_, ?_, ?_, ?_, ?_, ?_, ?_⟩
    · intro f hf
      rw [hlist]
      exact mem_cons_of_mem _ (hc.live f hf)
    · show v.2.openInodes.Nodup
      rw [hlist]
      exact nodup_cons.mpr ⟨hnew, hc.listed⟩
    · intro q hq
      rw [hcnt]
      rcases mem_cons.mp (hlist ▸ hq) with rfl | hq
      · exact Nat.lt_succ_self _
      · exact Nat.lt_succ_of_lt (hc.born q hq)
    · intro q hq
      rcases mem_cons.mp (hlist ▸ hq) with rfl | hq
      · show (v.2.inode x.fs.count).openCnt = (x.refs x.fs.count : Int) + _
        rw [ho, hnone, hr]
        simp
      · have hne : q ≠ x.fs.count := fun he => hnew (he ▸ hq)
        rw [hkept hq, hc.refs q hq, hr]
        simp [Ne.symm hne]
    · intro q hq
      rcases mem_cons.mp (hlist ▸ hq) with rfl | hq
      · exact hd.trans hdnone.symm
      · exact hkept hq ▸ hc.deny q hq
    · intro q hq
      rcases mem_cons.mp (hlist ▸ hq) with rfl | hq
      · exact hk
      · exact hkept hq ▸ hc.kept q hq
    · intro q hq
      injection hq with hq
      rw [← hq, hr, hlist]
      exact mem_cons_self ..

/-- `inode_close` of the pointer that is in no file. -/
theorem Counted.inodeClose (hc : Counted x (some r)) (junk : Block) :
    ∃ fs', (inodeClose junk r).exec (Fs.act t) x.fs = some ((), fs')
      ∧ Counted { x with fs := fs' } none := by
  have hr := hc.extra r rfl
  obtain ⟨fs', he, hcnt, hino, hlist⟩ := inodeClose_exec (t := t) junk (hc.kept r hr)
  have hopen := hc.refs r hr
  rw [if_pos rfl] at hopen
  -- the inodes that stay on the list
  have hsub (q : Nat) (hq : q ∈ fs'.openInodes) : q ∈ x.fs.openInodes := by
    rw [hlist] at hq
    split at hq
    · exact mem_of_mem_erase hq
    · exact hq
  have hfield := setOpenCnt_inode x.fs r ((x.fs.inode r).openCnt - 1)
  rw [← hino] at hfield
  refine ⟨fs', he, hc.nodup, hc.fresh, ?_, ?_, ?_, ?_, ?_, ?_, ?_⟩
  · intro f hf
    rw [hlist]
    split
    next h =>
      refine hc.listed.mem_erase_iff.mpr ⟨fun hfr => ?_, hc.live f hf⟩
      have hzero : x.refs r = 0 := by omega
      exact countP_eq_zero.mp hzero f hf (beq_iff_eq.mpr hfr)
    next => exact hc.live f hf
  · show fs'.openInodes.Nodup
    rw [hlist]
    split
    · exact hc.listed.erase r
    · exact hc.listed
  · intro q hq
    rw [hcnt]
    exact hc.born q (hsub q hq)
  · intro q hq
    have h := hc.refs q (hsub q hq)
    rw [(hfield q).2.2]
    by_cases hqr : q = r
    · simp [hqr, hopen]
    · simpa [hqr, Ne.symm hqr] using h
  · exact fun q hq => (hfield q).1.trans (hc.deny q (hsub q hq))
  · exact fun q hq => (hfield q).2.1.trans (hc.kept q (hsub q hq))
  · nofun

/-- `file_open` with the pointer, whether its `calloc` succeeds or not. -/
theorem Counted.fileOpen (hc : Counted x (some r)) {calloc : Bool} {junk : Block}
    (hs : x.fileOpen t r calloc junk = some x') : Counted x' none := by
  unfold FileTable.fileOpen at hs
  split at hs
  case isFalse =>
    obtain ⟨fs', he, hc'⟩ := hc.inodeClose (t := t) junk
    rw [he, map_some] at hs
    cases hs
    exact hc'
  case isTrue =>
    cases hs
    have hnew : x.count ∉ x.openFiles := fun h => lt_irrefl _ (hc.fresh _ h)
    have hold : ∀ f ∈ x.openFiles, (if f = x.count then ⟨r, 0, false⟩ else x.file f) = x.file f :=
      fun f hf => if_neg fun h : f = x.count => hnew (h ▸ hf)
    refine ⟨nodup_cons.mpr ⟨hnew, hc.nodup⟩, ?_, ?_, hc.listed, hc.born, ?_, ?_, hc.kept, nofun⟩
    · intro f hf
      rcases mem_cons.mp hf with rfl | hf
      · exact Nat.lt_succ_self _
      · exact Nat.lt_succ_of_lt (hc.fresh f hf)
    · intro f hf
      rcases mem_cons.mp hf with rfl | hf
      · simpa using hc.extra r rfl
      · simp only [hold f hf]
        exact hc.live f hf
    · intro q hq
      have h := hc.refs q hq
      have hrest : x.openFiles.countP (fun f => (if f = x.count then
          ⟨r, 0, false⟩ else x.file f : File).inode == q) = x.refs q :=
        countP_congr fun f hf => by rw [hold f hf]
      unfold FileTable.refs
      rw [countP_cons, hrest, h]
      by_cases hqr : r = q <;> simp [hqr]
    · intro q hq
      have hrest : x.openFiles.countP (fun f => (if f = x.count then
          ⟨r, 0, false⟩ else x.file f : File).inode == q
          && (if f = x.count then ⟨r, 0, false⟩ else x.file f : File ).denyWrite) = x.denies q :=
        countP_congr fun f hf => by rw [hold f hf]
      unfold FileTable.denies
      rw [countP_cons, hrest]
      simpa using hc.deny q hq

variable {f : Nat}

section

variable (hc : Counted x none)

include hc

/-- A change of the flag of an open file and of the count of its inode. -/
theorem Counted.setDeny (hf : f ∈ x.openFiles) {b : Bool} {n : Nat}
    (hn : n + (if (x.file f).denyWrite then 1 else 0)
      = (x.fs.inode (x.file f).inode).denyWriteCnt + if b then 1 else 0) :
    Counted { x.setDeny f b with
      fs := x.fs.setInode (x.file f).inode
        { x.fs.inode (x.file f).inode with denyWriteCnt := n } } none := by
  have hino (g : Nat) : ((x.setDeny f b).file g).inode = (x.file g).inode := by
    by_cases hg : g = f <;> simp [FileTable.setDeny, hg]
  have hrefs (q : Nat) : (x.setDeny f b).refs q = x.refs q := by
    unfold FileTable.refs
    simp only [hino]
    rfl
  refine ⟨hc.nodup, hc.fresh, ?_, hc.listed, hc.born, ?_, ?_, ?_, nofun⟩
  · intro g hg
    rw [hino]
    exact hc.live g hg
  · intro q hq
    have h := hc.refs q hq
    rw [refs_fs, hrefs, ← h]
    by_cases hq : q = (x.file f).inode <;> simp [Fs.setInode, hq]
  · intro q hq
    have hd := hc.deny q hq
    -- the file at `f` is the only one whose contribution changes
    have hcount := countP_change hc.nodup hf
      (p := fun g => ((x.setDeny f b).file g).inode == q && ((x.setDeny f b).file g).denyWrite)
      (q := fun g => (x.file g).inode == q && (x.file g).denyWrite)
      (fun g hg => by simp [FileTable.setDeny, hg])
    have hflag : ((x.setDeny f b).file f).denyWrite = b := by simp [FileTable.setDeny]
    simp only [hino, hflag] at hcount
    unfold FileTable.denies at hd ⊢
    simp only [hino]
    by_cases hqf : q = (x.file f).inode
    · subst hqf
      simp only [beq_self_eq_true, Bool.true_and] at hcount hd ⊢
      simp only [Fs.setInode, if_true]
      have : (x.setDeny f b).openFiles = x.openFiles := rfl
      rw [this]
      omega
    · have hbeq : ((x.file f).inode == q) = false := beq_eq_false_iff_ne.mpr (Ne.symm hqf)
      simp only [hbeq, Bool.false_and, Bool.false_eq_true, if_false, add_zero] at hcount
      simp only [Fs.setInode, if_neg hqf]
      exact hd.trans hcount.symm
  · intro q hq
    rw [← hc.kept q hq]
    by_cases hqf : q = (x.file f).inode <;> simp [Fs.setInode, hqf]

/-- The room `inode_deny_write` asserts. -/
theorem Counted.deny_le (hr : r ∈ x.fs.openInodes) :
    ((x.fs.inode r).denyWriteCnt : Int) ≤ (x.fs.inode r).openCnt := by
  rw [hc.deny r hr, hc.refs r hr]
  have := x.denies_le_refs r
  omega

section

variable (hf : f ∈ x.openFiles)

include hf

/-- An open file that does not deny writes leaves room for one more. -/
theorem Counted.deny_lt (hd : (x.file f).denyWrite = false) :
    ((x.fs.inode (x.file f).inode).denyWriteCnt : Int) + 1
      ≤ (x.fs.inode (x.file f).inode).openCnt := by
  have hr := hc.live f hf
  rw [hc.deny _ hr, hc.refs _ hr]
  have hlt : x.denies (x.file f).inode < x.refs (x.file f).inode := by
    unfold FileTable.denies FileTable.refs
    have hperm := perm_cons_erase hf
    rw [hperm.countP_eq, hperm.countP_eq, countP_cons, countP_cons]
    have hmono : (x.openFiles.erase f).countP (fun g =>
        (x.file g).inode == (x.file f).inode && (x.file g).denyWrite)
        ≤ (x.openFiles.erase f).countP fun g => (x.file g).inode == (x.file f).inode :=
      countP_mono_left fun g _ h => (Bool.and_eq_true _ _ ▸ h).1
    simp only [hd, Bool.and_false, Bool.false_eq_true, if_false, beq_self_eq_true, if_true]
    omega
  omega

theorem Counted.fileDenyWrite : ∃ x', x.fileDenyWrite f = some x' ∧ Counted x' none := by
  unfold FileTable.fileDenyWrite
  split
  next => exact ⟨x, rfl, hc⟩
  next h =>
    have hd : (x.file f).denyWrite = false := Bool.eq_false_iff.mpr h
    unfold inodeDenyWrite
    rw [if_pos (hc.deny_lt hf hd), map_some]
    refine ⟨_, rfl, hc.setDeny hf ?_⟩
    simp [hd]

theorem Counted.fileAllowWrite :
    ∃ x', x.fileAllowWrite f = some x' ∧ Counted x' none
      ∧ x'.openFiles = x.openFiles
      ∧ (x'.file f).denyWrite = false := by
  unfold FileTable.fileAllowWrite
  split
  next hd =>
    have hr := hc.live f hf
    have hpos : 0 < (x.fs.inode (x.file f).inode).denyWriteCnt := by
      rw [hc.deny _ hr]
      refine countP_pos_iff.mpr ⟨f, hf, ?_⟩
      simp [hd]
    unfold inodeAllowWrite
    rw [if_pos ⟨hpos, hc.deny_le hr⟩, map_some]
    refine ⟨_, rfl, hc.setDeny hf ?_, rfl, ?_⟩
    · simp only [hd, if_true, Bool.false_eq_true, if_false]
      omega
    · simp [FileTable.setDeny]
  next h => exact ⟨x, rfl, hc, rfl, Bool.eq_false_iff.mpr h⟩

/-- A file that does not deny writes goes away and leaves its pointer. -/
theorem Counted.forget (hd : (x.file f).denyWrite = false) :
    Counted { x with openFiles := x.openFiles.erase f } (some (x.file f).inode) := by
  have hperm := perm_cons_erase hf
  have hsub : ∀ g ∈ x.openFiles.erase f, g ∈ x.openFiles := fun g hg => mem_of_mem_erase hg
  refine ⟨hc.nodup.erase f, fun g hg => hc.fresh g (hsub g hg), fun g hg => hc.live g (hsub g hg),
    hc.listed, hc.born, ?_, ?_, hc.kept, ?_⟩
  · intro q hq
    have h := hc.refs q hq
    unfold FileTable.refs at h ⊢
    rw [hperm.countP_eq, countP_cons] at h
    by_cases hqf : (x.file f).inode = q <;> simpa [hqf] using h
  · intro q hq
    have h := hc.deny q hq
    unfold FileTable.denies at h ⊢
    rw [hperm.countP_eq, countP_cons] at h
    simpa [hd] using h
  · exact fun q hq => some.inj hq ▸ hc.live f hf

theorem Counted.fileClose (t : Inode.Tid) (junk : Block) :
    ∃ x', x.fileClose t f junk = some x' ∧ Counted x' none := by
  obtain ⟨x₁, h1, hc1, hopen, hd⟩ := hc.fileAllowWrite hf
  obtain ⟨fs', he, hc'⟩ := (hc1.forget (hopen ▸ hf) hd).inodeClose (t := t) junk
  unfold FileTable.fileClose
  rw [h1, bind_some, he, map_some]
  exact ⟨_, rfl, hc'⟩

end

theorem Counted.step {a : Act} (hs : x.step a = some x') : Counted x' none := by
  cases a with
  | fileOpen t s malloc calloc junk =>
    simp only [FileTable.step] at hs
    split at hs
    case isFalse => exact some.inj hs ▸ hc
    case isTrue =>
      obtain ⟨v, hv, hs⟩ := bind_eq_some_iff.mp hs
      exact (hc.inodeOpen hv).fileOpen hs
  | fileReopen t f calloc junk =>
    obtain ⟨hf, hs⟩ := ite_none_right_eq_some.mp hs
    exact (hc.reopen (hc.live f hf)).fileOpen hs
  | fileDenyWrite f =>
    obtain ⟨hf, hs⟩ := ite_none_right_eq_some.mp hs
    obtain ⟨y, hy, hcy⟩ := hc.fileDenyWrite hf
    cases hy.symm.trans hs
    exact hcy
  | fileAllowWrite f =>
    obtain ⟨hf, hs⟩ := ite_none_right_eq_some.mp hs
    obtain ⟨y, hy, hcy, -⟩ := hc.fileAllowWrite hf
    cases hy.symm.trans hs
    exact hcy
  | fileClose t f junk =>
    obtain ⟨hf, hs⟩ := ite_none_right_eq_some.mp hs
    obtain ⟨y, hy, hcy⟩ := hc.fileClose hf t junk
    cases hy.symm.trans hs
    exact hcy

end

theorem counted_reachable (hx : Reach Start step anyStep x) : Counted x none := by
  refine Reach.induct (P := fun x => Counted x none) ?_ ?_ x hx
  · rintro x ⟨hf, hr⟩
    constructor <;> simp [hf, hr]
  · exact fun a x x' _ hc _ hs => hc.step hs

end Steps

/-- In every state of every run: the `deny_write_cnt` of an open inode is
the number of its open files that deny writes, and at most `open_cnt`;
none of the assertions below `file_deny_write`, `file_allow_write` and
`file_close` fails on an open file; and an inode some file protects is not
changed by `inode_write_at`, which returns 0. -/
theorem executable_write_protected {x : FileTable} (hx : Reach Start step anyStep x) :
    (∀ r ∈ x.fs.openInodes, (x.fs.inode r).denyWriteCnt = x.denies r
      ∧ ((x.fs.inode r).denyWriteCnt : Int) ≤ (x.fs.inode r).openCnt)
    ∧ (∀ f ∈ x.openFiles, (x.step (.fileDenyWrite f)).isSome
      ∧ (x.step (.fileAllowWrite f)).isSome
      ∧ ∀ t junk, (x.step (.fileClose t f junk)).isSome)
    ∧ ∀ r, 0 < (x.fs.inode r).denyWriteCnt →
      ∀ t junk buf size offset,
        (inodeWriteAt junk r buf size offset).exec (Fs.act t) x.fs = some (0, x.fs) := by
  have hc := counted_reachable hx
  refine ⟨fun r hr => ⟨hc.deny r hr, hc.deny_le hr⟩, ?_,
    fun r hr t junk buf size offset => inodeWriteAt_denied hr⟩
  intro f hf
  obtain ⟨y₁, h1, -⟩ := hc.fileDenyWrite hf
  obtain ⟨y₂, h2, -⟩ := hc.fileAllowWrite hf
  simp only [FileTable.step, if_pos hf, h1, h2]
  refine ⟨rfl, rfl, fun t junk => ?_⟩
  obtain ⟨y₃, h3, -⟩ := hc.fileClose hf t junk
  rw [h3]
  rfl

/-- Two processes run one binary and a third has it open; the first of
them to exit leaves it protected. -/
theorem executable_protected_twice :
    ∃ x, Reach Start step anyStep x
      ∧ (x.openFiles = [2, 1] ∧ x.fs.openInodes = [0]
        ∧ (x.fs.inode 0).denyWriteCnt = 1 ∧ (x.fs.inode 0).openCnt = 2)
      ∧ (inodeWriteAt (fun _ => zeros) 0 (fun _ => 7) 5 0).exec (Fs.act 0)
          x.fs = some (0, x.fs) := by
  have h0 : Reach Start step anyStep
      { fs :=
          { size := 4, disk := fun _ => zeros
            freeMap := ⟨4, fun _ => 0⟩, mapFile := true
            stored := ⟨4, fun _ => 0⟩
            inode := fun _ => ⟨0, 0, false, 0, zeros, none⟩
            count := 0, openInodes := [] }
        file := fun _ => ⟨0, 0, false⟩, openFiles := [], count := 0 } :=
    .init ⟨rfl, rfl⟩
  obtain ⟨x, hx, hfacts⟩ := h0.of_runAll [.fileOpen 0 2 true true zeros,
      .fileOpen 1 2 true true zeros, .fileDenyWrite 0, .fileDenyWrite 1, .fileReopen 0 1 true zeros,
      .fileDenyWrite 1, .fileClose 0 0 zeros]
    (fun x => x.openFiles = [2, 1] ∧ x.fs.openInodes = [0]
      ∧ (x.fs.inode 0).denyWriteCnt = 1 ∧ (x.fs.inode 0).openCnt = 2) (by decide)
  refine ⟨x, hx, hfacts, (executable_write_protected hx).2.2 0 ?_ ..⟩
  rw [hfacts.2.2.1]
  decide

end FileTable

end Pintos
