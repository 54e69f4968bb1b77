/-
The references a process holds to inodes: its descriptors, the directory
handles beside them, its working directory and its executable.

# The system

`open`, `close` and `chdir` of `userprog/syscall.c`, `thread_create` and
`start_process` as far as they open files, and the cleanup of
`thread_exit`, together with creation and removal, one call at a time. The
contents of files and directories change arbitrarily in between
(`Act.contents`): nothing here depends on what a directory holds.

# The account

`Held v H` says that the open counts of the volume are the number of times
each inode stands in the list `H` of references. A call that only opens
and closes inodes moves references between the volume and the process that
runs it (`Moves`); `others` are the references that are not the running
process's. References of an open that failed without closing its inode are
kept apart (`lost`): no `struct file` or `struct dir` stands for them.
-/
import Pintos.Filesys.DirOps
import Pintos.Lib.Transition
import Mathlib.Data.List.Perm.Basic

namespace Pintos.Directory

open Oracle Oracle.Prog Transition List Option

-- ==== the account

/-- The open counts of the volume are those of the references `H`. -/
structure Held (v : Vol) (H : List Nat) : Prop where
  valid : v.Valid
  count : ∀ s, v.openCnt s = H.count s

variable {v v' w w' : Vol} {H H' : List Nat} {s d : Nat} {low : Prop} {cwd : Option Nat} {pr : Proc}

theorem Held.of_count (h : Held v H) (hc : ∀ s, H.count s = H'.count s) : Held v H' :=
  ⟨h.valid, fun s => (h.count s).trans (hc s)⟩

theorem Held.congr (h : Held v H) (ho : v'.opened = v.opened) : Held v' H := by
  refine ⟨fun s i hs => h.valid s i (ho ▸ hs), fun s => ?_⟩
  unfold Vol.openCnt
  rw [ho]
  exact h.count s

theorem Held.bump (h : Held v H) (s : Nat) : Held (v.bump s) (s :: H) := by
  refine ⟨h.valid.bump s, fun t => ?_⟩
  rw [openCnt_bump, h.count, count_cons]
  by_cases ht : t = s
  · simp [ht]
  · simp [ht, Ne.symm ht]

/-- A sector held is open. -/
theorem Held.opened (h : Held v H) (hs : s ∈ H) : ∃ n r, v.opened s = some ⟨n + 1, r⟩ := by
  have hpos : 0 < v.openCnt s := by
    rw [h.count]
    exact count_pos_iff.mpr hs
  unfold Vol.openCnt at hpos
  cases ho : v.opened s with
  | none => simp [ho] at hpos
  | some i =>
    rw [ho] at hpos
    obtain ⟨c | n, r⟩ := i
    · cases hpos
    · exact ⟨n, r, rfl⟩

/-- What `inode_close` does to the table of open inodes. -/
theorem drop_opened {n : Nat} {r : Bool} (h : v.opened s = some ⟨n + 1, r⟩) : (v.drop s).opened
        = (v.setOpened s (if n = 0 then none else some ⟨n, r⟩)).opened
      ∧ (v.drop s).dangling = v.dangling := by
  unfold Vol.drop
  rw [h]
  cases n with
  | zero => cases r <;> exact ⟨rfl, rfl⟩
  | succ n => exact ⟨rfl, rfl⟩

/-- An inode that a reference stands for is closed properly. -/
theorem Held.drop (h : Held v (s :: H)) : Held (v.drop s) H ∧ (v.drop s).dangling = v.dangling := by
  obtain ⟨n, r, ho⟩ := h.opened mem_cons_self
  obtain ⟨hd, hdang⟩ := drop_opened ho
  refine ⟨⟨fun t i ht => ?_, fun t => ?_⟩, hdang⟩
  · rw [hd] at ht
    by_cases hts : t = s
    · rw [hts, setOpened_self] at ht
      obtain ⟨hn, ⟨⟩⟩ := ite_none_left_eq_some.mp ht
      exact Nat.pos_of_ne_zero hn
    · rw [setOpened_other _ hts] at ht
      exact h.valid t i ht
  · have hc := h.count t
    unfold Vol.openCnt at hc ⊢
    rw [hd]
    by_cases hts : t = s
    · subst hts
      rw [setOpened_self]
      rw [ho] at hc
      have hc' : n + 1 = H.count t + 1 := by simpa using hc
      split
      next i hi =>
        obtain ⟨-, ⟨⟩⟩ := ite_none_left_eq_some.mp hi
        exact Nat.succ.inj hc'
      next hi =>
        split at hi
        · omega
        · cases hi
    · rw [setOpened_other _ hts]
      simpa [Ne.symm hts] using hc

theorem Held.markRemoved (h : Held v H) (s : Nat) :
    Held (v.markRemoved s) H ∧ (v.markRemoved s).dangling = v.dangling := by
  unfold Vol.markRemoved
  cases ho : v.opened s with
  | none => exact ⟨h, rfl⟩
  | some i =>
    refine ⟨⟨fun t j ht => ?_, fun t => ?_⟩, rfl⟩
    · by_cases hts : t = s
      · subst hts
        rw [setOpened_self] at ht
        cases ht
        exact h.valid t i ho
      · rw [setOpened_other _ hts] at ht
        exact h.valid t j ht
    · rw [← h.count t]
      unfold Vol.openCnt
      by_cases hts : t = s
      · subst hts
        rw [setOpened_self, ho]
      · rw [setOpened_other _ hts]

theorem Held.erased {name : Name} (h : Held v H)
    (he : Erased d name v v') : Held v' H ∧ v'.dangling = v.dangling := by
  obtain ⟨es, i, e, -, -, -, rfl⟩ := he
  have hb : Held ((v.bump e.inodeSector).setNode d
      (some ⟨true, es.set i { e with inUse := false }⟩))
      (e.inodeSector :: H) := (h.bump e.inodeSector).congr rfl
  obtain ⟨hm, hmd⟩ := hb.markRemoved e.inodeSector
  obtain ⟨hd, hdd⟩ := hm.drop
  exact ⟨hd, hdd.trans hmd⟩

-- ==== processes

/-- `struct file_info`. -/
structure FileInfo where
  fd : Nat
  fileTemp : Nat
  dirTemp : Option Nat
  deriving DecidableEq, Repr

/-- The handles of a process, by the inode they refer to. -/
structure Proc where
  currentDirectory : Option Nat
  fileList : List FileInfo
  /-- The next descriptor. -/
  fd : Nat
  executable : Option Nat
  /-- Handles that nothing of the process points to any more. -/
  stray : List Nat
  /-- References that no handle stands for. -/
  lost : List Nat
  exited : Bool
  deriving DecidableEq, Repr

/-- `init_thread`. -/
def Proc.fresh : Proc := ⟨none, [], 2, none, [], [], false⟩

def FileInfo.handles (f : FileInfo) : List Nat := f.fileTemp :: f.dirTemp.toList

def Proc.handles (pr : Proc) : List Nat :=
  pr.currentDirectory.toList ++ (pr.fileList.flatMap FileInfo.handles
    ++ (pr.executable.toList ++ pr.stray))

def Proc.refs (pr : Proc) : List Nat := pr.handles ++ pr.lost

structure Fs where
  vol : Vol
  procs : List Proc
  /-- `free_map_file`. -/
  freeMapFile : Nat

namespace Fs

/-- The `struct file`s and `struct dir`s that are not closed. -/
def handles (x : Fs) : List Nat := x.freeMapFile :: x.procs.flatMap Proc.handles

def refs (x : Fs) : List Nat := x.freeMapFile :: x.procs.flatMap Proc.refs

/-- The references that are not `p`'s. -/
def others (x : Fs) (p : Nat) : List Nat := x.freeMapFile :: (x.procs.eraseIdx p).flatMap Proc.refs

/-- A process that has not exited. -/
def proc (x : Fs) (p : Nat) : Option Proc :=
  match x.procs[p]? with
  | some pr => if pr.exited then none else some pr
  | none => none

end Fs

/-- What the system call `open` leaves the process with. -/
inductive OpenReturn where
  | failed
  | holding (s : Nat)
  /-- No memory for the `file_info`: the `struct file` is left behind. -/
  | stray (s : Nat)
  | fd (file : Nat) (dir : Option Nat)
  deriving DecidableEq, Repr

def sysOpen (cwd : Option Nat) (path : Path) : M OpenReturn := do
  if path = [] then
    pure .failed
  else
    match ← filesysOpen cwd path with
    | .failed => pure .failed
    | .failedHolding s => pure (.holding s)
    | .file s =>
      if ← malloc then
        if (← get).isdir s then
          inodeReopen s
          let dir ← dirOpen (some s)
          pure (.fd s dir)
        else
          pure (.fd s none)
      else
        pure (.stray s)

def Proc.opened (pr : Proc) : OpenReturn → Proc
  | .failed => pr
  | .holding s => { pr with lost := s :: pr.lost }
  | .stray s => { pr with stray := s :: pr.stray }
  | .fd file dir =>
    { pr with
      fileList := pr.fileList ++ [⟨pr.fd, file, dir⟩]
      fd := pr.fd + 1 }

/-- The body of the system call `close`. -/
def sysClose (f : FileInfo) (v : Vol) : Vol := (v.drop f.fileTemp).dropOpt f.dirTemp

/-- `current_directory` of a new thread. -/
def inheritCwd : Option Nat → M (Option Nat)
  | none => pure none
  | some d => dirReopen d

/-- The file `load` opens; none when it gives up before. -/
def load (cwd : Option Nat) : Option Path → M Opening
  | none => pure .failed
  | some name => filesysOpen cwd name

/-- `thread_create` and `start_process`: the working directory and the
executable. -/
def startProcess (parent : Option Nat) (path : Option Path) : M (Option Nat × Opening) := do
  let cwd ← inheritCwd parent
  let file ← load cwd path
  match cwd with
  | some d => pure (some d, file)
  | none =>
    let root ← dirOpenRoot
    pure (root, file)

def Proc.started : Option Nat × Opening → Proc
  | (cwd, .failed) => { Proc.fresh with currentDirectory := cwd }
  | (cwd, .file s) => { Proc.fresh with currentDirectory := cwd, executable := some s }
  | (cwd, .failedHolding s) => { Proc.fresh with currentDirectory := cwd, lost := [s] }

/-- The cleanup of `thread_exit`: the open files, then the executable. -/
def threadExit (pr : Proc) (v : Vol) : Vol :=
  ((pr.fileList.map FileInfo.fileTemp).foldl Vol.drop v).dropOpt pr.executable

def Proc.afterExit (pr : Proc) : Proc :=
  { pr with
    fileList := []
    executable := none
    stray := pr.fileList.flatMap (fun f => f.dirTemp.toList) ++ pr.stray
    exited := true }

-- ==== the system

/-- Calls of the process `p`; `o` are the outside choices. -/
inductive Act where
  | create (p : Nat) (path : Path) (size : Nat) (isdir : Bool) (o : Choices)
  | remove (p : Nat) (path : Path) (o : Choices)
  | chdir (p : Nat) (path : Path) (o : Choices)
  | open (p : Nat) (path : Path) (o : Choices)
  | close (p fd : Nat)
  | exec (p : Nat) (path : Option Path) (o : Choices)
  | exit (p : Nat)
  /-- The inode or the contents at a sector change. -/
  | contents (s : Nat) (n : Option Node)

namespace Fs

def setProc (x : Fs) (p : Nat) (pr : Proc) (v : Vol) : Fs :=
  { x with vol := v, procs := x.procs.set p pr }

def exitProc (x : Fs) (p : Nat) (pr : Proc) : Fs := x.setProc p pr.afterExit (threadExit pr x.vol)

/-- Run a program on the volume. -/
def run {α : Type} (x : Fs) (m : M α) (o : Choices) : Option (α × Vol) :=
  match m ⟨o, false⟩ x.vol with
  | .ok (a, _, v) => some (a, v)
  | .error _ => none

def step : Act → Fs → Option Fs
  | .create p path size isdir o, x => do
      let pr ← x.proc p
      let (_, v) ← x.run (filesysCreate pr.currentDirectory path size isdir) o
      return { x with vol := v }
  | .remove p path o, x => do
      let pr ← x.proc p
      let (_, v) ← x.run (filesysRemove pr.currentDirectory path) o
      return { x with vol := v }
  | .chdir p path o, x => do
      let pr ← x.proc p
      let (dir, v) ← x.run (filesysChdir pr.currentDirectory path) o
      match dir with
      | none => return { x with vol := v }
      | some d => return x.setProc p { pr with currentDirectory := some d } v
  | .open p path o, x => do
      let pr ← x.proc p
      let (r, v) ← x.run (sysOpen pr.currentDirectory path) o
      return x.setProc p (pr.opened r) v
  | .close p fd, x => do
      let pr ← x.proc p
      match pr.fileList.find? (fun f => f.fd == fd) with
      | none => return x.exitProc p pr
      | some f => return x.setProc p { pr with fileList := pr.fileList.erase f } (sysClose f x.vol)
  | .exec p path o, x => do
      let pr ← x.proc p
      let (r, v) ← x.run (startProcess pr.currentDirectory path) o
      return { x with vol := v, procs := x.procs ++ [Proc.started r] }
  | .exit p, x => do
      let pr ← x.proc p
      return x.exitProc p pr
  | .contents s n, x => some { x with vol := x.vol.setNode s n }

/-- After `filesys_init`: the free map file is open, no process has opened
anything. -/
structure Mounted (x : Fs) : Prop where
  file : x.freeMapFile = freeMapSector
  opened : ∀ s, x.vol.opened s = if s = freeMapSector then some ⟨1, false⟩ else none
  dangling : x.vol.dangling = false
  procs : ∀ pr ∈ x.procs, pr = Proc.fresh

end Fs

-- ==== program by program

theorem Removal.held {path : Path} (hr : Removal low cwd path v v') (h : Held v H) :
    Held v' H ∧ (v'.dangling = v.dangling ∨ low) := by
  rcases hr with rfl | ⟨d, w, -, rfl, he | ⟨hlow, ho⟩⟩
  · exact ⟨h, .inl rfl⟩
  · obtain ⟨hh, hdang⟩ := (h.bump d).erased he
    obtain ⟨hd, hdang'⟩ := hh.drop
    exact ⟨hd, .inl (hdang'.trans hdang)⟩
  · exact ⟨((h.bump d).congr ho).drop.1, .inr hlow⟩

/-- The working directory is open. -/
def Opens (v : Vol) (cwd : Option Nat) : Prop := ∀ c, cwd = some c → v.opened c ≠ none

/-- What a path can name: by the entries, from the root and from a working
directory that is open. -/
inductive Leads (v : Vol) (cwd : Option Nat) : Nat → Prop
  | root : Leads v cwd rootDirSector
  | here {c : Nat} (hc : cwd = some c) (ho : v.opened c ≠ none) : Leads v cwd c
  | entry {d i : Nat} {name : Name} {e : Entry} (hd : Leads v cwd d)
      (he : lookup (v.entries d) name = some (i, e)) : Leads v cwd e.inodeSector

theorem follow_leads {names : List Name} (hd : Leads v cwd d) (hf : follow v names d = some s) :
    Leads v cwd s := by
  induction names generalizing d with
  | nil =>
    cases hf
    exact hd
  | cons token rest ih =>
    obtain ⟨i, e, hlk, hf⟩ := follow_cons hf
    exact ih (.entry hd hlk) hf

/-- A path leads to what it can name. -/
theorem resolve_leads {path : Path} (hc : Opens v cwd) (hr : resolve v cwd path = some s) :
    Leads v cwd s := by
  refine follow_leads ?_ hr
  unfold start
  split
  · exact .root
  · cases cwd with
    | none => exact .root
    | some c => exact .here rfl (hc c rfl)

theorem openTarget_leads {path : Path} (hc : Opens v cwd) (ht : openTarget v cwd path = some s) :
    Leads v cwd s := by
  unfold openTarget at ht
  split at ht
  next => cases ht
  next d hr =>
    have hd := resolve_leads hc hr
    split at ht
    · cases ht
      exact hd
    · split at ht
      next i e hlk =>
        cases ht
        exact .entry hd hlk
      next => cases ht

theorem Leads.of_start {c : Option Nat} (h : Leads v c s) (hc : c = none ∨ c = cwd) :
    Leads v cwd s := by
  rcases hc with rfl | rfl
  · induction h with
    | root => exact .root
    | here hc => cases hc
    | entry _ he ih => exact .entry ih he
  · exact h

/-- Inodes are opened and closed for a process: `H` are the references
before, and what is opened a path can name, or it is open. -/
inductive Moves (cwd : Option Nat) (v : Vol) (H : List Nat) : Vol → List Nat → Prop
  | refl : Moves cwd v H v H
  | bump {w : Vol} {H' : List Nat} {s : Nat} (h : Moves cwd v H w H')
      (hs : Leads w cwd s ∨ w.opened s ≠ none) : Moves cwd v H (w.bump s) (s :: H')
  | drop {w : Vol} {H' : List Nat} {s : Nat} (h : Moves cwd v H w (s :: H')) :
      Moves cwd v H (w.drop s) H'
  /-- The order of the references does not matter. -/
  | count {w : Vol} {H' H'' : List Nat} (h : Moves cwd v H w H')
      (hc : ∀ s, H'.count s = H''.count s) : Moves cwd v H w H''

/-- The account stays right, and every inode that is closed was open. -/
theorem Moves.held (hm : Moves cwd v H w H') (h : Held v H) :
    Held w H' ∧ w.dangling = v.dangling := by
  induction hm with
  | refl => exact ⟨h, rfl⟩
  | bump _ _ ih => exact ⟨ih.1.bump _, ih.2⟩
  | drop _ ih =>
    obtain ⟨hd, hdang⟩ := ih.1.drop
    exact ⟨hd, hdang.trans ih.2⟩
  | count _ hc ih => exact ⟨ih.1.of_count hc, ih.2⟩

theorem Moves.dropOpt {o : Option Nat} (h : Moves cwd v H w (o.toList ++ H')) :
    Moves cwd v H (w.dropOpt o) H' := by
  cases o with
  | none => exact h
  | some s => exact .drop h

theorem Moves.dropAll (l : List Nat) (h : Moves cwd v H w (l ++ H')) :
    Moves cwd v H (l.foldl Vol.drop w) H' := by
  induction l generalizing w with
  | nil => exact h
  | cons s rest ih => exact ih (.drop h)

theorem bump_opened (v : Vol) (s : Nat) : (v.bump s).opened s ≠ none := by simp [bump_self]

theorem loose : Loose fun _ => True := fun _ _ _ => trivial

/-- The references that a `filesys_open` leaves its caller with. -/
def Opening.refs : Opening → List Nat
  | .file s => [s]
  | .failed => []
  | .failedHolding s => [s]

theorem OpenOutcome.moves {c : Option Nat} {path : Path} {r : Opening}
    (ho : OpenOutcome c path w r w') (hm : Moves cwd v H w H') (hc : Opens w c)
    (hs : c = none ∨ c = cwd) : Moves cwd v H w' (r.refs ++ H') := by
  cases r with
  | failed =>
    obtain rfl : w' = w := ho
    exact hm
  | file s | failedHolding s =>
    obtain ⟨rfl, ht, -⟩ := ho
    exact hm.bump (.inl ((openTarget_leads hc ht).of_start hs))

def OpenReturn.refs : OpenReturn → List Nat
  | .failed => []
  | .holding s => [s]
  | .stray s => [s]
  | .fd file dir => file :: dir.toList

theorem OpenedAt.moves {r : Option Nat} (ho : OpenedAt low w s r w') (hm : Moves cwd v H w H')
    (hs : Leads w cwd s ∨ w.opened s ≠ none) : Moves cwd v H w' (r.toList ++ H') := by
  rcases ho with ⟨rfl, rfl⟩ | ⟨rfl, rfl, -⟩
  · exact hm.bump hs
  · exact hm

theorem sysOpen_moves (h : Held v H) (hc : Opens v cwd) (path : Path) :
    Wlp (Memory low fun _ => True) (sysOpen cwd path) v fun r v' =>
      Moves cwd v H v' (r.refs ++ H)
      ∧ ∀ s, r = .holding s → openTarget v cwd path = some s ∧ v.isRemoved s = true := by
  unfold sysOpen
  split
  next => exact wlp_pure ⟨.refl, nofun⟩
  next =>
    refine (filesysOpen_spec h.valid cwd path (.inl loose)).bind ?_
    intro r v₁ ho
    have h1 : Moves cwd v H v₁ (r.refs ++ H) := ho.moves .refl hc (.inr rfl)
    cases r with
    | failed => exact wlp_pure ⟨h1, nofun⟩
    | failedHolding s =>
      refine wlp_pure ⟨h1, fun t ht => ?_⟩
      cases ht
      exact ho.2
    | file s =>
      obtain ⟨rfl, -⟩ := ho
      refine malloc_spec.bind ?_
      rintro b _ ⟨rfl, -⟩
      cases b with
      | false => exact wlp_pure ⟨h1, nofun⟩
      | true =>
        refine wlp_bind (wlp_get ?_)
        split
        next =>
          refine wlp_bind (wlp_modify ((dirOpen_bump_spec (h1.held h).1.valid s).bind ?_))
          intro r v₂ ho
          refine wlp_pure ⟨(ho.moves h1 (.inr (bump_opened v s))).count fun t => ?_, nofun⟩
          simp only [OpenReturn.refs, Opening.refs, count_append,
            count_cons, cons_append, nil_append]
          omega
        next => exact wlp_pure ⟨h1, nofun⟩

theorem startProcess_moves (h : Held v H) (hc : Opens v cwd) (path : Option Path) :
    Wlp (Memory low fun _ => True) (startProcess cwd path) v fun r v' =>
      Moves cwd v H v' (r.1.toList ++ (r.2.refs ++ H)) ∧ ∀ c, r.1 = some c → Leads v cwd c := by
  have hinherit : Wlp (Memory low fun _ => True) (inheritCwd cwd) v fun r v' =>
      Moves cwd v H v' (r.toList ++ H) ∧ Opens v' r ∧ (r = none ∨ r = cwd) := by
    cases cwd with
    | none => exact wlp_pure ⟨.refl, nofun, .inl rfl⟩
    | some c =>
      refine (dirReopen_spec h.valid c).conseq fun r v' ho => ?_
      have hm : Moves (some c) v H v' (r.toList ++ H) := ho.moves .refl (.inr (hc c rfl))
      rcases ho with ⟨rfl, rfl⟩ | ⟨rfl, rfl, -⟩
      · refine ⟨hm, fun t ht => ?_, .inr rfl⟩
        cases ht
        exact bump_opened v c
      · exact ⟨hm, nofun, .inl rfl⟩
  refine hinherit.bind ?_
  rintro c v₁ ⟨h1, hc1, hs⟩
  have hload : Wlp (Memory low fun _ => True) (load c path) v₁ fun r v' =>
      Moves cwd v H v' (r.refs ++ (c.toList ++ H)) := by
    cases path with
    | none => exact wlp_pure h1
    | some name =>
      exact (filesysOpen_spec (h1.held h).1.valid c name (.inl loose)).conseq
        fun _ _ ho => ho.moves h1 hc1 hs
  refine hload.bind ?_
  intro file v₂ h2
  cases c with
  | some d =>
    refine wlp_pure ⟨h2.count fun s => ?_, fun t ht => ?_⟩
    · simp only [count_append]
      omega
    · cases ht
      have hd := (hs.resolve_left nofun).symm
      exact .here hd (hc d hd)
  | none =>
    refine (dirOpenRoot_spec (h2.held h).1.valid).bind ?_
    intro root v₃ ho
    refine wlp_pure ⟨ho.moves h2 (.inl .root), fun t ht => ?_⟩
    rcases ho with ⟨rfl, -⟩ | ⟨rfl, -⟩
    · cases ht
      exact .root
    · cases ht

theorem sysClose_moves {f : FileInfo} (h : Moves cwd v H w (f.handles ++ H')) :
    Moves cwd v H (sysClose f w) H' := by
  have hf : Moves cwd v H w (f.fileTemp :: (f.dirTemp.toList ++ H')) := h
  exact hf.drop.dropOpt

theorem count_handles (l : List FileInfo) (s : Nat) : (l.flatMap FileInfo.handles).count s
      = (l.map FileInfo.fileTemp).count s + (l.flatMap fun f => f.dirTemp.toList).count s := by
  induction l with
  | nil => rfl
  | cons f rest ih =>
    simp only [flatMap_cons, map_cons, count_append, count_cons, FileInfo.handles, ih]
    omega

/-- The references of a process are closed in the order of `thread_exit`. -/
theorem threadExit_moves (h : Moves cwd v H w (pr.refs ++ H')) :
    Moves cwd v H (threadExit pr w) (pr.afterExit.refs ++ H') := by
  have horder : Moves cwd v H w (pr.fileList.map FileInfo.fileTemp
      ++ (pr.executable.toList ++ (pr.afterExit.refs ++ H'))) := by
    refine h.count fun s => ?_
    simp only [Proc.refs, Proc.handles, Proc.afterExit, count_handles, count_append,
      flatMap_nil, count_nil, toList_none]
    omega
  exact (horder.dropAll _).dropOpt

-- ==== the runs

theorem count_flatMap_eraseIdx {α : Type} (f : α → List Nat) (s : Nat) (l : List α) (p : Nat)
    (a : α)
    (h : l[p]? = some a) :
    (l.flatMap f).count s = (f a).count s + ((l.eraseIdx p).flatMap f).count s := by
  obtain ⟨hp, rfl⟩ := List.getElem?_eq_some_iff.mp h
  rw [← count_append, ← flatMap_cons]
  exact ((getElem_cons_eraseIdx_perm hp).flatMap_right f).count_eq s |>.symm

namespace Fs

variable {x x' : Fs} {p : Nat} {pr : Proc}
variable {o : Choices} {path : Path} {v : Vol} {a : Act}

def Balanced (x : Fs) : Prop := Held x.vol x.refs

theorem proc_some (h : x.proc p = some pr) : x.procs[p]? = some pr ∧ pr.exited = false := by
  unfold proc at h
  split at h
  next pr' hp =>
    obtain ⟨he, ⟨⟩⟩ := ite_none_left_eq_some.mp h
    exact ⟨hp, by simpa using he⟩
  next => cases h

theorem others_setProc (pr : Proc) (v : Vol) : (x.setProc p pr v).others p = x.others p := by
  unfold others setProc
  rw [eraseIdx_set_eq]

theorem procs_setProc (hp : x.procs[p]? = some pr) (pr' : Proc) (v : Vol) :
    (x.setProc p pr' v).procs[p]? = some pr' := by
  have hlt := (List.getElem?_eq_some_iff.mp hp).1
  exact getElem?_set_self hlt

/-- The references of one process apart. -/
theorem count_refs (hp : x.procs[p]? = some pr) (s : Nat) :
    x.refs.count s = (pr.refs ++ x.others p).count s := by
  have hc := count_flatMap_eraseIdx Proc.refs s x.procs p pr hp
  simp only [refs, others, count_append, count_cons]
  omega

theorem Balanced.opens (h : x.Balanced) (hp : pr ∈ x.procs) : Opens x.vol pr.currentDirectory := by
  intro c hc
  have hmem : c ∈ pr.refs := by simp [Proc.refs, Proc.handles, hc]
  obtain ⟨n, r, ho⟩ := Held.opened h (mem_cons_of_mem _ (mem_flatMap.mpr ⟨pr, hp, hmem⟩))
  rw [ho]
  exact some_ne_none _

theorem Balanced.here {c : Nat} (h : x.Balanced) (hp : pr ∈ x.procs)
    (hc : pr.currentDirectory = some c) : Leads x.vol pr.currentDirectory c :=
  .here hc (h.opens hp c hc)

variable {fd : Nat} {pr' : Proc}

/-- A specification, of a run with these choices. -/
theorem run_spec {α : Type} {low : Prop} {m : M α} {a : α} {Q : α → Vol → Prop}
    (h : Wlp (Memory low fun _ => True) m x.vol Q) (ho : low ∨ ∀ b ∈ o.mem, b = true)
    (hr : x.run m o = some (a, v)) : Q a v := by
  unfold run at hr
  split at hr
  next b o' w hm =>
    cases hr
    exact h.run ⟨ho, trivial⟩ hm
  next => cases hr

/-- No directory is created: the call is for a file, or the path has no
parent, or its name is taken or invalid. -/
def NoMkdir : Act → Fs → Prop
  | .create p path _ isdir _, x => isdir = false ∨ (x.proc p).all (fun pr =>
        refused x.vol pr.currentDirectory path) = true
  | _, _ => True

instance (a : Act) (x : Fs) : Decidable (NoMkdir a x) := by
  unfold NoMkdir
  split <;> infer_instance

/-- The operations that keep the count, and when: no directory is created,
no inode marked removed is opened by name, and there is memory while an
entry is removed. -/
def Counts : Act → Fs → Prop
  | .create p path size isdir o, x => NoMkdir (.create p path size isdir o) x
  | .open p path _, x =>
    (x.proc p).all (fun pr =>
      (openTarget x.vol pr.currentDirectory path).all (fun s => !x.vol.isRemoved s)) = true
  | .remove _ _ o, _ => ∀ b ∈ o.mem, b = true
  | .exec _ _ _, _ => False
  | _, _ => True

instance (a : Act) (x : Fs) : Decidable (Counts a x) := by
  unfold Counts
  split <;> infer_instance

theorem Counts.noMkdir (h : Counts a x) : NoMkdir a x := by
  cases a with
  | create p path size isdir o => exact h
  | _ => trivial

/-- No reference is without a handle. -/
def NoneLost (x : Fs) : Prop := ∀ pr ∈ x.procs, pr.lost = []

/-- What one step does to the account. -/
structure Accounts (a : Act) (x x' : Fs) : Prop where
  balanced : x'.Balanced
  counted : Counts a x → x'.vol.dangling = x.vol.dangling
  noneLost : Counts a x → x.NoneLost → x'.NoneLost

/-- A process has opened and closed inodes, and every working directory is
one that a path can name. -/
structure Worked (a : Act) (x x' : Fs) : Prop where
  moves : ∃ pr ∈ x.procs, Moves pr.currentDirectory x.vol x.refs x'.vol x'.refs
  cwd : ∀ q ∈ x'.procs, ∀ c, q.currentDirectory = some c →
    ∃ pr ∈ x.procs, Leads x.vol pr.currentDirectory c
  noneLost : Counts a x → x.NoneLost → x'.NoneLost

theorem Worked.accounts (hw : Worked a x x') (h : x.Balanced) : Accounts a x x' := by
  obtain ⟨⟨pr, -, hm⟩, -, hl⟩ := hw
  obtain ⟨hb, hd⟩ := hm.held h
  exact ⟨hb, fun _ => hd, hl⟩

/-- A process has changed its handles. -/
theorem Worked.setProc (h : x.Balanced) (hp : x.procs[p]? = some pr)
    (hm : Moves pr.currentDirectory x.vol x.refs v (pr'.refs ++ x.others p))
    (hc : ∀ c, pr'.currentDirectory = some c → Leads x.vol pr.currentDirectory c)
    (hl : Counts a x → pr.lost = [] → pr'.lost = []) : Worked a x (x.setProc p pr' v) := by
  have hpr := mem_of_getElem? hp
  refine ⟨⟨pr, hpr, hm.count fun s => ?_⟩, fun q hq c hqc => ?_, fun hct hn q hq => ?_⟩
  · rw [count_refs (procs_setProc hp pr' v), others_setProc]
  · rcases mem_or_eq_of_mem_set hq with hq | rfl
    · exact ⟨q, hq, h.here hq hqc⟩
    · exact ⟨pr, hpr, hc c hqc⟩
  · rcases mem_or_eq_of_mem_set hq with hq | rfl
    · exact hn q hq
    · exact hl hct (hn pr hpr)

theorem exitProc_worked (h : x.Balanced) (hp : x.proc p = some pr) :
    Worked a x (x.exitProc p pr) := by
  obtain ⟨hp, -⟩ := proc_some hp
  exact .setProc h hp (threadExit_moves (Moves.refl.count (count_refs hp)))
    (fun c hc => h.here (mem_of_getElem? hp) hc) fun _ hl => hl

theorem create_accounts {size : Nat} {isdir : Bool} (h : x.Balanced)
    (hq : NoMkdir (.create p path size isdir o) x)
    (hs : step (.create p path size isdir o) x = some x') :
    Accounts (.create p path size isdir o) x x' := by
  obtain ⟨pr, hp, hs⟩ := bind_eq_some_iff.mp hs
  obtain ⟨⟨b, v⟩, hrun, hs⟩ := bind_eq_some_iff.mp hs
  cases hs
  have hr : isdir = false ∨ refused x.vol pr.currentDirectory path = true := by
    have hq' : isdir = false ∨ (x.proc p).all (fun pr =>
        refused x.vol pr.currentDirectory path) = true := hq
    rw [hp] at hq'
    exact hq'
  have hquiet := run_spec (filesysCreate_quiet h.valid _ path size isdir hr loose)
    (.inl trivial) hrun
  exact ⟨Held.congr h hquiet.1, fun _ => hquiet.2, fun _ hl => hl⟩

theorem remove_accounts (h : x.Balanced) (hs : step (.remove p path o) x = some x') :
    Accounts (.remove p path o) x x' := by
  obtain ⟨pr, hp, hs⟩ := bind_eq_some_iff.mp hs
  obtain ⟨⟨b, v⟩, hrun, hs⟩ := bind_eq_some_iff.mp hs
  cases hs
  -- Memory is low exactly when an outcome of `malloc` is bad.
  have hmem : (¬ ∀ b ∈ o.mem, b = true) ∨ ∀ b ∈ o.mem, b = true :=
    (Classical.em (∀ b ∈ o.mem, b = true)).symm
  obtain ⟨hh, hd⟩ := (run_spec (filesysRemove_spec h.valid _ path (.inl loose)) hmem hrun).held h
  exact ⟨hh, fun hc => hd.resolve_right (fun hn => hn hc), fun _ hl => hl⟩

theorem chdir_worked (h : x.Balanced) (hs : step (.chdir p path o) x = some x') :
    Worked (.chdir p path o) x x' := by
  obtain ⟨pr, hp, hs⟩ := bind_eq_some_iff.mp hs
  obtain ⟨⟨r, v⟩, hrun, hs⟩ := bind_eq_some_iff.mp hs
  obtain ⟨hp, -⟩ := proc_some hp
  have hpr := mem_of_getElem? hp
  rcases run_spec (filesysChdir_spec h.valid _ path (.inl loose)) (.inl trivial) hrun with
    ⟨d, rfl, rfl, hr, -⟩ | ⟨rfl, rfl⟩
  · cases hs
    have hd := resolve_leads (h.opens hpr) hr
    refine .setProc h hp (((Moves.refl.bump (.inl hd)).count fun s => ?_).dropOpt) ?_ fun _ hl => hl
    · rw [count_cons, count_refs hp]
      simp only [Proc.refs, Proc.handles, count_append, toList_some, count_singleton]
      omega
    · rintro c ⟨⟩
      exact hd
  · cases hs
    exact ⟨⟨pr, hpr, .refl⟩, fun q hq c hc => ⟨q, hq, h.here hq hc⟩, fun _ hl => hl⟩

theorem count_opened (pr : Proc) (r : OpenReturn) (s : Nat) :
    (pr.opened r).refs.count s = r.refs.count s + pr.refs.count s := by
  cases r <;>
    simp only [Proc.opened, OpenReturn.refs, Proc.refs, Proc.handles, count_append, count_cons,
      count_nil, flatMap_append, flatMap_cons, flatMap_nil, FileInfo.handles, append_nil] <;>
    omega

theorem open_worked (h : x.Balanced) (hs : step (.open p path o) x = some x') :
    Worked (.open p path o) x x' := by
  obtain ⟨pr, hp, hs⟩ := bind_eq_some_iff.mp hs
  obtain ⟨⟨r, v⟩, hrun, hs⟩ := bind_eq_some_iff.mp hs
  cases hs
  obtain ⟨hp', -⟩ := proc_some hp
  have hpr := mem_of_getElem? hp'
  obtain ⟨hm, hrem⟩ := run_spec (sysOpen_moves h (h.opens hpr) path) (.inl trivial) hrun
  refine .setProc h hp' (hm.count fun s => ?_) (fun c hc => h.here hpr ?_) fun hct hl => ?_
  · rw [count_append, count_append, count_opened, count_refs hp', count_append]
    omega
  · cases r <;> exact hc
  · cases r with
    | holding s =>
      -- The guard rules out that the target is marked removed.
      obtain ⟨ht, hr⟩ := hrem s rfl
      have hct' : (x.proc p).all (fun pr =>
          (openTarget x.vol pr.currentDirectory path).all
            (fun s => !x.vol.isRemoved s)) = true := hct
      simp [hp, all_some, ht, all_some, hr] at hct'
    | _ => exact hl

theorem close_worked (h : x.Balanced) (hs : step (.close p fd) x = some x') :
    Worked (.close p fd) x x' := by
  obtain ⟨pr, hp, hs⟩ := bind_eq_some_iff.mp hs
  split at hs
  next =>
    cases hs
    exact exitProc_worked h hp
  next f hf =>
    cases hs
    obtain ⟨hp, -⟩ := proc_some hp
    have hperm := perm_cons_erase (mem_of_find?_eq_some hf)
    refine .setProc h hp (sysClose_moves (Moves.refl.count fun s => ?_))
      (fun c hc => h.here (mem_of_getElem? hp) hc) fun _ hl => hl
    rw [count_refs hp]
    have hc := (hperm.flatMap_right FileInfo.handles).count_eq s
    simp only [Proc.refs, Proc.handles, count_append, flatMap_cons] at hc ⊢
    omega

theorem count_started (r : Option Nat × Opening) (s : Nat) :
    (Proc.started r).refs.count s = r.1.toList.count s + r.2.refs.count s := by
  obtain ⟨cwd, f⟩ := r
  cases f <;>
    simp [Proc.started, Proc.fresh, Proc.refs, Proc.handles, Opening.refs, count_append]

theorem exec_worked {path : Option Path} (h : x.Balanced) (hs : step (.exec p path o) x = some x') :
    Worked (.exec p path o) x x' := by
  obtain ⟨pr, hp, hs⟩ := bind_eq_some_iff.mp hs
  obtain ⟨⟨r, v⟩, hrun, hs⟩ := bind_eq_some_iff.mp hs
  cases hs
  have hpr := mem_of_getElem? (proc_some hp).1
  obtain ⟨hm, hcwd⟩ := run_spec (startProcess_moves h (h.opens hpr) path) (.inl trivial) hrun
  refine ⟨⟨pr, hpr, hm.count fun s => ?_⟩, fun q hq c hc => ?_, fun hc => hc.elim⟩
  · have hc := count_started r s
    simp only [refs, flatMap_append, flatMap_cons, flatMap_nil, append_nil,
      count_append, count_cons] at hc ⊢
    omega
  · rcases mem_append.mp hq with hq | hq
    · exact ⟨q, hq, h.here hq hc⟩
    · rw [mem_singleton.mp hq] at hc
      refine ⟨pr, hpr, hcwd c ?_⟩
      obtain ⟨c', f⟩ := r
      cases f <;> exact hc

theorem step_accounts (h : x.Balanced) (hq : NoMkdir a x)
    (hs : step a x = some x') : Accounts a x x' := by
  cases a with
  | create p path size isdir o => exact create_accounts h hq hs
  | remove p path o => exact remove_accounts h hs
  | chdir p path o => exact (chdir_worked h hs).accounts h
  | «open» p path o => exact (open_worked h hs).accounts h
  | close p fd => exact (close_worked h hs).accounts h
  | exec p path o => exact (exec_worked h hs).accounts h
  | exit p =>
    obtain ⟨pr, hp, hs⟩ := bind_eq_some_iff.mp hs
    cases hs
    exact (exitProc_worked h hp).accounts h
  | contents s n =>
    cases hs
    exact ⟨Held.congr h rfl, fun _ => rfl, fun _ hl => hl⟩

theorem Mounted.balanced (h : x.Mounted) : x.Balanced ∧ x.NoneLost := by
  have hnone : x.procs.flatMap Proc.refs = [] := flatMap_eq_nil_iff.mpr fun pr hpr => by
      rw [h.procs pr hpr]
      rfl
  refine ⟨⟨fun s i hs => ?_, fun s => ?_⟩, fun pr hpr => ?_⟩
  · rw [h.opened] at hs
    split at hs
    · cases hs
      exact Nat.one_pos
    · cases hs
  · unfold Vol.openCnt refs
    rw [h.opened, hnone, h.file, count_singleton]
    by_cases hs : s = freeMapSector
    · simp [hs]
    · simp [hs, Ne.symm hs]
  · rw [h.procs pr hpr]
    rfl

/-- A volume as `do_format` leaves it, mounted, and `n` threads. -/
def formatted (n : Nat) : Fs where
  vol :=
    { node := fun s =>
        if s = freeMapSector then some ⟨false, []⟩
        else if s = rootDirSector then
          some ⟨true, ⟨rootDirSector, dot, true⟩
            :: ⟨rootDirSector, dotDot, true⟩
            :: List.replicate 14 Entry.zero⟩
        else none
      used := fun s => decide (s < 4)
      owner := fun s =>
        if s = 2 then some freeMapSector
        else if s = 3 then some rootDirSector else none
      opened := fun s => if s = freeMapSector then some ⟨1, false⟩ else none
      dangling := false
      spilled := false }
  procs := List.replicate n Proc.fresh
  freeMapFile := freeMapSector

theorem formatted_mounted (n : Nat) : (formatted n).Mounted :=
  ⟨rfl, fun _ => rfl, rfl, fun _ h => (mem_replicate.mp h).2⟩

-- ==== the counts

/-- The counting invariant of the runs in which no directory is created:
no inode is closed that is not open, and the count of every inode is the
number of handles that refer to it. -/
theorem open_count_is_handles (h : Reach Mounted step Counts x) :
    x.vol.dangling = false ∧ ∀ s, x.vol.openCnt s = x.handles.count s := by
  have hinv : x.Balanced ∧ x.NoneLost ∧ x.vol.dangling = false := by
    refine Reach.induct (P := fun x => x.Balanced ∧ x.NoneLost ∧ x.vol.dangling = false) ?_ ?_ x h
    · exact fun x h => ⟨h.balanced.1, h.balanced.2, h.dangling⟩
    · rintro a x x' - ⟨hb, hl, hd⟩ hc hs
      have ha := step_accounts hb hc.noMkdir hs
      exact ⟨ha.balanced, ha.noneLost hc hl, (ha.counted hc).trans hd⟩
  obtain ⟨hb, hl, hd⟩ := hinv
  refine ⟨hd, fun s => ?_⟩
  have hrefs : x.procs.flatMap Proc.refs = x.procs.flatMap Proc.handles :=
    flatMap_congr fun pr hpr => by rw [Proc.refs, hl pr hpr, append_nil]
  rw [hb.count, refs, hrefs, handles]

/-- A file is created, opened twice, removed while it is open, and one of
the two is closed. -/
theorem open_count_of_removed_file :
    ∃ x, Reach Mounted step Counts x
      ∧ x.vol.isRemoved 4 = true ∧ x.vol.openCnt 4 = 1
      ∧ x.vol.dangling = false ∧ ∀ s, x.vol.openCnt s = x.handles.count s := by
  have h0 : Reach Mounted step Counts (formatted 1) := .init (formatted_mounted 1)
  obtain ⟨x, hx, hrem, hcnt⟩ := h0.of_runAll
    [.create 0 ['a'] 30 false ⟨[], [4, 5]⟩, .open 0 ['a'] ⟨[], []⟩,
      .open 0 ['/', 'a'] ⟨[], []⟩, .remove 0 ['a'] ⟨[], []⟩, .close 0 2]
    (fun x => x.vol.isRemoved 4 = true ∧ x.vol.openCnt 4 = 1) (by decide)
  exact ⟨x, hx, hrem, hcnt, open_count_is_handles hx⟩

/-- Creating a directory closes its inode once more than it was opened:
`dir_close (child_dir)` frees the inode that `inode_close (inode)` is then
applied to. -/
theorem mkdir_closes_freed_inode : ∃ x, Reach Mounted step anyStep x ∧ x.vol.dangling = true := by
  have h0 : Reach Mounted step anyStep (formatted 1) := .init (formatted_mounted 1)
  obtain ⟨x, hx, hp⟩ := h0.of_runAll [.create 0 ['a'] 0 true ⟨[], [4, 5]⟩]
    (fun x => x.vol.dangling = true) (by decide)
  exact ⟨x, hx, hp⟩

-- ==== the exit

theorem afterExit_refs_nil (pr : Proc) :
    pr.afterExit.refs = [] ↔ pr.currentDirectory = none
      ∧ (∀ f ∈ pr.fileList, f.dirTemp = none)
      ∧ pr.stray = [] ∧ pr.lost = [] := by
  simp only [Proc.refs, Proc.handles, Proc.afterExit, append_eq_nil_iff, flatMap_eq_nil_iff,
    flatMap_nil, toList_none, toList_eq_nil_iff, true_and, and_assoc]

/-- The cleanup of `thread_exit` gives back every reference of the process
exactly when the process has no working directory, no directory among its
descriptors, and no reference that an earlier `open` left behind. -/
theorem exit_gives_back_iff (h : Reach Mounted step NoMkdir x) (hp : x.proc p = some pr) :
    ∃ x', step (.exit p) x = some x'
      ∧ (((x'.procs[p]?).map Proc.refs = some []
          ∧ ∀ s, x'.vol.openCnt s = (x.others p).count s)
        ↔ (pr.currentDirectory = none
          ∧ (∀ f ∈ pr.fileList, f.dirTemp = none)
          ∧ pr.stray = [] ∧ pr.lost = [])) := by
  have hb : x.Balanced :=
    Reach.induct (P := Balanced) (fun _ h => h.balanced.1)
      (fun _ _ _ _ hb hq hs => (step_accounts hb hq hs).balanced) x h
  obtain ⟨hp', -⟩ := proc_some hp
  have hs : step (.exit p) x = some (x.exitProc p pr) := by
    rw [step, hp]
    rfl
  have hproc : (x.exitProc p pr).procs[p]? = some pr.afterExit := procs_setProc hp' _ _
  have hheld := (exitProc_worked (a := .exit p) hb hp).accounts hb |>.balanced
  refine ⟨_, hs, ?_⟩
  rw [← afterExit_refs_nil, hproc, map_some, Option.some.injEq]
  refine and_iff_left_of_imp fun hnil s => ?_
  have hc := hheld.count s
  rw [count_refs hproc, hnil, nil_append] at hc
  exact hc.trans (congrArg _ (others_setProc ..))

/-- A thread without a working directory that leaves a regular file
open. -/
theorem exit_gives_back_file :
    ∃ x x', Reach Mounted step NoMkdir x ∧ x.vol.openCnt 4 = 1
      ∧ step (.exit 0) x = some x'
      ∧ (x'.procs[0]?).map Proc.refs = some []
      ∧ ∀ s, x'.vol.openCnt s = (x.others 0).count s := by
  have h0 : Reach Mounted step NoMkdir (formatted 1) := .init (formatted_mounted 1)
  obtain ⟨x, hx, hcnt, pr, hpr, hc⟩ := h0.of_runAll
    [.create 0 ['a'] 30 false ⟨[], [4, 5]⟩, .open 0 ['a'] ⟨[], []⟩]
    (fun x => x.vol.openCnt 4 = 1 ∧ ∃ pr ∈ x.proc 0, pr.currentDirectory = none
      ∧ (∀ f ∈ pr.fileList, f.dirTemp = none) ∧ pr.stray = [] ∧ pr.lost = []) (by decide)
  obtain ⟨x', hs, hiff⟩ := exit_gives_back_iff hx hpr
  exact ⟨x, x', hx, hcnt, hs, hiff.mpr hc⟩

/-- A process started without a file, which opens the root directory and
exits: its working directory and the handle beside the descriptor keep the
inode open, although no other process refers to it. -/
theorem exit_keeps_directories :
    ∃ x, Reach Mounted step NoMkdir x
      ∧ (x.procs[1]?).map Proc.exited = some true
      ∧ x.vol.openCnt rootDirSector = 2
      ∧ (x.others 1).count rootDirSector = 0 := by
  have h0 : Reach Mounted step NoMkdir (formatted 1) := .init (formatted_mounted 1)
  obtain ⟨x, hx, hk⟩ := h0.of_runAll [.exec 0 none ⟨[], []⟩, .open 1 ['/'] ⟨[], []⟩, .exit 1]
    (fun x => (x.procs[1]?).map Proc.exited = some true ∧ x.vol.openCnt rootDirSector = 2
      ∧ (x.others 1).count rootDirSector = 0) (by decide)
  exact ⟨x, hx, hk⟩

end Fs

end Pintos.Directory
