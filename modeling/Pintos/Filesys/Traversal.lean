/-
What path resolution reads.

`dir_open` makes a `struct dir` of any inode and `lookup` reads the data of
any inode as entries: that the inodes on a path are directories is not
checked. No regular file is read exactly if the names of the path lead
over none (`Unread`); the last inode that they lead to, which is not asked
either, has to be looked at besides.

`Clean p v` says that no run of `p` reads the data of a regular file as
entries, whatever `malloc` answers and whichever sectors are free, and
also if it stops. The specifications of the operations say it with the
ghost in `(· = false)`. In `(· = true)` they say that the ghost is never
reset, which shows what is misread at the end of a run.
-/
import Pintos.Filesys.DirOps

namespace Pintos.Directory

open Oracle Oracle.Prog

/-- The inodes a list of names leads over, from `d` on. -/
def trail (v : Vol) : List Name → Nat → List Nat
  | [], d => [d]
  | token :: rest, d =>
    d :: match lookup (v.entries d) token with
      | some (_, e) => trail v rest e.inodeSector
      | none => []

/-- No run of `p` reads the data of a regular file as entries. -/
def Clean {α : Type} (p : M α) (v : Vol) : Prop :=
  ∀ o : Choices, (left (p ⟨o, false⟩ v)).misread = false

/-- The ghost is `b` before and after. -/
abbrev Stays {α : Type} (b : Bool) (p : M α) (v : Vol) : Prop :=
  Wlp (Memory True (· = b)) p v fun _ _ => True

variable {α β : Type} {b : Bool} {v w : Vol} {d t i : Nat} {e : Entry} {cwd : Option Nat}
  {path : Path} {names rest : List Name} {token : Name}

theorem clean {p : M α} {Q : α → Vol → Prop} (h : Wlp (Memory True (· = false)) p v Q) :
    Clean p v := fun o => (h ⟨o, false⟩ ⟨.inl trivial, rfl⟩).1.ghost

/-- What was misread stays so. -/
theorem loose_true : Loose (· = true) := fun b c h => by rw [h, Bool.true_or]

-- ==== creations

/-- What is no regular file is none after `dir_add` to any directory. -/
theorem Added.isRegular {name : Name} {s t : Nat} (h : Added d name s v w) (hu : v.used t = true)
    (ht : v.isRegular t = false) : w.isRegular t = false := by
  obtain ⟨es, x, -, hg, rfl⟩ := h.wrote
  by_cases htd : t = d
  · simp [Vol.isRegular, Vol.setNode, htd]
  · simpa [Vol.isRegular, Vol.setNode, htd, (hg.kept hu).2.2] using ht

/-- `.` and `..` are added to a new directory. -/
theorem stays_addDots {child : Nat} (hu : v.used child = true)
    (hchild : v.isRegular child = false) (parent : Nat) : Stays false (addDots child parent) v := by
  refine (inodeOpen_spec child).bind ?_
  rintro r w (⟨rfl, rfl⟩ | ⟨rfl, -, -⟩)
  · refine (dirOpen_spec child).bind ?_
    rintro r u (⟨rfl, rfl⟩ | ⟨rfl, -, -⟩)
    · refine (dirAdd_spec (v := v.bump child) dot child (.inr hchild)).bind ?_
      rintro ok x (⟨rfl, hx⟩ | ⟨rfl, -⟩)
      · refine (dirAdd_spec dotDot parent (.inr (hx.isRegular hu hchild))).bind fun ok y _ => ?_
        cases ok with
        | false => exact wlp_stop
        | true => exact wlp_bind (wlp_modify (wlp_modify trivial))
      · exact wlp_stop
    · exact wlp_stop
  · refine dirOpen_none_spec.bind ?_
    rintro r u ⟨rfl, -⟩
    exact wlp_stop

theorem stays_filesysCreate (hv : v.Valid) (hp : ParentUnread v cwd path)
    (hused : ∀ d, resolve v cwd (dirPath path) = some d → v.used d = true)
    (size : Nat) (isdir : Bool) : Stays false (filesysCreate cwd path size isdir) v := by
  have hclose (parent : Option Nat) (ok : Bool) (u : Vol) :
      Stays false (do dirClose parent; pure ok : M Bool) u := by
    cases parent with
    | none => exact wlp_bind (wlp_pure (wlp_pure trivial))
    | some d => exact wlp_bind (wlp_modify (wlp_pure trivial))
  refine (splitPath_spec path).bind ?_
  rintro _ v ⟨rfl, rfl⟩
  refine (getDir_spec hv cwd _ (.inr hp.way)).bind ?_
  rintro r u (⟨d, rfl, rfl, hres, hrem⟩ | ⟨rfl, rfl⟩)
  · have hd := hp.parent d hres hrem
    refine (createEntry_spec (v := v.bump d) _ size isdir (.inr ⟨hused d hres, hd⟩)).bind ?_
    rintro _ w (⟨rfl, -⟩ | ⟨s, rfl, -⟩ | ⟨s, x, rfl, hx, hn, ha⟩)
    · exact wlp_bind (wlp_pure (hclose _ _ w))
    · exact wlp_bind (wlp_modify (hclose _ _ _))
    · cases isdir with
      | false => exact wlp_bind (wlp_pure (hclose _ _ w))
      | true =>
        have hs : x.isRegular s = false := by
          unfold Vol.isRegular
          rw [hn]
          rfl
        have hused' : w.used s = true := by
          obtain ⟨es, y, -, hg, rfl⟩ := ha.wrote
          exact (hg.kept hx.used).1
        exact (stays_addDots hused' (ha.isRegular hx.used hs) d).bind fun _ y _ => hclose _ _ y
  · exact wlp_bind (wlp_pure (wlp_bind (wlp_pure (hclose none _ _))))

-- ==== what is misread

/-- Memory for everything, and no sector. -/
def plenty (b : Bool) : Outside := ⟨⟨[], []⟩, b⟩

/-- The run with memory for everything reads the data of a regular file: it
is the same as if this had happened before. -/
def Misreads (p : M α) (v : Vol) : Prop := p (plenty false) v = p (plenty true) v

section Misreads

variable {p : M α} {f : α → M β}

theorem Misreads.bind (h : Misreads p v) : Misreads (p >>= f) v := by
  unfold Misreads at h ⊢
  simp only [Bind.bind, h]

/-- The data are read after `p`. -/
theorem Misreads.after {a : α} (hp : ∀ b, p (plenty b) v = .ok (a, plenty b, w))
    (h : Misreads (f a) w) : Misreads (p >>= f) v :=
  (run_bind (hp false)).trans (h.trans (run_bind (hp true)).symm)

theorem Misreads.not_clean {Q : α → Vol → Prop} (h : Misreads p v)
    (hs : Wlp (Memory True (· = true)) p v Q) : ¬ Clean p v := by
  intro hc
  have hfalse : (left (p (plenty false) v)).misread = false := hc ⟨[], []⟩
  rw [h] at hfalse
  exact Bool.noConfusion (hfalse.symm.trans (hs (plenty true) ⟨.inl trivial, rfl⟩).1.ghost)

theorem readEntries_run (d : Nat) (b : Bool) (v : Vol) :
    readEntries d (plenty b) v = .ok (v.entries d, plenty (b || v.isRegular d), v) := rfl

theorem misreads_readEntries (h : v.isRegular d = true) : Misreads (readEntries d) v := by
  unfold Misreads
  rw [readEntries_run, readEntries_run, h]
  rfl

theorem inodeOpen_run (s : Nat) (b : Bool) :
    inodeOpen s (plenty b) v = .ok (some s, plenty b, v.bump s) := by
  refine (run_bind rfl).trans ?_
  cases v.opened s <;> rfl

/-- One name of the loop of `get_dir`. -/
theorem getDirLoop_step (rest : List Name) (hv : v.Valid) (hreg : v.isRegular d = false)
    (hl : lookup (v.entries d) token = some (i, e)) (b : Bool) :
    getDirLoop (token :: rest) d (plenty b) (v.bump d) =
      getDirLoop rest e.inodeSector (plenty b) (v.bump e.inodeSector) := by
  have hread : readEntries d (plenty b) (v.bump d) = .ok (v.entries d, plenty b, v.bump d) := by
    rw [readEntries_run, show (v.bump d).isRegular d = false from hreg, Bool.or_false]
    rfl
  have hlook : dirLookup d token (plenty b) (v.bump d) =
      .ok (some e.inodeSector, plenty b, (v.bump d).bump e.inodeSector) := by
    refine (run_bind hread).trans ?_
    rw [hl]
    exact inodeOpen_run _ b
  have hclose : dirClose (some d) (plenty b) ((v.bump d).bump e.inodeSector) =
      .ok ((), plenty b, v.bump e.inodeSector) :=
    congrArg (fun u => Except.ok ((), plenty b, u)) (bump_bump_drop hv d e.inodeSector)
  exact (run_bind hlook).trans ((run_bind rfl).trans (run_bind hclose))

theorem getDirLoop_misreads (hv : v.Valid) (hc : ¬ Unread v names d) :
    Misreads (getDirLoop names d) (v.bump d) := by
  induction names generalizing d with
  | nil => exact absurd trivial hc
  | cons token rest ih =>
    cases hreg : v.isRegular d with
    | true => exact .bind (.bind (misreads_readEntries hreg))
    | false =>
      obtain ⟨i, e, hl, hrest⟩ : ∃ i e, lookup (v.entries d) token = some (i, e) ∧
          ¬ Unread v rest e.inodeSector := by
        by_contra! hcon
        exact hc ⟨hreg, hcon⟩
      have hstep := getDirLoop_step rest hv hreg hl
      exact (hstep false).trans ((ih hrest).trans (hstep true).symm)

/-- Where the names lead, with memory. -/
theorem getDirLoop_found (hv : v.Valid) (hc : Unread v names d) (hf : follow v names d = some t)
    (b : Bool) : getDirLoop names d (plenty b) (v.bump d) = .ok (some t, plenty b, v.bump t) := by
  induction names generalizing d with
  | nil =>
    cases hf
    rfl
  | cons token rest ih =>
    obtain ⟨i, e, hl, hf⟩ := follow_cons hf
    exact (getDirLoop_step _ hv hc.1 hl b).trans (ih (hc.2 i e hl) hf)

theorem getDirStart_run (cwd : Option Nat) (path : Path) (b : Bool) :
    getDirStart cwd path (plenty b) v =
      .ok (some (start cwd path), plenty b, v.bump (start cwd path)) := by
  have hroot : dirOpenRoot (plenty b) v =
      .ok (some rootDirSector, plenty b, v.bump rootDirSector) :=
    (run_bind (inodeOpen_run _ b)).trans rfl
  unfold getDirStart start
  split
  · exact hroot
  · cases cwd with
    | none => exact hroot
    | some d => rfl

theorem getDir_misreads (hv : v.Valid) (hc : ¬ Unread v (tokens path) (start cwd path)) :
    Misreads (getDir cwd path) v :=
  .after (getDirStart_run cwd path) (.bind (getDirLoop_misreads hv hc))

theorem getDir_found (hv : v.Valid) (hc : Unread v (tokens path) (start cwd path))
    (hf : resolve v cwd path = some t) (hrem : v.isRemoved t = false) (b : Bool) :
    getDir cwd path (plenty b) v = .ok (some t, plenty b, v.bump t) := by
  refine (run_bind (getDirStart_run cwd path b)).trans
    ((run_bind (getDirLoop_found hv hc hf b)).trans ((run_bind rfl).trans ?_))
  rw [isRemoved_bump, hrem]
  rfl

/-- If `filesys_remove` reads no data of a regular file, then no name is
looked up in one. -/
theorem ParentUnread.of_clean (hv : v.Valid) (h : Clean (filesysRemove cwd path) v) :
    ParentUnread v cwd path := by
  have hnot (hm : Misreads (filesysRemove cwd path) v) : False :=
    hm.not_clean (filesysRemove_spec hv cwd path (.inl loose_true)) h
  have hsplit (b : Bool) : splitPath path (plenty b) v =
      .ok ((getName path, dirPath path), plenty b, v) := rfl
  have hway : Unread v (tokens (dirPath path)) (start cwd (dirPath path)) := by
    by_contra hc
    exact hnot (.after hsplit (.bind (getDir_misreads hv hc)))
  refine ⟨hway, fun d hres hrem => ?_⟩
  by_contra hreg
  rw [Bool.not_eq_false] at hreg
  exact hnot (.after hsplit (.after (getDir_found hv hway hres hrem)
    (.bind (.bind (misreads_readEntries (v := v.bump d) hreg)))))

end Misreads

-- ==== the result

theorem mem_trail (hf : follow v names d = some t) : t ∈ trail v names d := by
  induction names generalizing d with
  | nil =>
    cases hf
    exact List.mem_singleton.mpr rfl
  | cons token rest ih =>
    obtain ⟨i, e, hl, hf⟩ := follow_cons hf
    unfold trail
    rw [hl]
    exact List.mem_cons_of_mem _ (ih hf)

/-- What is not regular and has entries is a directory. -/
theorem isdir_of_lookup {r : Nat × Entry} (hreg : v.isRegular d = false)
    (hl : lookup (v.entries d) token = some r) : v.isdir d = true := by
  unfold Vol.isRegular at hreg
  unfold Vol.isdir
  cases hn : v.node d with
  | none =>
    unfold Vol.entries at hl
    rw [hn] at hl
    cases hl
  | some n =>
    rw [hn] at hreg
    simpa using hreg

/-- The way leads over directories, if what it leads to is one. -/
theorem Unread.trail (hc : Unread v names d) (hf : follow v names d = some t)
    (ht : v.isdir t = true) : ∀ s ∈ trail v names d, v.isdir s = true := by
  induction names generalizing d with
  | nil =>
    cases hf
    intro s hs
    rw [List.mem_singleton.mp hs]
    exact ht
  | cons token rest ih =>
    obtain ⟨i, e, hl, hf⟩ := follow_cons hf
    unfold Directory.trail
    rw [hl]
    intro s hs
    rcases List.mem_cons.mp hs with rfl | hs
    · exact isdir_of_lookup hc.1 hl
    · exact ih (hc.2 i e hl) hf s hs

/-- `get_dir` succeeds through directories only and reads no data of a
regular file as entries, nor does `filesys_chdir`, exactly if the names of
the path lead over no regular file and to a directory, if they lead to an
inode that is not removed. The calls that go to the parent of the path
read no such data exactly if the names lead over no regular file and not
to one. The sector of the parent is in use, as in every file system: it is
not handed out for the new file. -/
theorem traversal_only_directories (hv : v.Valid) (cwd : Option Nat) (path : Path)
    (hused : ∀ d, resolve v cwd (dirPath path) = some d → v.used d = true) :
    (((∀ o d o' w, getDir cwd path o v = .ok (some d, o', w) →
          ∀ s ∈ trail v (tokens path) (start cwd path), v.isdir s = true) ∧
        Clean (getDir cwd path) v ∧ Clean (filesysChdir cwd path) v) ↔
      Unread v (tokens path) (start cwd path) ∧
        ∀ d, resolve v cwd path = some d → v.isRemoved d = false → v.isdir d = true) ∧
    ((Clean (filesysOpen cwd path) v ∧
        (∀ size isdir, Clean (filesysCreate cwd path size isdir) v) ∧
        Clean (filesysRemove cwd path) v) ↔
      ParentUnread v cwd path) := by
  refine ⟨⟨?_, ?_⟩, fun h => .of_clean hv h.2.2, fun hp =>
    ⟨clean (filesysOpen_spec hv cwd path (.inr hp)), fun size isdir =>
      clean (stays_filesysCreate hv hp hused size isdir),
      clean (filesysRemove_spec hv cwd path (.inr hp))⟩⟩
  · rintro ⟨hdirs, hclean, -⟩
    have hc : Unread v (tokens path) (start cwd path) := by
      by_contra hc
      exact (getDir_misreads hv hc).not_clean (getDir_spec hv cwd path (.inl loose_true)) hclean
    refine ⟨hc, fun d hres hrem => ?_⟩
    exact hdirs _ d _ _ (getDir_found hv hc hres hrem false) d (mem_trail hres)
  · rintro ⟨hc, hlast⟩
    refine ⟨fun o d o' w hrun => ?_, clean (getDir_spec hv cwd path (.inr hc)),
      clean (filesysChdir_spec hv cwd path (.inr hc))⟩
    have hany : Memory True (fun _ => True) o := ⟨.inl trivial, trivial⟩
    rcases (getDir_spec hv cwd path (.inl fun _ _ _ => trivial)).run hany hrun with
      ⟨d', -, -, hres, hrem⟩ | ⟨hnone, -⟩
    · exact hc.trail hres (hlast d' hres hrem)
    · cases hnone

-- ==== a crafted file

/-- A root directory with one regular file, on sector 5, and an empty
directory, on sector 4. -/
def oneFile (data : List Entry) : Vol where
  node s :=
    if s = 1 then some ⟨true, [⟨1, dot, true⟩, ⟨1, dotDot, true⟩, ⟨5, ['f'], true⟩,
      ⟨4, ['d'], true⟩]⟩
    else if s = 4 then some ⟨true, [⟨4, dot, true⟩, ⟨1, dotDot, true⟩]⟩
    else if s = 5 then some ⟨false, data⟩ else none
  used s := decide (s < 8)
  owner s := if s = 6 then some 1 else if s = 7 then some 5 else none
  opened _ := none
  dangling := false
  spilled := false

/-- The data of the file are an entry for `x` that names the root. -/
def crafted : Vol := oneFile [⟨1, ['x'], true⟩]

/-- `d/..` and the parent of `d/g` are reached over directories. -/
theorem traversal_only_directories_up :
    Clean (getDir none ['d', '/', '.', '.']) crafted ∧
    Clean (filesysChdir none ['d', '/', '.', '.']) crafted ∧
    Clean (filesysOpen none ['d', '/', 'g']) crafted ∧
    Clean (filesysRemove none ['d', '/', 'g']) crafted := by
  have hvalid : crafted.Valid := nofun
  have hd : lookup (crafted.entries 1) ['d'] = some (3, ⟨4, ['d'], true⟩) := by decide
  have hway : Unread crafted [['d'], dotDot] 1 := by
    refine ⟨rfl, fun i e hl => ?_⟩
    cases hd.symm.trans hl
    exact ⟨rfl, fun _ _ _ => trivial⟩
  have hparent : ParentUnread crafted none ['d', '/', 'g'] := by
    refine ⟨⟨rfl, fun _ _ _ => trivial⟩, fun d hr _ => ?_⟩
    cases hr
    rfl
  have hget := (traversal_only_directories hvalid none ['d', '/', '.', '.'] (by
    rintro d ⟨⟩
    rfl)).1.mpr ⟨hway, by
      rintro d ⟨⟩ -
      rfl⟩
  have hcalls := (traversal_only_directories hvalid none ['d', '/', 'g'] (by
    rintro d ⟨⟩
    rfl)).2.mpr hparent
  exact ⟨hget.2.1, hget.2.2, hcalls.1, hcalls.2.2⟩

/-- `f/x` leads over the regular file `f`, as its data have it: to the
root, to nothing, or to the inode of the free map. And `chdir` enters a
regular file. -/
theorem path_through_regular_file : crafted.isdir 5 = false ∧
    5 ∈ trail crafted (tokens ['f', '/', 'x']) 1 ∧
    (getDir none ['f', '/', 'x'] (plenty false) crafted).toOption.map (·.1) = some (some 1) ∧
    (getDir none ['f', '/', 'x'] (plenty false) (oneFile [])).toOption.map (·.1) = some none ∧
    (left (getDir none ['f', '/', 'x'] (plenty false) crafted)).misread = true ∧
    (filesysOpen none ['f', '/', 'x'] (plenty false)
      (oneFile [⟨0, ['x'], true⟩])).toOption.map (·.1) = some (.file 0) ∧
    (filesysChdir none ['f'] (plenty false) (oneFile [])).toOption.map (·.1) = some (some 5) := by
  decide

end Pintos.Directory
