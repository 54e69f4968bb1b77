/-
A call of `filesys_create` that fails.

The file is made in four steps: a sector for the inode, the sectors of its
data and their index blocks, the inode itself, and the entry in the parent
directory. When one of them fails, the sector of the inode is given back
and nothing else is.

So it depends on the data. With no data sector taken, the sector of the
inode is the only one that was taken or written, and everything is as it
was. If the data took any, the first of them is in use from then on and
belongs to no file.
-/
import Pintos.Filesys.DirAdd

namespace Pintos.Create

open Resume Prog
open Inode
open Slots (Raw fillEntry)
open Directory (entrySize nameMax)

-- ==== the sectors of the data

section Fails

variable {t : Tid} {fs fs' : Fs} {r : Nat}
variable {junk : Nat → Block} {dir ok : Bool} {size : Int} {sector : Nat}

/-- The data of a new file take no sector: there are none, they are too
many, or no sector is free. -/
def Dataless (size : Int) (fs : Fs) : Prop :=
  bytesToSectors size = 0 ∨ maxSectors < bytesToSectors size ∨ fs.freeMap.freeCount = 0

variable {g : Grown} {s : Nat}

/-- `sector_allocate` for a file without data does nothing. -/
theorem sectorAllocate_dataless (h : Dataless size fs)
    (he : (sectorAllocate junk (bytesToSectors size)
      (blankInode dir)).exec (Fs.act t) fs = some (g, fs')) : fs' = fs := by
  unfold Dataless at h
  have hlt : bytesToSectors size < 4294967296 := by
    unfold bytesToSectors
    omega
  generalize bytesToSectors size = add at h he hlt
  have he' := he
  unfold sectorAllocate at he'
  rw [sectorAllocate_eq, blocks_blankInode, zero_add, Nat.mod_eq_of_lt hlt] at he'
  by_cases hmax : add > maxSectors
  · rw [if_pos hmax] at he'
    cases he'
    rfl
  rw [if_neg hmax] at he'
  by_cases hzero : add = 0
  · rw [if_pos hzero] at he'
    cases he'
    rfl
  have hfull := (h.resolve_left hzero).resolve_left hmax
  rcases sectorAllocate_first hzero (not_lt.mp hmax) he with
    ⟨-, -, hsame⟩ | ⟨hne, -⟩
  · exact hsame
  · exact absurd hfull hne

/-- What making an inode on sector `s` does: without data it is written at
most, otherwise the first data sector is taken. -/
def Makes (size : Int) (s : Nat) (fs fs' : Fs) : Prop :=
  (Dataless size fs ∧ (fs' = fs ∨ ∃ b, fs' = fs.setDisk s b)) ∨
    (¬Dataless size fs ∧ ∃ x, fs.freeMap.test x = false ∧ fs'.freeMap.test x = true)

theorem inodeCreate_makes
    (he : (inodeCreate junk sector size dir).exec (Fs.act t) fs = some (ok, fs')) :
    Makes size sector fs fs' := by
  obtain ⟨g, fs₂, halloc, -, hend⟩ := inodeCreate_exec he
  have hwritten : fs' = fs₂ ∨ ∃ b, fs' = fs₂.setDisk sector b := by
    split at hend
    · exact .inr ⟨_, hend⟩
    · exact .inl hend
  by_cases hd : Dataless size fs
  · cases sectorAllocate_dataless hd halloc
    exact .inl ⟨hd, hwritten⟩
  · have hmax : bytesToSectors size ≤ maxSectors := not_lt.mp fun hm => hd (.inr (.inl hm))
    rcases sectorAllocate_first (fun hz => hd (.inl hz)) hmax halloc with
      ⟨hzero, -⟩ | ⟨-, x, hfree, hused⟩
    · exact absurd (.inr (.inr hzero)) hd
    · refine .inr ⟨hd, x, hfree, ?_⟩
      rcases hwritten with rfl | ⟨b, rfl⟩ <;> exact hused

/-- A sector that was free is not the parent's. -/
theorem Proper.taken (h : Proper fs r) (htaken : Taken s fs fs') :
    Proper fs' r ∧ (fs'.inode r).sector ≠ s := by
  have hinode : fs'.inode = fs.inode := (allots_of_taken htaken).inode
  have hdisk : fs'.disk = fs.disk := by rw [htaken.rest]
  have hused := (allots_of_taken htaken).keeps _ h.used
  refine ⟨⟨by rwa [hinode], by rw [hinode, hdisk, h.loaded], by rw [hinode]; exact h.short⟩, ?_⟩
  intro heq
  have hfree := htaken.free
  simp [← heq, hinode, h.used] at hfree

theorem Proper.setDisk (h : Proper fs r) (hne : (fs.inode r).sector ≠ s) (b : Block) :
    Proper (fs.setDisk s b) r :=
  ⟨h.used, h.loaded.trans (if_neg hne).symm, h.short⟩

/-- What the steps up to the entry leave when one of them fails. -/
theorem createEntry_fails (h : Proper fs r) {k : Stack} {name : List UInt8}
    {isdir : Bool} {o : Option Nat}
    (he : (createEntry k (some r) name size isdir).exec (Fs.act t) fs = some ((o, false), fs')) :
    (o = none ∧ fs' = fs ∧ fs.freeMap.freeCount = 0) ∨
      ∃ s fs₂, o = some s ∧ Taken s fs fs₂ ∧ Steady fs₂ fs' ∧ Makes size s fs₂ fs' := by
  obtain ⟨sector, fs₂, htake, hmade⟩ := exec_bind_some he
  rcases (freeMapAllocate_runs t fs).exec htake with
    ⟨rfl, hsame, hzero⟩ | ⟨s, rfl, htaken⟩
  · cases hmade
    exact .inl ⟨rfl, hsame, hzero⟩
  · obtain ⟨ok, fs₃, hcreate, hadd⟩ := exec_bind_some hmade
    have hsteady := Steady.of_allots (allotting_inodeCreate t _ _ _ _ _ _ _ hcreate)
    -- what follows keeps the sectors, and does nothing for an empty file
    have hrest : o = some s ∧ Steady fs₃ fs' ∧ (Proper fs₃ r → fs' = fs₃) := by
      cases ok with
      | false =>
        cases hadd
        exact ⟨rfl, .refl _, fun _ => rfl⟩
      | true =>
        obtain ⟨added, fs₄, hentry, hret⟩ := exec_bind_some hadd
        cases hret
        exact ⟨rfl, keeping_dirAdd t _ _ _ _ _ _ _ _ hentry, fun hp => dirAdd_fails hp hentry⟩
    obtain ⟨ho, hsteady', hnothing⟩ := hrest
    refine .inr ⟨s, fs₂, ho, htaken, hsteady.trans hsteady', ?_⟩
    obtain ⟨hproper, hne⟩ := h.taken htaken
    rcases inodeCreate_makes hcreate with ⟨hd, rfl | ⟨b, rfl⟩⟩ | ⟨hd, x, hfree, hused⟩
    · exact .inl ⟨hd, .inl (hnothing hproper)⟩
    · exact .inl ⟨hd, .inr ⟨b, hnothing (hproper.setDisk hne b)⟩⟩
    · exact .inr ⟨hd, x, hfree, hsteady'.keeps x hused⟩

end Fails

-- ==== the entries

/-- The bytes of the file whose inode is on sector `I`. -/
def fileBytes (disk : Nat → Block) (I : Nat) : List UInt8 :=
  (List.range (eof (disk I)).toNat).map (fileByte disk (disk I))

/-- The file on sector `I` lies on sectors in use. -/
structure OnUsed (fs : Fs) (I : Nat) : Prop where
  header : fs.freeMap.test I = true
  data : ∀ i : Nat, ((512 * i : Nat) : Int) < eof (fs.disk I) →
    fs.freeMap.test (blockOf fs.disk (fs.disk I) i) = true
  indirect : 5120 < eof (fs.disk I) → fs.freeMap.test (word (fs.disk I) 10) = true
  double : 70656 < eof (fs.disk I) → fs.freeMap.test (word (fs.disk I) 11) = true
  inner : ∀ k : Nat, ((70656 + 65536 * k : Nat) : Int) < eof (fs.disk I) →
    fs.freeMap.test (word (fs.disk (word (fs.disk I) 11)) k) = true

/-- The free map, the sectors in use, the entries of the directories and
the open inodes are as before. -/
structure Unchanged (fs fs' : Fs) : Prop where
  freeMap : ∀ x, fs'.freeMap.test x = fs.freeMap.test x
  sectors : ∀ x, fs.freeMap.test x = true → fs'.disk x = fs.disk x
  entries : ∀ I, OnUsed fs I → Slots.entries (fileBytes fs'.disk I) =
    Slots.entries (fileBytes fs.disk I)
  opened : view fs' = view fs

variable {fs fs' : Fs} {I : Nat}

theorem OnUsed.blockOf (h : OnUsed fs I)
    (hs : ∀ x, fs.freeMap.test x = true → fs'.disk x = fs.disk x) {i : Nat}
    (hi : ((512 * i : Nat) : Int) < eof (fs.disk I)) :
    blockOf fs'.disk (fs.disk I) i = Inode.blockOf fs.disk (fs.disk I) i := by
  unfold Inode.blockOf
  split
  · rfl
  · split
    · rw [hs _ (h.indirect (by omega))]
    · rw [hs _ (h.double (by omega)), hs _ (h.inner _ (by omega))]

/-- A file on sectors in use is what these hold. -/
theorem OnUsed.fileBytes (h : OnUsed fs I)
    (hs : ∀ x, fs.freeMap.test x = true → fs'.disk x = fs.disk x) :
    fileBytes fs'.disk I = Create.fileBytes fs.disk I := by
  unfold Create.fileBytes
  rw [hs I h.header]
  refine List.map_congr_left fun p hp => ?_
  have hlt := List.mem_range.mp hp
  have hi : ((512 * (p / 512) : Nat) : Int) < eof (fs.disk I) := by omega
  unfold fileByte
  rw [h.blockOf hs hi, hs _ (h.data _ hi)]

theorem unchanged_of (hmap : ∀ x, fs'.freeMap.test x = fs.freeMap.test x)
    (hs : ∀ x, fs.freeMap.test x = true → fs'.disk x = fs.disk x)
    (hview : view fs' = view fs) : Unchanged fs fs' :=
  ⟨hmap, hs, fun _ hI => congrArg Slots.entries (hI.fileBytes hs), hview⟩

-- ==== the theorem

section Main

variable {t : Tid} {fs fs' : Fs} {r : Nat}
variable {u : Unit} {size : Int} {s : Nat}

variable {v : Nat → Option MemInode} {fs₁ : Fs} {junk : Block}

/-- Giving back the reference to the parent. -/
theorem closeParent_ends (hv : Counted v) (hl : Listed fs₁) (href : Ref r v (view fs₁))
    (hsteady : Steady fs₁ fs) (he : (inodeClose junk r).exec (Fs.act t) fs = some (u, fs')) :
    Still fs fs' ∧ (view fs = view fs₁ → view fs' = v) := by
  obtain ⟨i, hi⟩ := href.some
  have hlast := href.not_last hv hi
  obtain ⟨hmem, rfl⟩ := mem_of_view hi
  rw [← hsteady.openInodes] at hmem
  obtain ⟨hstill, -, hview⟩ := inodeClose_ends (hsteady.listed hl) (view_of_mem hmem)
    (by rw [(hsteady.refs r).1, (hsteady.refs r).2]; exact hlast) he
  refine ⟨hstill, fun hsame => ?_⟩
  rw [hview, hsame, href.closed hv]

/-- The state before the call: the list of open inodes is in order, the
current directory is open, and the sector of the free map is in use. -/
structure Ready (fs : Fs) (cwd : Option Nat) : Prop where
  listed : Listed fs
  cwd : ∀ r, cwd = some r → r ∈ fs.openInodes
  map : fs.freeMap.test 0 = true

theorem bytesToSectors_eq_zero (h0 : 0 ≤ size) (hoff : size < 2147483648) :
    bytesToSectors size = 0 ↔ size = 0 := by
  constructor
  · intro hz
    have hle := le_of_bytesToSectors h0 hoff (by omega)
    rw [bytesToSectors_eq h0 hle] at hz
    omega
  · rintro rfl
    decide

theorem Still.unchanged (h : Still fs fs') (hview : view fs' = view fs) : Unchanged fs fs' := by
  exact unchanged_of (fun x => by rw [h.freeMap]) (fun x _ => by rw [h.disk]) hview

/-- The calls that fail without having taken a data sector. -/
def Harmless (fs : Fs) (size : Int) (parent : Option Nat) : Prop :=
  parent = none ∨ fs.freeMap.freeCount ≤ 1 ∨ size = 0 ∨ maxSectors < bytesToSectors size

theorem harmless_iff (htaken : Taken s fs fs') (h0 : 0 ≤ size) (hoff : size < 2147483648) :
    Harmless fs size (some r) ↔ Dataless size fs' := by
  have hcount := htaken.count
  unfold Harmless Dataless
  rw [bytesToSectors_eq_zero h0 hoff]
  simp only [reduceCtorEq, false_or]
  omega

/-- With a parent and a sector for the inode: the call has left everything
as it was if the data took no sector, and otherwise not. -/
theorem failed_with_sector (hv : Counted v) {fs₂ fs₃ : Fs} (hl : Listed fs₁)
    (href : Ref r v (view fs₁)) (htaken : Taken s fs₁ fs₂) (hsteady : Steady fs₂ fs₃)
    (hdata : Makes size s fs₂ fs₃)
    (hclose : (inodeClose junk r).exec (Fs.act t) (freed fs₃ s) = some (u, fs')) :
    (Dataless size fs₂ → (∀ x, fs'.freeMap.test x = fs₁.freeMap.test x) ∧
      (∀ x, fs₁.freeMap.test x = true → fs'.disk x = fs₁.disk x) ∧
      view fs' = v) ∧
    (¬Dataless size fs₂ → ∃ x, fs₁.freeMap.test x = false ∧ fs'.freeMap.test x = true) := by
  have hallots := allots_of_taken htaken
  have hdisk2 : fs₂.disk = fs₁.disk := by rw [htaken.rest]
  have hused : ∀ x, fs₁.freeMap.test x = true → x ≠ s := by
    rintro x hx rfl
    simp [htaken.free] at hx
  have hall : Steady fs₁ (freed fs₃ s) := by
    have h := (Steady.of_allots hallots).trans hsteady
    refine ⟨fun x hx => ?_, h.openInodes, h.count, h.refs⟩
    rw [freed_test, if_neg (hused x hx)]
    exact h.keeps x hx
  obtain ⟨hstill, hview⟩ := closeParent_ends hv hl href hall hclose
  have htest (x : Nat) : fs'.freeMap.test x = if x = s then false else fs₃.freeMap.test x := by
    rw [hstill.freeMap, freed_test]
  refine ⟨fun hd => ?_, fun hd => ?_⟩
  · -- the inode's sector is the only one that was taken or written
    have hsame : fs₃.freeMap = fs₂.freeMap ∧ fs₃.inode = fs₂.inode ∧ fs₃.openInodes = fs₂.openInodes
        ∧ ∀ x, x ≠ s → fs₃.disk x = fs₂.disk x := by
      rcases (hdata.resolve_right fun h => h.1 hd).2 with rfl | ⟨b, rfl⟩
      · exact ⟨rfl, rfl, rfl, fun _ _ => rfl⟩
      · exact ⟨rfl, rfl, rfl, fun x hx => if_neg hx⟩
    obtain ⟨hmap3, hinode3, hopen3, hdisk3⟩ := hsame
    refine ⟨fun x => ?_, fun x hx => ?_, hview ?_⟩
    · rw [htest, hmap3, htaken.test]
      split
      next h => rw [h, htaken.free]
      next => rfl
    · rw [hstill.disk]
      exact (hdisk3 x (hused x hx)).trans (congrFun hdisk2 x)
    · funext x
      show (if x ∈ fs₃.openInodes then some (fs₃.inode x) else none) = _
      rw [hopen3, hinode3, hallots.openInodes, hallots.inode]
      rfl
  · obtain ⟨x, hfree, htook⟩ := (hdata.resolve_left fun h => hd h.1).2
    have hne : x ≠ s := by
      rintro rfl
      simp [htaken.test] at hfree
    rw [htaken.test, if_neg hne] at hfree
    exact ⟨x, hfree, by rwa [htest, if_neg hne]⟩

/-- A call of `filesys_create` that fails leaves the free map, the entries
of every directory and every open count as they were exactly if no data
sector was taken: there is no parent, the file is to be empty or too
large, or there is no second free sector. -/
theorem failed_create_unchanged_iff {k : Stack} {cwd : Option Nat} {path : List UInt8} {size : Int}
    {isdir : Bool} (h : Ready fs cwd) (h0 : 0 ≤ size) (hoff : size < 2147483648)
    {parent : Option Nat} {fs₁ : Fs} (hparent : (getDir k.walk cwd (dirPath path)).exec
      (Fs.act t) fs = some (parent, fs₁))
    (hproper : ∀ r, parent = some r → Proper fs₁ r)
    (he : (filesysCreate k cwd path size isdir).exec (Fs.act t) fs = some (false, fs')) :
    Unchanged fs fs' ↔ Harmless fs size parent := by
  obtain ⟨parent', fs₁', hget, hrest⟩ := exec_bind_some he
  rw [hparent] at hget
  cases hget
  obtain ⟨hstill, hlist, href⟩ := getDir_ends h.listed h.cwd hparent
  obtain ⟨⟨o, ok⟩, fs₂, hcreate, hrest⟩ := exec_bind_some hrest
  obtain ⟨u, fs₃, hfinish, hrest⟩ := exec_bind_some hrest
  obtain ⟨u', fs₄, hclose, hret⟩ := exec_bind_some hrest
  obtain ⟨rfl, rfl⟩ := Prod.mk.inj (Option.some.inj hret)
  cases parent with
  | none =>
    cases hcreate
    cases hfinish
    cases hclose
    exact ⟨fun _ => .inl rfl, fun _ => hstill.unchanged href⟩
  | some d =>
    have hv := h.listed.counted
    rcases createEntry_fails (hproper d rfl) hcreate with
      ⟨rfl, rfl, hzero⟩ | ⟨s, fs₅, rfl, htaken, hsteady, hdata⟩
    · cases hfinish
      obtain ⟨hstill', hview⟩ := closeParent_ends hv hlist href (.refl _) hclose
      rw [hstill.freeMap] at hzero
      refine ⟨fun _ => .inr (.inl (by omega)), fun _ => ?_⟩
      exact (hstill.trans hstill').unchanged (hview rfl)
    · have hmap : fs₁.freeMap.test 0 = true := hstill.freeMap ▸ h.map
      have hs : s ≠ 0 := by
        rintro rfl
        simp [htaken.free] at hmap
      have hused : fs₂.freeMap.test s = true := hsteady.keeps s (by rw [htaken.test, if_pos rfl])
      simp only [finishCreate] at hfinish
      rw [if_pos hs, (freeMapRelease_logs hused).exec] at hfinish
      cases hfinish
      obtain ⟨hyes, hno⟩ := failed_with_sector hv hlist href htaken hsteady hdata hclose
      have hiff : Harmless fs size (some d) ↔ Dataless size fs₅ := by
        rw [← harmless_iff (r := d) htaken h0 hoff]
        unfold Harmless
        rw [hstill.freeMap]
      rw [hiff]
      rw [hstill.freeMap, hstill.disk] at hyes
      rw [hstill.freeMap] at hno
      constructor
      · intro hun
        by_contra hd
        obtain ⟨x, hfree, htook⟩ := hno hd
        simp [hun.freeMap, hfree] at htook
      · intro hd
        obtain ⟨hfree, hsectors, hview⟩ := hyes hd
        exact unchanged_of hfree hsectors hview

end Main

-- ==== a volume

/-- The inode of a directory of three entries, with its data on sector 2. -/
def rootInode : Block := setEof (setLength (setWord (blankInode true) 0 2) 60) 60

/-- `.`, `..` and `a`. -/
def rootData : Block := fun j =>
  if j < 20 then fillEntry (fun _ => 0) dot 1 j
  else if j < 40 then fillEntry (fun _ => 0) dotDot 1 (j - 20)
  else if j < 60 then fillEntry (fun _ => 0) [97] 3 (j - 40)
  else 0

/-- A device of 16 sectors with four in use, and nothing open. -/
def volume : Fs where
  size := 16
  disk s :=
    if s = 1 then rootInode
    else if s = 2 then rootData
    else if s = 3 then blankInode false
    else zeros
  freeMap := ⟨16, fun w => if w = 0 then 15 else 0⟩
  mapFile := true
  stored := ⟨16, fun w => if w = 0 then 15 else 0⟩
  inode _ := ⟨0, 0, false, 0, zeros, none⟩
  count := 0
  openInodes := []

def blankStack : Stack :=
  ⟨fun _ => zeros, fun _ => zeros, fun _ => zeros, fun _ => zeros, zeros, fun _ => 0⟩

/-- An empty file of a name that is there is refused without a trace. -/
theorem failed_create_unchanged_iff_empty :
    ∃ fs', (filesysCreate blankStack none [97] 0 false).exec (Fs.act 0)
      volume = some (false, fs') ∧ Unchanged volume fs' := by
  have hrun : ((filesysCreate blankStack none [97] 0 false).exec (Fs.act 0)
      volume).any (fun r => !r.1) = true := by decide +kernel
  obtain ⟨⟨ok, fs'⟩, he, hok⟩ := Option.any_eq_true _ _ |>.mp hrun
  cases ok with
  | true => cases hok
  | false =>
    have hready : Ready volume none :=
      { listed := ⟨List.nodup_nil, nofun, nofun⟩
        cwd := nofun
        map := by decide }
    have hpath : dirPath [97] = [] := by decide +kernel
    have hparent : (getDir blankStack.walk none []).exec (Fs.act 0) volume = some (some 0, _) := rfl
    rw [← hpath] at hparent
    refine ⟨fs', he, (failed_create_unchanged_iff hready (by decide)
      (by decide) hparent ?_ he).mpr (.inr (.inr (.inl rfl)))⟩
    rintro _ ⟨⟩
    exact ⟨by decide, rfl, by decide⟩

/-- A file of one sector of a name that is there is refused too, and sector
5 is lost. -/
theorem failed_create_leaks :
    ∃ fs', (filesysCreate blankStack none [97] 512 false).exec (Fs.act 0)
      volume = some (false, fs') ∧ volume.freeMap.test 5 = false ∧
      fs'.freeMap.test 5 = true := by
  have hrun : ((filesysCreate blankStack none [97] 512 false).exec
      (Fs.act 0) volume).any (fun r => !r.1 && r.2.freeMap.test 5) = true := by decide +kernel
  obtain ⟨⟨ok, fs'⟩, he, hok⟩ := Option.any_eq_true _ _ |>.mp hrun
  cases ok with
  | true => cases hok
  | false => exact ⟨fs', he, by decide, hok⟩

end Pintos.Create
