/-
`dir_add` over the block device: what it keeps, and what it leaves when it
fails.

# Sectors and references

The functions that allocate sectors change the device and the free map
only, and give nothing back (`Allots`). `dir_add` also locks its inode and
loads it again; it takes and drops no reference (`Steady`). Both are
preorders, so they are looked up command by command.

# Failure

`dir_add` refuses a name before it writes. Past its checks it writes one
entry; memory being available, such a write is a whole one: the length
that it needs is in the inode in memory when the data are written, whether
there were sectors for them or not. So when `dir_add` fails it has done
nothing.
-/
import Pintos.Filesys.Create

namespace Pintos.Create

open Resume Prog
open Inode
open Slots (Raw fillEntry)
open Directory (entrySize nameMax)

-- ==== allocation

section Allocation

variable (t : Tid)

theorem allotting_sectorAllocate (junk : Nat → Block) (add : Nat) (ino : Block) :
    Allotting t (sectorAllocate junk add ino) :=
  (allotting_congruence t fun _ _ => allotting_pure t ()).sectorAllocate junk add ino

/-- `inode_create` takes sectors and gives none back. -/
theorem allotting_inodeCreate (junk : Nat → Block) (sector : Nat) (len : Int) (dir : Bool) :
    Allotting t (inodeCreate junk sector len dir) := by
  refine (allotting_assert t _).bind fun _ => ?_
  refine (allotting_sectorAllocate t junk _ _).bind fun g => ?_
  exact .ite ((allotting_blockWrite t sector _).bind fun _ =>
    allotting_pure t true) (allotting_pure t false)

end Allocation

-- ==== dir_add

variable {t : Tid} {fs fs' : Fs} {r add sector current x : Nat} {junk : Nat → Block}
  {ino ino' ino₀ b : Block} {g : Grown} {v : Unit} {e : Raw} {name : List UInt8} {buf : Nat → UInt8}
  {len : Int}

theorem allocateDirect_rest {g : Grown × Nat × Nat} (h : Kept ino₀ ino)
    (he : (allocateDirect unchecked add current ino).exec (Fs.act t) fs = some (g, fs')) :
    Kept ino₀ g.1.ino := by
  induction add generalizing current ino fs with
  | zero =>
    cases he
    exact h
  | succ add ih =>
    unfold allocateDirect at he
    by_cases hc : current < directNum
    · rw [if_pos hc] at he
      obtain ⟨-, fs₀, -, he⟩ := exec_bind_some he
      obtain ⟨sector, fs₁, -, he⟩ := exec_bind_some he
      cases sector with
      | none =>
        cases he
        exact h
      | some s =>
        obtain ⟨u, fs₂, -, he⟩ := exec_bind_some he
        exact ih (h.setWord (lt_of_lt_of_le hc (by decide))) he
    · rw [if_neg hc] at he
      cases he
      exact h

theorem allocateDouble_rest (h : Kept ino₀ ino)
    (he : (allocateDouble unchecked junk current add ino).exec (Fs.act t) fs =
      some (g, fs')) : Kept ino₀ g.ino := by
  unfold allocateDouble at he
  split at he
  · obtain ⟨s, fs₁, -, he⟩ := exec_bind_some he
    cases he
    exact h.setWord (by omega)
  · cases he
    exact h

theorem allocateIndirect_rest (h : Kept ino₀ ino)
    (he : (allocateIndirect unchecked junk current add ino).exec (Fs.act t) fs =
      some (g, fs')) : Kept ino₀ g.ino := by
  unfold allocateIndirect at he
  split at he
  · obtain ⟨s, fs₁, -, he⟩ := exec_bind_some he
    split at he
    · cases he
      exact h.setWord (by omega)
    · exact allocateDouble_rest (h.setWord (by omega)) he
  · exact allocateDouble_rest h he

/-- `sector_allocate` changes pointers only. -/
theorem sectorAllocate_rest
    (he : (sectorAllocate junk add ino).exec (Fs.act t) fs = some (g, fs')) :
    Kept ino g.ino := by
  have hrefl := Kept.refl ino
  unfold sectorAllocate sectorAllocateWith at he
  dsimp only at he
  split at he
  · cases he
    exact hrefl
  · split at he
    · cases he
      exact hrefl
    · obtain ⟨d, fs₁, hdirect, he⟩ := exec_bind_some he
      have hd := allocateDirect_rest hrefl hdirect
      split at he
      · exact allocateIndirect_rest hd he
      · cases he
        exact hd

theorem allotting_writeChunk (t : Tid) (sector ofs chunk : Nat) (buf : Nat → UInt8) (done : Nat) :
    Allotting t (writeChunk sector ofs chunk buf done) := by
  refine .ite (allotting_blockWrite t _ _) ?_
  refine .ite ?_ (allotting_blockWrite t _ _)
  exact (allotting_blockRead t sector).bind fun b => allotting_blockWrite t sector _

/-- The data loop over bytes within the length goes to its end. -/
theorem writeLoop_full (fuel size offset done : Nat) {n : Nat} (hfuel : size ≤ fuel)
    (hlen : ((offset + size : Nat) : Int) ≤ length (fs.inode r).data)
    (he : (writeLoop true r buf fuel size offset done).exec (Fs.act t) fs = some (n, fs')) :
    n = done + size := by
  induction fuel generalizing size offset done fs with
  | zero =>
    cases he
    omega
  | succ fuel ih =>
    unfold writeLoop at he
    by_cases hsize : size = 0
    · rw [if_pos hsize] at he
      cases he
      omega
    rw [if_neg hsize] at he
    obtain ⟨sector, fs₁, hsector, he⟩ := exec_bind_some he
    cases Only.exec_same Looks.same (byteToSector_looks r offset) hsector
    obtain ⟨i, fs₂, hget, he⟩ := exec_bind_some he
    cases hget
    dsimp only at he
    have hchunk : chunkSize size (length (fs.inode r).data - offset) (offset % sectorSize) ≠ 0 ∧
        chunkSize size (length (fs.inode r).data - offset) (offset % sectorSize) ≤ size := by
      unfold chunkSize sectorSize
      omega
    generalize chunkSize size (length (fs.inode r).data - offset)
      (offset % sectorSize) = chunk at he hchunk
    rw [if_neg hchunk.1, if_neg (by simp)] at he
    obtain ⟨u, fs₃, hwrite, he⟩ := exec_bind_some he
    have hsame := (allotting_writeChunk t _ _ _ _ _ _ _ _ hwrite).inode
    have hsum : offset + chunk + (size - chunk) = offset + size := by omega
    have hn := ih (size - chunk) (offset + chunk) (done + chunk)
      (by omega) (by rw [hsame, hsum]; exact hlen) he
    omega

/-- The parent is a file of the volume: its inode is on a sector in use,
in memory as on disk, and no longer than a file can be. -/
structure Proper (fs : Fs) (r : Nat) : Prop where
  used : fs.freeMap.test (fs.inode r).sector = true
  loaded : (fs.inode r).data = fs.disk (fs.inode r).sector
  short : eof (fs.inode r).data ≤ 8459264

theorem growInode_ends {i : MemInode}
    (he : (growInode junk i len ino).exec (Fs.act t) fs = some (ino', fs')) :
    Kept ino ino' ∧ fs'.inode = fs.inode := by
  unfold growInode at he
  split at he
  · obtain ⟨g, fs₁, halloc, he⟩ := exec_bind_some he
    cases he
    exact ⟨sectorAllocate_rest halloc, (allotting_sectorAllocate t junk _ _ _ _ _ halloc).inode⟩
  · cases he
    exact ⟨fun _ _ => rfl, rfl⟩

/-- After the new length is published, the inode in memory has it. -/
theorem publishLength_ends (hlen : IsOff len) (hino : length ino = length (fs.inode r).data)
    (he : (publishLength r (fs.inode r).sector len ino).exec (Fs.act t) fs =
      some (ino', fs')) : len ≤ length (fs'.inode r).data := by
  unfold publishLength at he
  split at he
  next =>
    obtain ⟨u, fs₁, hwrite, he⟩ := exec_bind_some he
    cases act_blockWrite (act_of_run hwrite)
    obtain ⟨u, fs₂, hload, he⟩ := exec_bind_some he
    cases he
    rw [exec_loadInode] at hload
    obtain ⟨-, ⟨⟩⟩ := Option.ite_none_right_eq_some.mp hload
    simp only [Fs.setInode, Fs.setDisk, ↓reduceIte]
    rw [length_setLength hlen]
  next hle =>
    cases he
    omega

/-- A write to a file that is in memory as on disk is a whole one, unless
it is denied. -/
theorem inodeWriteAt_ends (h : (fs.inode r).data = fs.disk (fs.inode r).sector)
    {size offset n : Nat} (hoff : offset + size < 2147483648)
    (he : (inodeWriteAt junk r buf size offset).exec (Fs.act t) fs =
      some (n, fs')) : n = size ∨ n = 0 ∧ fs' = fs := by
  obtain ⟨i, fs₁, hget, he⟩ := exec_bind_some he
  cases hget
  split at he
  next =>
    cases he
    exact .inr ⟨rfl, rfl⟩
  next =>
    obtain ⟨u, fs₂, hacquire, he⟩ := exec_bind_some he
    obtain ⟨l, rfl⟩ := acquireFile_relocks hacquire
    obtain ⟨i, fs₃, hget, he⟩ := exec_bind_some he
    cases hget
    obtain ⟨ino, fs₄, hread, he⟩ := exec_bind_some he
    obtain ⟨rfl, rfl⟩ := act_blockRead (act_of_run hread)
    obtain ⟨ino', fs₅, hgrow, he⟩ := exec_bind_some he
    obtain ⟨hrest, hsame⟩ := growInode_ends hgrow
    obtain ⟨ino'', fs₆, hpublish, he⟩ := exec_bind_some he
    obtain ⟨u, fs₇, hrelease, he⟩ := exec_bind_some he
    obtain ⟨written, fs₈, hwrite, he⟩ := exec_bind_some he
    obtain ⟨u, fs₉, -, he⟩ := exec_bind_some he
    cases he
    have hlen := newLength_eq hoff
    have hisOff : IsOff (newLength offset size) := ⟨by omega, by omega⟩
    have hino : Inode.length ino' = Inode.length (fs₅.inode r).data := by
      rw [hrest.length, hsame, relocked_inode, h]
      rfl
    rw [← hsame] at hpublish
    have hpub := publishLength_ends hisOff hino hpublish
    obtain ⟨l', rfl⟩ := releaseFile_relocks hrelease
    rw [hlen, ← relocked_data (l := l')] at hpub
    have hn := writeLoop_full size size offset 0 le_rfl hpub hwrite
    omega

/-- The search for a free slot only reads. -/
theorem freeLoop_looks (r fuel ofs : Nat) (e : Raw) : (freeLoop r fuel ofs e).Only Looks := by
  induction fuel generalizing ofs e with
  | zero => trivial
  | succ fuel ih =>
    refine (inodeReadAt_looks r entrySize ofs).bind fun bytes => ?_
    exact .ite (Only.ite trivial (ih _ _)) trivial

/-- It ends near the end of the file. -/
theorem freeLoop_ends {fuel ofs : Nat} {found : Nat × Raw}
    (he : (freeLoop r fuel ofs e).exec (Fs.act t) fs = some (found, fs')) :
    found.1 ≤ ofs + 20 * fuel := by
  induction fuel generalizing ofs e fs with
  | zero =>
    cases he
    exact le_rfl
  | succ fuel ih =>
    obtain ⟨bytes, fs₁, hread, he⟩ := exec_bind_some he
    split at he
    · split at he
      · cases he
        exact Nat.le_add_right _ _
      · have hle := ih he
        have hnext : ofs + entrySize = ofs + 20 := rfl
        omega
    · cases he
      exact Nat.le_add_right _ _

/-- Past its checks `dir_add` fails only if writes are denied. -/
theorem writeSlot_fails (hloaded : (fs.inode r).data = fs.disk (fs.inode r).sector)
    (hshort : eof (fs.inode r).data ≤ 8459264)
    (he : (writeSlot junk e r name sector).exec (Fs.act t) fs = some (false, fs')) : fs' = fs := by
  obtain ⟨i, fs₁, hget, hrest⟩ := exec_bind_some he
  cases hget
  obtain ⟨⟨ofs, e'⟩, fs₂, hfree, hput⟩ := exec_bind_some hrest
  have hofs := freeLoop_ends hfree
  cases Only.exec_same Looks.same (freeLoop_looks r _ _ _) hfree
  obtain ⟨n, fs₃, hwrite, hret⟩ := exec_bind_some hput
  have hslots : slots (fs.inode r) ≤ 8459265 := by
    unfold slots
    omega
  have hoff : ofs + entrySize < 2147483648 := by
    unfold entrySize
    omega
  obtain ⟨hshort, rfl⟩ := Prod.mk.inj (Option.some.inj hret)
  exact ((inodeWriteAt_ends hloaded hoff hwrite).resolve_left (of_decide_eq_false hshort)).2

/-- A `dir_add` that fails has done nothing under the lock. -/
theorem addEntry_fails (hloaded : (fs.inode r).data = fs.disk (fs.inode r).sector)
    (hshort : eof (fs.inode r).data ≤ 8459264)
    (he : (addEntry junk e r name sector).exec (Fs.act t) fs = some (false, fs')) : fs' = fs := by
  unfold addEntry at he
  split at he
  · cases he
    rfl
  · obtain ⟨found, fs₁, hlook, he⟩ := exec_bind_some he
    cases Only.exec_same Looks.same (lookup_looks _ _) hlook
    split at he
    · cases he
      rfl
    · exact writeSlot_fails hloaded hshort he

theorem setInode_twice (fs : Fs) (r : Nat) (i : MemInode) :
    (fs.setInode r i).setInode r (fs.inode r) = fs := by
  have hinode : (fun x => if x = r then fs.inode r else
      if x = r then i else fs.inode x) = fs.inode := by
    funext x
    by_cases h : x = r <;> simp [h]
  unfold Fs.setInode
  rw [hinode]

/-- `dir_add` that returns false has changed nothing. -/
theorem dirAdd_fails (h : Proper fs r)
    (he : (dirAdd junk e r name sector).exec (Fs.act t) fs = some (false, fs')) : fs' = fs := by
  obtain ⟨u, fs₁, hacquire, he⟩ := exec_bind_some he
  obtain ⟨hlock, rfl⟩ := act_acquire (act_of_run hacquire)
  obtain ⟨success, fs₂, hadd, he⟩ := exec_bind_some he
  obtain ⟨u, fs₃, hrelease, he⟩ := exec_bind_some he
  cases he
  have hsame := addEntry_fails (by simp [Fs.setInode, h.loaded])
    (by simp [Fs.setInode, h.short]) hadd
  subst hsame
  have hback : { (fs.setInode r { fs.inode r with lock := some t }).inode r
      with lock := none } = fs.inode r := by
    simp only [Fs.setInode, ↓reduceIte]
    rw [← hlock]
  rw [(act_release (act_of_run hrelease)).2, hback]
  exact setInode_twice fs r _

-- ==== a call that fails

/-- No sector is given back and no reference is taken or dropped. -/
structure Steady (fs fs' : Fs) : Prop where
  keeps : ∀ x, fs.freeMap.test x = true → fs'.freeMap.test x = true
  openInodes : fs'.openInodes = fs.openInodes
  count : fs'.count = fs.count
  refs : ∀ x, (fs'.inode x).openCnt = (fs.inode x).openCnt ∧
    (fs'.inode x).removed = (fs.inode x).removed

section Steady

variable {t : Tid} {fs fs' fs'' : Fs} {r : Nat}

/-- `Steady` is reflexive. -/
theorem Steady.refl (fs : Fs) : Steady fs fs := ⟨fun _ h => h, rfl, rfl, fun _ => ⟨rfl, rfl⟩⟩

/-- `Steady` is transitive. -/
theorem Steady.trans (h : Steady fs fs') (h' : Steady fs' fs'') : Steady fs fs'' :=
  ⟨fun x hx => h'.keeps x (h.keeps x hx), h'.openInodes.trans h.openInodes,
    h'.count.trans h.count, fun x => ⟨(h'.refs x).1.trans (h.refs x).1,
      (h'.refs x).2.trans (h.refs x).2⟩⟩

/-- Taking sectors is steady. -/
theorem Steady.of_allots (h : Allots fs fs') : Steady fs fs' :=
  ⟨h.keeps, h.openInodes, h.count, fun _ => h.inode ▸ ⟨rfl, rfl⟩⟩

/-- An inode keeps its counts. -/
theorem steady_setInode {i : MemInode} (hcnt : i.openCnt = (fs.inode r).openCnt)
    (hrem : i.removed = (fs.inode r).removed) : Steady fs (fs.setInode r i) := by
  refine ⟨fun _ hx => hx, rfl, rfl, fun x => ?_⟩
  unfold Fs.setInode
  dsimp only
  split
  next h =>
    rw [h]
    exact ⟨hcnt, hrem⟩
  next => exact ⟨rfl, rfl⟩

/-- The list of open inodes stays in order. -/
theorem Steady.listed (h : Steady fs fs') (hl : Listed fs) : Listed fs' := by
  refine ⟨?_, ?_, fun x i hi => ?_⟩
  · exact h.openInodes ▸ hl.nodup
  · rw [h.openInodes, h.count]
    exact hl.born
  · obtain ⟨hmem, rfl⟩ := mem_of_view hi
    rw [h.openInodes] at hmem
    rw [(h.refs x).1]
    exact hl.counted x _ (view_of_mem hmem)

/-- A program that keeps sectors and references. -/
abbrev Keeping (t : Tid) {α : Type} (p : P α) : Prop := p.Within (Fs.act t) Steady

theorem Keeping.bind {α β : Type} {p : P α} {f : α → P β}
    (hp : Keeping t p) (hf : ∀ a, Keeping t (f a)) : Keeping t (p >>= f) :=
  Within.bind Steady.trans hp hf

theorem Keeping.of_allotting {α : Type} {p : P α} (h : Allotting t p) : Keeping t p :=
  Within.mono h fun _ _ => Steady.of_allots

variable (t)

theorem keeping_pure {α : Type} (a : α) : Keeping t (pure a : P α) := .pure Steady.refl a

theorem keeping_looks {α : Type} {p : P α} (h : p.Only Looks) : Keeping t p :=
  Only.within Looks.same h Steady.refl

theorem keeping_getInode (r : Nat) : Keeping t (getInode r) :=
  keeping_looks t ⟨trivial, fun _ => trivial⟩

theorem keeping_acquire (r : Nat) : Keeping t (acquire r) :=
  Within.call (C := Cmd) fun fs _ fs' h => by
    rw [(act_acquire h).2]
    exact steady_setInode rfl rfl

theorem keeping_release (r : Nat) : Keeping t (release r) :=
  Within.call (C := Cmd) fun fs _ fs' h => by
    rw [(act_release h).2]
    exact steady_setInode rfl rfl

theorem keeping_loadInode (r : Nat) : Keeping t (loadInode r) :=
  Within.call (C := Cmd) fun fs _ fs' h => by
    rw [act_load h]
    exact steady_setInode rfl rfl

theorem keeping_blockWrite (x : Nat) (b : Block) : Keeping t (blockWrite x b) :=
  .of_allotting (allotting_blockWrite t x b)

theorem keeping_writeLoop (r : Nat) (buf : Nat → UInt8) (fuel size offset done : Nat) :
    Keeping t (writeLoop true r buf fuel size offset done) := by
  induction fuel generalizing size offset done with
  | zero => exact keeping_pure t done
  | succ fuel ih =>
    refine .ite (keeping_pure t done) ?_
    refine (keeping_looks t (byteToSector_looks r offset)).bind fun _ => ?_
    refine (keeping_getInode t r).bind fun i => ?_
    -- kept symbolic, lest the comparison be computed
    generalize length i.data = l
    refine .ite (keeping_pure t done) (.ite (keeping_pure t done) ?_)
    exact (Keeping.of_allotting (allotting_writeChunk t _ _ _ _ _)).bind fun _ => ih _ _ _

theorem keeping_inodeWriteAt (junk : Nat → Block) (r : Nat)
    (buf : Nat → UInt8) (size offset : Nat) :
    Keeping t (inodeWriteAt junk r buf size offset) := by
  refine (keeping_getInode t r).bind fun i => ?_
  refine .ite (keeping_pure t 0) ?_
  generalize newLength offset size = len
  have hlock (p : P Unit) (hp : Keeping t p) : Keeping t (do
      let i ← getInode r
      if isdir i.data then pure () else p) :=
    (keeping_getInode t r).bind fun i => Within.ite (keeping_pure t ()) hp
  refine (hlock _ (keeping_acquire t r)).bind fun _ => ?_
  refine (keeping_getInode t r).bind fun i => ?_
  refine (Keeping.of_allotting (allotting_blockRead t i.sector)).bind fun ino => ?_
  have hgrow : Keeping t (growInode junk i len ino) :=
    Within.ite ((Keeping.of_allotting (allotting_sectorAllocate t junk _ _)).bind fun g =>
      keeping_pure t g.ino) (keeping_pure t ino)
  refine hgrow.bind fun ino => ?_
  have hpublish : Keeping t (publishLength r i.sector len ino) :=
    Within.ite ((keeping_blockWrite t _ _).bind fun _ =>
      (keeping_loadInode t r).bind fun _ => keeping_pure t _)
      (keeping_pure t ino)
  refine hpublish.bind fun ino => ?_
  refine (hlock _ (keeping_release t r)).bind fun _ => ?_
  refine (keeping_writeLoop t r buf size size offset 0).bind fun n => ?_
  have heof : Keeping t (publishEof r i.sector len ino) :=
    Within.ite ((keeping_blockWrite t _ _).bind fun _ => keeping_loadInode t r) (keeping_pure t ())
  exact heof.bind fun _ => keeping_pure t n

/-- `dir_add` keeps sectors and references. -/
theorem keeping_dirAdd (junk : Nat → Block) (e : Raw) (r : Nat) (name : List UInt8) (sector : Nat) :
    Keeping t (dirAdd junk e r name sector) := by
  refine (keeping_acquire t r).bind fun _ => ?_
  have hadd : Keeping t (addEntry junk e r name sector) := by
    refine .ite (keeping_pure t false) ?_
    refine (keeping_looks t (lookup_looks r name)).bind fun found => ?_
    refine .ite (keeping_pure t false) ?_
    refine (keeping_getInode t r).bind fun i => ?_
    refine (keeping_looks t (freeLoop_looks r _ _ _)).bind fun f => ?_
    exact (keeping_inodeWriteAt t junk r _ _ _).bind fun n => keeping_pure t _
  exact hadd.bind fun b => (keeping_release t r).bind fun _ => keeping_pure t b

end Steady

end Pintos.Create
