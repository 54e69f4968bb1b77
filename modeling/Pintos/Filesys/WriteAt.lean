/-
`inode_write_at` by the only writer of a file, step by step.

The file on the disk, the copy of its inode in memory and the bytes that
a reader may see are followed through the whole call. `Publishes` is what
every single step does: in memory the file only grows, and the bytes
before the end of file stay acceptable. What is acceptable, byte by byte,
is a parameter (`V`); the bytes that the call writes are, and so is
anything at positions that no write has been asked to fill.

# The call

The thread reads the inode into a private copy and grows that
(`Stretched`: an inode with more blocks than the one on disk), writes it
back with the new length and loads it (`publish`), writes the data, and
does the same with the new end of file. In between, the inode in memory
is the one on disk (`Steady`).

`Fits` is when the growth goes well: there are sectors for it, and the
levels of the index are right for it.
-/
import Pintos.Filesys.FileData
import Pintos.Filesys.SectorAllocate

namespace Pintos.Inode

open Resume Env

-- ==== the file

/-- The sectors of all live files, the one at `I` as `ino` has them. -/
structure Stretched (live : List Nat) (owner : Owner) (I : Nat)
    (ino : Block) (n : Nat) (fs : Fs) : Prop where
  holds : Holds live owner fs
  own : Shaped 32 fs.disk owner I ino n
  others : ∀ J ∈ live, J ≠ I → Shaped 32 fs.disk owner J (fs.disk J) (blocks (fs.disk J))

/-- The inode of `I` is open at `r`, with the lock as `l` says. -/
structure Steady (I r : Nat) (l : Option Tid) (fs : Fs) : Prop where
  sector : (fs.inode r).sector = I
  data : fs.disk I = (fs.inode r).data
  regular : isdir (fs.inode r).data = false
  allowed : (fs.inode r).denyWriteCnt = 0
  lock : (fs.inode r).lock = l
  start : 0 ≤ eof (fs.inode r).data
  order : eof (fs.inode r).data ≤ length (fs.inode r).data

/-- The file is open, and laid out as its inode says. -/
structure Opened (live : List Nat) (I r : Nat) (l : Option Tid) (fs : Fs) :
    Prop extends Steady I r l fs where
  laid : ∃ owner, Stretched live owner I (fs.disk I) (blocks (fs.disk I)) fs

/-- What a reader may see is acceptable. -/
structure Pub (V : Nat → UInt8 → Prop) (r : Nat) (fs : Fs) : Prop where
  cap : blocks (fs.inode r).data ≤ 16522
  order : eof (fs.inode r).data ≤ length (fs.inode r).data
  bytes : ∀ p : Nat, (p : Int) < eof (fs.inode r).data → V p (fileByte fs.disk (fs.inode r).data p)

/-- What a step of the writer does. -/
structure Publishes (V : Nat → UInt8 → Prop) (r : Nat) (fs fs' : Fs) : Prop where
  onward : Onward r fs fs'
  eof : eof (fs.inode r).data ≤ eof (fs'.inode r).data
  pub : Pub V r fs → Pub V r fs'

/-- The growth that a write asks for goes well, with `e` entries of the
double indirect block to be had. -/
def Fits (e r size offset : Nat) (fs : Fs) : Prop :=
  offset + size < 2147483648 ∧
    (bytesToSectors (offset + size : Nat) ≤ blocks (fs.inode r).data ∨
      Levels e (blocks (fs.inode r).data) (bytesToSectors (offset + size : Nat)) ∧
      cost (bytesToSectors (offset + size : Nat)) ≤
        cost (blocks (fs.inode r).data) + fs.freeMap.freeCount)

instance (e r size offset : Nat) (fs : Fs) : Decidable (Fits e r size offset fs) :=
  inferInstanceAs (Decidable (_ ∧ _))

-- ==== the steps

variable {V : Nat → UInt8 → Prop} {I r J n x chunk done first size offset : Nat} {fs fs' fs₀ : Fs}
  {owner owner' : Owner} {live : List Nat} {ino D M : Block} {d d' junk : Nat → Block}
  {l l' : Option Tid} {t : Tid} {len : Int} {i : MemInode} {buf : Nat → UInt8} {v : Unit}
  {p : P Unit}

theorem Onward.refl (r : Nat) (fs : Fs) : Onward r fs fs :=
  ⟨le_refl _, le_rfl, Agrees.refl _ _, Follows.refl _ _ _⟩

theorem Publishes.refl (V : Nat → UInt8 → Prop) (r : Nat) (fs : Fs) : Publishes V r fs fs :=
  ⟨Onward.refl r fs, le_refl _, fun h => h⟩

section

variable (hdata : (fs'.inode r).data = (fs.inode r).data)

include hdata

/-- The inode in memory stays, and so do the blocks it leads to. -/
theorem Publishes.of_disk
    (hf : Follows fs.disk fs'.disk (fs.inode r).data (blocks (fs.inode r).data))
    (hb : ∀ p : Nat, p / 512 < blocks (fs.inode r).data →
      V p (fileByte fs.disk (fs.inode r).data p) →
      V p (fileByte fs'.disk (fs.inode r).data p)) : Publishes V r fs fs' where
  onward := by
    constructor
    · rw [hdata]
    · rw [hdata]
    · rw [hdata]
      exact Agrees.refl _ _
    · exact hf
  eof := by rw [hdata]
  pub := by
    intro h
    constructor
    · rw [hdata]
      exact h.cap
    · rw [hdata]
      exact h.order
    · intro p hp
      rw [hdata] at hp ⊢
      exact hb p (block_lt h.cap (lt_of_lt_of_le hp h.order)) (h.bytes p hp)

/-- Nothing that the file consists of has changed. -/
theorem Publishes.same (hdisk : fs'.disk = fs.disk) : Publishes V r fs fs' := by
  refine Publishes.of_disk hdata ?_ fun p _ hp => ?_
  · rw [hdisk]
    exact Follows.refl _ _ _
  · rw [hdisk]
    exact hp

/-- The index blocks and the data of the file have stayed. -/
theorem Publishes.keep (hm : Mapped fs.disk owner I (fs.inode r).data (blocks (fs.inode r).data))
    (hf : Follows fs.disk fs'.disk (fs.inode r).data (blocks (fs.inode r).data))
    (hd : ∀ x i, owner x = some (I, .data i) → fs'.disk x = fs.disk x) : Publishes V r fs fs' := by
  refine Publishes.of_disk hdata hf fun p hk hp => ?_
  unfold fileByte
  rw [hf.blockOf_eq hk, hd _ _ (hm.data _ hk)]
  exact hp

end

/-- A longer inode is loaded, with acceptable bytes up to its end. -/
theorem Publishes.load {D : Block} (hdisk : fs'.disk = fs.disk) (hdata : (fs'.inode r).data = D)
    (hagrees : Agrees (fs.inode r).data D (blocks (fs.inode r).data))
    (hmore : blocks (fs.inode r).data ≤ blocks D) (hcap : blocks D ≤ 16522)
    (hlong : length (fs.inode r).data ≤ length D) (heof : Inode.eof (fs.inode r).data ≤ Inode.eof D)
    (horder : Inode.eof D ≤ length D) (hbytes : ∀ p : Nat, Inode.eof (fs.inode r).data ≤ p →
      (p : Int) < Inode.eof D → V p (fileByte fs.disk D p)) : Publishes V r fs fs' := by
  subst hdata
  refine ⟨⟨hlong, hmore, hagrees, ?_⟩, heof, fun h => ⟨hcap, horder, fun p hp => ?_⟩⟩
  · rw [hdisk]
    exact Follows.refl _ _ _
  · rw [hdisk]
    by_cases hold : (p : Int) < Inode.eof (fs.inode r).data
    · have hk := block_lt h.cap (lt_of_lt_of_le hold h.order)
      unfold fileByte
      rw [hagrees.blockOf_eq hk]
      exact h.bytes p hold
    · exact hbytes p (not_lt.mp hold) hp

-- ==== the layout

/-- The double indirect block is the only one that the tail reads. -/
theorem Tail.disk {e : Nat} (h : Tail e d ino n)
    (hd : 138 < n → d' (word ino 11) = d (word ino 11)) : Tail e d' ino n where
  direct := h.direct
  indirect := h.indirect
  double := h.double
  inner := by
    intro hn
    rw [hd hn]
    exact h.inner hn

/-- Only the index blocks matter. -/
theorem Shaped.of_index {e : Nat} (h : Shaped e d owner J ino n) (hidx : SameIndex owner d d') :
    Shaped e d' owner J ino n :=
  ⟨h.mapped.of_index hidx, h.tail.disk fun hn => hidx _ _ _ (h.mapped.double hn) rfl, h.bounded⟩

theorem Shaped.congr {e : Nat} {ino' : Block} (h : Shaped e d owner J ino n)
    (hw : ∀ i, i < 12 → word ino' i = word ino i) : Shaped e d owner J ino' n :=
  ⟨h.mapped.congr hw, h.tail.congr hw, h.bounded⟩

/-- Growing one file does not touch the shape of another. -/
theorem Shaped.grew (h : Shaped 32 d owner J ino n) (hg : Grew I owner d owner' d') (hJ : J ≠ I) :
    Shaped 32 d' owner' J ino n where
  mapped := hg.mapped h.mapped
  tail := h.tail.disk fun hn => hg.other hJ (h.mapped.double hn)
  bounded :=
    ⟨fun x i hx => h.bounded.data x i (hg.only x J _ hJ hx), fun x slot hx hslot =>
        h.bounded.index x slot (hg.only x J slot hJ hx) hslot⟩

/-- A sector with another slot is not that of the inode. -/
theorem Holds.ne_header (h : Holds live owner fs) (hI : I ∈ live) {x : Nat} {slot : Slot}
    (hx : owner x = some (J, slot)) (hslot : slot ≠ .header) : x ≠ I := by
  rintro rfl
  rw [h.header x hI] at hx
  cases hx
  exact hslot rfl

theorem Holds.setHeader (h : Holds live owner fs) (hI : I ∈ live) :
    SameIndex owner fs.disk (fs.setDisk I D).disk := by
  intro x J slot hx hslot
  refine setDisk_ne fs D (h.ne_header hI hx ?_)
  rintro rfl
  cases hslot

theorem Holds.setDisk (h : Holds live owner fs) (hI : I ∈ live)
    (hD : Mapped (fs.setDisk I D).disk owner I D (blocks D)) :
    Holds live owner (fs.setDisk I D) := by
  refine ⟨h.size, h.bits, h.used, h.inj, h.header, fun J hJ => ?_⟩
  by_cases hJI : J = I
  · rw [hJI, setDisk_self]
    exact hD
  · rw [setDisk_ne fs D hJI]
    exact (h.mapped J hJ).of_index (h.setHeader hI)

section

variable (h : Stretched live owner I ino n fs)

include h

/-- The inode is written: the private copy is the file now. -/
theorem Stretched.setHeader (hI : I ∈ live) (hw : ∀ i, i < 12 → word D i = word ino i)
    (hb : blocks D = n) : Stretched live owner I D n (fs.setDisk I D) := by
  have hidx := h.holds.setHeader (D := D) hI
  have hown := (h.own.congr hw).of_index hidx
  refine ⟨h.holds.setDisk hI (hb ▸ hown.mapped), hown, fun J hJ hJI => ?_⟩
  rw [setDisk_ne fs D hJI]
  exact (h.others J hJ hJI).of_index hidx

/-- Data is written. -/
theorem Stretched.wrote (hw : Wrote owner I fs fs') : Stretched live owner I ino n fs' := by
  refine ⟨h.holds.wrote hw, h.own.of_index hw.index, fun J hJ hJI => ?_⟩
  rw [hw.disk_eq (h.holds.header J hJ) fun i => by simp]
  exact (h.others J hJ hJI).of_index hw.index

/-- The inodes in memory do not matter. -/
theorem Stretched.congr (hsize : fs'.size = fs.size) (hdisk : fs'.disk = fs.disk)
    (hmap : fs'.freeMap = fs.freeMap) : Stretched live owner I ino n fs' := by
  refine ⟨h.holds.keeps hsize (by rw [hmap]) ?_ ?_, ?_, ?_⟩
  · rw [hmap]
    exact fun _ hx => hx
  · rw [hdisk]
    exact .refl owner fs.disk
  · rw [hdisk]
    exact h.own
  · rw [hdisk]
    exact h.others

end

/-- The file is on the disk. -/
theorem Opened.onDisk {r : Nat} {l : Option Tid} (h : Opened live I r l fs)
    (hs : Stretched live owner I (fs.disk I) (blocks (fs.disk I)) fs) : OnDisk owner I r fs :=
  hs.holds.onDisk (h.data ▸ hs.own.mapped)

-- ==== publishing

/-- The inode has been written to its sector and loaded. -/
def republished (r I : Nat) (D : Block) (fs : Fs) : Fs :=
  (fs.setDisk I D).setInode r { fs.inode r with data := D }

theorem republished_inode : (republished r I D fs).inode r = { fs.inode r with data := D } :=
  setInode_self _ r _

/-- That is what the two commands do. -/
theorem republished_eq (h : (fs.inode r).sector = I) :
    republished r I D fs =
      (fs.setDisk I D).setInode r { (fs.setDisk I D).inode r with
        data := (fs.setDisk I D).disk ((fs.setDisk I D).inode r).sector } := by
  have hsector : ((fs.setDisk I D).inode r).sector = I := h
  rw [hsector, setDisk_self]
  rfl

/-- What an inode must be to be published in place of the one there. -/
structure Newer (M D : Block) : Prop where
  longer : length M ≤ length D
  eof : eof M ≤ eof D
  order : Inode.eof D ≤ length D
  regular : isdir D = false

/-- The two steps of publishing an inode. -/
theorem Stretched.publish (h : Stretched live owner I ino n fs) (hs : Steady I r l fs)
    (hI : I ∈ live) (hw : ∀ i, i < 12 → word D i = word ino i) (hb : blocks D = n)
    (hmore : blocks (fs.inode r).data ≤ n) (hnew : Newer (fs.inode r).data D)
    (hbytes : ∀ p : Nat, eof (fs.inode r).data ≤ p →
      (p : Int) < eof D → V p (fileByte fs.disk D p)) :
    Publishes V r fs (fs.setDisk I D) ∧
      Publishes V r (fs.setDisk I D) (republished r I D fs) ∧
      Opened live I r l (republished r I D fs) := by
  have hidx := h.holds.setHeader (D := D) hI
  have hm : Mapped fs.disk owner I (fs.inode r).data (blocks (fs.inode r).data) := by
    rw [← hs.data]
    exact h.holds.mapped I hI
  have hmD : Mapped fs.disk owner I D n := h.own.mapped.congr hw
  have hdata : ∀ x i, owner x = some (I, .data i) →
      (fs.setDisk I D).disk x = fs.disk x := fun x i hx =>
    setDisk_ne fs D (h.holds.ne_header hI hx (by simp))
  have hnext := h.setHeader hI hw hb
  have hdisk : (republished r I D fs).disk = (fs.setDisk I D).disk := rfl
  refine ⟨.keep rfl hm (hm.follows_index hidx) hdata, ?_, ?_⟩
  · refine .load hdisk (by rw [republished_inode]) ?_ (by rw [hb]; exact hmore)
      (hb ▸ hmD.cap) hnew.longer hnew.eof hnew.order ?_
    · exact (hm.agrees h.own.mapped hmore h.holds.inj).trans (Agrees.of_words hw) hmore
    · intro p hp hlt
      have hk : p / 512 < n := by
        rw [← hb]
        exact block_lt (hb ▸ hmD.cap) (lt_of_lt_of_le hlt hnew.order)
      have hbyte := hbytes p hp hlt
      unfold fileByte at hbyte ⊢
      rw [(hmD.follows_index hidx).blockOf_eq hk, hdata _ _ (hmD.data _ hk)]
      exact hbyte
  · have hself : (republished r I D fs).disk I = D := setDisk_self fs I D
    refine ⟨?_, owner, ?_⟩
    · constructor
      all_goals rw [republished_inode]
      exacts [hs.sector, hself, hnew.regular, hs.allowed, hs.lock,
        le_trans hs.start hnew.eof, hnew.order]
    · rw [hself, hb]
      exact hnext.congr rfl rfl rfl

-- ==== growing

/-- What growing the file leaves alone. -/
structure Unmoved (live : List Nat) (fs₀ fs : Fs) : Prop where
  inode : fs.inode = fs₀.inode
  headers : ∀ J ∈ live, fs.disk J = fs₀.disk J

theorem Steady.grows (h : Steady I r l fs₀) (hI : I ∈ live) (n₀ : Nat) :
    Grows (solo (Fs.act t) (Publishes V r)) id t live I n₀ (Unmoved live fs₀) where
  act := fun h => h
  quiet := by
    rintro fs _ hF rfl
    exact ⟨⟨rfl, rfl, fun _ h => h, fun _ _ _ => .inl rfl⟩, hF⟩
  step := by
    intro c fs fs' v hF _ _ _ hg
    obtain ⟨owner, hholds, hext⟩ := hg.owner
    have hm : Mapped fs.disk owner I (fs.disk I) (blocks (fs.disk I)) := hholds.mapped I hI
    rw [hF.headers I hI, h.data, ← hF.inode] at hm
    have hino : fs'.inode = fs.inode := hg.inode
    refine ⟨.keep (by rw [hino]) hm (hm.follows hext.keeps)
      fun x i hx => hext.data x I i hx, hg.inode.trans hF.inode, ?_⟩
    intro J hJ
    exact (hext.keeps.header (hholds.header J hJ)).trans (hF.headers J hJ)

/-- The private copy has `n` blocks. -/
structure Outgrown (live : List Nat) (I : Nat) (fs₀ : Fs) (n : Nat)
    (ino : Block) (fs : Fs) : Prop extends Unmoved live fs₀ fs where
  kept : Kept (fs₀.disk I) ino
  stretched : ∃ owner, Stretched live owner I ino n fs

/-- `sector_allocate` on the private copy, with nobody else around. -/
theorem Stretched.sectorAllocate {guar : Fs → Fs → Prop} {F : Fs → Prop} {owner : Owner}
    (hst : Stretched live owner I (fs₀.disk I) (blocks (fs₀.disk I)) fs₀)
    (hG : Grows (solo (Fs.act t) guar) id t live I (blocks (fs₀.disk I)) F) (hF0 : F fs₀)
    (hF : ∀ fs, F fs → Unmoved live fs₀ fs) (h0 : 0 ∈ live) {junk : Nat → Block} {add : Nat}
    (hlev : Levels 32 (blocks (fs₀.disk I)) (blocks (fs₀.disk I) + add))
    (hcost : cost (blocks (fs₀.disk I) + add) ≤
      cost (blocks (fs₀.disk I)) + fs₀.freeMap.freeCount) :
    (solo (Fs.act t) guar).Triple (fun fs => fs = fs₀)
      (sectorAllocate junk add (fs₀.disk I))
      fun g fs => Outgrown live I fs₀ (blocks (fs₀.disk I) + add) g.ino fs ∧ F fs := by
  obtain ⟨f, -, htriple⟩ := hG.sectorAllocate_start junk hst.holds (hst.holds.header 0 h0) hst.own
    hlev hcost
  refine htriple.conseq ?_ ?_
  · rintro fs rfl
    exact ⟨hF0, rfl⟩
  · rintro g fs ⟨owner', d', hal, hfs, hat⟩
    refine ⟨⟨hF fs hfs, hal.kept, owner', hat.holds,
      hal.shaped.of_index hat.index, fun J hJ hJI => ?_⟩, hfs⟩
    have hJs := hst.others J hJ hJI
    rw [(hF fs hfs).headers J hJ]
    exact (hJs.grew hal.grew hJI).of_index hat.index

/-- What the writer of the file does from `fs` on. -/
abbrev Writer {α : Type} (t : Tid) (V : Nat → UInt8 → Prop) (r : Nat) (fs : Fs) (p : P α)
    (B : α → Fs → Prop) : Prop :=
  (solo (Fs.act t) (Publishes V r)).Triple (fun s => s = fs) p B

-- ==== commands

theorem solo_blockWrite {b : Block} (h : Publishes V r fs (fs.setDisk x b)) :
    Writer t V r fs (blockWrite x b) fun _ s => s = fs.setDisk x b := by
  refine .solo_call ?_
  rintro s v s' rfl hact
  rw [act_blockWrite hact]
  exact ⟨h, rfl⟩

theorem solo_load {fs' : Fs} (h : Publishes V r fs fs')
    (heq : fs' = fs.setInode r { fs.inode r with data := fs.disk (fs.inode r).sector }) :
    Writer t V r fs (loadInode r) fun _ s => s = fs' := by
  refine .solo_call ?_
  rintro s v s' rfl hact
  rw [act_load hact, ← heq]
  exact ⟨h, rfl⟩

theorem solo_getInode : Writer t V r fs (getInode r) fun v s => v = fs.inode r ∧ s = fs := by
  refine .solo_call ?_
  rintro s v s' rfl hact
  obtain ⟨hv, hs⟩ := act_inode hact
  rw [hs]
  exact ⟨Publishes.refl V r s, hv, rfl⟩

theorem solo_blockRead : Writer t V r fs (blockRead x) fun v s => v = fs.disk x ∧ s = fs := by
  refine .solo_call ?_
  rintro s v s' rfl hact
  obtain ⟨hv, hs⟩ := act_blockRead hact
  rw [hs]
  exact ⟨Publishes.refl V r s, hv, rfl⟩

-- ==== the length

/-- Only the inode and its sector matter. -/
theorem Steady.congr (h : Steady I r l fs₀) (hino : fs.inode = fs₀.inode)
    (hdisk : fs.disk I = fs₀.disk I) : Steady I r l fs := by
  constructor
  all_goals rw [hino]
  exacts [h.sector, hdisk.trans h.data, h.regular, h.allowed, h.lock, h.start, h.order]

theorem Unmoved.steady (h : Unmoved live fs₀ fs) (hs : Steady I r l fs₀)
    (hI : I ∈ live) : Steady I r l fs :=
  hs.congr h.inode (h.headers I hI)

/-- What the private copy is once it has been grown for `len` bytes. -/
structure Copy (live : List Nat) (I : Nat) (len : Int) (fs₀ : Fs)
    (ino : Block) (fs : Fs) : Prop where
  within : len ≤ length (fs₀.disk I) → ino = fs₀.disk I ∧
    Outgrown live I fs₀ (blocks (fs₀.disk I)) ino fs
  beyond : length (fs₀.disk I) < len → Outgrown live I fs₀ (bytesToSectors len) ino fs

/-- The private copy with the new length. -/
theorem setLength_spec (h : Kept M ino) (hlen : IsOff len) :
    length (setLength ino len) = len ∧
      blocks (setLength ino len) = bytesToSectors len ∧
      eof (setLength ino len) = eof M ∧
      isdir (setLength ino len) = isdir M ∧
      ∀ i, i < 12 → word (setLength ino len) i = word ino i := by
  refine ⟨length_setLength hlen, ?_, ?_, ?_, fun i hi => word_setWord_ne (by omega)⟩
  · unfold blocks
    rw [length_setLength hlen]
  · unfold Inode.eof setLength
    rw [word_setWord_ne (by decide), h.word (by decide)]
  · unfold isdir
    rw [← h 48 le_rfl]
    rfl

/-- The inode with the new end of file. -/
theorem setEof_spec (hlen : IsOff len) :
    eof (setEof M len) = len ∧ length (setEof M len) = length M ∧
      blocks (setEof M len) = blocks M ∧
      ∀ i, i < 12 → word (setEof M len) i = word M i := by
  have h : length (setEof M len) = length M := by
    unfold Inode.length setEof
    rw [word_setWord_ne (by decide)]
  refine ⟨eof_setEof hlen, h, ?_, fun i hi => word_setWord_ne (by omega)⟩
  unfold blocks
  rw [h]

/-- A file that has the sectors has the length in reach. -/
theorem blocks_le (h0 : 0 ≤ len) (hcap : blocks M ≤ 16522)
    (hle : len ≤ length M) : bytesToSectors len ≤ blocks M := by
  have hoff : IsOff (length M) := isOff_toOff _
  exact bytesToSectors_mono h0 hle (le_of_bytesToSectors (by omega) hoff.2 hcap)

theorem growInode_eq (junk : Nat → Block) (i : MemInode) (len : Int)
    (ino : Block) : growInode junk i len ino =
      if bytesToSectors len > blocks i.data then
        sectorAllocate junk (bytesToSectors len - blocks i.data) ino >>= fun g => pure g.ino
      else pure ino := rfl

/-- The private copy is grown. -/
theorem Stretched.growInode {guar : Fs → Fs → Prop} {F : Fs → Prop} {owner : Owner}
    (hst : Stretched live owner I (fs₀.disk I) (blocks (fs₀.disk I)) fs₀)
    (hG : Grows (solo (Fs.act t) guar) id t live I (blocks (fs₀.disk I)) F) (hF0 : F fs₀)
    (hF : ∀ fs, F fs → Unmoved live fs₀ fs) (h0 : 0 ∈ live) (hi : i.data = fs₀.disk I)
    (hstart : 0 ≤ length (fs₀.disk I)) (hpos : 0 ≤ len) (hmax : len < 2147483648)
    (hfits : bytesToSectors len ≤ blocks (fs₀.disk I) ∨
      Levels 32 (blocks (fs₀.disk I)) (bytesToSectors len) ∧
      cost (bytesToSectors len) ≤ cost (blocks (fs₀.disk I)) + fs₀.freeMap.freeCount) :
    (solo (Fs.act t) guar).Triple (fun fs => fs = fs₀)
      (growInode junk i len (fs₀.disk I))
      fun ino fs => Copy live I len fs₀ ino fs ∧ F fs := by
  have hcap := hst.own.mapped.cap
  rw [growInode_eq, hi]
  split
  next hgrow =>
    obtain ⟨hlev, hcost⟩ := hfits.resolve_left (by omega)
    obtain ⟨add, hadd⟩ := Nat.exists_eq_add_of_lt hgrow
    rw [add_assoc] at hadd
    have hsub : bytesToSectors len - blocks (fs₀.disk I) = add + 1 := by omega
    rw [hadd] at hlev hcost
    rw [hsub]
    refine .bind (hst.sectorAllocate hG hF0 hF h0 hlev hcost)
      fun g => .solo_ret fun fs hg => ⟨⟨fun hle => ?_, fun _ => ?_⟩, hg.2⟩
    · have hle := blocks_le hpos hcap hle
      omega
    · rw [hadd]
      exact hg.1
  next hgrow =>
    have hsame : Outgrown live I fs₀ (blocks (fs₀.disk I)) (fs₀.disk I)
        fs₀ := ⟨⟨rfl, fun _ _ => rfl⟩, .refl _, owner, hst⟩
    refine .solo_ret ?_
    rintro fs rfl
    refine ⟨⟨fun _ => ⟨rfl, hsame⟩, fun hlt => ?_⟩, hF0⟩
    -- the same number of sectors
    have hmono := bytesToSectors_mono hstart (le_of_lt hlt)
      (le_of_bytesToSectors hpos hmax (by omega))
    have heq : bytesToSectors len = blocks (fs.disk I) := le_antisymm (not_lt.mp hgrow) hmono
    rw [heq]
    exact hsame

theorem Opened.growInode (h : Opened live I r l fs₀) (h0 : 0 ∈ live) (hI : I ∈ live)
    (hi : i.data = (fs₀.inode r).data) (hpos : 0 ≤ len) (hmax : len < 2147483648)
    (hfits : bytesToSectors len ≤ blocks (fs₀.inode r).data ∨
      Levels 32 (blocks (fs₀.inode r).data) (bytesToSectors len) ∧
      cost (bytesToSectors len) ≤ cost (blocks (fs₀.inode r).data) + fs₀.freeMap.freeCount) :
    Writer t V r fs₀ (growInode junk i len (fs₀.disk I))
      fun ino fs => Copy live I len fs₀ ino fs := by
  obtain ⟨owner, hst⟩ := h.laid
  have hstart : 0 ≤ length (fs₀.disk I) := by
    rw [h.data]
    exact le_trans h.start h.order
  rw [← h.data] at hi hfits
  exact (hst.growInode (h.toSteady.grows hI _) ⟨rfl, fun _ _ => rfl⟩
    (fun _ hF => hF) h0 hi hstart hpos hmax hfits).post fun _ _ hs => hs.1

/-- The new length goes to disk and into memory. -/
theorem Opened.publishLength (h : Opened live I r l fs₀) (hI : I ∈ live) (hpos : 0 ≤ len)
    (hmax : len < 2147483648) : (solo (Fs.act t) (Publishes V r)).Triple
      (fun fs => Copy live I len fs₀ ino fs) (publishLength r I len ino)
      fun D fs => Opened live I r l fs ∧ (fs.inode r).data = D ∧
        len ≤ length D ∧ eof D = eof (fs₀.disk I) := by
  refine .each ?_
  intro fs hcopy
  unfold Inode.publishLength
  by_cases hlt : length (fs₀.disk I) < len
  · obtain ⟨hmoved, hkept, owner, hst⟩ := hcopy.beyond hlt
    have hs := hmoved.steady h.toSteady hI
    have hM : (fs.inode r).data = fs₀.disk I := by rw [hmoved.inode, h.data]
    have hlen : length ino = length (fs₀.disk I) := by
      unfold Inode.length
      rw [hkept.word (by decide)]
    obtain ⟨hD, hb, heof, hdir, hw⟩ := setLength_spec hkept ⟨by omega, hmax⟩
    have hmore : blocks (fs.inode r).data ≤ bytesToSectors len := by
      rw [hM]
      refine bytesToSectors_mono ?_ (le_of_lt hlt)
        (le_of_bytesToSectors hpos hmax hst.own.mapped.cap)
      rw [h.data]
      exact le_trans h.start h.order
    have hnew : Newer (fs.inode r).data (setLength ino len) := by
      rw [hM]
      refine ⟨by omega, by omega, ?_, ?_⟩
      · have := h.order
        rw [← h.data] at this
        omega
      · rw [hdir, h.data]
        exact h.regular
    obtain ⟨h1, h2, h3⟩ := hst.publish (V := V) hs hI hw hb hmore hnew
      (fun p hp hlt => by rw [hM] at hp; omega)
    rw [if_pos (by rw [hlen]; exact hlt)]
    refine .bind (solo_blockWrite h1) fun _ => .bind
      (solo_load h2 (republished_eq hs.sector)) fun _ => .solo_ret ?_
    rintro s rfl
    refine ⟨h3, ?_, le_of_eq hD.symm, heof⟩
    rw [republished_inode]
  · obtain ⟨rfl, hmoved, -, owner, hst⟩ := hcopy.within (not_lt.mp hlt)
    have hs := hmoved.steady h.toSteady hI
    rw [if_neg hlt]
    refine .solo_ret ?_
    rintro s rfl
    refine ⟨⟨hs, owner, ?_⟩, ?_, not_lt.mp hlt, rfl⟩
    · rw [hmoved.headers I hI]
      exact hst
    · rw [← hs.data, hmoved.headers I hI]

-- ==== the data

/-- The commands that only look. -/
def Looks : Cmd → Prop
  | .blockRead _ | .inode _ => True
  | _ => False

theorem Looks.same {c : Cmd} {v : Ret c} (hc : Looks c)
    (h : fs.act t c = some (v, fs')) : fs' = fs := by
  cases c with
  | blockRead x => exact (act_blockRead h).2
  | inode r => exact (act_inode h).2
  | _ => cases hc

theorem followPointers_looks (data : Block) (n : Nat) : (followPointers data n).Only Looks := by
  refine Prog.Only.ite trivial (Prog.Only.ite ?_ ?_)
  · exact ⟨trivial, fun _ => trivial⟩
  · exact ⟨trivial, fun _ => ⟨trivial, fun _ => trivial⟩⟩

theorem byteToSector_looks (r pos : Nat) : (byteToSector r pos).Only Looks := by
  have hget : (getInode r).Only Looks := ⟨trivial, fun _ => trivial⟩
  refine hget.bind fun i => ?_
  -- kept symbolic, lest the comparison be computed
  generalize length i.data = len
  exact Prog.Only.ite (followPointers_looks _ _) trivial

theorem readLoop_looks (r fuel size offset : Nat) : (readLoop r fuel size offset).Only Looks := by
  induction fuel generalizing size offset with
  | zero => trivial
  | succ fuel ih =>
    refine Prog.Only.ite trivial ?_
    refine (byteToSector_looks r offset).bind fun sector => ?_
    refine Prog.Only.bind ⟨trivial, fun _ => trivial⟩ fun i => ?_
    -- kept symbolic, lest the comparison be computed
    generalize eof i.data = e
    refine Prog.Only.ite trivial ?_
    refine Prog.Only.bind ⟨trivial, fun _ => trivial⟩ fun b => ?_
    exact (ih _ _).bind fun _ => trivial

theorem inodeReadAt_looks (r size offset : Nat) : (inodeReadAt r size offset).Only Looks :=
  readLoop_looks r size size offset

theorem solo_byteToSector (h : OnDisk owner I r fs) {pos : Nat}
    (hpos : (pos : Int) < length (fs.inode r).data) :
    Writer t V r fs (byteToSector r pos) fun x s =>
        x = blockOf fs.disk (fs.inode r).data (pos / 512) ∧ s = fs := by
  refine (Triple.reads (Publishes.refl V r) Looks.same (byteToSector_looks r pos) fs).post ?_
  rintro x s ⟨hs, hx⟩
  rw [h.byteToSector hpos] at hx
  cases hx
  exact ⟨rfl, hs⟩

theorem solo_writeChunk {x ofs : Nat} (hofs : ofs + chunk ≤ 512)
    (h : ∀ b, Patched (fs.disk x) ofs chunk buf done b → Publishes V r fs (fs.setDisk x b)) :
    Writer t V r fs (writeChunk x ofs chunk buf done) fun _ s =>
        ∃ b, Patched (fs.disk x) ofs chunk buf done b ∧ s = fs.setDisk x b := by
  unfold writeChunk sectorSize
  split
  next hfull =>
    have hb : Patched (fs.disk x) ofs chunk buf done (patch zeros ofs chunk buf done) := by
      intro j hj
      unfold patch
      rw [if_pos (by omega), if_pos (by omega)]
    exact (solo_blockWrite (h _ hb)).post fun _ s hs => ⟨_, hb, hs⟩
  next hfull =>
    rw [if_pos (by omega)]
    refine .bind solo_blockRead fun bounce => .assume ?_
    rintro rfl
    have hb : Patched (fs.disk x) ofs chunk buf done
        (patch (fs.disk x) ofs chunk buf done) := fun j hj => rfl
    exact (solo_blockWrite (h _ hb)).post fun _ s hs => ⟨_, hb, hs⟩

/-- Data written keeps the file. -/
theorem Opened.wrote (h : Opened live I r l fs)
    (hst : Stretched live owner I (fs.disk I) (blocks (fs.disk I)) fs)
    (hI : I ∈ live) (hw : Wrote owner I fs fs') : Opened live I r l fs' := by
  have hdisk : fs'.disk I = fs.disk I := hw.disk_eq (hst.holds.header I hI) fun i => by simp
  refine ⟨h.toSteady.congr hw.inode hdisk, owner, ?_⟩
  rw [hdisk]
  exact hst.wrote hw

/-- The bytes from `first` on, as far as `stop`, are those of `buf`. -/
def Carries (buf : Nat → UInt8) (first stop : Nat) (M : Block) (fs : Fs) : Prop :=
  ∀ p, first ≤ p → p < stop → fileByte fs.disk M p = buf (p - first)

/-- One round: the part of the write that falls into one sector. -/
theorem Opened.writeChunk (h : Opened live I r l fs) (hI : I ∈ live)
    (hpos : (offset : Int) < length (fs.inode r).data) (hchunk : offset % 512 + chunk ≤ 512)
    (hV : ∀ p, offset ≤ p → p < offset + chunk → V p (buf (done + (p - offset)))) :
    Writer t V r fs (writeChunk (blockOf fs.disk (fs.inode r).data (offset / 512))
        (offset % 512) chunk buf done) fun _ s =>
        Opened live I r l s ∧ (s.inode r).data = (fs.inode r).data ∧
          ∀ p, p / 512 < blocks (fs.inode r).data →
            fileByte s.disk (fs.inode r).data p =
              if offset ≤ p ∧ p < offset + chunk then buf (done + (p - offset))
              else fileByte fs.disk (fs.inode r).data p := by
  obtain ⟨owner, hst⟩ := h.laid
  have hdisk := h.onDisk hst
  have hk := block_lt hdisk.mapped.cap hpos
  refine (solo_writeChunk hchunk ?_).post ?_
  · intro b hb
    refine .of_disk rfl (hdisk.mapped.follows (hdisk.setDisk b hk).keeps) fun p hp hold => ?_
    rw [hdisk.fileByte_patched hk hchunk hb hp]
    split
    case isTrue hin => exact hV p hin.1 hin.2
    case isFalse => exact hold
  · rintro - s ⟨b, hb, rfl⟩
    exact ⟨h.wrote hst hI (hdisk.setDisk b hk), rfl,
      fun p hp => hdisk.fileByte_patched hk hchunk hb hp⟩

/-- The data loop. -/
theorem Opened.writeLoop (hI : I ∈ live) {M : Block} {stop : Nat} (hstop : (stop : Int) ≤ length M)
    (hV : ∀ p, first ≤ p → p < stop → V p (buf (p - first))) (fuel size done : Nat) {fs : Fs}
    (hfuel : size ≤ fuel) (hsum : first + done + size = stop) (h : Opened live I r l fs)
    (hM : (fs.inode r).data = M) (hfill : Carries buf first (first + done) M fs) :
    Writer t V r fs (writeLoop true r buf fuel size (first + done) done) fun n s =>
        n = done + size ∧ Opened live I r l s ∧ (s.inode r).data = M ∧
          Carries buf first stop M s := by
  induction fuel generalizing size done fs with
  | zero =>
    have hsize : size = 0 := by omega
    subst hsize
    refine .solo_ret ?_
    rintro s rfl
    rw [← hsum]
    exact ⟨rfl, h, hM, hfill⟩
  | succ fuel ih =>
    unfold Inode.writeLoop
    by_cases hsize : size = 0
    · subst hsize
      refine .solo_ret ?_
      rintro s rfl
      rw [← hsum]
      exact ⟨rfl, h, hM, hfill⟩
    obtain ⟨owner, hst⟩ := h.laid
    have hdisk := h.onDisk hst
    have hpos : ((first + done : Nat) : Int) < length (fs.inode r).data := by
      rw [hM]
      omega
    have hofs : (first + done) % 512 < 512 := Nat.mod_lt _ (by omega)
    have hbuf (p : Nat) (hp : first + done ≤ p) :
        buf (done + (p - (first + done))) = buf (p - first) := congrArg buf (by omega)
    obtain ⟨chunk, hmin⟩ : ∃ c, c = min size (512 - (first + done) % 512) := ⟨_, rfl⟩
    have hchunk : chunkSize size (length (fs.inode r).data
        - (first + done : Nat)) ((first + done) % sectorSize) = chunk := by
      rw [hmin, hM]
      exact chunkSize_eq hofs (by omega)
    obtain ⟨rest, hrest⟩ := Nat.exists_eq_add_of_le (show chunk ≤ size by omega)
    rw [if_neg hsize]
    refine .bind (solo_byteToSector hdisk hpos) fun x => .assume fun hx => ?_
    refine .bind solo_getInode fun i => .assume fun hi => ?_
    subst hi hx
    dsimp only
    rw [hchunk, if_neg (by omega), if_neg (by simp), hrest, Nat.add_sub_cancel_left]
    refine .bind (h.writeChunk hI hpos (by omega)
      fun p hp hlt => hbuf p hp ▸ hV p (by omega) (by omega)) fun _ => .each ?_
    rintro s ⟨h', hsame, hbytes⟩
    have hfill' : Carries buf first (first + (done + chunk)) M s := by
      intro p hp hlt
      have hin : ((p : Nat) : Int) < length (fs.inode r).data := by
        rw [hM]
        omega
      have hbyte := hbytes p (block_lt hdisk.mapped.cap hin)
      rw [hM] at hbyte
      rw [hbyte]
      split
      case isTrue hat => exact hbuf p hat.1
      case isFalse => exact hfill p hp (by omega)
    have hnext := ih rest (done + chunk) (by omega) (by omega) h' (hsame.trans hM) hfill'
    rw [add_assoc first]
    refine hnext.post ?_
    rintro n s' ⟨hn, hdone⟩
    exact ⟨by omega, hdone⟩

-- ==== the whole call

/-- Taking or giving the lock of a file changes its lock at most; a
directory is locked by its callers. -/
theorem unlessDir_relocks (hp : p.exec (Fs.act t) fs = some (v, fs') → ∃ l, fs' = relocked l r fs)
    (he : (getInode r >>= fun i => if isdir i.data then pure () else p).exec
      (Fs.act t) fs = some (v, fs')) : ∃ l, fs' = relocked l r fs := by
  obtain ⟨i, fs₁, hget, hlock⟩ := Prog.exec_bind_some he
  cases hget
  split at hlock
  case isTrue =>
    cases hlock
    exact ⟨_, (setInode_same fs r).symm⟩
  case isFalse => exact hp hlock

theorem acquireFile_relocks (he : (acquireFile r).exec (Fs.act t) fs = some (v, fs')) :
    ∃ l, fs' = relocked l r fs :=
  unlessDir_relocks (fun h => ⟨_, (act_acquire (act_of_run h)).2⟩) he

theorem releaseFile_relocks (he : (releaseFile r).exec (Fs.act t) fs = some (v, fs')) :
    ∃ l, fs' = relocked l r fs :=
  unlessDir_relocks (fun h => ⟨_, (act_release (act_of_run h)).2⟩) he

theorem Opened.relocked (h : Opened live I r l fs) : Opened live I r l' (relocked l' r fs) := by
  obtain ⟨owner, hst⟩ := h.laid
  refine ⟨?_, owner, hst.congr rfl rfl rfl⟩
  constructor
  all_goals rw [relocked_inode]
  exacts [h.sector, h.data, h.regular, h.allowed, h.start, h.order]

/-- The file is no directory, and the lock is set to `l'`. -/
theorem solo_unlessDir (h : Steady I r l fs)
    (hp : Writer t V r fs p fun _ s => s = relocked l' r fs) :
    Writer t V r fs (getInode r >>= fun i => if isdir i.data then pure () else p)
      fun _ s => s = relocked l' r fs := by
  refine .bind solo_getInode fun i => .assume fun hi => ?_
  rw [hi, h.regular, if_neg Bool.false_ne_true]
  exact hp

theorem solo_acquireFile (h : Steady I r l fs) :
    Writer t V r fs (acquireFile r) fun _ s => s = relocked (some t) r fs := by
  refine solo_unlessDir h (Triple.solo_call ?_)
  rintro s v s' rfl hact
  rw [(act_acquire hact).2]
  exact ⟨.same relocked_data rfl, rfl⟩

theorem solo_releaseFile (h : Steady I r l fs) :
    Writer t V r fs (releaseFile r) fun _ s => s = relocked none r fs := by
  refine solo_unlessDir h (Triple.solo_call ?_)
  rintro s v s' rfl hact
  rw [(act_release hact).2]
  exact ⟨.same relocked_data rfl, rfl⟩

/-- The new end of file goes to disk and into memory. -/
theorem Opened.publishEof (h : Opened live I r l fs) (hI : I ∈ live) (hM : (fs.inode r).data = M)
    (hpos : 0 ≤ len) (hlen : len ≤ length M)
    (hV : ∀ p : Nat, eof M ≤ p → (p : Int) < len → V p (fileByte fs.disk M p)) :
    Writer t V r fs (publishEof r I len M) fun _ s => Opened live I r l s ∧
        len ≤ eof (s.inode r).data ∧ eof M ≤ eof (s.inode r).data := by
  unfold Inode.publishEof
  by_cases hlt : len > eof M
  · obtain ⟨owner, hst⟩ := h.laid
    have hoff : IsOff (length M) := isOff_toOff _
    obtain ⟨heof, hlength, hb, hw⟩ := setEof_spec (M := M) ⟨by omega, lt_of_le_of_lt hlen hoff.2⟩
    rw [h.data.trans hM] at hst
    have hnew : Newer (fs.inode r).data (setEof M len) := by
      rw [hM]
      refine ⟨by omega, by omega, by omega, ?_⟩
      have hreg := h.regular
      rw [hM] at hreg
      exact hreg
    obtain ⟨h1, h2, h3⟩ := hst.publish (V := V) h.toSteady hI hw hb
      (by rw [hM]) hnew (fun p hp hlt => by
        rw [hM] at hp
        rw [heof] at hlt
        have hk := block_lt hst.own.mapped.cap (lt_of_lt_of_le hlt hlen)
        have hbyte := hV p hp hlt
        unfold fileByte at hbyte ⊢
        rw [(Agrees.of_words hw).blockOf_eq hk]
        exact hbyte)
    rw [if_pos hlt]
    refine .bind (solo_blockWrite h1) fun _ => (solo_load h2 (republished_eq h.sector)).post ?_
    rintro - s rfl
    rw [republished_inode]
    exact ⟨h3, le_of_eq heof.symm, le_trans (le_of_lt hlt) (le_of_eq heof.symm)⟩
  · rw [if_neg hlt]
    refine .solo_ret ?_
    rintro s rfl
    rw [hM]
    exact ⟨h, not_lt.mp hlt, le_refl _⟩

/-- The lock is released, and what was asked for is written. -/
theorem Opened.finishWrite (h : Opened live I r l fs) (hI : I ∈ live) (hM : (fs.inode r).data = M)
    (hcast : ((offset + size : Nat) : Int) = len) (hlen : len ≤ length M)
    (hV : ∀ p, offset ≤ p → p < offset + size → V p (buf (p - offset)))
    (hgap : ∀ (p : Nat) v, eof M ≤ p → p < offset → V p v) :
    Writer t V r fs
      (do releaseFile r
          let written ← Inode.writeLoop true r buf size size offset 0
          Inode.publishEof r I len M
          pure written) fun n s => n = size ∧
        Opened live I r none s ∧ len ≤ eof (s.inode r).data ∧
        eof M ≤ eof (s.inode r).data := by
  have hopen : Opened live I r none (Inode.relocked none r fs) := h.relocked
  refine .bind (solo_releaseFile h.toSteady) fun _ => ?_
  refine .bind (hopen.writeLoop hI (by omega) hV size size 0
    le_rfl rfl (relocked_data.trans hM)
    fun p hp hlt => by omega) fun written => .each ?_
  rintro s ⟨hn, hs, hM', hbytes⟩
  have hseen (p : Nat) (hp : eof M ≤ p) (hlt : (p : Int) < len) : V p (fileByte s.disk M p) := by
    by_cases hin : offset ≤ p
    · rw [hbytes p hin (by omega)]
      exact hV p hin (by omega)
    · exact hgap p _ hp (by omega)
  refine .bind (hs.publishEof hI hM' (by omega) hlen hseen)
    fun _ => .solo_ret fun s' hs' => ⟨by omega, hs'⟩

/-- `inode_write_at` with room for what it writes: whatever the reader
sees at any moment is acceptable, if the bytes written are, and whatever
lies past the end of the file otherwise. -/
theorem Opened.inodeWriteAt (h : Opened live I r none fs) (h0 : 0 ∈ live)
    (hI : I ∈ live) {junk : Nat → Block} (hfits : Fits 32 r size offset fs)
    (hV : ∀ p, offset ≤ p → p < offset + size → V p (buf (p - offset)))
    (hgap : ∀ (p : Nat) v, eof (fs.inode r).data ≤ p → p < offset → V p v) :
    Writer t V r fs (inodeWriteAt junk r buf size offset) fun n s => n = size ∧
        Opened live I r none s ∧
        ((offset + size : Nat) : Int) ≤ eof (s.inode r).data ∧
        eof (fs.inode r).data ≤ eof (s.inode r).data := by
  obtain ⟨hmax, hroom⟩ := hfits
  have hnew := newLength_eq hmax
  -- an integer of which nothing is known: else the tests are computed
  obtain ⟨len, hcast⟩ : ∃ len, ((offset + size : Nat) : Int) = len := ⟨_, rfl⟩
  rw [hcast] at hroom hnew ⊢
  have hlocked : Opened live I r (some t) (Inode.relocked (some t) r fs) := h.relocked
  have hfree : (Inode.relocked (some t) r fs).freeMap = fs.freeMap := rfl
  have hsame : ((Inode.relocked (some t) r fs).inode r).data = (fs.inode r).data := relocked_data
  rw [← hsame, ← hfree] at hroom
  refine .bind solo_getInode fun i => .assume ?_
  intro hi
  rw [hi, h.allowed, if_neg (fun h => h rfl), hnew]
  refine .bind (solo_acquireFile h.toSteady) fun _ => ?_
  refine .bind solo_getInode fun i => .assume ?_
  intro hi
  have hsector : i.sector = I := by
    rw [hi]
    exact hlocked.sector
  rw [hsector]
  refine .bind solo_blockRead fun ino => .assume ?_
  intro hino
  rw [hino]
  refine .bind (hlocked.growInode h0 hI (by rw [hi]) (by omega) (by omega) hroom) fun ino => ?_
  refine .bind (hlocked.publishLength hI (by omega) (by omega)) fun M => .each ?_
  rintro s ⟨hs, hM, hlen, heof⟩
  rw [hlocked.data, relocked_data] at heof
  rw [← heof]
  refine hs.finishWrite hI hM hcast hlen hV fun p v hp hlt => ?_
  rw [heof] at hp
  exact hgap p v hp hlt

end Pintos.Inode
