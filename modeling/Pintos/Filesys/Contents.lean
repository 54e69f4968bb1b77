/-
A file as an array of bytes.

`contents` is the bytes of an open file up to its end, each looked up with
`byte_to_sector`. `inode_read_at` returns a slice of them and
`inode_write_at` replaces one (`splice`), the file growing with zeros.

# Reading

A read that reaches the end of the file walks the index to the block
after the last one. What it finds there is not used, but the walk does not
return if an index block on it is no sector of the device
(`EndOnDevice`). A new double indirect block is cleared for 32 of its 128
entries only, so that can be the case for a file of 4234 blocks.

# Writing

`InPlace` is what a write needs and leaves: every live inode has its
blocks, and the bytes behind the end of the file, as far as its sectors
go, are zero. Growth adds zeroed blocks and leaves every block there was
(`Intact`), the data loop writes blocks of the file, and before and after
it the inode goes to disk and back. `Became` is the state in between: the
file has the inode `D` and the bytes `byte`, and the other files are
spared.
-/
import Pintos.Filesys.Lookup

namespace Pintos.Inode

open Resume Prog Env List

-- ==== reading

/-- Byte `p` of an open file, where `byte_to_sector` finds it. -/
def byteAt (fs : Fs) (r p : Nat) : UInt8 :=
  ((byteToSector r p).exec (Fs.act 0) fs).elim 0 fun a => fs.disk a.1 (p % sectorSize)

/-- The bytes of an open file. -/
def contents (fs : Fs) (r : Nat) : List UInt8 :=
  (List.range (eof (fs.inode r).data).toNat).map (byteAt fs r)

/-- `old` with `size` bytes of `buf` in place of those from `offset` on,
and zeros up to there if it ends before. -/
def splice (old : List UInt8) (buf : Nat → UInt8) (size offset : Nat) : List UInt8 :=
  (List.range (max old.length (offset + size))).map fun p =>
    if offset ≤ p ∧ p < offset + size then buf (p - offset)
    else old.getD p 0

section Read

variable {owner : Owner} {I r t : Nat} {fs : Fs}

theorem OnDisk.contents_eq (h : OnDisk owner I r fs)
    (hlen : eof (fs.inode r).data ≤ length (fs.inode r).data) :
    contents fs r = (List.range (eof (fs.inode r).data).toNat).map
      (fileByte fs.disk (fs.inode r).data) := by
  refine map_congr_left fun p hp => ?_
  have := mem_range.mp hp
  unfold byteAt
  rw [h.byteToSector (by omega)]
  rfl

theorem range_getD {α : Type} (f : Nat → α) (n p : Nat) (a : α) :
    ((List.range n).map f).getD p a = if p < n then f p else a := by
  split
  next hp => simp [hp]
  next hp => simp [hp]

theorem range_slice {α : Type} (f : Nat → α) (n size offset : Nat) :
    (((List.range n).map f).drop offset).take size =
      (List.range (min size (n - offset))).map fun j => f (offset + j) := by
  apply ext_getElem
  · simp
  · intro i h1 h2
    simp

/-- `inode_read_at` returns a slice of the contents. -/
theorem OnDisk.inodeReadAt (h : OnDisk owner I r fs)
    (hlen : eof (fs.inode r).data ≤ length (fs.inode r).data) {size offset : Nat}
    (hend : Comes (fs.inode r).data size offset → EndOnDevice fs (fs.inode r).data) :
    (inodeReadAt r size offset).exec (Fs.act t) fs =
      some (((contents fs r).drop offset).take size, fs) := by
  have hread := h.readAll (t := t) hlen size size offset le_rfl hend
  have hsub : (eof (fs.inode r).data - offset).toNat = (eof (fs.inode r).data).toNat - offset := by
    omega
  rw [h.contents_eq hlen, range_slice, ← hsub]
  exact hread

end Read

-- ==== other files

/-- The file of `J` is as it was. -/
structure Spared (J : Nat) (d d' : Nat → Block) : Prop where
  header : d' J = d J
  place : ∀ i, i < blocks (d J) → blockOf d' (d J) i = blockOf d (d J) i
  data : ∀ i, i < blocks (d J) → d' (blockOf d (d J) i) = d (blockOf d (d J) i)

variable {live : List Nat} {owner : Owner} {I J : Nat} {d d' d'' : Nat → Block} {fs fs' : Fs}
  {D : Block}

theorem Spared.refl (J : Nat) (d : Nat → Block) : Spared J d d :=
  ⟨rfl, fun _ _ => rfl, fun _ _ => rfl⟩

theorem Spared.trans (h : Spared J d d') (h' : Spared J d' d'') : Spared J d d'' := by
  obtain ⟨hhead, hplace, hdata⟩ := h'
  rw [h.header] at hhead hplace hdata
  refine ⟨hhead, fun i hi => (hplace i hi).trans (h.place i hi), fun i hi => ?_⟩
  have hi' := hdata i hi
  rw [h.place i hi] at hi'
  exact hi'.trans (h.data i hi)

theorem Spared.fileByte (h : Spared J d d') {p : Nat} (hp : p / 512 < blocks (d J)) :
    fileByte d' (d J) p = fileByte d (d J) p := by
  unfold Inode.fileByte
  rw [h.place _ hp, h.data _ hp]

/-- The inode of another file is written. -/
theorem Holds.spared_header (h : Holds live owner fs) (hI : I ∈ live)
    (hJ : J ∈ live) (hne : J ≠ I) :
    Spared J fs.disk (fs.setDisk I D).disk := by
  have hm := h.mapped J hJ
  refine ⟨setDisk_ne fs D hne, fun i hi => ?_, fun i hi => ?_⟩
  · exact (hm.follows_index (h.setHeader hI)).blockOf_eq hi
  · exact setDisk_ne fs D (h.ne_header hI (hm.data i hi) (by simp))

/-- Data of another file is written. -/
theorem Holds.spared_wrote (h : Holds live owner fs) (hJ : J ∈ live) (hne : J ≠ I)
    (hw : Wrote owner I fs fs') : Spared J fs.disk fs'.disk := by
  have hm := h.mapped J hJ
  refine ⟨hw.disk_eq (h.header J hJ) fun i => by simp,
    fun i hi => (hm.follows hw.keeps).blockOf_eq hi, fun i hi => ?_⟩
  rcases hw.disk (blockOf fs.disk (fs.disk J) i) with hd | ⟨k, hd⟩
  · exact hd
  · rw [hm.data i hi] at hd
    cases hd
    exact absurd rfl hne

-- ==== growth

/-- All that was there is left as it was, the file that grows included. -/
structure Intact (live : List Nat) (fs₀ fs : Fs) : Prop where
  inode : fs.inode = fs₀.inode
  spared : ∀ J ∈ live, Spared J fs₀.disk fs.disk

theorem grows_intact (t : Tid) (live : List Nat) (I n₀ : Nat) (fs₀ : Fs) :
    Grows (alone (Fs.act t)) id t live I n₀ (Intact live fs₀) where
  act := fun h => h
  quiet := by
    rintro fs _ hF rfl
    exact ⟨⟨rfl, rfl, fun _ h => h, fun _ _ _ => .inl rfl⟩, hF⟩
  step := by
    intro c fs fs' v hF _ _ _ hg
    obtain ⟨owner, hholds, hext⟩ := hg.owner
    refine ⟨trivial, hg.inode.trans hF.inode, fun J hJ => ?_⟩
    have hm := hholds.mapped J hJ
    refine (hF.spared J hJ).trans ⟨hext.keeps.header (hholds.header J hJ),
      fun i hi => (hm.follows hext.keeps).blockOf_eq hi, fun i hi => ?_⟩
    exact hext.data _ J i (hm.data i hi)

/-- The file of `I` is open at `r` and all in its place: every live inode
has its blocks, there is nothing behind those of `I`, and behind the end
of file there are zeros. -/
structure InPlace (e : Nat) (live : List Nat) (owner : Owner) (I r : Nat) (fs : Fs) : Prop where
  holds : Holds live owner fs
  shaped : Shaped e fs.disk owner I (fs.disk I) (blocks (fs.disk I))
  sector : (fs.inode r).sector = I
  data : fs.disk I = (fs.inode r).data
  start : 0 ≤ eof (fs.inode r).data
  whole : eof (fs.inode r).data = length (fs.inode r).data
  clear : ∀ p : Nat, p / 512 < blocks (fs.inode r).data →
    eof (fs.inode r).data ≤ p → fileByte fs.disk (fs.inode r).data p = 0

/-- The private copy of the inode has its blocks, in a file system that
has kept all else. -/
structure Swollen (e : Nat) (live : List Nat) (I : Nat) (len : Int) (fs : Fs)
    (ino : Block) (fs' : Fs) (owner : Owner) : Prop where
  intact : Intact live fs fs'
  kept : Kept (fs.disk I) ino
  holds : Holds live owner fs'
  shaped : Shaped e fs'.disk owner I ino (max (blocks (fs.disk I)) (bytesToSectors len))
  zero : ∀ x i, owner x = some (I, .data i) → blocks (fs.disk I) ≤ i → fs'.disk x = zeros
  same : bytesToSectors len ≤ blocks (fs.disk I) → ino = fs.disk I

section Write

variable {e : Nat} {live : List Nat} {owner : Owner} {I r : Nat} {fs : Fs} {t : Tid} {len : Int}
variable {D ino : Block} {fs' : Fs} {byte : Nat → UInt8} {owner' : Owner}
  {r' size offset : Nat} {l : Option Tid}

section

variable (h : InPlace e live owner I r fs)

include h

theorem InPlace.onDisk : OnDisk owner I r fs := h.holds.onDisk (h.data ▸ h.shaped.mapped)

theorem InPlace.contents_eq : contents fs r =
    (List.range (eof (fs.inode r).data).toNat).map (fileByte fs.disk (fs.inode r).data) :=
  h.onDisk.contents_eq (le_of_eq h.whole)

theorem InPlace.charted (h0 : 0 ∈ live) : Charted e owner I (fs.disk I) fs :=
  ⟨h.holds.nil, h.holds.header 0 h0, h.shaped.mapped, h.shaped.tail⟩

theorem InPlace.contents_length : ((contents fs r).length : Int) = eof (fs.inode r).data := by
  have hstart := h.start
  unfold contents
  rw [length_map, length_range]
  omega

/-- Past the end of the contents the sectors hold zeros. -/
theorem InPlace.byte_eq (p : Nat) : (if p / 512 < blocks (fs.inode r).data then
      fileByte fs.disk (fs.inode r).data p else 0) =
      (contents fs r).getD p 0 := by
  rw [h.contents_eq, range_getD]
  by_cases hp : p < (eof (fs.inode r).data).toNat
  · have hlt : (p : Int) < length (fs.inode r).data := by
      rw [← h.whole]
      omega
    rw [if_pos (block_lt h.onDisk.mapped.cap hlt), if_pos hp]
  · rw [if_neg hp]
    split
    next hk => exact h.clear p hk (by omega)
    next => rfl

/-- The growth that a write asks for. -/
theorem InPlace.growInode (h0 : 0 ∈ live) (junk : Nat → Block)
    (hfits : bytesToSectors len ≤ blocks (fs.inode r).data ∨
      Levels e (blocks (fs.inode r).data) (bytesToSectors len) ∧
      cost (bytesToSectors len) ≤ cost (blocks (fs.inode r).data) + fs.freeMap.freeCount) :
    ∃ ino fs' owner', (growInode junk (fs.inode r) len (fs.disk I)).exec
        (Fs.act t) fs = some (ino, fs') ∧
      Swollen e live I len fs ino fs' owner' := by
  have hintact : Intact live fs fs := ⟨rfl, fun J _ => Spared.refl J _⟩
  rw [growInode_eq, ← h.data] at *
  split
  next hgrow =>
    obtain ⟨hlev, hcost⟩ := hfits.resolve_left (not_le.mpr hgrow)
    obtain ⟨add, hadd⟩ := Nat.exists_eq_add_of_le (le_of_lt hgrow)
    rw [hadd] at hlev hcost
    rw [hadd, Nat.add_sub_cancel_left]
    have hcharted := h.charted h0
    obtain ⟨g, fs', he, -⟩ := hcharted.sized.sectorAllocate (t := t) junk
      (le_of_lt h.holds.size) hlev (hcharted.reaches hlev.2.1.2)
    have he := sectorAllocate_below t junk add (fs.disk I) fs _ he
    obtain ⟨f, -, htriple⟩ := (grows_intact t live I (blocks (fs.disk I)) fs).sectorAllocate_start
      junk h.holds (h.holds.header 0 h0) h.shaped hlev hcost
    obtain ⟨owner', d', hal, hF, hat⟩ := htriple.exec ⟨hintact, rfl⟩ he
    refine ⟨g.ino, fs', owner', ?_, hF, hal.kept, hat.holds, ?_, hat.zero,
      fun hle => absurd hle (not_le.mpr hgrow)⟩
    · rw [exec_seq he]
      rfl
    · rw [hadd, max_eq_right (Nat.le_add_right _ _)]
      exact hal.shaped.of_index hat.index
  next hgrow =>
    refine ⟨fs.disk I, fs, owner, rfl, hintact, .refl _, h.holds, ?_,
      fun x i hx hi => absurd (h.shaped.bounded.data x i hx) (not_lt.mpr hi), fun _ => rfl⟩
    rw [max_eq_left (not_lt.mp hgrow)]
    exact h.shaped

/-- Growth has not changed the bytes, and the new ones are zero. -/
theorem Swollen.byte_eq (hs : Swollen e live I len fs ino fs' owner') (hI : I ∈ live) {p : Nat}
    (hp : p / 512 < max (blocks (fs.disk I)) (bytesToSectors len)) :
    fileByte fs'.disk ino p = (contents fs r).getD p 0 := by
  have hsp := hs.intact.spared I hI
  rw [← h.byte_eq p, ← h.data]
  by_cases hold : p / 512 < blocks (fs.disk I)
  · have hm := (hs.holds.mapped I hI)
    rw [hsp.header] at hm
    have hagrees := hm.agrees hs.shaped.mapped (le_max_left _ _) hs.holds.inj
    rw [if_pos hold, ← hsp.fileByte hold]
    unfold fileByte
    rw [hagrees.blockOf_eq hold]
  · rw [if_neg hold]
    unfold fileByte
    rw [hs.zero _ _ (hs.shaped.mapped.data _ hp) (not_lt.mp hold)]
    rfl

end

/-- The file of `I`, open at `r`, has come to have the inode `D` and the
bytes `byte`. -/
structure Became (e : Nat) (live : List Nat) (owner : Owner) (I r : Nat) (D : Block)
    (byte : Nat → UInt8) (fs fs' : Fs) : Prop where
  holds : Holds live owner fs'
  shaped : Shaped e fs'.disk owner I D (blocks D)
  disk : fs'.disk I = D
  data : (fs'.inode r).data = D
  sector : (fs'.inode r).sector = I
  rest : ∀ r', r' ≠ r → fs'.inode r' = fs.inode r'
  spared : ∀ J ∈ live, J ≠ I → Spared J fs.disk fs'.disk
  bytes : ∀ p, p / 512 < blocks D → fileByte fs'.disk D p = byte p

/-- An inode is written to its sector and loaded. -/
theorem exec_republish (t : Tid) (hI : I < fs.size) (hsector : (fs.inode r).sector = I) :
    (blockWrite I D >>= fun _ => loadInode r).exec (Fs.act t) fs =
      some ((), republished r I D fs) := by
  have hlt : ((fs.setDisk I D).inode r).sector < (fs.setDisk I D).size := lt_of_eq_of_lt hsector hI
  rw [exec_seq (exec_blockWrite t fs I D hI), exec_loadInode, if_pos hlt, republished_eq hsector]

/-- The pointers of the inode written are those of the copy. -/
theorem Holds.republish {n : Nat} (h : Holds live owner fs) (hs : Shaped e fs.disk owner I ino n)
    (hI : I ∈ live) (hw : ∀ i, i < 12 → word D i = word ino i) (hb : blocks D = n)
    (hsector : (fs.inode r).sector = I) :
    Became e live owner I r D (fileByte fs.disk ino) fs (republished r I D fs) := by
  have hidx := h.setHeader (D := D) hI
  have hown := (hs.congr hw).of_index hidx
  subst hb
  refine ⟨?_, hown, setDisk_self fs I D, by rw [republished_inode], republished_inode ▸ hsector,
    fun r' hr => if_neg hr, fun J hJ hne => h.spared_header hI hJ hne, fun p hp => ?_⟩
  · have hset := h.setDisk hI hown.mapped
    exact ⟨hset.size, hset.bits, hset.used, hset.inj, hset.header, hset.mapped⟩
  · have hm := hs.mapped
    have hne := h.ne_header hI (hm.data _ hp) (by simp)
    show (fs.setDisk I D).disk (blockOf (fs.setDisk I D).disk D (p / 512)) (p % 512) = _
    rw [(Agrees.of_words hw).blockOf_eq hp,
      (hm.follows_index hidx).blockOf_eq hp, setDisk_ne fs D hne]
    rfl

/-- The file as it is. -/
theorem Became.self (hh : Holds live owner fs) (hs : Shaped e fs.disk owner I D (blocks D))
    (hdisk : fs.disk I = D) (hdata : (fs.inode r).data = D) (hsector : (fs.inode r).sector = I) :
    Became e live owner I r D (fileByte fs.disk D) fs fs :=
  ⟨hh, hs, hdisk, hdata, hsector, fun _ _ => rfl, fun J _ _ => Spared.refl J _, fun _ _ => rfl⟩

/-- Looked at from an earlier state. -/
theorem Became.after {owner : Owner} {byte' : Nat → UInt8} {fs'' : Fs}
    (h : Became e live owner I r D byte' fs' fs'')
    (hrest : ∀ r', r' ≠ r → fs'.inode r' = fs.inode r')
    (hspared : ∀ J ∈ live, J ≠ I → Spared J fs.disk fs'.disk)
    (hbyte : ∀ p, p / 512 < blocks D → byte' p = byte p) :
    Became e live owner I r D byte fs fs'' :=
  { h with
    rest := fun r' hr => (h.rest r' hr).trans (hrest r' hr)
    spared := fun J hJ hne => (hspared J hJ hne).trans (h.spared J hJ hne)
    bytes := fun p hp => (h.bytes p hp).trans (hbyte p hp) }

/-- The grown copy becomes the file. -/
theorem InPlace.publishLength (h : InPlace e live owner I r fs) (hI : I ∈ live)
    (hs : Swollen e live I len fs ino fs' owner') (hpos : 0 ≤ len) (hmax : len < 2147483648) :
    ∃ D fs'', (publishLength r I len ino).exec (Fs.act t) fs' =
        some (D, fs'') ∧
      Became e live owner' I r D (fun p => (contents fs r).getD p 0) fs fs'' ∧
      length D = max (length (fs.disk I)) len ∧
      eof D = eof (fs.disk I) ∧ isdir D = isdir (fs.disk I) ∧
      (fs''.inode r).lock = (fs.inode r).lock := by
  have hino := hs.intact.inode
  have hsector : (fs'.inode r).sector = I := hino ▸ h.sector
  have hlen : length ino = length (fs.disk I) := by
    unfold Inode.length
    rw [hs.kept.word (by decide)]
  have hcap := hs.shaped.mapped.cap
  have hrest : ∀ r', r' ≠ r → fs'.inode r' = fs.inode r' := fun r' _ => by rw [hino]
  have hspared : ∀ J ∈ live, J ≠ I → Spared J fs.disk fs'.disk :=
    fun J hJ _ => hs.intact.spared J hJ
  unfold Inode.publishLength
  by_cases hlt : len > length ino
  · -- the inode is written with its new length
    have hmono : blocks (fs.disk I) ≤ bytesToSectors len := by
      refine bytesToSectors_mono ?_ (by omega) (le_of_bytesToSectors hpos hmax (by omega))
      rw [h.data, ← h.whole]
      exact h.start
    obtain ⟨hD, hb, heof, hdir, hw⟩ := setLength_spec hs.kept ⟨by omega, hmax⟩
    rw [← max_eq_right hmono] at hb
    have hnew := hs.holds.republish (r := r) hs.shaped hI hw hb hsector
    rw [if_pos hlt, ← bind_assoc,
      exec_seq (exec_republish t (hs.holds.used _ _ (hs.holds.header I hI)).1 hsector)]
    refine ⟨_, _, rfl, hnew.after hrest hspared fun p hp => ?_,
      by rw [hD, ← hlen]; omega, heof, hdir, ?_⟩
    · rw [hb] at hp
      exact Swollen.byte_eq h hs hI hp
    · rw [republished_inode, hino]
  · -- the file was as long already
    have hsame := hs.same (blocks_le hpos (by omega) (by omega))
    subst hsame
    have hmaxb : max (blocks (fs.disk I)) (bytesToSectors len) = blocks (fs.disk I) :=
      max_eq_left (blocks_le hpos (by omega) (by omega))
    have hshaped := hs.shaped
    rw [hmaxb] at hshaped
    have hself := Became.self (r := r) hs.holds hshaped
      (hs.intact.spared I hI).header (by rw [hino, h.data]) hsector
    rw [if_neg hlt]
    refine ⟨_, _, rfl, hself.after hrest hspared fun p hp => ?_, by omega, rfl, rfl, by rw [hino]⟩
    exact Swollen.byte_eq h hs hI (by rw [hmaxb]; exact hp)

/-- The data loop. -/
theorem Became.writeLoop (h : Became e live owner I r D byte fs fs') (hI : I ∈ live)
    (buf : Nat → UInt8) (hlen : ((offset + size : Nat) : Int) ≤ length D) :
    ∃ fs'', (writeLoop true r buf size size offset 0).exec (Fs.act t) fs' =
        some (size, fs'') ∧
      Became e live owner I r D (fun p => if offset ≤ p ∧ p < offset + size
        then buf (p - offset) else byte p) fs fs'' := by
  have hdisk : OnDisk owner I r fs' := h.holds.onDisk (h.data ▸ h.shaped.mapped)
  obtain ⟨n, fs'', he, -, hall, hw, hbytes⟩ := OnDisk.writeLoop (t := t) true buf size size offset 0
    hdisk le_rfl (by rw [h.data]; exact hlen)
  obtain rfl := hall rfl
  rw [zero_add] at he
  rw [h.data] at hbytes
  have hself := Became.self (r := r) (D := D) (h.holds.wrote hw) (h.shaped.of_index hw.index)
    (by rw [hw.disk_eq (h.holds.header I hI) fun i => by simp, h.disk])
    (by rw [hw.inode, h.data]) (by rw [hw.inode, h.sector])
  refine ⟨fs'', he, hself.after ?_ ?_ fun p hp => ?_⟩
  · intro r' hr
    rw [hw.inode]
    exact h.rest r' hr
  · intro J hJ hne
    exact (h.spared J hJ hne).trans (h.holds.spared_wrote hJ hne hw)
  · rw [hbytes p hp, zero_add, h.bytes p hp]

/-- The new end of file is published. -/
theorem Became.publishEof (h : Became e live owner I r D byte fs fs')
    (hI : I ∈ live) (hpos : 0 ≤ len) (hlen : len ≤ length D) :
    ∃ D' fs'', (publishEof r I len D).exec (Fs.act t) fs' =
        some ((), fs'') ∧ Became e live owner I r D' byte fs fs'' ∧
      length D' = length D ∧ eof D' = max (eof D) len := by
  unfold Inode.publishEof
  by_cases hlt : len > eof D
  · have hoff : IsOff (length D) := isOff_toOff _
    obtain ⟨heof, hlength, hb, hw⟩ := setEof_spec (M := D) ⟨by omega, lt_of_le_of_lt hlen hoff.2⟩
    have hnew := h.holds.republish (r := r) h.shaped hI hw hb h.sector
    rw [if_pos hlt, exec_republish t (h.holds.used _ _ (h.holds.header I hI)).1 h.sector]
    refine ⟨_, _, rfl, hnew.after h.rest h.spared fun p hp => ?_, hlength, by rw [heof]; omega⟩
    exact h.bytes p (by rw [← hb]; exact hp)
  · rw [if_neg hlt]
    exact ⟨D, fs', rfl, h, rfl, by omega⟩

-- ==== the call

/-- The lock is taken; that of a directory is not. -/
theorem exec_unlessDir {p : P Unit} (hp : isdir (fs.inode r).data = false →
      p.exec (Fs.act t) fs = some ((), relocked l r fs)) :
    ∃ l', (getInode r >>= fun i => if isdir i.data then pure () else p).exec (Fs.act t) fs =
        some ((), relocked l' r fs) ∧
      (isdir (fs.inode r).data = false → l' = l) := by
  rw [exec_seq (exec_getInode ..)]
  by_cases hdir : isdir (fs.inode r).data = true
  · refine ⟨(fs.inode r).lock, ?_, fun hreg => ?_⟩
    · rw [if_pos hdir]
      exact congrArg (fun s => some ((), s)) (setInode_same fs r).symm
    · simp [hdir] at hreg
  · rw [if_neg hdir, hp (Bool.eq_false_iff.mpr hdir)]
    exact ⟨l, rfl, fun _ => rfl⟩

theorem relocked_ne (h : r' ≠ r) : (relocked l r fs).inode r' = fs.inode r' := if_neg h

theorem Holds.relocked (h : Holds live owner fs) : Holds live owner (relocked l r fs) :=
  ⟨h.size, h.bits, h.used, h.inj, h.header, h.mapped⟩

theorem InPlace.relocked (h : InPlace e live owner I r fs) :
    InPlace e live owner I r (relocked l r fs) := by
  refine ⟨h.holds.relocked, h.shaped, ?_, ?_, ?_, ?_, ?_⟩
  all_goals rw [relocked_inode]
  exacts [h.sector, h.data, h.start, h.whole, h.clear]

theorem Became.relocked (h : Became e live owner I r D byte fs fs') :
    Became e live owner I r D byte fs (Inode.relocked l r fs') := by
  have hself := Became.self (r := r) (h.holds.relocked (l := l)) h.shaped h.disk
    (relocked_data.trans h.data) (relocked_inode ▸ h.sector)
  refine hself.after (fun r' hr => ?_) h.spared h.bytes
  rw [relocked_ne hr, h.rest r' hr]

/-- All of the call, with the inode that the file has at its end. -/
theorem InPlace.inodeWriteAt (h : InPlace e live owner I r fs) (h0 : 0 ∈ live) (hI : I ∈ live)
    (junk : Nat → Block) (buf : Nat → UInt8) (hallowed : (fs.inode r).denyWriteCnt = 0)
    (hlock : isdir (fs.inode r).data = false → (fs.inode r).lock = none)
    (hfits : Fits e r size offset fs) :
    ∃ D fs' owner', (inodeWriteAt junk r buf size offset).exec (Fs.act t)
        fs = some (size, fs') ∧
      Became e live owner' I r D (fun p => if offset ≤ p ∧ p < offset + size
        then buf (p - offset) else (contents fs r).getD p 0) fs fs' ∧
      length D = max (length (fs.inode r).data) (offset + size : Nat) ∧
      eof D = max (eof (fs.inode r).data) (offset + size : Nat) := by
  obtain ⟨hmax, hroom⟩ := hfits
  have hnew := newLength_eq hmax
  -- an integer of which nothing is known: else the tests are computed
  obtain ⟨len, hcast⟩ : ∃ len, ((offset + size : Nat) : Int) = len := ⟨_, rfl⟩
  rw [hcast] at hroom hnew ⊢
  obtain ⟨l, hacq, hl⟩ := exec_unlessDir fun hreg => exec_acquire t fs r (hlock hreg)
  have h1 := h.relocked (l := l)
  have hsize := (h1.holds.used _ _ (h1.holds.header I hI)).1
  rw [← relocked_data (l := l)] at hroom
  obtain ⟨ino, fs₂, owner', hgrow, hswollen⟩ := h1.growInode (t := t) h0 junk hroom
  obtain ⟨D, fs₃, hpub, hbecame, hlength, heof, hdir, hlock3⟩ :=
    h1.publishLength (t := t) hI hswollen (by omega) (by omega)
  rw [h1.data, relocked_data] at hlength heof hdir
  have hle : len ≤ length D := hlength ▸ le_max_right _ _
  have hheld : isdir (fs₃.inode r).data = false → (fs₃.inode r).lock = some t := by
    intro hreg
    rw [hbecame.data, hdir] at hreg
    rw [hlock3, relocked_inode]
    exact hl hreg
  obtain ⟨l', hrel, -⟩ := exec_unlessDir fun hreg => exec_release t fs₃ r (hheld hreg)
  obtain ⟨fs₅, hloop, hwritten⟩ := (hbecame.relocked (l := l')).writeLoop (t := t) hI buf
    (hcast ▸ hle)
  obtain ⟨D', fs₆, heofs, hdone, hlength', heof'⟩ := hwritten.publishEof
    (t := t) hI (hcast ▸ Int.natCast_nonneg _) hle
  refine ⟨D', fs₆, owner', ?_, hdone.after (fun r' hr => relocked_ne hr)
    (fun J _ _ => Spared.refl J _) fun p _ => ?_, hlength'.trans hlength,
    by rw [heof', heof]⟩
  · unfold Inode.inodeWriteAt inodeWriteAtMem acquireFile releaseFile
    rw [exec_seq (exec_getInode ..), hallowed, if_neg (fun h => h rfl), hnew, exec_seq hacq,
      exec_seq (exec_getInode ..), h1.sector, exec_seq (exec_blockRead t _ _ hsize),
      exec_seq hgrow, exec_seq hpub, exec_seq hrel, exec_seq hloop, exec_seq heofs]
    rfl
  · rw [h.relocked.contents_eq, h.contents_eq, relocked_data]
    rfl

/-- Another inode that is open, in step with the disk. -/
structure Beside (live : List Nat) (I r : Nat) (fs : Fs) : Prop where
  live : (fs.inode r).sector ∈ live
  other : (fs.inode r).sector ≠ I
  data : fs.disk (fs.inode r).sector = (fs.inode r).data
  order : eof (fs.inode r).data ≤ length (fs.inode r).data

theorem Beside.onDisk (h : Beside live I r' fs) (hh : Holds live owner fs) :
    OnDisk owner (fs.inode r').sector r' fs :=
  hh.onDisk (h.data ▸ hh.mapped _ h.live)

/-- The other files have the contents that they had. -/
theorem Became.beside (hb : Became e live owner' I r D byte fs fs') (hh : Holds live owner fs)
    (hne : r' ≠ r) (h : Beside live I r' fs) : contents fs' r' = contents fs r' := by
  have hsame := hb.rest r' hne
  have hsp := hb.spared _ h.live h.other
  have h' : Beside live I r' fs' := by
    constructor
    all_goals rw [hsame]
    · exact h.live
    · exact h.other
    · rw [hsp.header]
      exact h.data
    · exact h.order
  rw [(h'.onDisk hb.holds).contents_eq h'.order, (h.onDisk hh).contents_eq h.order, hsame]
  refine map_congr_left fun p hp => ?_
  have hlt : (p : Int) < length (fs.inode r').data := by
    have hp := mem_range.mp hp
    have horder := h.order
    omega
  have hk := block_lt (h.onDisk hh).mapped.cap hlt
  rw [← h.data] at hk ⊢
  exact hsp.fileByte hk

/-- The file is in place again. -/
theorem Became.inPlace {buf : Nat → UInt8}
    (h : InPlace e live owner I r fs) (hb : Became e live owner' I r D (fun p =>
      if offset ≤ p ∧ p < offset + size then buf (p - offset)
      else (contents fs r).getD p 0) fs fs')
    (hlength : length D = max (length (fs.inode r).data) (offset + size : Nat))
    (heof : eof D = max (eof (fs.inode r).data) (offset + size : Nat)) :
    InPlace e live owner' I r fs' ∧ contents fs' r = splice (contents fs r) buf size offset := by
  have hold := h.contents_length
  have hlen : eof D = ((max (contents fs r).length (offset + size) : Nat) : Int) := by
    omega
  have hin : InPlace e live owner' I r fs' := by
    refine ⟨hb.holds, ?_, hb.sector, hb.disk.trans hb.data.symm, ?_, ?_, ?_⟩
    · rw [hb.disk]
      exact hb.shaped
    all_goals rw [hb.data]
    · rw [hlen]
      exact Int.natCast_nonneg _
    · rw [hlength, heof, h.whole]
    · intro p hp hpast
      rw [hb.bytes p hp, if_neg (by omega)]
      rw [getD_eq_getElem?_getD, getElem?_eq_none (by omega)]
      rfl
  refine ⟨hin, ?_⟩
  have hnat : (eof D).toNat = max (contents fs r).length (offset + size) := by
    rw [hlen, Int.toNat_natCast]
  rw [hin.contents_eq, hb.data, hnat]
  refine map_congr_left fun p hp => ?_
  refine hb.bytes p (block_lt hb.shaped.mapped.cap ?_)
  rw [← hb.data, ← hin.whole, hb.data, hlen]
  exact Int.ofNat_lt.mpr (mem_range.mp hp)

end Write

theorem row_inPlace {n stale size used : Nat} (hn : n ≤ 4234) (hused : 64 + n ≤ 32 * used)
    (hfit : 32 * used ≤ size) (hsize : size < 4294967296) :
    InPlace 32 [0, 2] (rowOwner n) 2 0 (row n stale size used) where
  holds := row_holds hn hused hfit hsize
  shaped := by
    show Shaped 32 (rowDisk n stale) (rowOwner n) 2 (rowInode n) (blocks (rowInode n))
    rw [rowInode_blocks hn]
    exact ⟨row_mapped hn, row_tail hn, rowOwner_bounded⟩
  sector := rfl
  data := rfl
  start := by
    show 0 ≤ eof (rowInode n)
    rw [rowInode_eof hn]
    exact Int.natCast_nonneg _
  whole := by
    show eof (rowInode n) = length (rowInode n)
    rw [rowInode_eof hn, rowInode_length hn]
  clear := by
    intro p hp hpast
    change p / 512 < blocks (rowInode n) at hp
    change eof (rowInode n) ≤ p at hpast
    rw [rowInode_blocks hn] at hp
    rw [rowInode_eof hn] at hpast
    omega

end Pintos.Inode
