/-
The free map and its file: `filesys/free-map.c` and the file part of
`lib/kernel/bitmap.c`, down to the bytes on the disk.

# The model

The map is a bitmap in memory and a file, whose inode is sector 0 and
whose blocks were taken from the map itself before the file was open.
Every call that changes the map writes all of it to the file, through
`inode_write_at`. A remount starts from the disk alone.

`inode_write_at` allocates twice. Without memory for its copy of the
inode it writes through a null pointer and the kernel stops; without
memory for the bounce buffer it leaves the loop before the last, partial
sector (`mem`). `free_map_allocate` then takes the sectors back in memory;
`free_map_release` does not look.

# The result

`Tracks`: a remount finds every sector as the kernel has it now, and the
sectors of the file itself in use. `Mirrors` is the invariant: the bytes
of the file are the words of the map (`stored`), at sectors that the
owner of `Layout` gives to the file. The trailing bits of the last word
are whatever `malloc` left there, in memory and on the disk, and drop out
when the map is read.
-/
import Pintos.Filesys.Allocation
import Pintos.Lib.Transition

namespace Pintos

open List Option Bitmap

namespace Bitmap

/-- `elem_cnt`, in a `size_t`. -/
def elemCnt (bitCnt : Nat) : Nat := (bitCnt + 31) % 4294967296 / 32

/-- `byte_cnt`. -/
def byteCnt (bitCnt : Nat) : Nat := 4 * elemCnt bitCnt

def lastMask (b : Bitmap) : BitVec 32 :=
  if b.bitCnt % 32 ≠ 0 then (1#32 <<< (b.bitCnt % 32)) - 1#32
  else BitVec.allOnes 32

/-- `bitmap_create`: the words are what `malloc` returns, with the bits
of the map cleared. -/
def create (junk : Nat → BitVec 32) (bitCnt : Nat) : Bitmap :=
  setMultiple ⟨bitCnt, junk⟩ 0 bitCnt false

/-- Byte `j` of `b->bits`. -/
def byte (b : Bitmap) (j : Nat) : UInt8 := UInt8.ofNat ((b.bits (j / 4)).toNat / 256 ^ (j % 4))

/-- The words after `bytes` have been read into them. -/
def readInto (b : Bitmap) (bytes : List UInt8) : Bitmap :=
  { b with bits := fun e => BitVec.ofNat 32 (Inode.word (fun j => bytes.getD j (b.byte j)) e) }

/-- `b->bits[elem_cnt (b->bit_cnt) - 1] &= last_mask (b)`. -/
def maskLast (b : Bitmap) : Bitmap :=
  { b with bits := fun e =>
      if e = elemCnt b.bitCnt - 1 then b.bits e &&& lastMask b
      else b.bits e }

-- ==== words, bytes and masks

section Words

variable {n e i : Nat} {b m : Bitmap}

theorem elemCnt_eq (h : n < 4294967265) : elemCnt n = (n + 31) / 32 := by
  unfold elemCnt
  rw [Nat.mod_eq_of_lt (by omega)]

/-- The bytes of a word make up the word. -/
theorem word_byte (b : Bitmap) (e : Nat) : Inode.word b.byte e = (b.bits e).toNat := by
  unfold Inode.word byte
  have h0 : 4 * e / 4 = e ∧ 4 * e % 4 = 0 := by omega
  have h1 : (4 * e + 1) / 4 = e ∧ (4 * e + 1) % 4 = 1 := by omega
  have h2 : (4 * e + 2) / 4 = e ∧ (4 * e + 2) % 4 = 2 := by omega
  have h3 : (4 * e + 3) / 4 = e ∧ (4 * e + 3) % 4 = 3 := by omega
  rw [h0.1, h0.2, h1.1, h1.2, h2.1, h2.2, h3.1, h3.2]
  simp only [UInt8.toNat_ofNat']
  omega

theorem word_congr {a b : Inode.Block} (h : ∀ j, 4 * e ≤ j → j < 4 * e + 4 → a j = b j) :
    Inode.word a e = Inode.word b e := by
  unfold Inode.word
  rw [h _ (by omega) (by omega), h _ (by omega) (by omega),
    h _ (by omega) (by omega), h _ (by omega) (by omega)]

/-- Reading the bytes of `m` gives the words of `m`. -/
theorem readInto_bits (he : 4 * e + 4 ≤ n) :
    (b.readInto ((List.range n).map m.byte)).bits e = m.bits e := by
  have hword : Inode.word (fun j => ((List.range n).map m.byte).getD j (b.byte j)) e = Inode.word
      m.byte e := by
    refine word_congr fun j _ hj => ?_
    have hlt : j < n := by omega
    simp [getD_eq_getElem?_getD, hlt]
  show BitVec.ofNat 32 _ = _
  rw [hword, word_byte, BitVec.ofNat_toNat, BitVec.setWidth_eq]

theorem getLsbD_lowMask {k j : Nat} (hk : k < 32) (hj : j < k) :
    ((1#32 <<< k) - 1#32).getLsbD j = true := by
  have hpow : 2 ^ k < 2 ^ 32 := Nat.pow_lt_pow_right (by decide) hk
  have hpos : 0 < 2 ^ k := Nat.two_pow_pos k
  have hnat : ((1#32 <<< k) - 1#32).toNat = 2 ^ k - 1 := by
    rw [BitVec.toNat_sub, BitVec.toNat_shiftLeft]
    simp only [BitVec.toNat_ofNat, Nat.shiftLeft_eq]
    omega
  unfold BitVec.getLsbD
  rw [hnat, Nat.testBit_two_pow_sub_one]
  exact decide_eq_true hj

/-- The mask keeps the bits of the map. -/
theorem test_maskLast (b : Bitmap) (hn : b.bitCnt < 4294967265)
    (hi : i < b.bitCnt) : b.maskLast.test i = b.test i := by
  rw [test_eq, test_eq]
  show (if elemIdx i = elemCnt b.bitCnt - 1 then _ else _ : BitVec 32).getLsbD _ = _
  by_cases he : elemIdx i = elemCnt b.bitCnt - 1
  · rw [if_pos he, BitVec.getLsbD_and]
    have hmask : (lastMask b).getLsbD (i % 32) = true := by
      unfold lastMask
      rw [elemCnt_eq hn] at he
      unfold elemIdx at he
      split
      case isTrue h => exact getLsbD_lowMask (Nat.mod_lt _ (by decide)) (by omega)
      case isFalse =>
        rw [BitVec.getLsbD_allOnes]
        exact decide_eq_true (Nat.mod_lt _ (by decide))
    rw [hmask, Bool.and_true]
  · rw [if_neg he]

/-- A map read back from its bytes has the bits it was written with. -/
theorem test_readBack (hn : m.bitCnt < 4294967265) (hb : b.bitCnt = m.bitCnt) (hi : i < m.bitCnt) :
    (b.readInto ((List.range (byteCnt m.bitCnt)).map m.byte)).maskLast.test i = m.test i := by
  have hcnt : (b.readInto ((List.range (byteCnt m.bitCnt)).map m.byte)).bitCnt = m.bitCnt := hb
  rw [test_maskLast _ (hcnt ▸ hn) (hcnt ▸ hi), test_eq, test_eq, readInto_bits]
  unfold byteCnt elemIdx
  rw [elemCnt_eq hn]
  omega

theorem test_create {junk : Nat → BitVec 32} (hi : i < n) : (create junk n).test i = false := by
  unfold create
  rw [test_setMultiple, if_pos ⟨Nat.zero_le i, by omega⟩]

@[simp] theorem create_bitCnt (junk : Nat → BitVec 32) (n : Nat) : (create junk n).bitCnt = n :=
  setMultiple_bitCnt ..

end Words

end Bitmap

namespace MapFile

open Inode Resume Prog Env Transition

-- ==== the calls

/-- The file system, with the inode of `free_map_file`. -/
structure State where
  fs : Fs
  file : Nat

def State.setMap (s : State) (b : Bitmap) : State :=
  { s with fs := { s.fs with freeMap := b } }

/-- `bitmap_write (free_map, free_map_file)`. -/
def bitmapWrite (mem : Bool) (junk : Nat → Block) (s : State) : Option (Bool × State) :=
  let size := byteCnt s.fs.freeMap.bitCnt
  match (inodeWriteAtMem mem junk s.file s.fs.freeMap.byte size 0).exec (Fs.act 0) s.fs with
  | none => none
  | some (n, fs) => some (n == size, { s with fs := fs })

/-- `bitmap_read (free_map, file)`, with the inode of the file. -/
def bitmapRead (r : Nat) (fs : Fs) : Option (Bool × Bitmap) :=
  if 0 < fs.freeMap.bitCnt then
    let size := byteCnt fs.freeMap.bitCnt
    match (inodeReadAt r size 0).exec (Fs.act 0) fs with
    | none => none
    | some (bytes, _) => some (bytes.length == size, (fs.freeMap.readInto bytes).maskLast)
  else some (true, fs.freeMap)

/-- A bitmap without words: `malloc (0)` has returned a null pointer, which
`bitmap_create` gives up on or `bitmap_mark` writes through. -/
def freeMapInit (junk : Nat → BitVec 32) (fs : Fs) : Option Fs :=
  if byteCnt fs.size = 0 then none
  else some { fs with
    freeMap := ((Bitmap.create junk fs.size).mark 0).mark 1 }

def freeMapCreate (mem : Bool) (junk : Nat → Block) (fs : Fs) : Option State := do
  let made ← (inodeCreate junk 0 (byteCnt fs.freeMap.bitCnt) false).exec (Fs.act 0) fs
  if made.1 then
    let file ← (inodeOpen 0).exec (Fs.act 0) made.2
    let wrote ← bitmapWrite mem junk ⟨{ file.2 with mapFile := true }, file.1⟩
    if wrote.1 then some wrote.2 else none
  else none

def freeMapOpen (fs : Fs) : Option Bitmap :=
  match (inodeOpen 0).exec (Fs.act 0) fs with
  | none => none
  | some (r, fs) =>
    match bitmapRead r fs with
    | some (true, b) => some b
    | _ => none

def freeMapAllocate (mem : Bool) (junk : Nat → Block) (cnt : Nat)
    (s : State) : Option (Option Nat × State) :=
  match s.fs.freeMap.scanAndFlip 0 cnt false with
  | (none, b) => some (none, s.setMap b)
  | (some sector, b) =>
    match bitmapWrite mem junk (s.setMap b) with
    | none => none
    | some (true, s) => some (some sector, s)
    | some (false, s) => some (none, s.setMap (s.fs.freeMap.setMultiple sector cnt false))

/-- `bitmap_all` checks the range; a `sector + cnt` that wraps round fails
the check of `bitmap_test`. -/
def freeMapRelease (mem : Bool) (junk : Nat → Block) (sector cnt : Nat)
    (s : State) : Option State :=
  if sector + cnt ≤ s.fs.freeMap.bitCnt ∧
      s.fs.freeMap.all sector cnt = true then
    match bitmapWrite mem junk (s.setMap (s.fs.freeMap.setMultiple sector cnt false)) with
    | none => none
    | some (_, s) => some s
  else none

/-- A device as the kernel finds it, with no inode open. -/
def boot (size : Nat) (disk : Nat → Block) (inode : Nat → MemInode) : Fs where
  size := size
  disk := disk
  freeMap := ⟨0, fun _ => 0⟩
  mapFile := false
  stored := ⟨0, fun _ => 0⟩
  inode := inode
  count := 0
  openInodes := []

/-- The map that the next boot reads. -/
def remount (junk : Nat → BitVec 32) (inode : Nat → MemInode) (s : State) : Option Bitmap :=
  (freeMapInit junk (boot s.fs.size s.fs.disk inode)).bind freeMapOpen

inductive Call where
  | allocate (mem : Bool) (junk : Nat → Block) (cnt : Nat)
  | release (mem : Bool) (junk : Nat → Block) (sector cnt : Nat)

def step : Call → State → Option State
  | .allocate mem junk cnt, s => (freeMapAllocate mem junk cnt s).map (·.2)
  | .release mem junk sector cnt, s => freeMapRelease mem junk sector cnt s

/-- The map and its file have been made, on a device whose map fits the
direct blocks and the indirect block. -/
def Created (s : State) : Prop :=
  ∃ size disk inode bits mem junk, size < 4294967296 ∧
    bytesToSectors (byteCnt size) ≤ 138 ∧
    (freeMapInit bits (boot size disk inode)).bind (freeMapCreate mem junk) = some s

/-- The sectors of the map's file: its inode, its indirect block and its
data. -/
def ownSectors (disk : Nat → Block) : List Nat :=
  0 :: (if 10 < blocks (disk 0) then [word (disk 0) 10] else []) ++
    (List.range (blocks (disk 0))).map (blockOf disk (disk 0))

/-- There is memory for the bounce buffer, and the sectors of the map's
file are not given back. -/
def Spares : Call → State → Prop
  | .allocate mem _ _, _ => mem = true
  | .release mem _ sector cnt, s => mem = true ∧
      ∀ x ∈ ownSectors s.fs.disk, ¬ (sector ≤ x ∧ x < sector + cnt)

instance (c : Call) (s : State) : Decidable (Spares c s) :=
  match c with
  | .allocate _ _ _ => inferInstanceAs (Decidable (_ = _))
  | .release _ _ _ _ => inferInstanceAs (Decidable (_ ∧ _))

/-- The file holds the map: the next boot finds every sector as it is now,
and the sectors of the file in use. -/
def Tracks (s : State) : Prop :=
  ∀ junk inode, ∃ b, remount junk inode s = some b ∧
    b.bitCnt = s.fs.freeMap.bitCnt ∧
    (∀ i, i < b.bitCnt → b.test i = s.fs.freeMap.test i) ∧
    ∀ x ∈ ownSectors s.fs.disk, x < b.bitCnt ∧ b.test x = true

-- ==== the invariant

/-- The file of the map is where it belongs. -/
structure Placed (owner : Owner) (s : State) : Prop where
  cap : s.fs.size < 4294967265
  bits : s.fs.freeMap.bitCnt = s.fs.size
  header : owner 0 = some (0, .header)
  used : ∀ x z, owner x = some z → s.fs.freeMap.test x = true
  own : ∀ x, (∃ z, owner x = some z) ↔ x ∈ ownSectors s.fs.disk
  onDisk : OnDisk owner 0 s.file s.fs
  resting : Resting 0 s.file s.fs
  len : length (s.fs.inode s.file).data = byteCnt s.fs.size
  readable : eof (s.fs.inode s.file).data = byteCnt s.fs.size

/-- And its bytes are the words of the map. -/
structure Mirrors (owner : Owner) (s : State) : Prop extends Placed owner s where
  stored : ∀ p, p < byteCnt s.fs.size →
    fileByte s.fs.disk (s.fs.inode s.file).data p = s.fs.freeMap.byte p

variable {owner : Owner} {s s' : State} {mem dir : Bool} {junk d : Nat → Block} {fs' fs : Fs}
  {cnt x i n : Nat} {len : Int} {ino : Block}

theorem Placed.setMap (h : Placed owner s) {b : Bitmap} (hcnt : b.bitCnt = s.fs.freeMap.bitCnt)
    (hused : ∀ x ∈ ownSectors s.fs.disk, b.test x = true) : Placed owner (s.setMap b) where
  cap := h.cap
  bits := hcnt.trans h.bits
  header := h.header
  used := fun x z hx => hused x ((h.own x).mp ⟨z, hx⟩)
  own := h.own
  onDisk := ⟨h.onDisk.used, h.onDisk.inj, h.onDisk.mapped⟩
  resting := ⟨h.resting.sector, h.resting.data, h.resting.regular,
    h.resting.allowed, h.resting.lock⟩
  len := h.len
  readable := h.readable

/-- Data blocks do not make up the layout. -/
theorem Placed.ownSectors_eq (h : Placed owner s) (hw : Wrote owner 0 s.fs fs') :
    ownSectors fs'.disk = ownSectors s.fs.disk := by
  have hdata := h.resting.data
  have h0 : fs'.disk 0 = s.fs.disk 0 := hw.disk_eq h.header fun i => by simp
  have hblocks k (hk : k ∈ List.range (blocks (s.fs.inode s.file).data)) :
      blockOf fs'.disk (s.fs.inode s.file).data k = blockOf s.fs.disk (s.fs.inode s.file).data k :=
      by
    rw [mem_range] at hk
    exact h.onDisk.blockOf_eq hw hk
  unfold ownSectors
  rw [h0, hdata, map_congr_left hblocks]

theorem Placed.wrote (h : Placed owner s)
    (hw : Wrote owner 0 s.fs fs') : Placed owner { s with fs := fs' } := by
  have hown := h.ownSectors_eq hw
  have hdisk := h.onDisk.wrote hw
  have hrest := h.resting.wrote h.header hw
  -- all but the disk is what it was
  rw [hw.rest] at hown hdisk hrest ⊢
  exact ⟨h.cap, h.bits, h.header, h.used, fun x => by rw [h.own x, hown], hdisk, hrest, h.len,
    h.readable⟩

/-- `bitmap_write` returns; with memory it succeeds, and when it succeeds
the file holds the map. -/
theorem Placed.bitmapWrite (h : Placed owner s) (mem : Bool) (junk : Nat → Block) :
    ∃ ok s', bitmapWrite mem junk s = some (ok, s') ∧
      (mem = true → ok = true) ∧ s'.fs.freeMap = s.fs.freeMap ∧
      ownSectors s'.fs.disk = ownSectors s.fs.disk ∧ Placed owner s' ∧
      (ok = true → Mirrors owner s') := by
  have hbits := h.bits
  have hlen : ((0 + byteCnt s.fs.freeMap.bitCnt : Nat) : Int) ≤
      length (s.fs.inode s.file).data := by
    rw [h.len, zero_add, hbits]
  have heof : ((0 + byteCnt s.fs.freeMap.bitCnt : Nat) : Int) ≤
      eof (s.fs.inode s.file).data := by
    rw [h.readable, zero_add, hbits]
  obtain ⟨n, fs', hexec, hall, hw, hbytes⟩ := h.onDisk.inodeWriteAt
    (t := 0) h.resting h.header mem junk s.fs.freeMap.byte hlen heof
  have hino : fs'.inode = s.fs.inode := hw.inode
  have hsize : fs'.size = s.fs.size := hw.size
  have hmap : fs'.freeMap = s.fs.freeMap := by rw [hw.rest]
  have hplaced := h.wrote hw
  refine ⟨n == byteCnt s.fs.freeMap.bitCnt, { s with fs := fs' },
    ?_, ?_, hmap, h.ownSectors_eq hw, hplaced, ?_⟩
  · unfold MapFile.bitmapWrite
    dsimp only
    rw [hexec]
  · intro hmem
    rw [hall hmem]
    exact beq_self_eq_true _
  · intro hok
    have hn := eq_of_beq hok
    refine ⟨hplaced, fun p hp => ?_⟩
    rw [hsize] at hp
    rw [hino, hmap, hbytes p (by rw [h.len]; omega), hn, hbits, if_pos (by omega), Nat.sub_zero]

/-- The first `inode_open` of a boot. -/
theorem inodeOpen_first {t : Tid} {fs : Fs} (hnone : fs.openInodes = [])
    {x : Nat} (hx : x < fs.size) :
    ∃ fs', (inodeOpen x).exec (Fs.act t) fs = some (fs.count, fs') ∧
      fs'.size = fs.size ∧ fs'.disk = fs.disk ∧ fs'.freeMap = fs.freeMap ∧
      fs'.inode fs.count =
        { sector := x, openCnt := 1, removed := false, denyWriteCnt := 0
          data := fs.disk x, lock := none } := by
  unfold inodeOpen
  rw [exec_seq (exec_findOpen ..), hnone, find?_nil, exec_seq (exec_newInode ..), exec_bind,
    exec_loadInode, setInode_self, if_pos (by exact hx), bind_some]
  exact ⟨_, rfl, rfl, rfl, rfl, setInode_self _ _ _⟩

/-- A boot reads the map back. -/
theorem Mirrors.tracks (h : Mirrors owner s) : Tracks s := by
  intro bits inode
  have hpos := h.onDisk.used 0 _ h.header
  have hdata := h.resting.data
  obtain ⟨fs, hfs⟩ : ∃ fs, fs = { boot s.fs.size s.fs.disk inode with
    freeMap := ((create bits s.fs.size).mark 0).mark 1 } := ⟨_, rfl⟩
  have hinit : freeMapInit bits (boot s.fs.size s.fs.disk inode) = some fs := by
    rw [hfs]
    have hcnt := elemCnt_eq h.cap
    refine if_neg (show 4 * elemCnt s.fs.size ≠ 0 from ?_)
    omega
  have hnone : fs.openInodes = [] := hfs ▸ rfl
  have hzero : 0 < fs.size := hfs ▸ hpos
  obtain ⟨fs', hopen, hsize, hdisk, hmap, hino⟩ := inodeOpen_first (t := 0) hnone hzero
  have hsize' : fs'.size = s.fs.size := by rw [hsize, hfs]; rfl
  have hdisk' : fs'.disk = s.fs.disk := by rw [hdisk, hfs]; rfl
  have hino' : (fs'.inode fs.count).data = (s.fs.inode s.file).data := by
    rw [hino, ← hdata, ← hdisk', hdisk]
  have hcnt : fs'.freeMap.bitCnt = s.fs.size := by
    rw [hmap, hfs]
    exact create_bitCnt bits s.fs.size
  have honDisk : OnDisk owner 0 fs.count fs' := by
    constructor
    · rw [hsize']
      exact h.onDisk.used
    · exact h.onDisk.inj
    · rw [hino', hdisk']
      exact h.onDisk.mapped
  have hread := honDisk.readLoop (t := 0) (by rw [hino', h.len, h.readable])
    (byteCnt s.fs.size) (byteCnt s.fs.size) 0 le_rfl
    (by rw [hino', h.readable, zero_add])
  have hbytes : (List.range (byteCnt s.fs.size)).map (fun j =>
      fileByte fs'.disk (fs'.inode fs.count).data (0 + j)) =
      (List.range (byteCnt s.fs.size)).map s.fs.freeMap.byte := by
    refine map_congr_left fun j hj => ?_
    rw [hino', hdisk', zero_add]
    exact h.stored j (mem_range.mp hj)
  rw [hbytes] at hread
  have hbits := h.bits
  refine ⟨(fs'.freeMap.readInto ((List.range (byteCnt
    s.fs.size)).map s.fs.freeMap.byte)).maskLast, ?_, ?_, ?_, ?_⟩
  · unfold remount
    rw [hinit, bind_some]
    unfold freeMapOpen bitmapRead
    rw [hopen]
    dsimp only
    rw [hcnt, if_pos hpos, inodeReadAt, hread]
    dsimp only
    rw [length_map, length_range, beq_self_eq_true]
  · exact hcnt.trans hbits.symm
  · intro i hi
    have hi : i < s.fs.freeMap.bitCnt := by
      rw [hbits, ← hcnt]
      exact hi
    rw [← hbits]
    exact test_readBack (hbits ▸ h.cap) (hcnt.trans hbits.symm) hi
  · intro x hx
    obtain ⟨z, hz⟩ := (h.own x).mpr hx
    have hlt := h.onDisk.used x z hz
    constructor
    · exact lt_of_lt_of_eq hlt hcnt.symm
    · rw [← hbits, test_readBack (hbits ▸ h.cap) (hcnt.trans hbits.symm) (hbits ▸ hlt)]
      exact h.used x z hz

-- ==== the calls

theorem scanAndFlip_cases (b : Bitmap) (cnt : Nat) :
    b.scanAndFlip 0 cnt false = (none, b) ∨
    ∃ x, b.scanAndFlip 0 cnt false = (some x, b.setMultiple x cnt true) := by
  unfold Bitmap.scanAndFlip
  cases b.scan 0 cnt false with
  | none => exact .inl rfl
  | some x => exact .inr ⟨x, rfl⟩

/-- A map that has the sectors of the file in use is written to it. -/
theorem Placed.store (h : Placed owner s) {b : Bitmap} (hcnt : b.bitCnt = s.fs.freeMap.bitCnt)
    (hused : ∀ x ∈ ownSectors s.fs.disk, b.test x = true) (junk : Nat → Block) :
    ∃ s', MapFile.bitmapWrite true junk (s.setMap b) = some (true, s') ∧ Mirrors owner s' := by
  obtain ⟨ok, s', hwrite, hmem, -, -, -, hmirrors⟩ := (h.setMap hcnt hused).bitmapWrite true junk
  obtain rfl := hmem rfl
  exact ⟨s', hwrite, hmirrors rfl⟩

theorem Placed.test_own (h : Placed owner s) (hx : x ∈ ownSectors s.fs.disk) :
    s.fs.freeMap.test x = true := by
  obtain ⟨z, hz⟩ := (h.own x).mpr hx
  exact h.used x z hz

theorem Mirrors.allocate (h : Mirrors owner s) (hs : step (.allocate true junk cnt) s = some s') :
    Mirrors owner s' := by
  rw [MapFile.step, freeMapAllocate] at hs
  rcases scanAndFlip_cases s.fs.freeMap cnt with hscan | ⟨x, hscan⟩
  · rw [hscan] at hs
    cases hs
    exact h
  · obtain ⟨s₁, hwrite, hmirrors⟩ := h.store (b := s.fs.freeMap.setMultiple x cnt true)
      (setMultiple_bitCnt ..) (fun y hy => by rw [test_setMultiple, h.test_own hy, ite_self]) junk
    rw [hscan] at hs
    dsimp only at hs
    rw [hwrite] at hs
    cases hs
    exact hmirrors

theorem Mirrors.release (h : Mirrors owner s) {sector : Nat}
    (hspare : ∀ x ∈ ownSectors s.fs.disk, ¬ (sector ≤ x ∧ x < sector + cnt))
    (hs : step (.release true junk sector cnt) s = some s') : Mirrors owner s' := by
  obtain ⟨s₁, hwrite, hmirrors⟩ := h.store (b := s.fs.freeMap.setMultiple sector cnt false)
    (setMultiple_bitCnt ..)
    (fun y hy => by rw [test_setMultiple, if_neg (hspare y hy), h.test_own hy]) junk
  obtain ⟨-, hs⟩ := ite_none_right_eq_some.mp hs
  rw [hwrite] at hs
  cases hs
  exact hmirrors

/-- A call that spares the file keeps it in step with the map. -/
theorem Mirrors.step (h : Mirrors owner s) {c : Call}
    (hok : Spares c s) (hs : step c s = some s') : Mirrors owner s' := by
  cases c with
  | allocate mem junk cnt =>
    have hmem : mem = true := hok
    subst hmem
    exact h.allocate hs
  | release mem junk sector cnt =>
    obtain ⟨rfl, hspare⟩ : mem = true ∧ _ := hok
    exact h.release hspare hs

-- ==== the new file

/-- What growing a file leaves alone. -/
structure Framed (fs₀ fs : Fs) : Prop where
  size : fs.size = fs₀.size
  openInodes : fs.openInodes = fs₀.openInodes

/-- With nobody else around a file is grown within its frame. -/
theorem grows_alone (t : Tid) (I n₀ : Nat) (fs₀ : Fs) :
    Grows (alone (Fs.act t)) id t [] I n₀ (Framed fs₀) where
  act := fun h => h
  quiet := by
    rintro fs _ h rfl
    exact ⟨⟨rfl, rfl, fun _ h => h, fun _ _ _ => .inl rfl⟩, h⟩
  step := by
    intro c fs fs' v h _ _ _ hg
    exact ⟨trivial, hg.size.trans h.size, hg.openInodes.trans h.openInodes⟩

/-- Only sector 0 has an owner. -/
def headerOnly : Owner := fun x => if x = 0 then some (0, .header) else none

theorem headerOnly_eq {z : Nat × Slot} (h : headerOnly x = some z) : x = 0 ∧ z = (0, .header) := by
  unfold headerOnly at h
  split at h
  case isTrue hx => exact ⟨hx, (Option.some.inj h).symm⟩
  case isFalse => cases h

theorem headerOnly_bounded : Bounded headerOnly 0 0 0 where
  data := by
    intro x i hx
    cases (headerOnly_eq hx).2
  index := by
    intro x slot hx hslot
    cases (headerOnly_eq hx).2
    cases hslot

theorem word_blankInode (hi : i < 12 ∨ i = 14) : word (blankInode dir) i = 0 := by
  have hbyte j (hj : j / 4 < 12 ∨ j / 4 = 14) : blankInode dir j = 0 := by
    unfold blankInode setIsdir setLength setWord ofOff sectorSize
    rw [if_neg (by omega), if_neg (by omega)]
    split
    · simp
    · rfl
  unfold word
  rw [hbyte _ (by omega), hbyte _ (by omega), hbyte _ (by omega), hbyte _ (by omega)]
  rfl

/-- The pointers of a new inode. -/
theorem shaped_blankInode (d : Nat → Block) (dir : Bool) {I : Nat}
    (hb : Bounded owner I 0 0) : Shaped 32 d owner I (blankInode dir) 0 where
  mapped :=
    { cap := by omega
      data := fun i hi => absurd hi (by omega)
      indirect := fun h => absurd h (by omega)
      double := fun h => absurd h (by omega)
      inner := fun k h => absurd h (by omega) }
  tail :=
    { direct := fun i _ hi => word_blankInode (.inl (by omega))
      indirect := fun _ => word_blankInode (.inl (by omega))
      double := fun _ => word_blankInode (.inl (by omega))
      inner := fun h => absurd h (by omega) }
  bounded := hb

/-- The map of a new file system. -/
structure Fresh (n : Nat) (b : Bitmap) : Prop where
  bits : b.bitCnt = n
  zero : b.test 0 = true
  free : b.freeCount = n - 2

theorem freeCount_create (junk : Nat → BitVec 32) (n : Nat) : (create junk n).freeCount = n := by
  unfold freeCount
  rw [create_bitCnt]
  have hall i (hi : i ∈ List.range n) : (!(create junk n).test i) = true := by
    rw [test_create (mem_range.mp hi)]
    rfl
  rw [countP_eq_length.mpr hall, length_range]

theorem fresh_init (junk : Nat → BitVec 32) (hn : 0 < n) :
    Fresh n (((create junk n).mark 0).mark 1) := by
  have hcnt : (create junk n).bitCnt = n := create_bitCnt junk n
  have hmark0 := test_mark (create junk n) 0
  have hmark1 := test_mark ((create junk n).mark 0) 1
  have hfree := freeCount_create junk n
  have hfree0 : ((create junk n).mark 0).freeCount + 1 = (create junk n).freeCount :=
    freeCount_of_set rfl (by rw [hcnt]; exact hn) (test_create hn) hmark0
  refine ⟨hcnt, ?_, ?_⟩
  · rw [hmark1, hmark0]
    rfl
  · by_cases h1 : 1 < n
    · have hclear : ((create junk n).mark 0).test 1 = false := by
        rw [hmark0, if_neg (by decide)]
        exact test_create h1
      have hlt : 1 < ((create junk n).mark 0).bitCnt := by
        rw [← hcnt] at h1
        exact h1
      have hfree1 :
          (((create junk n).mark 0).mark 1).freeCount + 1 = ((create junk n).mark 0).freeCount :=
        freeCount_of_set rfl hlt hclear hmark1
      omega
    · -- the bit of sector 1 is past the end of the map
      have hsame : (((create junk n).mark 0).mark 1).freeCount =
          ((create junk n).mark 0).freeCount := by
        refine countP_congr fun i hi => ?_
        have hi : i < n := by
          rw [← hcnt]
          exact mem_range.mp hi
        rw [hmark1, if_neg (by omega)]
      omega

/-- Before the file is made, only its inode has a sector. -/
theorem Fresh.start (h : Fresh fs.size fs.freeMap) (hpos : 0 < fs.size)
    (hcap : fs.size < 4294967296) :
    In (Framed fs) id (At [] 0 0 [] headerOnly fs.disk (fs.size - 2)) fs := by
  refine ⟨⟨rfl, rfl⟩, ?_, h.free, ?_, ?_, ?_, nodup_nil⟩
  · constructor
    · exact hcap
    · exact h.bits
    · intro x z hx
      rw [(headerOnly_eq hx).1]
      exact ⟨hpos, h.zero⟩
    · intro x y z hx hy
      rw [(headerOnly_eq hx).1, (headerOnly_eq hy).1]
    · nofun
    · nofun
  · intro x J slot hx hslot
    cases (headerOnly_eq hx).2
    cases hslot
  · intro x i hx
    cases (headerOnly_eq hx).2
  · nofun

/-- The inode that `inode_create` writes. -/
def created (ino : Block) (len : Int) : Block := setEof (setLength ino len) len

theorem created_word (hi : i < 12) : word (created ino len) i = word ino i := by
  unfold created setEof setLength
  rw [word_setWord_ne (by omega), word_setWord_ne (by omega)]

theorem length_created (h : IsOff len) : length (created ino len) = len := by
  have hword : word (created ino len) 14 = word (setLength ino len) 14 :=
    word_setWord_ne (by decide)
  unfold Inode.length
  rw [hword]
  exact length_setLength h

theorem isdir_created : isdir (created ino len) = isdir ino := by
  unfold isdir created setEof setLength setWord sectorSize
  rw [if_neg (by omega), if_neg (by omega)]

/-- The sectors of the file, after it has been made. -/
structure Made (owner : Owner) (fs : Fs) (size : Nat) : Prop where
  header : owner 0 = some (0, .header)
  used : ∀ x z, owner x = some z → x < fs.size ∧ fs.freeMap.test x = true
  inj : ∀ x y z, owner x = some z → owner y = some z → x = y
  mapped : Mapped fs.disk owner 0 (fs.disk 0) (blocks (fs.disk 0))
  own : ∀ x, (∃ z, owner x = some z) ↔ x ∈ ownSectors fs.disk
  bits : fs.freeMap.bitCnt = fs.size
  len : length (fs.disk 0) = size
  readable : eof (fs.disk 0) = size
  regular : isdir (fs.disk 0) = false

/-- The owner has the sectors of the file and no others. -/
theorem own_iff (hinj : ∀ x y z, owner x = some z → owner y = some z → x = y)
    (hheader : owner 0 = some (0, .header)) (honly : ∀ x J slot, owner x = some (J, slot) → J = 0)
    (hm : Mapped d owner 0 (d 0) (blocks (d 0)))
    (hb : Bounded owner 0 (blocks (d 0)) (blocks (d 0))) (hcap : blocks (d 0) ≤ 138) (x : Nat) :
    (∃ z, owner x = some z) ↔ x ∈ ownSectors d := by
  unfold ownSectors
  rw [List.mem_append, List.mem_cons, List.mem_map]
  constructor
  · rintro ⟨⟨J, slot⟩, hx⟩
    have hJ := honly x J slot hx
    subst hJ
    cases slot with
    | header => exact .inl (.inl (hinj _ _ _ hx hheader))
    | data i =>
      have hi := hb.data x i hx
      exact .inr ⟨i, mem_range.mpr hi, hinj _ _ _ (hm.data i hi) hx⟩
    | indirect =>
      have hlt : 10 < blocks (d 0) := hb.index x _ hx rfl
      rw [if_pos hlt, mem_singleton]
      exact .inl (.inr (hinj _ _ _ hx (hm.indirect hlt)))
    | double =>
      have hlt : 138 < blocks (d 0) := hb.index x _ hx rfl
      omega
    | inner k =>
      have hlt : 138 + 128 * k < blocks (d 0) := hb.index x _ hx rfl
      omega
  · rintro ((rfl | hx) | ⟨i, hi, rfl⟩)
    · exact ⟨_, hheader⟩
    · split at hx
      case isTrue hlt =>
        rw [mem_singleton] at hx
        rw [hx]
        exact ⟨_, hm.indirect hlt⟩
      case isFalse => cases hx
    · exact ⟨_, hm.data i (mem_range.mp hi)⟩

/-- The inode of the file is written over whatever was in sector 0. -/
theorem Made.of_allocated {fs₀ : Fs} {g : Grown} {len f : Nat} (hn : n ≤ 138)
    (hlen : bytesToSectors len = n) (hoff : IsOff len)
    (hal : Allocated 32 0 headerOnly fs₀.disk (blankInode false) n g owner d)
    (hat : At [] 0 0 [] owner d f fs) : Made owner (fs.setDisk 0 (created g.ino len)) len := by
  have hheader : owner 0 = some (0, .header) := hal.grew.ext 0 _ (if_pos rfl)
  have h0 : (fs.setDisk 0 (created g.ino len)).disk 0 = created g.ino len := setDisk_self fs 0 _
  have hblocks : blocks (created g.ino len) = n := by
    unfold blocks
    rw [length_created hoff, hlen]
  have hmapped : Mapped (fs.setDisk 0 (created g.ino len)).disk owner 0 (created g.ino len) n := by
    refine (hal.shaped.mapped.congr fun i hi => created_word hi).of_index
      fun x J slot hx hslot => ?_
    have hne : x ≠ 0 := by
      rintro rfl
      rw [hheader] at hx
      cases hx
      cases hslot
    rw [setDisk_ne fs _ hne]
    exact hat.index x J slot hx hslot
  have hmapped' : Mapped (fs.setDisk 0 (created g.ino len)).disk owner 0
      ((fs.setDisk 0 (created g.ino len)).disk 0)
      (blocks ((fs.setDisk 0 (created g.ino len)).disk 0)) := by
    rw [h0, hblocks]
    exact hmapped
  have honly x J slot (hx : owner x = some (J, slot)) : J = 0 := by
    by_contra hJ
    have := headerOnly_eq (hal.grew.only x J slot hJ hx)
    exact hJ (congrArg Prod.fst this.2)
  constructor
  · exact hheader
  · exact hat.holds.used
  · exact hat.holds.inj
  · exact hmapped'
  · refine own_iff hat.holds.inj hheader honly hmapped' ?_ ?_
    · rw [h0, hblocks]
      exact hal.shaped.bounded
    · rw [h0, hblocks]
      exact hn
  · exact hat.holds.bits
  · rw [h0]
    exact length_created hoff
  · rw [h0]
    exact eof_setEof hoff
  · rw [h0, isdir_created]
    unfold isdir
    rw [hal.kept 48 le_rfl]
    rfl

/-- `inode_create` of the map's file, when it succeeds: there are three
sectors at least, and then there is room. -/
theorem Fresh.create (h : Fresh fs.size fs.freeMap) (hpos : 0 < fs.size)
    (hcap : fs.size < 4294967265) (hfit : bytesToSectors (byteCnt fs.size) ≤ 138)
    (hexec : (inodeCreate junk 0 (byteCnt fs.size) false).exec (Fs.act 0) fs = some (true, fs')) :
    Framed fs fs' ∧ ∃ owner, Made owner fs' (byteCnt fs.size) := by
  obtain ⟨g, fs₁, halloc, hok, rfl⟩ := inodeCreate_exec hexec
  have hG := grows_alone 0 0 0 fs
  have hstart := h.start hpos (by omega)
  have hblank := blocks_blankInode false
  have hbytes : byteCnt fs.size = 4 * ((fs.size + 31) / 32) := by
    unfold byteCnt
    rw [elemCnt_eq hcap]
  have hn : bytesToSectors (byteCnt fs.size) = (byteCnt fs.size + 511) / 512 := by
    rw [bytesToSectors_eq (by omega) (by omega)]
    omega
  obtain ⟨n, hndef⟩ : ∃ n, n = bytesToSectors (byteCnt fs.size) := ⟨_, rfl⟩
  rw [← hndef] at halloc hn hfit
  by_cases hsmall : fs.size < 3
  · -- no sector is free
    exfalso
    have hfree := h.free
    rcases sectorAllocate_first (by omega) (le_trans hfit (by decide)) halloc with
      ⟨-, hfail, -⟩ | ⟨hne, -⟩
    · simp [hok] at hfail
    · omega
  · have hcost : fs.size - 2 + cost (blocks (blankInode false)) =
        fs.size - 2 - cost n + cost (blocks (blankInode false) + n) := by
      unfold cost
      omega
    have hshaped :
        Shaped 32 fs.disk headerOnly 0 (blankInode false) (blocks (blankInode false)) := by
      rw [hblank]
      exact shaped_blankInode fs.disk false headerOnly_bounded
    have hlev : Levels 32 (blocks (blankInode false)) (blocks (blankInode false) + n) :=
      ⟨by omega, by omega⟩
    have htriple := hG.sectorAllocate junk [] (if_pos rfl) hshaped hlev hcost
    obtain ⟨owner, d, hal, hframe, hat⟩ := htriple.exec hstart halloc
    rw [hblank, zero_add] at hal
    refine ⟨⟨hframe.size, hframe.openInodes⟩, owner, ?_⟩
    exact Made.of_allocated hfit hndef.symm ⟨by omega, by omega⟩ hal hat

/-- The file is opened. -/
theorem Made.opened (h : Made owner fs (byteCnt fs.size))
    (hcap : fs.size < 4294967265) (hnone : fs.openInodes = []) {r : Nat}
    (hopen : (inodeOpen 0).exec (Fs.act 0) fs = some (r, fs')) :
    Placed owner ⟨{ fs' with mapFile := true }, r⟩ := by
  obtain ⟨fs₁, hexec, hsize, hdisk, hmap, hino⟩ := inodeOpen_first (t := 0)
    hnone (h.used 0 _ h.header).1
  rw [hexec] at hopen
  cases hopen
  -- the fields that stay are those of `fs`
  obtain ⟨_, _, _, _, _, inode, _, _⟩ := fs'
  cases hsize
  cases hdisk
  cases hmap
  change inode fs.count = _ at hino
  have hdata : (inode fs.count).data = fs.disk 0 := by rw [hino]
  refine ⟨hcap, h.bits, h.header, fun x z hx => (h.used x z hx).2, h.own,
    ⟨fun x z hx => (h.used x z hx).1, h.inj, ?_⟩, ⟨?_, hdata.symm, ?_, ?_, ?_⟩, ?_, ?_⟩
  · show Mapped fs.disk owner 0 (inode fs.count).data (blocks (inode fs.count).data)
    rw [hdata]
    exact h.mapped
  · show (inode fs.count).sector = 0
    rw [hino]
  · show isdir (inode fs.count).data = false
    rw [hdata]
    exact h.regular
  · show (inode fs.count).denyWriteCnt = 0
    rw [hino]
  · show (inode fs.count).lock = none
    rw [hino]
  · show length (inode fs.count).data = byteCnt fs.size
    rw [hdata]
    exact h.len
  · show eof (inode fs.count).data = byteCnt fs.size
    rw [hdata]
    exact h.readable

/-- `free_map_init` succeeds only where the map has a word. -/
theorem freeMapInit_fresh {bits : Nat → BitVec 32}
    (hsize : fs.size < 4294967296) (h : freeMapInit bits fs = some fs') :
    fs'.size = fs.size ∧ fs'.openInodes = fs.openInodes ∧
      (0 < fs.size ∧ fs.size < 4294967265) ∧
      Fresh fs'.size fs'.freeMap := by
  obtain ⟨hbytes, h⟩ := ite_none_left_eq_some.mp h
  injection h with h
  have hbound : 0 < fs.size ∧ fs.size < 4294967265 := by
    unfold byteCnt elemCnt at hbytes
    omega
  rw [← h]
  exact ⟨rfl, rfl, hbound, fresh_init bits hbound.1⟩

/-- The three parts of `free_map_create`. -/
theorem freeMapCreate_some {mem : Bool} (h : freeMapCreate mem junk fs = some s) :
    ∃ fs₁ r fs₂, (inodeCreate junk 0 (byteCnt fs.freeMap.bitCnt)
        false).exec (Fs.act 0) fs = some (true, fs₁) ∧
      (inodeOpen 0).exec (Fs.act 0) fs₁ = some (r, fs₂) ∧
      bitmapWrite mem junk ⟨{ fs₂ with mapFile := true }, r⟩ = some (true, s) := by
  unfold freeMapCreate at h
  rw [bind_eq_bind, bind_eq_some_iff] at h
  obtain ⟨⟨ok, fs₁⟩, hcreate, h⟩ := h
  cases ok with
  | false => simp at h
  | true =>
    rw [if_pos rfl, bind_eq_bind, bind_eq_some_iff] at h
    obtain ⟨⟨r, fs₂⟩, hopen, h⟩ := h
    rw [bind_eq_bind, bind_eq_some_iff] at h
    obtain ⟨⟨ok, s'⟩, hwrite, h⟩ := h
    cases ok with
    | false => simp at h
    | true =>
      cases h
      exact ⟨fs₁, r, fs₂, hcreate, hopen, hwrite⟩

/-- A new file holds the map. -/
theorem Created.mirrors (h : Created s) : ∃ owner, Mirrors owner s := by
  obtain ⟨size, disk, inode, bits, mem, junk, hsize, hfit, hs⟩ := h
  cases hinit : freeMapInit bits (boot size disk inode) with
  | none => simp [hinit] at hs
  | some fs =>
    obtain ⟨hsz, hnone, hbound, hfresh⟩ := freeMapInit_fresh hsize hinit
    change fs.size = size at hsz
    rw [← hsz] at hbound hfit
    rw [hinit, bind_some] at hs
    obtain ⟨fs₁, r, fs₂, hcreate, hopen, hwrite⟩ := freeMapCreate_some hs
    rw [hfresh.bits] at hcreate
    obtain ⟨hframe, owner, hmade⟩ := hfresh.create hbound.1 hbound.2 hfit hcreate
    rw [← hframe.size] at hmade hbound
    have hplaced := hmade.opened hbound.2 (hframe.openInodes.trans hnone) hopen
    obtain ⟨ok, s', hwrite', -, -, -, -, hmirrors⟩ := hplaced.bitmapWrite mem junk
    rw [hwrite] at hwrite'
    cases hwrite'
    exact ⟨owner, hmirrors rfl⟩

-- ==== the runs

/-- In a run that has memory for the bounce buffer, and in which nobody
gives back the sectors of the map's file, the file always holds the
map. -/
theorem stored_map_tracks_memory {s : State} (h : Reach Created step Spares s) : Tracks s := by
  have hinv : ∃ owner, Mirrors owner s := by
    refine Reach.induct (P := fun s => ∃ owner, Mirrors owner s) (fun s hs => hs.mirrors) ?_ s h
    rintro c s s' - ⟨owner, hm⟩ hok hs
    exact ⟨owner, hm.step hok hs⟩
  obtain ⟨owner, hm⟩ := hinv
  exact hm.tracks

/-- Memory that happens to be zero. -/
def zeroInode : MemInode where
  sector := 0
  openCnt := 0
  removed := false
  denyWriteCnt := 0
  data := zeros
  lock := none

/-- The file system of a blank device. -/
def blankDevice (size : Nat) : Option State :=
  (freeMapInit (fun _ => 0) (boot size (fun _ => zeros)
    fun _ => zeroInode)).bind (freeMapCreate true fun _ => zeros)

/-- A run from a blank device. -/
theorem reach_of_blankDevice (ok : Call → State → Prop)
    [∀ c s, Decidable (ok c s)] (size : Nat) (acts : List Call)
    (P : State → Prop) (hsize : size < 4294967296 ∧ bytesToSectors (byteCnt size) ≤ 138)
    (hrun : ∃ s ∈ blankDevice size, ∃ s' ∈ runAll (guarded step ok) acts s, P s') :
    ∃ s, Reach Created step ok s ∧ P s := by
  obtain ⟨s, hs, hrun⟩ := hrun
  have h0 : Reach Created step ok s := .init ⟨size, _, _, _, _, _, hsize.1, hsize.2, hs⟩
  exact h0.of_runAll acts P hrun

/-- A sector is taken and given back. -/
theorem stored_map_after_release :
    ∃ s, Reach Created step Spares s ∧ s.fs.freeMap.test 4 = true ∧
      s.fs.freeMap.test 3 = false ∧ Tracks s := by
  obtain ⟨s, hs, h4, h3⟩ := reach_of_blankDevice Spares 5
    [.allocate true (fun _ => zeros) 2, .release true (fun _ => zeros) 3 1]
    (fun s => s.fs.freeMap.test 4 = true ∧ s.fs.freeMap.test 3 = false)
    (by decide) (by decide +kernel)
  exact ⟨s, hs, h4, h3, stored_map_tracks_memory hs⟩

/-- Without memory for the bounce buffer `free_map_release` frees the
sector in memory and leaves it in use on the disk. -/
theorem release_without_memory_stale : ∃ s, Reach Created step anyStep s ∧ ¬ Tracks s := by
  obtain ⟨s, hs, hfree, hfive, b, hb, hused⟩ := reach_of_blankDevice anyStep 5
    [.allocate true (fun _ => zeros) 1, .release false (fun _ => zeros) 3 1]
    (fun s => s.fs.freeMap.test 3 = false ∧ s.fs.freeMap.bitCnt = 5 ∧
      ∃ b ∈ remount (fun _ => 0) (fun _ => zeroInode) s, b.test 3 = true)
    (by decide) (by decide +kernel)
  refine ⟨s, hs, fun htracks => ?_⟩
  obtain ⟨b', hb', hcnt, htest, -⟩ := htracks (fun _ => 0) fun _ => zeroInode
  obtain rfl := some.inj (hb.symm.trans hb')
  have h3 := htest 3 (by rw [hcnt, hfive]; decide)
  simp [hfree, hused] at h3

end MapFile

end Pintos
