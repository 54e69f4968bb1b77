/-
The bytes of a file, read and written with nobody else around.

`fileByte` is byte `p` of an open file, by its pointers. The loops of
`inode_read_at` and `inode_write_at` are run to their end here: what they
return, and what the file holds afterwards, byte by byte.

The owner of the sectors carries the argument. A data block written is a
data block to the owner, so the index blocks and the other blocks are
other sectors and stay (`Wrote`).
-/
import Pintos.Lib.Alone
import Pintos.Filesys.Access

namespace Pintos.Inode

open Resume Prog List Option

-- ==== commands

section Exec

variable (t : Tid) (fs : Fs) (r x : Nat)

theorem exec_blockRead (hx : x < fs.size) :
    (blockRead x).exec (Fs.act t) fs = some (fs.disk x, fs) :=
  (exec_call (C := Cmd) (Cmd.blockRead x) fs).trans (if_pos hx)

theorem exec_blockWrite (b : Block) (hx : x < fs.size) :
    (blockWrite x b).exec (Fs.act t) fs = some ((), fs.setDisk x b) :=
  (exec_call (C := Cmd) (Cmd.blockWrite x b) fs).trans (if_pos hx)

theorem exec_acquire (h : (fs.inode r).lock = none) :
    (acquire r).exec (Fs.act t) fs = some ((), fs.setInode r { fs.inode r with lock := some t }) :=
  (exec_call (C := Cmd) (Cmd.acquire r) fs).trans (if_pos h)

theorem exec_release (h : (fs.inode r).lock = some t) :
    (release r).exec (Fs.act t) fs = some ((), fs.setInode r { fs.inode r with lock := none }) :=
  (exec_call (C := Cmd) (Cmd.release r) fs).trans (if_pos h)

end Exec

-- ==== bytes

/-- Byte `p` of the file with the pointers `ino`. -/
def fileByte (disk : Nat → Block) (ino : Block) (p : Nat) : UInt8 :=
  disk (blockOf disk ino (p / 512)) (p % 512)

/-- The file open at `r` is the one whose blocks the owner gives to `I`. -/
structure OnDisk (owner : Owner) (I r : Nat) (fs : Fs) : Prop where
  used : ∀ x z, owner x = some z → x < fs.size
  inj : ∀ x y z, owner x = some z → owner y = some z → x = y
  mapped : Mapped fs.disk owner I (fs.inode r).data (blocks (fs.inode r).data)

/-- Only data blocks of `I` have changed. -/
structure Wrote (owner : Owner) (I : Nat) (fs fs' : Fs) : Prop where
  rest : fs' = { fs with disk := fs'.disk }
  disk : ∀ x, fs'.disk x = fs.disk x ∨ ∃ i, owner x = some (I, .data i)

section Wrote

variable {owner : Owner} {I r : Nat} {fs fs' fs'' : Fs}

theorem Wrote.refl (owner : Owner) (I : Nat) (fs : Fs) : Wrote owner I fs fs :=
  ⟨rfl, fun _ => .inl rfl⟩

section

variable (h : Wrote owner I fs fs')

include h

theorem Wrote.trans (h' : Wrote owner I fs' fs'') : Wrote owner I fs fs'' where
  rest := by rw [h'.rest, h.rest]
  disk := by
    intro x
    rcases h'.disk x with hx | hx
    · rw [hx]
      exact h.disk x
    · exact .inr hx

theorem Wrote.inode : fs'.inode = fs.inode := by rw [h.rest]

theorem Wrote.size : fs'.size = fs.size := by rw [h.rest]

theorem Wrote.keeps : Keeps owner fs.disk fs'.disk := by
  intro x
  rcases h.disk x with hx | ⟨i, hx⟩
  · exact .inl hx
  · exact .inr (.inr (.inl ⟨I, i, hx⟩))

/-- A sector with another slot stays. -/
theorem Wrote.disk_eq {x J : Nat} {slot : Slot} (hx : owner x = some (J, slot))
    (hslot : ∀ i, slot ≠ .data i) : fs'.disk x = fs.disk x := by
  rcases h.disk x with hd | ⟨i, hd⟩
  · exact hd
  · rw [hx] at hd
    cases hd
    exact absurd rfl (hslot i)

theorem Wrote.index : SameIndex owner fs.disk fs'.disk := by
  intro x J slot hx hslot
  refine h.disk_eq hx ?_
  rintro i rfl
  cases hslot

theorem Holds.wrote {live : List Nat} (hh : Holds live owner fs) : Holds live owner fs' :=
  hh.keeps h.size (by rw [h.rest]) (by rw [h.rest]; exact fun _ hx => hx) h.keeps

end

theorem Holds.onDisk {live : List Nat} (h : Holds live owner fs)
    (hm : Mapped fs.disk owner I (fs.inode r).data (blocks (fs.inode r).data)) :
    OnDisk owner I r fs :=
  ⟨fun x z hx => (h.used x z hx).1, h.inj, hm⟩

/-- Writing its data leaves a file where it is. -/
theorem OnDisk.wrote (h : OnDisk owner I r fs) (hw : Wrote owner I fs fs') :
    OnDisk owner I r fs' where
  used := by
    rw [hw.size]
    exact h.used
  inj := h.inj
  mapped := by
    rw [hw.inode]
    exact h.mapped.keeps hw.keeps

/-- The blocks of the file are where they were. -/
theorem OnDisk.blockOf_eq (h : OnDisk owner I r fs) (hw : Wrote owner I fs fs') {k : Nat}
    (hk : k < blocks (fs.inode r).data) :
    blockOf fs'.disk (fs.inode r).data k = blockOf fs.disk (fs.inode r).data k :=
  (h.mapped.follows hw.keeps).blockOf_eq hk

end Wrote

-- ==== the sector

section Loops

variable {owner : Owner} {I r t : Nat} {fs : Fs}

variable {k pos size offset chunk p : Nat}

/-- The index blocks on the way to block `k`. -/
def walk (disk : Nat → Block) (data : Block) (k : Nat) : List Nat :=
  if k < 10 then []
  else if k < 138 then [word data 10]
  else [word data 11, word (disk (word data 11)) ((k - 138) / 128)]

/-- The walk of the index returns where it leads, if it stays on the
device. -/
theorem exec_followPointers (t : Tid) (fs : Fs) (data : Block) (k : Nat) :
    (followPointers data k).exec (Fs.act t) fs =
      if ∀ x ∈ walk fs.disk data k, x < fs.size then some (blockOf fs.disk data k, fs)
      else none := by
  have hread (x : Nat) : (blockRead x).exec (Fs.act t) fs =
      if x < fs.size then some (fs.disk x, fs) else none :=
    exec_call (C := Cmd) (Cmd.blockRead x) fs
  unfold followPointers directNum blocksInIndirect blockOf walk
  by_cases h1 : k < 10
  · rw [if_pos h1, if_pos h1, if_pos h1, if_pos (by simp)]
    rfl
  rw [if_neg h1, if_neg h1, if_neg h1]
  by_cases h2 : k < 138
  · rw [if_pos (by omega), if_pos h2, if_pos h2, exec_bind, hread]
    simp only [List.mem_singleton, forall_eq]
    split <;> rfl
  · have hsub : k - 10 - 128 = k - 138 := by omega
    rw [if_neg (by omega), if_neg h2, if_neg h2, hsub, exec_bind, hread]
    simp only [List.mem_cons, List.not_mem_nil, or_false, forall_eq_or_imp, forall_eq]
    by_cases hdouble : word data 11 < fs.size
    · rw [if_pos hdouble, Option.bind_some, exec_bind, hread]
      simp only [hdouble, true_and]
      split <;> rfl
    · rw [if_neg hdouble, if_neg fun hboth => hdouble hboth.1]
      rfl

/-- The sector is one of the `n` blocks of the file, or an index block
that these need. -/
def BelongsTo (owner : Owner) (I n x : Nat) : Prop :=
  ∃ slot, owner x = some (I, slot) ∧ slot ≠ .header ∧ slot.start < n

/-- Block `n` is the first under an index block of its own. -/
def AtLevel (n : Nat) : Prop := n = 10 ∨ 138 ≤ n ∧ (n - 138) % 128 = 0

instance (n : Nat) : Decidable (AtLevel n) := inferInstanceAs (Decidable (_ ∨ _))

/-- The walk to a block leads over index blocks of the file, also to the
block after the last one if that needs no other index block. -/
theorem Mapped.walk {disk : Nat → Block} {data : Block} {n x : Nat}
    (hm : Mapped disk owner I data n) (hk : k < n ∨ k = n ∧ ¬ AtLevel n)
    (hx : x ∈ walk disk data k) : BelongsTo owner I n x := by
  unfold AtLevel at hk
  unfold Inode.walk at hx
  split at hx
  · cases hx
  split at hx
  · obtain rfl := List.mem_singleton.mp hx
    have hn : 10 < n := by omega
    exact ⟨.indirect, hm.indirect hn, by simp, hn⟩
  · have hn : 138 + 128 * ((k - 138) / 128) < n := by omega
    rcases List.mem_cons.mp hx with rfl | hx
    · exact ⟨.double, hm.double (by omega), by simp, show 138 < n by omega⟩
    · obtain rfl := List.mem_singleton.mp hx
      exact ⟨_, hm.inner _ hn, by simp, hn⟩

/-- The walk of the index, for a block in use. -/
theorem OnDisk.followPointers (h : OnDisk owner I r fs) (hk : k < blocks (fs.inode r).data) :
    (followPointers (fs.inode r).data k).exec (Fs.act t) fs =
      some (blockOf fs.disk (fs.inode r).data k, fs) := by
  rw [exec_followPointers, if_pos]
  intro x hx
  obtain ⟨slot, hown, -⟩ := h.mapped.walk (.inl hk) hx
  exact h.used x _ hown

/-- `byte_to_sector` finds the block of a byte of the file. -/
theorem OnDisk.byteToSector (h : OnDisk owner I r fs)
    (hpos : (pos : Int) < length (fs.inode r).data) : (byteToSector r pos).exec (Fs.act t) fs =
      some (blockOf fs.disk (fs.inode r).data (pos / 512), fs) := by
  have hwalk := h.followPointers (t := t) (block_lt h.mapped.cap hpos)
  unfold Inode.byteToSector
  rw [exec_seq (exec_getInode ..), if_pos (le_of_lt hpos)]
  exact hwalk

-- ==== reading

/-- One round, when what is asked for is there. -/
theorem chunkSize_eq {ofs : Nat} {left : Int} (hofs : ofs < 512) (hleft : (size : Int) ≤ left) :
    chunkSize size left ofs = min size (512 - ofs) := by
  unfold chunkSize sectorSize
  omega

/-- The bytes from `offset` on are those of one sector and the rest. -/
theorem fileByte_split (disk : Nat → Block) (ino : Block) (hle : chunk ≤ size)
    (hchunk : offset % 512 + chunk ≤ 512) :
    (List.range size).map (fun j => fileByte disk ino (offset + j)) =
      (List.range chunk).map (fun j => disk (blockOf disk ino (offset / 512)) (offset % 512 + j)) ++
      (List.range (size - chunk)).map fun j => fileByte disk ino (offset + chunk + j) := by
  obtain ⟨rest, rfl⟩ := Nat.exists_eq_add_of_le hle
  rw [Nat.add_sub_cancel_left, List.range_add, List.map_append, List.map_map]
  congr 1
  · refine List.map_congr_left fun j hj => ?_
    have hj := mem_range.mp hj
    have hdiv : (offset + j) / 512 = offset / 512 := by omega
    have hmod : (offset + j) % 512 = offset % 512 + j := by omega
    unfold fileByte
    rw [hdiv, hmod]
  · refine List.map_congr_left fun j _ => ?_
    show fileByte disk ino (offset + (chunk + j)) = _
    rw [add_assoc]

/-- A position past the length has no sector. -/
theorem byteToSector_past (h : length (fs.inode r).data < (pos : Int)) : (byteToSector r pos).exec
    (Fs.act t) fs = some (noSector, fs) := by
  unfold byteToSector
  rw [exec_seq (exec_getInode ..), if_neg (not_le.mpr h)]
  rfl

/-- What the walk to the end of the file finds in place of index blocks
are sectors of the device. -/
def EndOnDevice (fs : Fs) (data : Block) : Prop :=
  ∀ x ∈ walk fs.disk data ((length data).toNat / 512), x < fs.size

instance (fs : Fs) (data : Block) : Decidable (EndOnDevice fs data) :=
  inferInstanceAs (Decidable (∀ x ∈ _, _))

/-- The lookup of the end of the file. -/
theorem byteToSector_end (hpos : (pos : Int) = length (fs.inode r).data) :
    (byteToSector r pos).exec (Fs.act t) fs = if EndOnDevice fs (fs.inode r).data then
      some (blockOf fs.disk (fs.inode r).data (pos / 512), fs) else none := by
  have hlen : (length (fs.inode r).data).toNat = pos := by omega
  have hiff : EndOnDevice fs (fs.inode r).data ↔
      ∀ x ∈ walk fs.disk (fs.inode r).data (pos / 512), x < fs.size := by
    unfold EndOnDevice
    rw [hlen]
  unfold byteToSector
  rw [exec_seq (exec_getInode ..), if_pos (le_of_eq hpos)]
  simp only [hiff]
  exact exec_followPointers t fs _ _

/-- Every lookup returns. -/
theorem OnDisk.lookup_returns (h : OnDisk owner I r fs)
    (hend : length (fs.inode r).data = (pos : Int) → EndOnDevice fs (fs.inode r).data) :
    ∃ x, (Inode.byteToSector r pos).exec (Fs.act t) fs = some (x, fs) := by
  rcases lt_trichotomy (length (fs.inode r).data) (pos : Int) with hpast | heq | hin
  · exact ⟨_, byteToSector_past hpast⟩
  · exact ⟨_, (byteToSector_end heq.symm).trans (if_pos (hend heq))⟩
  · exact ⟨_, h.byteToSector hin⟩

/-- A read that comes to the position behind the last byte. -/
def Comes (data : Block) (size offset : Nat) : Prop :=
  (offset : Int) ≤ length data ∧ length data < (offset + size : Nat) ∧
    (eof data = length data ∨ (offset : Int) = length data)

instance (data : Block) (size offset : Nat) : Decidable (Comes data size offset) :=
  inferInstanceAs (Decidable (_ ∧ _))

/-- One round takes a part of what is left, and none only when none is. -/
theorem chunkSize_part (size offset : Nat) (e : Int) :
    chunkSize size (e - offset) (offset % 512) ≤
        min size (e - offset).toNat ∧
      offset % 512 + chunkSize size (e - offset) (offset % 512) ≤ 512 ∧
      (chunkSize size (e - offset) (offset % 512) = 0 → min size (e - offset).toNat = 0) := by
  unfold chunkSize sectorSize
  omega

theorem left_after {e : Int} (hle : chunk ≤ min size (e - offset).toNat) :
    min (size - chunk) (e - (offset + chunk : Nat)).toNat =
      min size (e - offset).toNat - chunk := by
  omega

section

variable (h : OnDisk owner I r fs)

include h

/-- The loop of `inode_read_at` returns what there is of the file. -/
theorem OnDisk.readAll (hlen : eof (fs.inode r).data ≤ length (fs.inode r).data)
    (fuel size offset : Nat) (hfuel : size ≤ fuel)
    (hend : Comes (fs.inode r).data size offset → EndOnDevice fs (fs.inode r).data) :
    (Inode.readLoop r fuel size offset).exec (Fs.act t) fs =
      some ((List.range (min size (eof (fs.inode r).data - offset).toNat)).map fun j =>
          fileByte fs.disk (fs.inode r).data (offset + j), fs) := by
  induction fuel generalizing size offset with
  | zero =>
    obtain rfl : size = 0 := by omega
    rw [Nat.zero_min]
    rfl
  | succ fuel ih =>
    unfold Inode.readLoop
    by_cases hsize : size = 0
    · rw [if_pos hsize, hsize, Nat.zero_min]
      rfl
    unfold Comes at hend ih
    obtain ⟨x, hx⟩ := h.lookup_returns (t := t) fun (heq : _ = (offset : Int)) => hend (by omega)
    rw [if_neg hsize, exec_seq hx, exec_seq (exec_getInode ..)]
    obtain ⟨hle, hofs, hnone⟩ := chunkSize_part size offset (eof (fs.inode r).data)
    dsimp only [sectorSize]
    generalize chunkSize size (eof (fs.inode r).data - offset)
      (offset % 512) = chunk at hle hofs hnone ⊢
    by_cases hzero : chunk = 0
    · rw [if_pos hzero, hnone hzero]
      rfl
    have hpos : (offset : Int) < length (fs.inode r).data := by omega
    have hblock := h.mapped.data _ (block_lt h.mapped.cap hpos)
    rw [h.byteToSector hpos] at hx
    cases hx
    rw [if_neg hzero, exec_seq (exec_blockRead t fs _ (h.used _ _ hblock)),
      exec_seq (ih _ _ (by omega) fun hcomes => hend (by omega)), left_after hle,
      fileByte_split fs.disk (fs.inode r).data hle hofs]
    rfl

/-- The loop of `inode_read_at` looks up the position behind the last byte
when it comes to it. -/
theorem OnDisk.readLoop_enters (hlen : eof (fs.inode r).data ≤ length (fs.inode r).data)
    (fuel size offset : Nat) (hfuel : size ≤ fuel) (hcomes : Comes (fs.inode r).data size offset) :
    Enters (Fs.act t) (Inode.readLoop r fuel size offset) fs
      (Inode.byteToSector r (length (fs.inode r).data).toNat) fs := by
  unfold Comes at hcomes
  induction fuel generalizing size offset with
  | zero => omega
  | succ fuel ih =>
    unfold Inode.readLoop
    rw [if_neg (by omega)]
    by_cases hthere : (offset : Int) = length (fs.inode r).data
    · have hlast : (length (fs.inode r).data).toNat = offset := by omega
      rw [hlast]
      exact .first
    have hpos : (offset : Int) < length (fs.inode r).data := by omega
    have hblock := h.mapped.data _ (block_lt h.mapped.cap hpos)
    refine .after (h.byteToSector hpos) (.after (exec_getInode ..) ?_)
    obtain ⟨hle, -, hnone⟩ := chunkSize_part size offset (eof (fs.inode r).data)
    dsimp only [sectorSize]
    generalize chunkSize size (eof (fs.inode r).data - offset) (offset % 512) = chunk at hle hnone ⊢
    rw [if_neg (by omega)]
    refine .after (exec_blockRead t fs _ (h.used _ _ hblock)) ?_
    exact .trans .first (ih _ _ (by omega) (by omega))

/-- The loop of `inode_read_at` returns the bytes of the file. -/
theorem OnDisk.readLoop (hlen : eof (fs.inode r).data ≤ length (fs.inode r).data)
    (fuel size offset : Nat) (hfuel : size ≤ fuel)
    (hend : ((offset + size : Nat) : Int) ≤ eof (fs.inode r).data) :
    (readLoop r fuel size offset).exec (Fs.act t) fs = some ((List.range size).map fun j =>
        fileByte fs.disk (fs.inode r).data (offset + j), fs) := by
  have hread := h.readAll (t := t) hlen fuel size offset hfuel fun hcomes => by
    have := hcomes.2.1
    omega
  rw [min_eq_left (by omega)] at hread
  exact hread

-- ==== writing

/-- Block `k` is written. -/
theorem OnDisk.setDisk (b : Block) (hk : k < blocks (fs.inode r).data) :
    Wrote owner I fs (fs.setDisk (blockOf fs.disk (fs.inode r).data k) b) where
  rest := rfl
  disk := by
    intro x
    by_cases hx : x = blockOf fs.disk (fs.inode r).data k
    · rw [hx]
      exact .inr ⟨k, h.mapped.data k hk⟩
    · exact .inl (if_neg hx)

/-- The bytes of the file after that. -/
theorem OnDisk.fileByte_setDisk (b : Block) (hk : k < blocks (fs.inode r).data)
    (hp : p / 512 < blocks (fs.inode r).data) :
    fileByte (fs.setDisk (blockOf fs.disk (fs.inode r).data k) b).disk
        (fs.inode r).data p =
      if p / 512 = k then b (p % 512)
      else fileByte fs.disk (fs.inode r).data p := by
  unfold fileByte
  rw [h.blockOf_eq (h.setDisk b hk) hp]
  split
  next hpk =>
    rw [hpk]
    exact congrFun (if_pos rfl) _
  next hpk =>
    refine congrFun (if_neg fun heq => hpk ?_) _
    have h1 := h.mapped.data _ hp
    rw [heq, h.mapped.data k hk] at h1
    cases h1
    rfl

end

/-- What a round of the loop makes of a sector. -/
def Patched (old : Block) (ofs chunk : Nat) (buf : Nat → UInt8) (done : Nat) (b : Block) : Prop :=
  ∀ j, j < 512 → b j = if ofs ≤ j ∧ j < ofs + chunk then
    buf (done + (j - ofs)) else old j

/-- A byte of the file after a round. -/
theorem OnDisk.fileByte_patched (h : OnDisk owner I r fs) {done : Nat} {buf : Nat → UInt8}
    {b : Block} (hk : offset / 512 < blocks (fs.inode r).data) (hchunk : offset % 512 + chunk ≤ 512)
    (hb : Patched (fs.disk (blockOf fs.disk (fs.inode r).data
      (offset / 512))) (offset % 512) chunk buf done b) (hp : p / 512 < blocks (fs.inode r).data) :
    fileByte (fs.setDisk (blockOf fs.disk (fs.inode r).data
        (offset / 512)) b).disk (fs.inode r).data p =
      if offset ≤ p ∧ p < offset + chunk then buf (done + (p - offset))
      else fileByte fs.disk (fs.inode r).data p := by
  rw [h.fileByte_setDisk b hk hp]
  split
  next hblock =>
    rw [hb _ (Nat.mod_lt _ (by omega))]
    unfold fileByte
    rw [hblock]
    by_cases hin : offset ≤ p ∧ p < offset + chunk
    · have hsub : p % 512 - offset % 512 = p - offset := by omega
      rw [if_pos hin, if_pos (by omega), hsub]
    · rw [if_neg hin, if_neg (by omega)]
  next hblock => rw [if_neg (by omega)]

/-- One round of the data loop: part of a block is replaced. -/
theorem OnDisk.writeChunk (h : OnDisk owner I r fs) (ofs chunk : Nat) (buf : Nat → UInt8)
    (done : Nat) (hk : k < blocks (fs.inode r).data) (hofs : ofs + chunk ≤ 512) :
    ∃ b : Block, (writeChunk (blockOf fs.disk (fs.inode r).data k) ofs
        chunk buf done).exec (Fs.act t) fs =
      some ((), fs.setDisk (blockOf fs.disk (fs.inode r).data k) b) ∧
      Patched (fs.disk (blockOf fs.disk (fs.inode r).data k)) ofs chunk buf done b := by
  have hx := h.used _ _ (h.mapped.data k hk)
  unfold Inode.writeChunk sectorSize
  split
  next hfull =>
    refine ⟨_, exec_blockWrite t fs _ _ hx, fun j hj => ?_⟩
    unfold patch
    rw [if_pos (by omega), if_pos (by omega)]
  rename_i hfull
  rw [if_pos (by omega), exec_seq (exec_blockRead t fs _ hx)]
  exact ⟨_, exec_blockWrite t fs _ _ hx, fun j hj => rfl⟩

/-- The data loop, over bytes within the length: it writes them all, or
all up to where it needed the bounce buffer. -/
theorem OnDisk.writeLoop (mem : Bool) (buf : Nat → UInt8) (fuel size offset done : Nat)
    (h : OnDisk owner I r fs) (hfuel : size ≤ fuel)
    (hend : ((offset + size : Nat) : Int) ≤ length (fs.inode r).data) :
    ∃ n fs', (writeLoop mem r buf fuel size offset done).exec
        (Fs.act t) fs = some (done + n, fs') ∧ n ≤ size ∧
      (mem = true → n = size) ∧ Wrote owner I fs fs' ∧
      ∀ p : Nat, p / 512 < blocks (fs.inode r).data →
        fileByte fs'.disk (fs.inode r).data p =
          if offset ≤ p ∧ p < offset + n then buf (done + (p - offset))
          else fileByte fs.disk (fs.inode r).data p := by
  induction fuel generalizing size offset done fs with
  | zero =>
    refine ⟨0, fs, rfl, Nat.zero_le _, fun _ => by omega, Wrote.refl owner I fs, fun p _ => ?_⟩
    rw [if_neg (by omega)]
  | succ fuel ih =>
    unfold writeLoop
    by_cases hsize : size = 0
    · subst hsize
      refine ⟨0, fs, rfl, le_rfl, fun _ => rfl, Wrote.refl owner I fs, fun p _ => ?_⟩
      rw [if_neg (by omega)]
    have hpos : (offset : Int) < length (fs.inode r).data := by omega
    have hk := block_lt h.mapped.cap hpos
    have hchunk := chunkSize_eq (Nat.mod_lt offset (by omega))
      (show (size : Int) ≤ length (fs.inode r).data - offset by omega)
    rw [if_neg hsize, exec_seq (h.byteToSector hpos), exec_seq (exec_getInode ..)]
    dsimp only [sectorSize]
    rw [hchunk]
    generalize hc : min size (512 - offset % 512) = chunk
    rw [if_neg (by omega)]
    by_cases hstop : (needsBounce (offset % 512) chunk && !mem) = true
    · -- no bounce buffer
      rw [if_pos hstop]
      refine ⟨0, fs, rfl, Nat.zero_le _, fun hmem => ?_, Wrote.refl owner I fs, fun p _ => ?_⟩
      · simp [hmem, Bool.not_true, Bool.and_false] at hstop
      · rw [if_neg (by omega)]
    rw [if_neg hstop]
    -- this round's sector, then the others
    obtain ⟨b, hexec, hb⟩ := h.writeChunk (t := t) (offset % 512) chunk buf done hk (by omega)
    have hw := h.setDisk b hk
    obtain ⟨n, fs', hrest, hn, hall, hw', hbytes⟩ := ih (size - chunk) (offset + chunk)
      (done + chunk) (h.wrote hw) (by omega) (by rw [hw.inode]; omega)
    rw [hw.inode] at hbytes
    refine ⟨chunk + n, fs', ?_, by omega, fun hmem => ?_, hw.trans hw', fun p hp => ?_⟩
    · rw [exec_seq hexec, ← add_assoc]
      exact hrest
    · have := hall hmem
      omega
    · rw [hbytes p hp, h.fileByte_patched hk (by omega) hb hp]
      by_cases hlate : offset + chunk ≤ p ∧ p < offset + chunk + n
      · have hsub : done + chunk + (p - (offset + chunk)) = done + (p - offset) := by omega
        rw [if_pos hlate, if_pos (by omega), hsub]
      rw [if_neg hlate]
      split
      next hin => rw [if_pos (by omega)]
      next hin => rw [if_neg (by omega)]

end Loops

-- ==== a write in the file

/-- The inode of sector `I` is open at `r` as a regular file, in step with
the disk and with nobody inside. -/
structure Resting (I r : Nat) (fs : Fs) : Prop where
  sector : (fs.inode r).sector = I
  data : fs.disk I = (fs.inode r).data
  regular : isdir (fs.inode r).data = false
  allowed : (fs.inode r).denyWriteCnt = 0
  lock : (fs.inode r).lock = none

variable {owner : Owner} {I r offset size : Nat} {fs fs' : Fs}

theorem setInode_self (fs : Fs) (r : Nat) (i : MemInode) :
    (fs.setInode r i).inode r = i := if_pos rfl

theorem setInode_setInode (fs : Fs) (r : Nat) (i i' : MemInode) :
    (fs.setInode r i).setInode r i' = fs.setInode r i' := by
  unfold Fs.setInode
  congr 1
  funext x
  by_cases hx : x = r
  · rw [if_pos hx, if_pos hx]
  · rw [if_neg hx, if_neg hx]
    exact if_neg hx

theorem setInode_same (fs : Fs) (r : Nat) : fs.setInode r (fs.inode r) = fs := by
  have : (fun x => if x = r then fs.inode r else fs.inode x) = fs.inode := by
    funext x
    by_cases hx : x = r
    · rw [if_pos hx, hx]
    · rw [if_neg hx]
  unfold Fs.setInode
  rw [this]

theorem Resting.wrote (h : Resting I r fs) (hI : owner I = some (I, .header))
    (hw : Wrote owner I fs fs') : Resting I r fs' := by
  have hino := hw.inode
  have hdisk := hw.disk_eq hI fun i => by simp
  constructor
  all_goals rw [hino]
  exacts [h.sector, hdisk.trans h.data, h.regular, h.allowed, h.lock]

/-- The lock changes hands. -/
def relocked (l : Option Tid) (r : Nat) (fs : Fs) : Fs :=
  fs.setInode r { fs.inode r with lock := l }

theorem relocked_inode {l : Option Tid} :
    (relocked l r fs).inode r = { fs.inode r with lock := l } :=
  setInode_self fs r _

theorem relocked_data {l : Option Tid} :
    ((relocked l r fs).inode r).data = (fs.inode r).data := by
  rw [relocked_inode]

theorem Resting.acquireFile (h : Resting I r fs) (t : Tid) :
    (acquireFile r).exec (Fs.act t) fs = some ((), relocked (some t) r fs) := by
  unfold Inode.acquireFile
  rw [exec_seq (exec_getInode ..), h.regular, if_neg Bool.false_ne_true, exec_acquire t fs r h.lock]
  rfl

theorem Resting.releaseFile (h : Resting I r fs) (t : Tid) :
    (releaseFile r).exec (Fs.act t) (relocked (some t) r fs) = some ((), fs) := by
  have hopen : ({ fs.inode r with lock := none } : MemInode) = fs.inode r := by rw [← h.lock]
  unfold Inode.releaseFile
  rw [exec_seq (exec_getInode ..), relocked_data, h.regular, if_neg Bool.false_ne_true,
    exec_release t _ r (by rw [relocked_inode]), relocked_inode, relocked, setInode_setInode, hopen,
    setInode_same]

/-- The sum of the two, while it is an `off_t`. -/
theorem newLength_eq (h : offset + size < 2147483648) :
    newLength offset size = ((offset + size : Nat) : Int) := by
  unfold newLength toOff
  rw [Int.bmod_def]
  omega

/-- No more sectors for less. -/
theorem bytesToSectors_mono {a b : Int} (h0 : 0 ≤ a) (hab : a ≤ b)
    (hb : b ≤ 2147483136) : bytesToSectors a ≤ bytesToSectors b := by
  rw [bytesToSectors_eq h0 (by omega), bytesToSectors_eq (by omega) hb]
  omega

/-- A write to bytes that the file has changes these bytes only, and all
of them if there is memory. -/
theorem OnDisk.inodeWriteAt (h : OnDisk owner I r fs) (hr : Resting I r fs)
    (hI : owner I = some (I, .header)) {t : Tid} (mem : Bool) (junk : Nat → Block)
    (buf : Nat → UInt8) (hlen : ((offset + size : Nat) : Int) ≤ length (fs.inode r).data)
    (heof : ((offset + size : Nat) : Int) ≤ eof (fs.inode r).data) :
    ∃ n fs', (inodeWriteAtMem mem junk r buf size offset).exec
        (Fs.act t) fs = some (n, fs') ∧
      (mem = true → n = size) ∧ Wrote owner I fs fs' ∧
      ∀ p : Nat, (p : Int) < length (fs.inode r).data →
        fileByte fs'.disk (fs.inode r).data p =
          if offset ≤ p ∧ p < offset + n then buf (p - offset)
          else fileByte fs.disk (fs.inode r).data p := by
  have hoff : IsOff (length (fs.inode r).data) := isOff_toOff _
  have hnew : newLength offset size = ((offset + size : Nat) : Int) :=
    newLength_eq (by have := hoff.2; omega)
  have hcap := le_of_bytesToSectors (by omega) hoff.2 h.mapped.cap
  have hmono := bytesToSectors_mono (Int.natCast_nonneg _) hlen hcap
  obtain ⟨n, fs', hexec, -, hall, hw, hbytes⟩ := OnDisk.writeLoop (t := t)
    mem buf size size offset 0 h le_rfl hlen
  refine ⟨n, fs', ?_, hall, hw, ?_⟩
  · have hread := exec_blockRead t (relocked (some t) r fs) I (h.used I _ hI)
    have hdisk : (relocked (some t) r fs).disk I = (fs.inode r).data := hr.data
    unfold inodeWriteAtMem
    rw [exec_seq (exec_getInode ..), if_neg (by rw [hr.allowed]; exact fun h => h rfl),
      exec_seq (hr.acquireFile t), exec_seq (exec_getInode ..), relocked_inode, hr.sector,
      exec_seq hread, hnew, growInode, if_neg (not_lt.mpr hmono), exec_seq (exec_pure ..),
      publishLength, hdisk, if_neg (not_lt.mpr hlen), exec_seq (exec_pure ..),
      exec_seq (hr.releaseFile t), exec_seq hexec, publishEof, if_neg (not_lt.mpr heof), zero_add]
    rfl
  · intro p hp
    rw [hbytes p (block_lt h.mapped.cap hp), zero_add]

end Pintos.Inode
