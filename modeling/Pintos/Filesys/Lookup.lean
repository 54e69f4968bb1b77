/-
Which sectors a read touches.

The loop of `inode_read_at` looks the sector up before it looks at the
end of file, and `byte_to_sector` refuses only positions past the length,
so a read that reaches the end walks the index once more, at the position
just behind the last byte. If that is where the next index block would
begin (`AtLevel`), the walk reads what the pointers behind the last block
lead to. Exactly the reads that do not come there, or find sectors of the
file there (`Clear`), stay inside.
-/
import Pintos.Filesys.Growth

namespace Pintos.Inode

open Resume Prog Env

-- ==== the walk

variable {owner : Owner} {I r x t a pos : Nat} {fs fs' : Fs} {data : Block}

theorem trace_blockRead (h : Cmd.blockRead x ∈ (blockRead a).trace (Fs.act t) fs) : x = a := by
  cases mem_trace_call h
  rfl

/-- The walk reads what is on its way. -/
theorem mem_walk {k : Nat} (h : Cmd.blockRead x ∈ (followPointers data k).trace (Fs.act t) fs) :
    x ∈ walk fs.disk data k := by
  unfold followPointers directNum blocksInIndirect at h
  unfold walk
  by_cases h1 : k < 10
  · rw [if_pos h1] at h
    cases h
  rw [if_neg h1] at h ⊢
  by_cases h2 : k < 138
  · rw [if_pos (by omega)] at h
    rw [if_pos h2]
    rcases mem_trace_bind h with h | ⟨b, s, -, h⟩
    · exact List.mem_singleton.mpr (trace_blockRead h)
    · cases h
  · rw [if_neg (by omega)] at h
    rw [if_neg h2]
    rcases mem_trace_bind h with h | ⟨b, s, he, h⟩
    · exact List.mem_cons.mpr (.inl (trace_blockRead h))
    obtain ⟨rfl, rfl⟩ := act_blockRead (act_of_run he)
    rcases mem_trace_bind h with h | ⟨b, s, -, h⟩
    · have hsub : k - 10 - 128 = k - 138 := by omega
      rw [hsub] at h
      exact List.mem_cons_of_mem _ (List.mem_singleton.mpr (trace_blockRead h))
    · cases h

/-- If what it reads is on the device, it reads all that is on its way. -/
theorem walk_read {k : Nat} {B : Nat → Prop} (hB : ∀ x, B x → x < fs.size)
    (h : ∀ x, Cmd.blockRead x ∈ (followPointers data k).trace (Fs.act t) fs → B x) :
    ∀ x ∈ walk fs.disk data k, B x := by
  have hself (x : Nat) : Cmd.blockRead x ∈ (blockRead x).trace (Fs.act t) fs :=
    call_mem_trace (C := Cmd) _ _
  unfold followPointers directNum blocksInIndirect at h
  unfold walk
  by_cases h1 : k < 10
  · rw [if_pos h1]
    nofun
  rw [if_neg h1] at h ⊢
  by_cases h2 : k < 138
  · rw [if_pos (by omega)] at h
    rw [if_pos h2]
    intro x hx
    obtain rfl := List.mem_singleton.mp hx
    exact h _ (Enters.first.trace _ (hself _))
  · have hsub : k - 10 - 128 = k - 138 := by omega
    rw [if_neg (by omega), hsub] at h
    rw [if_neg h2]
    have hdouble := h _ (Enters.first.trace _ (hself _))
    intro x hx
    rcases List.mem_cons.mp hx with rfl | hx
    · exact hdouble
    · obtain rfl := List.mem_singleton.mp hx
      refine h _ (Enters.trace (.after (exec_blockRead t fs _ (hB _ hdouble)) ?_) _ (hself _))
      exact .first

/-- The file fills its blocks, and these end with a level of the index. -/
def Ends (data : Block) : Prop :=
  length data = ((512 * blocks data : Nat) : Int) ∧ AtLevel (blocks data)

/-- If the read comes to the end of a file that ends with a level of the
index, the pointers behind the last block lead to sectors of the file. -/
def Clear (owner : Owner) (I : Nat) (disk : Nat → Block) (data : Block)
    (size offset : Nat) : Prop :=
  Comes data size offset → Ends data →
    ∀ x ∈ walk disk data (blocks data), BelongsTo owner I (blocks data) x

/-- The position behind the last byte, by the blocks. -/
theorem Mapped.last {disk : Nat → Block} {n : Nat} (hm : Mapped disk owner I data (blocks data))
    (hn : (n : Int) ≤ length data) : n / 512 < blocks data ∨
      n / 512 = blocks data ∧ (n : Int) = length data ∧
        length data = ((512 * blocks data : Nat) : Int) := by
  have hoff : IsOff (length data) := isOff_toOff _
  have hmax := le_of_bytesToSectors (by omega) hoff.2 hm.cap
  have hblocks : blocks data = ((length data + 511) / 512).toNat := bytesToSectors_eq (by omega)
    hmax
  omega

/-- The walk of `byte_to_sector`. -/
theorem OnDisk.lookup_reads (h : OnDisk owner I r fs) {size : Nat} (hsize : 0 < size)
    (hclear : Clear owner I fs.disk (fs.inode r).data size pos)
    (hread : Cmd.blockRead x ∈ (Inode.byteToSector r pos).trace (Fs.act t) fs) :
    BelongsTo owner I (blocks (fs.inode r).data) x := by
  rcases mem_trace_bind hread with hread | ⟨i, s, he, hread⟩
  · cases mem_trace_call hread
  cases he
  split at hread
  next hle =>
    have hx : x ∈ walk fs.disk (fs.inode r).data (pos / 512) := mem_walk hread
    rcases h.mapped.last hle with hin | ⟨hblock, hpos, hfull⟩
    · exact h.mapped.walk (.inl hin) hx
    · by_cases hlevel : AtLevel (blocks (fs.inode r).data)
      · rw [hblock] at hx
        exact hclear ⟨hle, by omega, .inr hpos⟩ ⟨hfull, hlevel⟩ x hx
      · exact h.mapped.walk (.inr ⟨hblock, hlevel⟩) hx
  next => cases hread

/-- All that the loop of `inode_read_at` reads. -/
theorem OnDisk.loop_reads (h : OnDisk owner I r fs)
    (hlen : eof (fs.inode r).data ≤ length (fs.inode r).data) :
    ∀ fuel size offset : Nat, Clear owner I fs.disk (fs.inode r).data size offset →
      Cmd.blockRead x ∈ (Inode.readLoop r fuel size offset).trace (Fs.act t) fs →
      BelongsTo owner I (blocks (fs.inode r).data) x := by
  intro fuel
  induction fuel with
  | zero => nofun
  | succ fuel ih =>
    intro size offset hclear hread
    unfold Inode.readLoop at hread
    by_cases hsize : size = 0
    · rw [if_pos hsize] at hread
      cases hread
    rw [if_neg hsize] at hread
    rcases mem_trace_bind hread with hlook | ⟨sector, s, he, hread1⟩
    · exact h.lookup_reads (by omega) hclear hlook
    have hs := (byteToSector_looks r offset).exec_same Looks.same he
    subst hs
    rcases mem_trace_bind hread1 with hget | ⟨i, s', hi, hread2⟩
    · cases mem_trace_call hget
    cases hi
    dsimp only [sectorSize] at hread2
    generalize hchunk : chunkSize size (eof (s.inode r).data - offset)
      (offset % 512) = chunk at hread2
    unfold chunkSize sectorSize at hchunk
    by_cases hzero : chunk = 0
    · rw [if_pos hzero] at hread2
      cases hread2
    rw [if_neg hzero] at hread2
    have hpos : (offset : Int) < length (s.inode r).data := by omega
    rw [h.byteToSector hpos] at he
    cases he
    rcases mem_trace_bind hread2 with hdata | ⟨b, s', hb, hread3⟩
    · rw [trace_blockRead hdata]
      have hk := block_lt h.mapped.cap hpos
      exact ⟨_, h.mapped.data _ hk, by simp, hk⟩
    obtain ⟨-, rfl⟩ := act_blockRead (act_of_run hb)
    rcases mem_trace_bind hread3 with hrest | ⟨rest, s', -, hend⟩
    · refine ih _ _ (fun hcomes => hclear ?_) hrest
      unfold Comes at hcomes ⊢
      omega
    · cases hend

/-- `inode_read_at` reads sectors of the file only, exactly where it does
not come to the end of one that ends with a level of the index, or finds
its own sectors behind it. The positions from the length on that
`byte_to_sector` has no sector for are those past it, and the length
itself if that is what the walk finds there. -/
theorem reads_stay_inside (h : OnDisk owner I r fs)
    (hlen : eof (fs.inode r).data ≤ length (fs.inode r).data) (t : Tid) (size offset : Nat) :
    ((∀ x, Cmd.blockRead x ∈ (inodeReadAt r size offset).trace (Fs.act t) fs →
        BelongsTo owner I (blocks (fs.inode r).data) x) ↔
      Clear owner I fs.disk (fs.inode r).data size offset) ∧
    ∀ pos : Nat, length (fs.inode r).data ≤ (pos : Int) →
      ((byteToSector r pos).exec (Fs.act t) fs = some (noSector, fs) ↔
        length (fs.inode r).data < (pos : Int) ∨ EndOnDevice fs (fs.inode r).data ∧
          blockOf fs.disk (fs.inode r).data (pos / 512) = noSector) := by
  refine ⟨⟨fun hreads hcomes hends => ?_, fun hclear _ hread =>
    h.loop_reads hlen size size offset hclear hread⟩, fun pos hpos => ?_⟩
  · have hlast : (length (fs.inode r).data).toNat / sectorSize = blocks (fs.inode r).data := by
      have := hends.1
      unfold sectorSize
      omega
    have hwalk : Enters (Fs.act t) (Inode.byteToSector r (length (fs.inode r).data).toNat) fs
        (followPointers (fs.inode r).data (blocks (fs.inode r).data)) fs := by
      refine .after (exec_getInode ..) ?_
      rw [if_pos (by have := hcomes.1; omega), hlast]
      exact .refl _ _
    have henter := (h.readLoop_enters hlen size size offset le_rfl hcomes).trans hwalk
    refine walk_read (t := t) ?_ fun x hx => hreads x (henter.trace _ hx)
    rintro x ⟨slot, hown, -⟩
    exact h.used x _ hown
  · rcases hpos.lt_or_eq with hlt | heq
    · exact iff_of_true (byteToSector_past hlt) (.inl hlt)
    · rw [byteToSector_end heq.symm]
      constructor
      · intro hsome
        obtain ⟨hend, hsome⟩ := Option.ite_none_right_eq_some.mp hsome
        exact .inr ⟨hend, congrArg Prod.fst (Option.some.inj hsome)⟩
      · rintro (hlt | ⟨hend, hsector⟩)
        · omega
        · rw [if_pos hend, hsector]

theorem row_onDisk {n stale size used : Nat} (hn : n ≤ 4234) (hused : 64 + n ≤ 32 * used)
    (hfit : 32 * used ≤ size) (hsize : size < 4294967296) :
    OnDisk (rowOwner n) 2 0 (row n stale size used) := by
  have h : Holds [0, 2] (rowOwner n) (row n stale size used) := row_holds hn hused hfit hsize
  refine ⟨fun x z hx => (h.used x z hx).1, h.inj, ?_⟩
  show Mapped (rowDisk n stale) (rowOwner n) 2 (rowInode n) (blocks (rowInode n))
  rw [rowInode_blocks hn]
  exact row_mapped hn

/-- Inside a file that ends with the direct blocks: a read up to its last
byte stays there, one of a byte more does not. -/
theorem reads_stay_inside_ten : (∀ x, Cmd.blockRead x ∈
        (inodeReadAt 0 20 5100).trace (Fs.act 0) (row 10 0 96 3) →
      BelongsTo (rowOwner 10) 2 (blocks (rowInode 10)) x) ∧
    (¬ ∀ x, Cmd.blockRead x ∈ (inodeReadAt 0 21 5100).trace (Fs.act 0) (row 10 0 96 3) →
      BelongsTo (rowOwner 10) 2 (blocks (rowInode 10)) x) ∧
    ∀ pos : Nat, length (rowInode 10) < (pos : Int) →
      (byteToSector 0 pos).exec (Fs.act 0) (row 10 0 96 3) = some (noSector, row 10 0 96 3) := by
  have hlen := rowInode_length (n := 10) (by omega)
  have hblocks := rowInode_blocks (n := 10) (by omega)
  have heof : eof (rowInode 10) ≤ length (rowInode 10) := by
    rw [hlen, rowInode_eof (by omega)]
  have hrow : OnDisk (rowOwner 10) 2 0 (row 10 0 96 3) :=
    row_onDisk (by omega) (by omega) (by omega) (by omega)
  refine ⟨(reads_stay_inside hrow heof 0 20 5100).1.mpr fun hcomes => ?_, fun hreads => ?_,
    fun pos hpos => ((reads_stay_inside hrow heof 0 0 0).2 pos (le_of_lt hpos)).mpr (.inl hpos)⟩
  · have hpast : length (rowInode 10) < 5120 := hcomes.2.1
    omega
  · have hwalk : word (rowInode 10) 10 ∈
        walk (rowDisk 10 0) (rowInode 10) (blocks (rowInode 10)) := by
      rw [hblocks]
      exact List.mem_singleton.mpr rfl
    have hclear : Clear (rowOwner 10) 2 (rowDisk 10 0) (rowInode 10) 21 5100 :=
      (reads_stay_inside hrow heof 0 21 5100).1.mp hreads
    have hcomes : Comes (rowInode 10) 21 5100 := by
      unfold Comes
      rw [rowInode_eof (by omega), hlen]
      decide
    have hends : Ends (rowInode 10) := by
      unfold Ends
      rw [hblocks, hlen]
      decide
    obtain ⟨slot, hown, -⟩ := hclear hcomes hends _ hwalk
    have htail : Tail 32 (rowDisk 10 0) (rowInode 10) 10 := row_tail (by omega)
    rw [htail.indirect le_rfl] at hown
    cases hown

/-- At the end of it: the walk reads sector 0 as its indirect block, and
what it finds is returned as the sector of a byte that is not there. -/
theorem read_at_end_leaves_file :
    OnDisk (rowOwner 10) 2 0 (row 10 0 96 3) ∧
      length (rowInode 10) = 5120 ∧
      Cmd.blockRead 0 ∈ (inodeReadAt 0 1 5120).trace (Fs.act 0) (row 10 0 96 3) ∧
      ¬ BelongsTo (rowOwner 10) 2 (blocks (rowInode 10)) 0 ∧
      ∃ x fs', (byteToSector 0 5120).exec (Fs.act 0) (row 10 0 96 3) =
        some (x, fs') ∧ x ≠ noSector := by
  have hread : (((inodeReadAt 0 1 5120).trace (Fs.act 0) (row 10 0 96 3)).any fun c =>
        match c with
        | .blockRead x => x == 0
        | _ => false) = true := by
    decide +kernel
  have hsector : ((byteToSector 0 5120).exec (Fs.act 0)
      (row 10 0 96 3)).any (fun r => r.1 == 0) = true := by
    decide +kernel
  refine ⟨row_onDisk (by omega) (by omega) (by omega) (by omega),
    rowInode_length (n := 10) (by omega), ?_, ?_, ?_⟩
  · obtain ⟨c, hc, hx⟩ := List.any_eq_true.mp hread
    split at hx
    next x =>
      obtain rfl : x = 0 := beq_iff_eq.mp hx
      exact hc
    next => cases hx
  · rintro ⟨slot, hslot, -⟩
    cases hslot
  · obtain ⟨r, he, hr⟩ := Option.any_eq_true _ _ |>.mp hsector
    rw [beq_iff_eq] at hr
    refine ⟨r.1, r.2, he, ?_⟩
    rw [hr]
    decide

end Pintos.Inode
