/-
What the last close of a removed file gives back.

`fileSectors` is what a file has: its inode, its blocks and its index
blocks. The sectors that a run gives back are read off its trace, so one
given back twice would be there twice.

# The tests between the levels

The loops of `inode_close` test an index before they use it. The two
tests that decide whether to go on to the next level use the index where
the last loop stopped: after ten direct blocks that is `direct_blocks[10]`
and after a full indirect block `buffer[128]`. `inodeCloseChecked` has an
assertion there. It returns for the files with fewer than ten blocks and
for no others, and for these the right sectors are given back.

What is wrong with larger files is not only the index. An indirect block
is cleared in its first 32 entries when it is made, and the loop goes on
until an entry is null.
-/
import Pintos.Filesys.Growth

namespace Pintos.Inode

open Resume Prog List Option

-- ==== the sectors

/-- The sectors of a file with `n` blocks. -/
def fileSectors (disk : Nat → Block) (I : Nat) (ino : Block) (n : Nat) : List Nat :=
  I :: ((List.range n).map (blockOf disk ino) ++
    (if 10 < n then [word ino 10] else []) ++
    (if 138 < n then [word ino 11] else []) ++
    (List.range ((n - 138 + 127) / 128)).map (word (disk (word ino 11))))

/-- The sectors that a run gives back. -/
def released (L : List Cmd) : List Nat :=
  L.filterMap fun c =>
    match c with
    | .setFree s => some s
    | _ => none

/-- `inode_close`, with the tests between the levels checked. -/
def inodeCloseChecked : Block → Nat → P Unit := inodeCloseWith checked

-- ==== freeing

variable {owner : Owner} {x I r e : Nat} {ino : Block} {fs : Fs} {t : Tid}

/-- A sector has been given back. -/
def freed (fs : Fs) (x : Nat) : Fs :=
  { fs with
    freeMap := fs.freeMap.setMultiple x 1 false
    stored := fs.freeMap.setMultiple x 1 false }

theorem freed_test (fs : Fs) (x y : Nat) : (freed fs x).freeMap.test y =
    if y = x then false else fs.freeMap.test y :=
  Bitmap.test_setMultiple_one fs.freeMap x y false

theorem freeMapRelease_logs (h : fs.freeMap.test x = true) :
    Logs (Fs.act t) (freeMapRelease x) fs
      [.assertUsed x, .setFree x, .bitmapWrite] () (freed fs x) := by
  have hall : fs.freeMap.all x 1 = true := by
    rw [Bitmap.all_iff]
    intro i hi
    obtain rfl : i = 0 := by omega
    exact h
  have hassert : fs.act t (.assertUsed x) = some ((), fs) := if_pos hall
  refine .bind (L := [Cmd.assertUsed x]) (Logs.call hassert) ?_
  refine .bind (L := [Cmd.setFree x]) (Logs.call rfl) ?_
  exact .bind (L := [Cmd.bitmapWrite]) (Logs.call rfl) (Logs.pure _ _)

theorem foldl_freed_test (L : List Nat) (fs : Fs) (y : Nat) : (L.foldl freed fs).freeMap.test y =
      if y ∈ L then false else fs.freeMap.test y := by
  induction L generalizing fs with
  | nil => simp
  | cons x L ih =>
    rw [foldl_cons, ih, freed_test]
    by_cases hy : y = x <;> simp [hy]

/-- The loop over an index block with `m` entries in use. -/
theorem releaseEntries_logs {buffer : Block} {n m : Nat} (hmn : m ≤ n)
    (hne : ∀ j, j < m → word buffer j ≠ 0) (hend : m < n → word buffer m = 0)
    (hinj : ∀ i j, i < m → j < m → word buffer i = word buffer j → i = j) (fuel i : Nat)
    (hfuel : i + fuel = n) (hi : i ≤ m)
    (hused : ∀ j, i ≤ j → j < m → fs.freeMap.test (word buffer j) = true) :
    ∃ L, Logs (Fs.act t) (releaseEntries buffer n fuel i) fs L m
        (((List.range' i (m - i)).map (word buffer)).foldl freed fs) ∧
      released L = (List.range' i (m - i)).map (word buffer) := by
  induction fuel generalizing i fs with
  | zero =>
    obtain rfl : i = m := by omega
    rw [Nat.sub_self]
    exact ⟨[], .pure _ _, rfl⟩
  | succ fuel ih =>
    unfold releaseEntries
    by_cases him : i = m
    · subst him
      rw [Nat.sub_self, if_neg fun h => h.2 (hend h.1)]
      exact ⟨[], .pure _ _, rfl⟩
    · have hlt : i < m := by omega
      have hrange : List.range' i (m - i) = i :: List.range' (i + 1) (m - (i + 1)) := by
        rw [← range'_succ]
        congr 1
        omega
      have hnext (j : Nat) (hj : i + 1 ≤ j) (hjm : j < m) :
          (freed fs (word buffer i)).freeMap.test (word buffer j) = true := by
        have hne : j ≠ i := by omega
        rw [freed_test, if_neg fun heq => hne (hinj j i hjm hlt heq)]
        exact hused j (by omega) hjm
      obtain ⟨L, hlogs, hL⟩ := ih (i + 1) (by omega) hlt hnext
      rw [if_pos ⟨by omega, hne i hlt⟩, hrange]
      refine ⟨_, .bind (freeMapRelease_logs (hused i le_rfl hlt)) hlogs, ?_⟩
      unfold released at hL ⊢
      rw [filterMap_append, hL]
      rfl

-- ==== the file

/-- The file of `I` has been removed and `r` is its last opener. -/
structure Doomed (I r : Nat) (ino : Block) (fs : Fs) : Prop where
  sector : (fs.inode r).sector = I
  last : (fs.inode r).openCnt = 1
  removed : (fs.inode r).removed = true
  data : (fs.inode r).data = ino

/-- The last opener is gone, and the inode is off the list. -/
def unlisted (r : Nat) (fs : Fs) : Fs :=
  { fs.setInode r { fs.inode r with openCnt := 0 } with
    openInodes := fs.openInodes.erase r }

theorem Doomed.dropped (h : Doomed I r ino fs) :
    Fs.act t (.dropRef r) fs = some ((0 : Int),
      fs.setInode r { fs.inode r with openCnt := 0 }) := by
  show some ((fs.inode r).openCnt - 1, fs.setInode r
    { fs.inode r with openCnt := (fs.inode r).openCnt - 1 }) = _
  rw [h.last]
  rfl

theorem Doomed.left (h : Doomed I r ino fs) : ((unlisted r fs).inode r).sector = I ∧
    ((unlisted r fs).inode r).data = ino ∧ ((unlisted r fs).inode r).removed = true := by
  rw [show (unlisted r fs).inode r = _ from setInode_self fs r _]
  exact ⟨h.sector, h.data, h.removed⟩

/-- The sectors of the direct blocks. -/
theorem Charted.direct (h : Charted e owner I ino fs) {j : Nat} (hj : j < 10)
    (hn : j < blocks ino) : owner (word ino j) = some (I, .data j) :=
  h.mapped.direct hn hj

/-- The inode's sector and the direct blocks are given back. -/
theorem Charted.releaseDirect (h : Charted e owner I ino fs) (hI : owner I = some (I, .header))
    {fs₁ : Fs} (hmap : fs₁.freeMap = fs.freeMap) {m : Nat} (hm : m = min (blocks ino) 10) :
    Logs (Fs.act t) (freeMapRelease I) fs₁
        [.assertUsed I, .setFree I, .bitmapWrite] () (freed fs₁ I) ∧
      ∃ L, Logs (Fs.act t) (releaseEntries ino directNum directNum 0)
          (freed fs₁ I) L m
          (((List.range m).map (word ino)).foldl freed (freed fs₁ I)) ∧
        released L = (List.range m).map (word ino) := by
  constructor
  · refine freeMapRelease_logs ?_
    rw [hmap]
    exact (h.holds.used _ _ hI).2
  · have hrange : List.range m = List.range' 0 (m - 0) := by rw [Nat.sub_zero, range_eq_range']
    rw [hrange]
    refine releaseEntries_logs (show m ≤ 10 by omega)
      (fun j hj => h.ne_zero (h.direct (by omega) (by omega)) (by simp))
      (fun hlt => h.tail.direct m (by omega) hlt) ?_ 10 0 rfl (Nat.zero_le m) ?_
    · intro i j hi hj heq
      have h1 := h.direct (j := i) (by omega) (by omega)
      rw [heq, h.direct (by omega) (by omega)] at h1
      cases h1
      rfl
    · intro j _ hj
      have hown := h.direct (j := j) (by omega) (by omega)
      have hne : word ino j ≠ I := by
        intro heq
        simp [heq, hI] at hown
      rw [freed_test, if_neg hne, hmap]
      exact (h.holds.used _ _ hown).2

/-- With fewer than ten blocks there is nothing else. -/
theorem fileSectors_direct {disk : Nat → Block} {n : Nat} (hn : n < 10) :
    fileSectors disk I ino n = I :: (List.range n).map (word ino) := by
  have hmap : (List.range n).map (blockOf disk ino) = (List.range n).map (word ino) := by
    refine map_congr_left fun i hi => ?_
    have := mem_range.mp hi
    exact if_pos (by omega)
  have hnone : (n - 138 + 127) / 128 = 0 := by omega
  unfold fileSectors
  rw [hmap, if_neg (by omega), if_neg (by omega), hnone]
  simp

/-- `inode_close`, by what it does with a removed inode. -/
theorem Doomed.close (h : Doomed I r ino fs) (body : MemInode → P Unit) {p : P Unit} (hp : p = (do
      let n ← dropRef r
      if n = 0 then do
        unlist r
        let i ← getInode r
        if i.removed then body i else pure ()
      else pure ())) :
    p.exec (Fs.act t) fs =
        (body ((unlisted r fs).inode r)).exec (Fs.act t) (unlisted r fs) ∧
      p.trace (Fs.act t) fs = .dropRef r :: .unlist r :: .inode r ::
        (body ((unlisted r fs).inode r)).trace (Fs.act t) (unlisted r fs) := by
  have hdrop : Logs (Fs.act t) (dropRef r) fs [.dropRef r] 0
      (fs.setInode r { fs.inode r with openCnt := 0 }) :=
    Logs.call h.dropped
  have hunlist : Logs (Fs.act t) (unlist r) (fs.setInode r { fs.inode r with openCnt := 0 })
      [.unlist r] () (unlisted r fs) := .call rfl
  have hget : Logs (Fs.act t) (getInode r) (unlisted r fs) [.inode r]
      ((unlisted r fs).inode r) (unlisted r fs) := .call rfl
  have hremoved := h.left.2.2
  constructor
  · rw [hp, exec_seq hdrop.exec, if_pos rfl, exec_seq hunlist.exec, exec_seq hget.exec,
      if_pos hremoved]
  · rw [hp, trace_bind, hdrop.trace, hdrop.exec]
    dsimp only
    rw [if_pos rfl, trace_bind, hunlist.trace, hunlist.exec]
    dsimp only
    rw [trace_bind, hget.trace, hget.exec]
    dsimp only
    rw [if_pos hremoved]
    rfl

/-- The last close gives back the sectors of the file, each of them once,
and reads its arrays within their bounds. -/
structure ClosesRight (t : Tid) (junk : Block) (r I : Nat) (ino : Block) (fs : Fs) : Prop where
  returns : ∃ fs', (inodeClose junk r).exec (Fs.act t) fs = some ((), fs') ∧
    ∀ x, fs'.freeMap.test x =
      if x ∈ fileSectors fs.disk I ino (blocks ino) then false
      else fs.freeMap.test x
  once : (released ((inodeClose junk r).trace (Fs.act t) fs)).Perm
    (fileSectors fs.disk I ino (blocks ino))
  inBounds : ((inodeCloseChecked junk r).exec (Fs.act t) fs).isSome = true

section

variable (h : Charted e owner I ino fs)

include h

/-- The levels past the direct blocks of a file with fewer than ten. -/
theorem Charted.small (hn : blocks ino < 10) : word ino (blocks ino) = 0 ∧ word ino 11 = 0 :=
  ⟨h.tail.direct _ le_rfl hn, h.tail.double (by omega)⟩

section

variable (hI : owner I = some (I, .header))

include hI

theorem Charted.closes_small (hr : Doomed I r ino fs) (junk : Block) (hn : blocks ino < 10)
    : ClosesRight t junk r I ino fs := by
  -- a number of which nothing else is known, lest it be computed
  obtain ⟨n, hb⟩ : ∃ n, blocks ino = n := ⟨_, rfl⟩
  have hmap : (unlisted r fs).freeMap = fs.freeMap := rfl
  obtain ⟨hrel, L, hlogs, hL⟩ := h.releaseDirect (t := t) hI hmap (m := n) (by omega)
  obtain ⟨hend, hdouble⟩ := h.small hn
  obtain ⟨hsector, hdata, -⟩ := hr.left
  have hsectors : fileSectors fs.disk I ino (blocks ino) =
      I :: (List.range (blocks ino)).map (word ino) := fileSectors_direct hn
  rw [hb] at hn hend hsectors
  generalize hfs' : ((List.range n).map (word ino)).foldl freed
    (freed (unlisted r fs) I) = fs' at hlogs
  have hbody : Logs (Fs.act t) (releaseBlocks unchecked junk ((unlisted r fs).inode r))
      (unlisted r fs) ([.assertUsed I, .setFree I, .bitmapWrite] ++ (L ++ [])) () fs' := by
    unfold releaseBlocks
    rw [hsector, hdata]
    refine .bind hrel (Logs.bind hlogs ?_)
    rw [if_neg fun hc => hc.1 hend]
    show Logs _ (if word junk n ≠ 0 ∧ word ino 11 ≠ 0 then _ else _) _ _ _ _
    rw [if_neg fun hc => hc.2 hdouble]
    exact .pure _ _
  have hchecked : (releaseBlocks checked junk ((unlisted r fs).inode r)).exec (Fs.act t)
      (unlisted r fs) = some ((), fs') := by
    unfold releaseBlocks
    rw [hsector, hdata, exec_seq hrel.exec, exec_seq hlogs.exec,
      exec_seq (exec_checked (show n < directNum from hn)), if_neg fun hc => hc.1 hend]
    show (checked n blocksInIndirect >>= fun _ =>
      if word junk n ≠ 0 ∧ word ino 11 ≠ 0 then _ else _).exec _ _ = _
    rw [exec_seq (exec_checked (show n < blocksInIndirect from lt_trans hn (by decide))),
      if_neg fun hc => hc.2 hdouble]
    rfl
  obtain ⟨hexec, htrace⟩ := hr.close (t := t) (releaseBlocks unchecked junk) rfl
  obtain ⟨hexec', -⟩ := hr.close (t := t) (releaseBlocks checked junk) rfl
  constructor
  · rw [hb, hsectors]
    refine ⟨fs', hexec.trans hbody.exec, fun x => ?_⟩
    rw [← hfs', foldl_freed_test, freed_test]
    show (if _ then _ else if x = I then false else fs.freeMap.test x) = _
    by_cases hx : x = I <;> simp [hx]
  · have hrun : (inodeClose junk r).trace (Fs.act t) fs = _ := htrace
    rw [hrun, hbody.trace, hb, hsectors]
    unfold released at hL ⊢
    rw [append_nil]
    show (I :: L.filterMap _).Perm _
    rw [hL]
  · have hrun : (inodeCloseChecked junk r).exec (Fs.act t) fs = _ := hexec'
    rw [hrun, hchecked]
    rfl

/-- With ten blocks or more, `direct_blocks[10]` is read. -/
theorem Charted.closes_large (hr : Doomed I r ino fs) (junk : Block) (hn : 10 ≤ blocks ino) :
    (inodeCloseChecked junk r).exec (Fs.act t) fs = none := by
  have hmap : (unlisted r fs).freeMap = fs.freeMap := rfl
  obtain ⟨hrel, L, hlogs, -⟩ := h.releaseDirect (t := t) hI hmap (m := 10) (by omega)
  obtain ⟨hexec, -⟩ := hr.close (t := t) (releaseBlocks checked junk) rfl
  obtain ⟨hsector, hdata, -⟩ := hr.left
  have hrun : (inodeCloseChecked junk r).exec (Fs.act t) fs = _ := hexec
  rw [hrun]
  unfold releaseBlocks
  rw [hsector, hdata, exec_seq hrel.exec, exec_seq hlogs.exec]
  rfl

/-- The last close of a removed file is right for the files with fewer
than ten blocks, and for no others. -/
theorem close_right_iff_small (hr : Doomed I r ino fs) (t : Tid) (junk : Block)
    : ClosesRight t junk r I ino fs ↔ blocks ino < 10 := by
  constructor
  · intro hright
    by_contra hn
    have hb := hright.inBounds
    simp [h.closes_large hI hr junk (by omega)] at hb
  · exact h.closes_small hI hr junk

end

end

/-- The file in a row has been removed. -/
def removedRow (n stale size used : Nat) : Fs :=
  (row n stale size used).setInode 0 { rowMemInode n with removed := true }

theorem removedRow_charted {n stale size used : Nat} (hn : n ≤ 4234) (hused : 64 + n ≤ 32 * used)
    (hfit : 32 * used ≤ size) (hsize : size < 4294967296) :
    Charted 32 (rowOwner n) 2 (rowInode n) (removedRow n stale size used) := by
  have h : Charted 32 (rowOwner n) 2 (rowInode n) (row n stale size used) :=
    row_charted hn hused hfit hsize
  have hh := h.holds
  exact ⟨⟨hh.size, hh.bits, hh.used, hh.inj, hh.header, hh.mapped⟩, h.map, h.mapped, h.tail⟩

/-- Nine blocks go back as they should. -/
theorem close_right_nine : ClosesRight 0 zeros 0 2 (rowInode 9) (removedRow 9 0 96 3) :=
  (close_right_iff_small (removedRow_charted (by omega) (by omega)
    (by omega) (by omega)) rfl ⟨rfl, rfl, rfl, rfl⟩ 0 zeros).mpr
    (by rw [rowInode_blocks (by omega)]; omega)

/-- A stack on which `indirect_block_allocate` finds 9 where entry 32 of
its buffer will be. -/
def nineAt32 : Block := setWord zeros 32 9

/-- The file at sector 2 is open for the last time, and removed. -/
def doomed (fs : Fs) : Fs := fs.setInode 0 { rowMemInode 0 with data := fs.disk 2, removed := true }

/-- A file of 42 blocks: the indirect block has 32 entries in use, and the
next one is what was on the stack. Sector 9, in use for something else, is
given back with the file. -/
theorem close_frees_foreign_sector :
    ∃ fs fs', (inodeCreate (fun _ => nineAt32) 2 21504 false).exec
        (Fs.act 0) (row 0 0 96 1) = some (true, fs) ∧
      Doomed 2 0 (fs.disk 2) (doomed fs) ∧
      (inodeClose zeros 0).exec (Fs.act 0) (doomed fs) = some ((), fs') ∧
      fs.freeMap.test 9 = true ∧ fs'.freeMap.test 9 = false ∧
      ¬ ClosesRight 0 zeros 0 2 (fs.disk 2) (doomed fs) := by
  have hrun : ((inodeCreate (fun _ => nineAt32) 2 21504 false).exec
      (Fs.act 0) (row 0 0 96 1)).any (fun r => r.1 &&
        r.2.freeMap.test 9 && ((inodeClose zeros 0).exec (Fs.act 0)
          (doomed r.2)).any (fun r' => !r'.2.freeMap.test 9) &&
        !(fileSectors r.2.disk 2 (r.2.disk 2) 42).contains 9 &&
        (blocks (r.2.disk 2) == 42)) = true := by
    decide +kernel
  obtain ⟨⟨ok, fs⟩, he, hr⟩ := any_eq_true _ _ |>.mp hrun
  simp only [Bool.and_eq_true, Bool.not_eq_true', beq_iff_eq] at hr
  obtain ⟨⟨⟨⟨hok, hused⟩, hclose⟩, hother⟩, hblocks⟩ := hr
  obtain ⟨⟨v, fs'⟩, he', hfree⟩ := any_eq_true _ _ |>.mp hclose
  rw [Bool.not_eq_true'] at hfree
  subst hok
  refine ⟨fs, fs', he, ⟨rfl, rfl, rfl, rfl⟩, he', hused, hfree, fun hright => ?_⟩
  obtain ⟨fs'', he'', htest⟩ := hright.returns
  rw [he'] at he''
  cases he''
  have hnine := htest 9
  have hmem : 9 ∉ fileSectors (doomed fs).disk 2 (fs.disk 2) (blocks (fs.disk 2)) := by
    rw [hblocks]
    intro hmem
    cases (contains_iff_mem.mpr hmem).symm.trans hother
  rw [if_neg hmem, hfree] at hnine
  simp [show (doomed fs).freeMap.test 9 = true from hused] at hnine

end Pintos.Inode
