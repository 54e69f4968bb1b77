/-
`sector_allocate` run alone, from start to end.

# Array indices

`checked` puts an assertion before every use of an index: into the direct
blocks, into the buffer of an indirect block, into the buffer of the
double indirect block. Where the program with the assertions returns, the
one without returns the same, and they held.

# That it returns

Growth reads and writes only sectors that the free map has given out and
index blocks that a pointer leads to. If these are on the device
(`Reaches`) and the levels of the index are right for the request, the
checked program returns, whether or not there is space.

# What it returns

The triples of `SectorAllocate` say the rest. They speak of an owner that
gives each sector at most one slot; here one is used that knows every
sector in use (`complete`), so that a sector with a new slot is one that
was free.
-/
import Pintos.Lib.Alone
import Pintos.Filesys.WriteAt

namespace Pintos.Inode

open Resume Prog Env

-- ==== the free map

/-- Sector `x` is taken from the free map. -/
structure Taken (x : Nat) (fs fs' : Fs) : Prop where
  rest : fs' = { fs with freeMap := fs'.freeMap, stored := fs'.stored }
  lt : x < fs.freeMap.bitCnt
  free : fs.freeMap.test x = false
  bits : fs'.freeMap.bitCnt = fs.freeMap.bitCnt
  test : ∀ y, fs'.freeMap.test y =
    if y = x then true else fs.freeMap.test y
  count : fs'.freeMap.freeCount + 1 = fs.freeMap.freeCount

theorem exec_scanAndFlip (t : Tid) (fs : Fs) :
    scanAndFlip.exec (Fs.act t) fs =
      some ((fs.freeMap.scanAndFlip 0 1 false).1,
        { fs with freeMap := (fs.freeMap.scanAndFlip 0 1 false).2 }) :=
  exec_call (C := Cmd) Cmd.scanAndFlip fs

theorem exec_mapFileOpen (t : Tid) (fs : Fs) :
    mapFileOpen.exec (Fs.act t) fs = some (fs.mapFile, fs) :=
  exec_call (C := Cmd) Cmd.mapFile fs

theorem exec_bitmapWrite (t : Tid) (fs : Fs) :
    bitmapWrite.exec (Fs.act t) fs = some (true, { fs with stored := fs.freeMap }) :=
  exec_call (C := Cmd) Cmd.bitmapWrite fs

/-- `free_map_allocate`: a free sector, or none and no change. -/
theorem freeMapAllocate_runs (t : Tid) (fs : Fs) : Runs (Fs.act t) freeMapAllocate fs fun v fs' =>
      (v = none ∧ fs' = fs ∧ fs.freeMap.freeCount = 0) ∨ ∃ x, v = some x ∧ Taken x fs fs' := by
  refine .after (exec_scanAndFlip t fs) ?_
  rcases Bitmap.scanAndFlip_one fs.freeMap with
    ⟨heq, hzero⟩ | ⟨x, m, heq, hlt, hfree, hcnt, htest, hcount⟩
  · rw [heq]
    exact .pure (.inl ⟨rfl, rfl, hzero⟩)
  · rw [heq]
    have htaken : ∀ b : Bitmap, Taken x fs { fs with freeMap := m, stored := b } := fun b =>
      ⟨rfl, hlt, hfree, hcnt, htest, hcount⟩
    refine .after (exec_mapFileOpen t _) ?_
    split
    · refine .after (exec_bitmapWrite t _) ?_
      exact .pure (.inr ⟨x, rfl, htaken _⟩)
    · exact .pure (.inr ⟨x, rfl, htaken _⟩)

-- ==== checks

/-- `sector_allocate`, with its array indices checked. -/
def sectorAllocateChecked : (Nat → Block) → Nat → Block → P Grown := sectorAllocateWith checked

/-- What the functions of `sector_allocate` pass on: a relation between
programs that holds of their commands with themselves and of what is done
before an index is used, and that composing programs keeps. -/
structure Congruence (use use' : Use) (Rel : ∀ {α : Type}, P α → P α → Prop) : Prop where
  pure : ∀ {α : Type} (a : α), Rel (pure a) (pure a)
  bind : ∀ {α β : Type} {p q : P α} {f g : α → P β},
    Rel p q → (∀ a, Rel (f a) (g a)) → Rel (p >>= f) (q >>= g)
  ite : ∀ {α : Type} {b : Prop} {_ : Decidable b} {p q p' q' : P α},
    Rel p q → Rel p' q' → Rel (if b then p else p') (if b then q else q')
  use : ∀ i n, Rel (use i n) (use' i n)
  alloc : Rel freeMapAllocate freeMapAllocate
  read : ∀ x, Rel (blockRead x) (blockRead x)
  write : ∀ x b, Rel (blockWrite x b) (blockWrite x b)

namespace Congruence

variable {use use' : Use} {Rel : ∀ {α : Type}, P α → P α → Prop} (w : Congruence use use' Rel)

include w

theorem fillIndirect (add current : Nat) (buffer : Block) :
    Rel (fillIndirect use add current buffer) (Inode.fillIndirect use' add current buffer) := by
  induction add generalizing current buffer with
  | zero => exact w.pure buffer
  | succ add ih =>
    refine w.bind (w.use _ _) fun _ => w.bind w.alloc fun sector => ?_
    cases sector with
    | none => exact w.pure buffer
    | some s => exact w.bind (w.write s zeros) fun _ => ih _ _

theorem indirectBlockAllocate (junk : Block) (current add indirect : Nat) :
    Rel (indirectBlockAllocate use junk current add indirect)
      (Inode.indirectBlockAllocate use' junk current add indirect) := by
  have hextend (buffer : Block) (sector : Nat) :
      Rel (extendIndirect use current add buffer sector)
        (extendIndirect use' current add buffer sector) :=
    w.bind (w.fillIndirect add current buffer) fun b =>
      w.bind (w.write sector b) fun _ => w.pure sector
  refine w.ite (w.bind w.alloc fun sector => ?_) (w.bind (w.read indirect) fun b => hextend b _)
  cases sector with
  | none => exact w.pure 0
  | some s => exact hextend _ s

theorem fillDouble (junk : Nat → Block) (fuel current add : Nat) (buffer : Block) :
    Rel (fillDouble use junk fuel current add buffer)
      (Inode.fillDouble use' junk fuel current add buffer) := by
  induction fuel generalizing current add buffer with
  | zero => exact w.pure buffer
  | succ fuel ih =>
    refine w.ite (w.pure buffer) (w.bind (w.use _ _) fun _ => ?_)
    exact w.bind (w.indirectBlockAllocate _ _ _ _) fun s => ih _ _ _

theorem doubleIndirectBlockAllocate (junk : Nat → Block) (current add double : Nat) :
    Rel (doubleIndirectBlockAllocate use junk current add double)
      (Inode.doubleIndirectBlockAllocate use' junk current add double) := by
  have hextend (buffer : Block) (sector : Nat) :
      Rel (extendDouble use junk current add buffer sector)
        (extendDouble use' junk current add buffer sector) :=
    w.bind (w.fillDouble junk add current add buffer) fun b =>
      w.bind (w.write sector b) fun _ => w.pure sector
  refine w.ite (w.bind w.alloc fun sector => ?_) (w.bind (w.read double) fun b => hextend b _)
  cases sector with
  | none => exact w.pure 0
  | some s => exact hextend _ s

theorem allocateDirect (add current : Nat) (ino : Block) :
    Rel (allocateDirect use add current ino) (Inode.allocateDirect use' add current ino) := by
  induction add generalizing current ino with
  | zero => exact w.pure _
  | succ add ih =>
    refine w.ite (w.bind (w.use _ _) fun _ => w.bind w.alloc fun sector => ?_) (w.pure _)
    cases sector with
    | none => exact w.pure _
    | some s => exact w.bind (w.write s zeros) fun _ => ih _ _

theorem allocateDouble (junk : Nat → Block) (current add : Nat) (ino : Block) :
    Rel (allocateDouble use junk current add ino)
      (Inode.allocateDouble use' junk current add ino) :=
  w.ite (w.bind (w.doubleIndirectBlockAllocate _ _ _ _) fun _ => w.pure _) (w.pure _)

theorem allocateIndirect (junk : Nat → Block) (current add : Nat) (ino : Block) :
    Rel (allocateIndirect use junk current add ino)
      (Inode.allocateIndirect use' junk current add ino) := by
  refine w.ite (w.bind (w.indirectBlockAllocate _ _ _ _) fun s => ?_) (w.allocateDouble _ _ _ _)
  exact w.ite (w.pure _) (w.allocateDouble _ _ _ _)

theorem sectorAllocate (junk : Nat → Block) (add : Nat) (ino : Block) :
    Rel (sectorAllocateWith use junk add ino) (sectorAllocateWith use' junk add ino) := by
  refine w.ite (w.pure _) (w.ite (w.pure _) ?_)
  refine w.bind (w.allocateDirect _ _ _) fun r => ?_
  exact w.ite (w.allocateIndirect _ _ _ _) (w.pure _)

end Congruence

-- ==== giving nothing back

/-- Only the device and the free map have changed, and no sector was given
back. -/
structure Allots (fs fs' : Fs) : Prop where
  inode : fs'.inode = fs.inode
  openInodes : fs'.openInodes = fs.openInodes
  count : fs'.count = fs.count
  size : fs'.size = fs.size
  keeps : ∀ x, fs.freeMap.test x = true → fs'.freeMap.test x = true

/-- A program that only allocates. -/
abbrev Allotting (t : Tid) {α : Type} (p : P α) : Prop := p.Within (Fs.act t) Allots

section Allots

variable {t : Tid} {fs fs' fs'' : Fs}

theorem Allots.refl (fs : Fs) : Allots fs fs := ⟨rfl, rfl, rfl, rfl, fun _ h => h⟩

theorem Allots.trans (h : Allots fs fs') (h' : Allots fs' fs'') : Allots fs fs'' :=
  ⟨h'.inode.trans h.inode, h'.openInodes.trans h.openInodes, h'.count.trans h.count,
    h'.size.trans h.size, fun x hx => h'.keeps x (h.keeps x hx)⟩

theorem allotting_pure {α : Type} (t : Tid) (a : α) : Allotting t (pure a : P α) :=
  Within.pure Allots.refl a

theorem Allotting.bind {α β : Type} {p : P α} {f : α → P β} (hp : Allotting t p)
    (hf : ∀ a, Allotting t (f a)) : Allotting t (p >>= f) :=
  Within.bind Allots.trans hp hf

theorem allotting_blockRead (t : Tid) (x : Nat) : Allotting t (blockRead x) :=
  Within.call (C := Cmd) fun fs _ _ h => by
    rw [(act_blockRead h).2]
    exact Allots.refl fs

theorem allotting_blockWrite (t : Tid) (x : Nat) (b : Block) : Allotting t (blockWrite x b) :=
  Within.call (C := Cmd) fun fs _ _ h => by
    rw [act_blockWrite h]
    exact ⟨rfl, rfl, rfl, rfl, fun _ hx => hx⟩

theorem allotting_assert (t : Tid) (b : Bool) : Allotting t (kassert b) :=
  Within.call (C := Cmd) fun fs _ _ h => by
    rw [(act_assert h).2]
    exact Allots.refl fs

theorem allots_of_taken {x : Nat} (h : Taken x fs fs') : Allots fs fs' := by
  rw [h.rest]
  exact ⟨rfl, rfl, rfl, rfl, fun y hy => by rw [h.test y, hy, ite_self]⟩

variable (t)

theorem allotting_freeMapAllocate : Allotting t freeMapAllocate := by
  intro fs v fs' he
  rcases (freeMapAllocate_runs t fs).exec he with ⟨-, rfl, -⟩ | ⟨x, -, htaken⟩
  · exact .refl _
  · exact allots_of_taken htaken

theorem allotting_congruence {use : Use} (huse : ∀ i n, Allotting t (use i n)) :
    Congruence use use fun _ q => Allotting t q where
  pure := allotting_pure t
  bind := Allotting.bind
  ite := .ite
  use := huse
  alloc := allotting_freeMapAllocate t
  read := allotting_blockRead t
  write := allotting_blockWrite t

end Allots

-- ==== checks left out

theorem Below.checked (t : Tid) (i n : Nat) : Below (Fs.act t) (checked i n) (unchecked i n) := by
  refine .check (C := Cmd) (R := Ret) (c := .assert (decide (i < n))) (v := ()) ?_
  intro fs r hact
  obtain ⟨-, ⟨⟩⟩ := Option.ite_none_right_eq_some.mp hact
  rfl

/-- Where the checked program returns, the other returns the same. -/
theorem sectorAllocate_below (t : Tid) (junk : Nat → Block) (add : Nat) (ino : Block) :
    Below (Fs.act t) (sectorAllocateChecked junk add ino) (sectorAllocate junk add ino) := by
  have hw : Congruence checked unchecked (Below (Fs.act t)) :=
    ⟨fun _ => .refl _, .bind, .ite, Below.checked t, .refl _, fun _ => .refl _, fun _ _ => .refl _⟩
  exact hw.sectorAllocate junk add ino

-- ==== returning

/-- A device of `n` sectors and a free map for them. -/
structure Sized (n : Nat) (fs : Fs) : Prop where
  size : fs.size = n
  bits : fs.freeMap.bitCnt = n

variable {t : Tid} {e N x add n : Nat} {fs fs' : Fs} {b ino : Block} {junk : Nat → Block}

section

variable (h : Sized N fs)

include h

theorem Sized.taken (ht : Taken x fs fs') : Sized N fs' ∧ x < N := by
  have hsize : fs'.size = fs.size := by rw [ht.rest]
  refine ⟨⟨hsize.trans h.size, ht.bits.trans h.bits⟩, ?_⟩
  rw [← h.bits]
  exact ht.lt

theorem Sized.setDisk : Sized N (fs.setDisk x b) := ⟨h.size, h.bits⟩

theorem Sized.freeMapAllocate : Runs (Fs.act t) freeMapAllocate fs fun v fs' =>
      Sized N fs' ∧ ∀ x, v = some x → x < N := by
  refine (freeMapAllocate_runs t fs).conseq ?_
  rintro v fs' (⟨rfl, rfl, -⟩ | ⟨x, rfl, ht⟩)
  · exact ⟨h, nofun⟩
  · obtain ⟨h', hx⟩ := h.taken ht
    refine ⟨h', ?_⟩
    rintro _ ⟨⟩
    exact hx

theorem Sized.blockWrite (hx : x < N) :
    Runs (Fs.act t) (blockWrite x b) fs fun _ fs' => fs' = fs.setDisk x b :=
  .of_exec (exec_blockWrite t fs x b (by rw [h.size]; exact hx)) rfl

theorem Sized.blockRead (hx : x < N) :
    Runs (Fs.act t) (blockRead x) fs fun v fs' => v = fs.disk x ∧ fs' = fs :=
  .of_exec (exec_blockRead t fs x (by rw [h.size]; exact hx)) ⟨rfl, rfl⟩

end

theorem exec_checked {i : Nat} (hi : i < n) : (checked i n).exec (Fs.act t) fs = some ((), fs) :=
  (exec_call (C := Cmd) (Cmd.assert _) fs).trans (if_pos (decide_eq_true hi))

theorem Sized.fillIndirect : ∀ (add current : Nat) (buffer : Block)
    {fs : Fs}, Sized N fs → current + add ≤ 128 →
      Runs (Fs.act t) (fillIndirect checked add current buffer) fs fun _ fs' => Sized N fs' := by
  intro add
  induction add with
  | zero => exact fun _ _ _ h _ => .pure h
  | succ add ih =>
    intro current buffer fs h hcap
    refine .after (exec_checked (show current < 128 by omega)) ?_
    refine .bind h.freeMapAllocate ?_
    rintro v fs₁ ⟨h1, hx⟩
    cases v with
    | none => exact .pure h1
    | some s =>
      refine .bind (h1.blockWrite (hx s rfl)) ?_
      rintro - fs₂ rfl
      exact ih _ _ h1.setDisk (by omega)

theorem Sized.extendIndirect {current : Nat} (buffer : Block) (h : Sized N fs)
    (hcap : current + add ≤ 128) (hx : x < N) :
    Runs (Fs.act t) (extendIndirect checked current add buffer x) fs
      fun y fs' => y < N ∧ Sized N fs' := by
  refine .bind (Sized.fillIndirect _ _ _ h hcap) fun b fs₁ h1 => ?_
  refine .bind (h1.blockWrite hx) ?_
  rintro - fs₂ rfl
  exact .pure ⟨hx, h1.setDisk⟩

theorem Sized.indirectBlockAllocate {junk : Block} {current : Nat}
    (h : Sized N fs) (hcap : current + add ≤ 128) (hx : x < N) :
    Runs (Fs.act t) (indirectBlockAllocate checked junk current add x) fs
      fun y fs' => y < N ∧ Sized N fs' := by
  unfold Inode.indirectBlockAllocate
  split
  · refine .bind h.freeMapAllocate ?_
    rintro v fs₁ ⟨h1, hv⟩
    cases v with
    | none => exact .pure ⟨by omega, h1⟩
    | some s => exact h1.extendIndirect _ hcap (hv s rfl)
  · refine .bind (h.blockRead hx) ?_
    rintro buffer fs₁ ⟨-, rfl⟩
    exact h.extendIndirect _ hcap hx

/-- The first `e` entries are on the device. -/
def Entries (e N : Nat) (buffer : Block) : Prop := ∀ k, k < e → word buffer k < N

theorem Sized.fillDouble (junk : Nat → Block) (hN : N ≤ 4294967296) :
    ∀ (fuel c add : Nat) (buffer : Block) {fs : Fs}, Sized N fs →
      c + add ≤ 128 * min e 128 → Entries e N buffer →
      Runs (Fs.act t) (fillDouble checked junk fuel c add buffer) fs fun _ fs' => Sized N fs' := by
  intro fuel
  induction fuel with
  | zero => exact fun _ _ _ _ h _ _ => .pure h
  | succ fuel ih =>
    intro c add buffer fs h hcap hb
    unfold Inode.fillDouble
    split
    · exact .pure h
    rename_i hadd
    dsimp only [blocksInIndirect]
    generalize hnow : min add (128 - c % 128) = now
    refine .after (exec_checked (show c / 128 < 128 by omega)) ?_
    refine .bind (h.indirectBlockAllocate (by omega) (hb _ (by omega))) fun s fs₁ h1 => ?_
    refine ih _ _ _ h1.2 (by omega) fun k hk => ?_
    by_cases hkc : k = c / 128
    · rw [hkc, word_setWord_self (by omega) (by omega)]
      exact h1.1
    · rw [word_setWord_ne hkc]
      exact hb k hk

theorem Sized.doubleIndirectBlockAllocate {c : Nat} (h : Sized N fs) (hN : N ≤ 4294967296)
    (hcap : c + add ≤ 128 * min e 128) (hx : x < N) (hnew : x = 0 → e ≤ 32)
    (hb : x ≠ 0 → Entries e N (fs.disk x)) :
    Runs (Fs.act t) (doubleIndirectBlockAllocate checked junk c add x) fs
      fun y fs' => y < N ∧ Sized N fs' := by
  have hextend {fs : Fs} {buffer : Block} {x : Nat} (h : Sized N fs)
      (hb : Entries e N buffer) (hx : x < N) :
      Runs (Fs.act t) (extendDouble checked junk c add buffer x) fs
        fun y fs' => y < N ∧ Sized N fs' := by
    refine .bind (Sized.fillDouble junk hN _ _ _ _ h hcap hb) fun b fs₁ h1 => ?_
    refine .bind (h1.blockWrite hx) ?_
    rintro - fs₂ rfl
    exact .pure ⟨hx, h1.setDisk⟩
  unfold Inode.doubleIndirectBlockAllocate
  split
  · refine .bind h.freeMapAllocate ?_
    rintro v fs₁ ⟨h1, hv⟩
    cases v with
    | none => exact .pure ⟨by omega, h1⟩
    | some s =>
      refine hextend h1 (fun k hk => ?_) (hv s rfl)
      rw [word_memset (by omega)]
      omega
  · next hx0 =>
    refine .bind (h.blockRead hx) ?_
    rintro buffer fs₁ ⟨rfl, rfl⟩
    exact hextend h (hb hx0) hx

/-- The direct blocks: past them nothing changes. -/
theorem Sized.allocateDirect : ∀ (add n : Nat) (ino : Block) {fs : Fs},
    Sized N fs → Runs (Fs.act t) (allocateDirect checked add n ino) fs
      fun r fs' => Sized N fs' ∧
        (r.1.ok = true → r.2 = (n + min add (10 - n), add - min add (10 - n))) ∧
        (∀ i, 10 ≤ i → word r.1.ino i = word ino i) ∧
        (10 ≤ n → fs' = fs) := by
  intro add
  induction add with
  | zero =>
    intro n ino fs h
    refine .pure ⟨h, fun _ => ?_, fun _ _ => rfl, fun _ => rfl⟩
    rfl
  | succ add ih =>
    intro n ino fs h
    unfold Inode.allocateDirect directNum
    split
    next hn =>
      refine .after (exec_checked hn) ?_
      refine .bind h.freeMapAllocate ?_
      rintro v fs₁ ⟨h1, hv⟩
      cases v with
      | none =>
        refine .pure ⟨h1, fun hok => ?_, fun _ _ => rfl, by omega⟩
        cases hok
      | some s =>
        refine .bind (h1.blockWrite (hv s rfl)) ?_
        rintro - fs₂ rfl
        refine (ih (n + 1) (setWord ino n s) h1.setDisk).conseq ?_
        rintro r fs' ⟨hs, hr, hw, -⟩
        refine ⟨hs, fun hok => ?_, fun i hi => ?_, by omega⟩
        · rw [hr hok]
          congr 1 <;> omega
        · rw [hw i hi, word_setWord_ne (by omega)]
    next hn =>
      have hmin : min (add + 1) (10 - n) = 0 := by omega
      refine .pure ⟨h, fun _ => ?_, fun _ _ => rfl, fun _ => rfl⟩
      rw [hmin]
      rfl

/-- The index blocks of a file with `n` blocks are on the device. -/
structure Reaches (e N : Nat) (d : Nat → Block) (ino : Block) (n : Nat) : Prop where
  indirect : word ino 10 < N
  double : word ino 11 < N
  later : n < 138 → word ino 11 = 0
  fresh : word ino 11 = 0 → e ≤ 32
  inner : word ino 11 ≠ 0 → Entries e N (d (word ino 11))

theorem Sized.allocateDouble (h : Sized N fs) (hN : N ≤ 4294967296) (hn : 0 < add → 138 ≤ n)
    (hcap : n + add ≤ 138 + 128 * min e 128) (hx : word ino 11 < N)
    (hnew : word ino 11 = 0 → e ≤ 32) (hb : word ino 11 ≠ 0 → Entries e N (fs.disk (word ino 11))) :
    Runs (Fs.act t) (allocateDouble checked junk n add ino) fs fun _ fs' => Sized N fs' := by
  unfold Inode.allocateDouble directNum blocksInIndirect
  split
  · refine .bind (h.doubleIndirectBlockAllocate hN (by omega) hx hnew hb) fun s fs₁ h1 => ?_
    exact .pure h1.2
  · exact .pure h

theorem Sized.allocateIndirect (h : Sized N fs) (hN : N ≤ 4294967296) (hn : 0 < add → 10 ≤ n)
    (hlev : Levels e n (n + add)) (hr : Reaches e N fs.disk ino n) :
    Runs (Fs.act t) (allocateIndirect checked junk n add ino) fs fun _ fs' => Sized N fs' := by
  obtain ⟨hcap, he, hlev⟩ := hlev
  unfold Inode.allocateIndirect directNum blocksInIndirect
  split
  next hlevel =>
    generalize hnow : (if add > 128 then 128 else add) = now
    have hfit : n + now ≤ 138 ∧ now ≤ add ∧ (0 < add - now → 138 ≤ n + now) := by
      split at hnow <;> omega
    refine .bind (h.indirectBlockAllocate (by omega) hr.indirect) fun s fs₁ h1 => ?_
    split
    · exact .pure h1.2
    · have hnull : word (setWord ino 10 s) 11 = 0 := hr.later (by omega)
      refine h1.2.allocateDouble (e := e) hN hfit.2.2 (by omega) ?_ (fun _ => he.2 (by omega)) ?_
      · omega
      · intro hne
        exact absurd hnull hne
  next hlevel =>
    exact h.allocateDouble (e := e) hN (by omega) (by omega) hr.double hr.fresh hr.inner

/-- `sector_allocate` returns, with all its indices in range. -/
theorem Sized.sectorAllocate (junk : Nat → Block) (h : Sized N fs) (hN : N ≤ 4294967296)
    (hlev : Levels e (blocks ino) (blocks ino + add)) (hr : Reaches e N fs.disk ino (blocks ino)) :
    Runs (Fs.act t) (sectorAllocateChecked junk add ino) fs fun _ fs' => Sized N fs' := by
  unfold sectorAllocateChecked
  rw [sectorAllocate_eq]
  generalize blocks ino = n at hlev hr ⊢
  split
  · exact .pure h
  split
  · exact .pure h
  refine .bind (Sized.allocateDirect _ _ _ h) ?_
  rintro ⟨g, n', add'⟩ fs₁ ⟨h1, hr1, hw, hsame⟩
  split
  · next hok =>
    cases hr1 hok
    obtain ⟨hcap, he, hlev⟩ := hlev
    refine h1.allocateIndirect (e := e) hN (by dsimp only; omega)
      ⟨by dsimp only; omega, by dsimp only; omega, by dsimp only; omega⟩ ?_
    by_cases hn : 10 ≤ n
    · have hn' : n + min add (10 - n) = n := by omega
      rw [hsame hn, hn']
      constructor
      · rw [hw 10 (by omega)]
        exact hr.indirect
      all_goals rw [hw 11 (by omega)]
      exacts [hr.double, hr.later, hr.fresh, hr.inner]
    · have hnull : word g.ino 11 = 0 := by
        rw [hw 11 (by omega)]
        exact hr.later (by omega)
      refine ⟨?_, ?_, fun _ => hnull, fun _ => he.2 (by omega), fun hne => absurd hnull hne⟩
      · rw [hw 10 (by omega)]
        exact hr.indirect
      · rw [hw 11 (by omega)]
        exact hr.double
  · exact .pure h1

-- ==== a new file

section NewFile

variable {dir ok : Bool} {len : Int} {g : Grown}

theorem blocks_blankInode (dir : Bool) : blocks (blankInode dir) = 0 := by
  cases dir <;> decide

/-- The first of the data sectors of a new file. -/
theorem sectorAllocate_first (hpos : add ≠ 0) (hmax : add ≤ maxSectors)
    (he : (sectorAllocate junk add (blankInode dir)).exec (Fs.act t) fs = some (g, fs')) :
    (fs.freeMap.freeCount = 0 ∧ g.ok = false ∧ fs' = fs) ∨ fs.freeMap.freeCount ≠ 0 ∧
      ∃ x, fs.freeMap.test x = false ∧ fs'.freeMap.test x = true := by
  obtain ⟨n, rfl⟩ := Nat.exists_eq_succ_of_ne_zero hpos
  have hsmall : ¬(0 + (n + 1)) % 4294967296 > maxSectors := by omega
  unfold sectorAllocate at he
  rw [sectorAllocate_eq, blocks_blankInode, if_neg hsmall, if_neg hpos] at he
  obtain ⟨d, fs₁, hdirect, hrest⟩ := exec_bind_some he
  obtain ⟨u, fs₀, huse, hdirect⟩ := exec_bind_some hdirect
  cases huse
  obtain ⟨sector, fs₂, htake, hmore⟩ := exec_bind_some hdirect
  rcases (freeMapAllocate_runs t fs).exec htake with
    ⟨rfl, hsame, hzero⟩ | ⟨x, rfl, htaken⟩
  · cases hmore
    cases hrest
    exact .inl ⟨hzero, rfl, hsame⟩
  · have hcount := htaken.count
    refine .inr ⟨by omega, x, htaken.free, ?_⟩
    have hx : fs₂.freeMap.test x = true := by rw [htaken.test x, if_pos rfl]
    have hw := allotting_congruence t fun _ _ => allotting_pure t ()
    have hdirects : Allots fs₂ fs₁ := by
      obtain ⟨u, fs₃, hwrite, hloop⟩ := exec_bind_some hmore
      exact (allotting_blockWrite t _ _ _ _ _ hwrite).trans (hw.allocateDirect _ _ _ _ _ _ hloop)
    have hindirect : Allots fs₁ fs' := by
      split at hrest
      · exact hw.allocateIndirect junk _ _ _ _ _ _ hrest
      · cases hrest
        exact .refl _
    exact (hdirects.trans hindirect).keeps x hx

/-- What `inode_create` does: the inode is written if there was space. -/
theorem inodeCreate_exec (h : (inodeCreate junk x len dir).exec (Fs.act t) fs = some (ok, fs')) :
    ∃ g fs₁, (sectorAllocate junk (bytesToSectors len)
        (blankInode dir)).exec (Fs.act t) fs = some (g, fs₁) ∧
      g.ok = ok ∧
      fs' = if ok then fs₁.setDisk x (setEof (setLength g.ino len) len)
        else fs₁ := by
  obtain ⟨_, s, hassert, h⟩ := exec_bind_some h
  rw [(act_assert (act_of_run hassert)).2] at h
  obtain ⟨g, fs₁, hg, h⟩ := exec_bind_some h
  refine ⟨g, fs₁, hg, ?_⟩
  cases hok : g.ok with
  | false =>
    rw [hok] at h
    cases h
    exact ⟨rfl, rfl⟩
  | true =>
    rw [hok, if_pos rfl] at h
    obtain ⟨_, fs₂, hw, h⟩ := exec_bind_some h
    cases h
    exact ⟨rfl, act_blockWrite (act_of_run hw)⟩

end NewFile

end Pintos.Inode
