/-
Growing a file and looking its blocks up agree, and when growth fails.

# The file

`Charted`: an owner gives the blocks of the file their sectors, each one
in use and of one slot, and there is nothing in the pointers after them.
Nothing is said of other files.

# What growth does

`Lengthened`: the file has its new blocks, the old ones are where they
were, and what is new was free. For this the owner is completed first
(`complete`): a sector in use that is not the file's gets a slot of its
own, so a sector without one is free.

# When it does not

The request is split wrongly over the levels if it begins inside the
indirect block and ends past it. Then the buffer is overrun. A double
indirect block that growth makes is cleared up to entry 32; from there on
its entries are what was on the stack (`stray`), and growth follows them.
Where a run must fail, it is taken to have returned, and what it returned
from is looked at (`splits`).
-/
import Pintos.Filesys.Allocation
import Pintos.Filesys.Row

namespace Pintos.Inode

open Resume Prog Env Option

-- ==== the owner

/-- A sector is in use. -/
def InUse (fs : Fs) (x : Nat) : Prop := x < fs.size ∧ fs.freeMap.test x = true

instance (fs : Fs) (x : Nat) : Decidable (InUse fs x) := inferInstanceAs (Decidable (_ ∧ _))

/-- The file's first `n` blocks keep their slots; every other sector in
use gets one that is nobody's. -/
def complete (owner : Owner) (I n : Nat) (fs : Fs) : Owner := fun x =>
  if InUse fs x then
    match owner x with
    | some (J, slot) =>
      if J = I ∧ slot ≠ .header ∧ slot.start < n then some (I, slot)
      else some (x, .header)
    | none => some (x, .header)
  else none

/-- The file of `I`, by the pointers of `ino`. -/
structure Charted (e : Nat) (owner : Owner) (I : Nat) (ino : Block) (fs : Fs) : Prop where
  holds : Holds [] owner fs
  map : owner 0 = some (0, .header)
  mapped : Mapped fs.disk owner I ino (blocks ino)
  tail : Tail e fs.disk ino (blocks ino)

variable {e : Nat} {owner : Owner} {I n x i k add : Nat} {ino M : Block} {fs : Fs} {t : Tid}
  {slot : Slot}
  {z : Nat × Slot}

theorem complete_none (h : complete owner I n fs x = none) : ¬ InUse fs x := by
  intro hx
  unfold complete at h
  rw [if_pos hx] at h
  split at h
  · split at h <;> cases h
  · cases h

theorem complete_kept (hx : InUse fs x) (ho : owner x = some (I, slot)) (hslot : slot ≠ .header)
    (hn : slot.start < n) : complete owner I n fs x = some (I, slot) := by
  unfold complete
  rw [if_pos hx, ho]
  exact if_pos ⟨rfl, hslot, hn⟩

theorem complete_some (h : complete owner I n fs x = some z) :
    InUse fs x ∧ (z = (x, .header) ∨ ∃ slot, z = (I, slot) ∧
      owner x = some (I, slot) ∧ slot ≠ .header ∧ slot.start < n) := by
  obtain ⟨hx, h⟩ := ite_none_right_eq_some.mp h
  refine ⟨hx, ?_⟩
  split at h
  next J slot ho =>
    split at h
    case isTrue hc =>
      cases h
      obtain ⟨rfl, hslot, hn⟩ := hc
      exact .inr ⟨slot, rfl, ho, hslot, hn⟩
    case isFalse =>
      cases h
      exact .inl rfl
  next =>
    cases h
    exact .inl rfl

theorem complete_bounded : Bounded (complete owner I n fs) I n n where
  data := by
    intro x i hx
    rcases (complete_some hx).2 with heq | ⟨slot, heq, -, -, hn⟩
    · cases heq
    · cases heq
      exact hn
  index := by
    intro x slot hx hslot
    rcases (complete_some hx).2 with heq | ⟨slot', heq, -, -, hn⟩
    · cases heq
      cases hslot
    · cases heq
      exact hn

theorem complete_holds (h : Holds [] owner fs) : Holds [] (complete owner I n fs) fs where
  size := h.size
  bits := h.bits
  used := fun x z hx => (complete_some hx).1
  inj := by
    intro x y z hx hy
    rcases (complete_some hx).2 with rfl | ⟨slot, rfl, ho, hslot, -⟩
    · rcases (complete_some hy).2 with heq | ⟨slot, heq, -, hslot, -⟩
      · cases heq
        rfl
      · cases heq
        exact absurd rfl hslot
    · rcases (complete_some hy).2 with heq | ⟨slot', heq, ho', -, -⟩
      · cases heq
        exact absurd rfl hslot
      · cases heq
        exact h.inj x y _ ho ho'
  header := nofun
  mapped := nofun

theorem complete_mapped {ino : Block} (h : Holds [] owner fs) (hm : Mapped fs.disk owner I ino n) :
    Mapped fs.disk (complete owner I n fs) I ino n where
  cap := hm.cap
  data := fun i hi => complete_kept (h.used _ _ (hm.data i hi)) (hm.data i hi) (by simp) hi
  indirect := fun hn => complete_kept (h.used _ _ (hm.indirect hn)) (hm.indirect hn) (by simp) hn
  double := fun hn => complete_kept (h.used _ _ (hm.double hn)) (hm.double hn) (by simp) hn
  inner := fun k hk => complete_kept (h.used _ _ (hm.inner k hk)) (hm.inner k hk) (by simp) hk

theorem complete_map (h : Holds [] owner fs) (h0 : owner 0 = some (0, .header)) :
    complete owner I n fs 0 = some (0, .header) := by
  have hused : InUse fs 0 := h.used _ _ h0
  unfold complete
  rw [if_pos hused, h0]
  exact if_neg fun hc => hc.2.1 rfl

-- ==== growth

/-- The file has grown from `n` to `n'` blocks. -/
structure Lengthened (I n n' : Nat) (ino : Block) (fs : Fs) (g : Grown)
    (fs' : Fs) (owner : Owner) : Prop where
  holds : Holds [] owner fs'
  mapped : Mapped fs'.disk owner I g.ino n'
  old : ∀ i, i < n → blockOf fs'.disk g.ino i = blockOf fs.disk ino i
  fresh : ∀ x slot, owner x = some (I, slot) → slot ≠ .header →
    n ≤ slot.start → x < fs.size ∧ fs.freeMap.test x = false
  zero : ∀ x i, owner x = some (I, .data i) → n ≤ i → fs'.disk x = zeros
  /-- Only the sectors of the new blocks were taken. -/
  taken : fs'.freeMap.freeCount + cost n' = fs.freeMap.freeCount + cost n

theorem grows_any (t : Tid) (live : List Nat) (I n₀ : Nat) :
    Grows (alone (Fs.act t)) id t live I n₀ (fun _ => True) where
  act := fun h => h
  quiet := by
    rintro fs _ - rfl
    exact ⟨⟨rfl, rfl, fun _ h => h, fun _ _ _ => .inl rfl⟩, trivial⟩
  step := fun _ _ _ _ _ => ⟨trivial, trivial⟩

/-- The file has no part in the sector of the free map's inode. -/
theorem Charted.ne_zero (h : Charted e owner I ino fs) (hx : owner x = some (I, slot))
    (hslot : slot ≠ .header) : x ≠ 0 := by
  rintro rfl
  rw [h.map] at hx
  cases hx
  exact hslot rfl

/-- The index blocks are on the device. -/
theorem Charted.reaches (h : Charted e owner I ino fs) (he : blocks ino ≤ 138 → e ≤ 32) :
    Reaches e fs.size fs.disk ino (blocks ino) := by
  have h0 := (h.holds.used _ _ h.map).1
  have hused := fun x z hx => (h.holds.used x z hx).1
  refine ⟨?_, ?_, fun hn => h.tail.double (by omega), fun hnull => he ?_, ?_⟩
  · by_cases hn : 10 < blocks ino
    · exact hused _ _ (h.mapped.indirect hn)
    · rw [h.tail.indirect (by omega)]
      exact h0
  · by_cases hn : 138 < blocks ino
    · exact hused _ _ (h.mapped.double hn)
    · rw [h.tail.double (by omega)]
      exact h0
  · by_contra hn
    exact h.ne_zero (h.mapped.double (by omega)) (by simp) hnull
  · intro hne k hk
    by_cases hn : 138 < blocks ino
    · by_cases hin : 138 + 128 * k < blocks ino
      · exact hused _ _ (h.mapped.inner k hin)
      · rw [h.tail.inner hn k hk (by omega)]
        exact h0
    · exact absurd (h.tail.double (by omega)) hne

theorem Charted.sized (h : Charted e owner I ino fs) : Sized fs.size fs := ⟨rfl, h.holds.bits⟩

/-- `sector_allocate`, with space and on a request that the levels are
right for. -/
theorem Charted.grow (h : Charted e owner I ino fs) (junk : Nat → Block)
    {n : Nat} (hlev : Levels e (blocks ino) (blocks ino + n))
    (hspace : cost (blocks ino + n) ≤ cost (blocks ino) + fs.freeMap.freeCount) :
    Runs (Fs.act t) (sectorAllocateChecked junk n ino) fs fun g fs' =>
      g.ok = true ∧ Kept ino g.ino ∧ ∃ owner', Lengthened I (blocks ino)
        (blocks ino + n) ino fs g fs' owner' := by
  have hmap := complete_mapped h.holds h.mapped
  have hruns := h.sized.sectorAllocate (t := t) junk (le_of_lt h.holds.size) hlev
    (h.reaches hlev.2.1.2)
  obtain ⟨f, htaken, htriple⟩ := (grows_any t [] I (blocks ino)).sectorAllocate_start junk
    (complete_holds h.holds) (complete_map h.holds h.map) ⟨hmap, h.tail, complete_bounded⟩ hlev
    hspace
  obtain ⟨g, fs', he, hsized⟩ := hruns
  obtain ⟨owner', d', hal, -, hat⟩ := htriple.exec ⟨trivial, rfl⟩
    (sectorAllocate_below t junk n ino fs _ he)
  have hshaped := hal.shaped.of_index hat.index
  refine ⟨g, fs', he, hal.ok, hal.kept, owner', hat.holds, hshaped.mapped,
    fun i hi => ?_, fun x slot hx hslot hn => ?_, hat.zero, hat.free ▸ htaken⟩
  · exact hmap.blockOf_eq hshaped.mapped hal.grew.ext hat.holds.inj hi (by omega)
  · -- a sector that had a slot has kept it
    have hnone : complete owner I (blocks ino) fs x = none := by
      cases hc : complete owner I (blocks ino) fs x with
      | none => rfl
      | some z =>
        have hz := hal.grew.ext x z hc
        rw [hx] at hz
        cases hz
        rcases (complete_some hc).2 with heq | ⟨slot', heq, -, -, hlt⟩
        · cases heq
          exact absurd rfl hslot
        · cases heq
          omega
    have hlt : x < fs.size := by
      rw [← hsized.size]
      exact (hat.holds.used x _ hx).1
    refine ⟨hlt, Bool.eq_false_iff.mpr fun hused => ?_⟩
    exact complete_none hnone ⟨hlt, hused⟩

-- ==== lookup

/-- A file with more than `i` blocks reaches past the start of block `i`. -/
theorem start_lt_length (hi : i < blocks M)
    (hcap : blocks M ≤ 16522) : ((512 * i : Nat) : Int) < length M := by
  have hoff : IsOff (length M) := isOff_toOff _
  unfold blocks at hi hcap
  generalize length M = len at hoff hi hcap ⊢
  by_cases h0 : 0 ≤ len
  · rw [bytesToSectors_eq h0 (le_of_bytesToSectors h0 hoff.2 hcap)] at hi
    omega
  · -- a negative length has no blocks, or far too many
    obtain ⟨hlow, -⟩ := hoff
    have hsum : Int.bmod (len + 511) 4294967296 = len + 511 := by
      rw [Int.bmod_def]
      omega
    unfold bytesToSectors at hi hcap
    rw [hsum] at hi hcap
    by_cases hpos : 0 ≤ len + 511
    · rw [Int.tdiv_eq_ediv_of_nonneg hpos] at hi
      omega
    · have hneg : (len + 511).tdiv 512 = -((-(len + 511)) / 512) := by
        rw [← Int.tdiv_eq_ediv_of_nonneg (by omega), Int.neg_tdiv, Int.neg_neg]
      omega

/-- What `byte_to_sector` answers for an open inode with this data. -/
def byteToSectorOf (fs : Fs) (data : Block) (pos : Nat) : Option Nat :=
  ((byteToSector 0 pos).exec (Fs.act 0)
    (fs.setInode 0 { fs.inode 0 with data := data })).map Prod.fst

/-- A byte before the end is where the index leads. -/
theorem byteToSectorOf_lt {p : Nat} (hh : Holds [] owner fs)
    (hm : Mapped fs.disk owner I M (blocks M)) (hp : (p : Int) < length M) :
    byteToSectorOf fs M p = some (blockOf fs.disk M (p / 512)) := by
  have hself : (fs.setInode 0 { fs.inode 0 with data := M }).inode 0 =
      { fs.inode 0 with data := M } := setInode_self fs 0 _
  have hdisk : OnDisk owner I 0 (fs.setInode 0 { fs.inode 0 with data := M }) := by
    refine ⟨fun x z hx => (hh.used x z hx).1, hh.inj, ?_⟩
    exact hm
  have hpos : (p : Int) < length ((fs.setInode 0 { fs.inode 0 with data := M }).inode 0).data := hp
  have hlook := hdisk.byteToSector (t := 0) hpos
  unfold byteToSectorOf
  rw [hlook, hself]
  rfl

theorem byteToSectorOf_eq (hh : Holds [] owner fs) (hm : Mapped fs.disk owner I M (blocks M))
    (hi : i < blocks M) : byteToSectorOf fs M (512 * i) = some (blockOf fs.disk M i) := by
  have hdiv : 512 * i / 512 = i := by omega
  have hlook := byteToSectorOf_lt hh hm (start_lt_length hi hm.cap)
  rw [hdiv] at hlook
  exact hlook

-- ==== wrong levels

theorem exec_checked_some {i m : Nat} {u : Unit} {fs' : Fs}
    (he : (checked i m).exec (Fs.act t) fs = some (u, fs')) : i < m ∧ fs' = fs := by
  obtain ⟨hi, hfs⟩ := act_assert (act_of_run he)
  exact ⟨of_decide_eq_true hi, hfs⟩

/-- With sectors for it, the buffer of an indirect block is overrun. -/
theorem fillIndirect_overruns : ∀ (add current : Nat) (buffer : Block) {fs : Fs} {r : Block × Fs},
    current ≤ 128 → 128 < current + add → 128 ≤ current + fs.freeMap.freeCount →
      (fillIndirect checked add current buffer).exec (Fs.act t) fs ≠ some r := by
  intro add
  induction add with
  | zero => omega
  | succ add ih =>
    rintro current buffer fs ⟨b, fs'⟩ hcur hadd hfree he
    obtain ⟨u, fs₀, huse, hrest⟩ := exec_bind_some he
    obtain ⟨hlt, rfl⟩ := exec_checked_some huse
    unfold blocksInIndirect at hlt
    obtain ⟨v, fs₁, halloc, hrest⟩ := exec_bind_some hrest
    rcases (freeMapAllocate_runs t _).exec halloc with ⟨-, -, hzero⟩ | ⟨s, rfl, htaken⟩
    · omega
    · have hcount := htaken.count
      obtain ⟨u, fs₂, hwrite, hrest⟩ := exec_bind_some hrest
      cases act_blockWrite (act_of_run hwrite)
      refine ih (current + 1) _ (by omega) (by omega) ?_ hrest
      change 128 ≤ current + 1 + fs₁.freeMap.freeCount
      omega

/-- Growth up to entry `q` of the double indirect block does not return
from there, if there is no such entry or it is not of the device. -/
theorem fillDouble_strays (junk : Nat → Block) {q : Nat} : ∀ (fuel c add : Nat) (buffer : Block)
    {fs : Fs} {r : Block × Fs}, c ≤ 128 * q → 128 * q < c + add → add ≤ fuel →
      (q < 128 → word buffer q ≠ 0 ∧ fs.size ≤ word buffer q) →
      (fillDouble checked junk fuel c add buffer).exec (Fs.act t) fs ≠ some r := by
  intro fuel
  induction fuel with
  | zero => omega
  | succ fuel ih =>
    rintro c add buffer fs ⟨b, fs'⟩ hc hadd hfuel hq he
    unfold fillDouble at he
    rw [if_neg (by omega)] at he
    dsimp only [blocksInIndirect] at he
    obtain ⟨u, fs₀, huse, hrest⟩ := exec_bind_some he
    obtain ⟨hlt, rfl⟩ := exec_checked_some huse
    obtain ⟨s, fs₁, hind, hrest⟩ := exec_bind_some hrest
    by_cases hcq : c / 128 = q
    · -- the entry is followed
      obtain ⟨hne, hsize⟩ := hq (by omega)
      rw [hcq] at hind
      unfold indirectBlockAllocate at hind
      rw [if_neg hne] at hind
      obtain ⟨b, fs₂, hread, -⟩ := exec_bind_some hind
      have hact := act_of_run hread
      exact absurd (ite_none_right_eq_some.mp hact).1 (not_lt.mpr hsize)
    · have hallots := (allotting_congruence t fun i n => allotting_assert t _).indirectBlockAllocate
        _ _ _ _ _ _ _ hind
      refine ih _ _ _ (by omega) (by omega) (by omega) (fun hlt => ?_) hrest
      rw [word_setWord_ne (Ne.symm hcq), hallots.size]
      exact hq hlt

/-- Stack contents that are no sectors. -/
def stray : Nat → Block := fun _ _ => 255

/-- A double indirect block is grown up to its end; a new one, over stray
stack contents, up to entry 32. -/
theorem doubleIndirectBlockAllocate_strays {q c add x s : Nat} {fs' : Fs}
    (hsize : fs.size < 4294967296) (hc : c ≤ 128 * q) (hq : q = 128 ∨ q = 32 ∧ x = 0)
    (he : (doubleIndirectBlockAllocate checked stray c add x).exec (Fs.act t) fs =
      some (s, fs')) : s = 0 ∨ c + add ≤ 128 * q := by
  by_contra! hcon
  have hextend {fs : Fs} {buffer : Block} {y : Nat}
      (hb : q < 128 → word buffer q ≠ 0 ∧ fs.size ≤ word buffer q) :
      (extendDouble checked stray c add buffer y).exec (Fs.act t) fs ≠ some (s, fs') := by
    intro he
    obtain ⟨b, fs₁, hfill, -⟩ := exec_bind_some he
    exact fillDouble_strays stray add c add buffer hc hcon.2 le_rfl hb hfill
  unfold doubleIndirectBlockAllocate at he
  split at he
  · obtain ⟨v, fs₁, halloc, he⟩ := exec_bind_some he
    cases v with
    | none =>
      cases he
      exact hcon.1 rfl
    | some y =>
      refine hextend (fun hlt => ?_) he
      obtain rfl : q = 32 := by omega
      have hword : word (memset fun _ => 255) 32 = 4294967295 := by decide
      change word (memset fun _ => 255) 32 ≠ 0 ∧ _ ≤ word (memset fun _ => 255) 32
      rw [hword, (allotting_freeMapAllocate t _ _ _ halloc).size]
      omega
  · obtain ⟨b, fs₁, -, he⟩ := exec_bind_some he
    exact hextend (by omega) he

theorem allocateDouble_strays {q m : Nat} {g : Grown} {fs' : Fs} (hsize : fs.size < 4294967296)
    (hm : 138 ≤ m) (hcap : m ≤ 138 + 128 * q) (hq : q = 128 ∨ q = 32 ∧ word ino 11 = 0)
    (he : (allocateDouble checked stray m add ino).exec (Fs.act t) fs = some (g, fs'))
    (hok : g.ok = true) : m + add ≤ 138 + 128 * q := by
  unfold allocateDouble directNum blocksInIndirect at he
  split at he
  · obtain ⟨s, fs₁, hdouble, he⟩ := exec_bind_some he
    cases he
    have hs := of_decide_eq_true hok
    rcases doubleIndirectBlockAllocate_strays hsize (by omega) hq hdouble with rfl | hle
    · exact absurd rfl hs
    · omega
  · omega

/-- The levels of a request that is reported as granted are right. -/
theorem allocateIndirect_strays {m : Nat} {g : Grown} {fs' : Fs} (hsize : fs.size < 4294967296)
    (hm : 10 ≤ m) (hcap : m ≤ maxSectors) (hnull : m ≤ 138 → word ino 11 = 0)
    (hindirect : 10 < m → word ino 10 ≠ 0) (hfree : 10 < m → add ≤ fs.freeMap.freeCount)
    (he : (allocateIndirect checked stray m add ino).exec (Fs.act t) fs = some (g, fs'))
    (hok : g.ok = true) :
    m + add ≤ maxSectors ∧ (m ≤ 138 → m + add ≤ 4234) ∧ (10 < m → m < 138 → m + add ≤ 138) := by
  unfold maxSectors directNum blocksInIndirect at *
  unfold allocateIndirect directNum blocksInIndirect at he
  split at he
  · next hlevel =>
    obtain ⟨s, fs₁, hind, he⟩ := exec_bind_some he
    generalize hnow : (if add > 128 then 128 else add) = now at hind he
    have hnow : now ≤ add ∧ (add ≤ 128 → now = add) ∧ (128 < add → now = 128) := by
      split at hnow <;> omega
    have hrest : 10 < m → m + add ≤ 138 := by
      intro h10
      by_contra hcon
      unfold indirectBlockAllocate at hind
      rw [if_neg (hindirect h10)] at hind
      obtain ⟨b, fs₂, hread, hind⟩ := exec_bind_some hind
      obtain ⟨b, fs₃, hfill, -⟩ := exec_bind_some hind
      obtain ⟨-, rfl⟩ := act_blockRead (act_of_run hread)
      exact fillIndirect_overruns now (m - 10) _ (by omega) (by omega) (by omega) hfill
    split at he
    · cases he
      cases hok
    · by_cases h10 : 10 < m
      · omega
      · by_cases hadd : add ≤ 128
        · omega
        · have hs := (allotting_congruence t fun i n => allotting_assert t _).indirectBlockAllocate
            _ _ _ _ _ _ _ hind
          have hdouble : word (setWord ino 10 s) 11 = 0 := by
            rw [word_setWord_ne (by omega)]
            exact hnull (by omega)
          have hle := allocateDouble_strays (q := 32) (m := m + now) (by rw [hs.size]; exact hsize)
            (by omega) (by omega) (.inr ⟨rfl, hdouble⟩) he hok
          omega
  · by_cases hadd : add = 0
    · omega
    · have hle := allocateDouble_strays (q := 128) hsize (by omega) (by omega) (.inl rfl) he hok
      refine ⟨by omega, fun h138 => ?_, by omega⟩
      exact allocateDouble_strays (q := 32) hsize (by omega) (by omega)
        (.inr ⟨rfl, hnull h138⟩) he hok

/-- The levels of the index are right for a growth from `k` blocks by `n`:
it does not begin inside the indirect block and end past it, and a double
indirect block that it makes is not grown past what is cleared. -/
def Split (k n : Nat) : Prop := ¬ (10 < k ∧ k < 138 ∧ 138 < k + n) ∧ (k ≤ 138 → k + n ≤ 4234)

instance (k n : Nat) : Decidable (Split k n) := inferInstanceAs (Decidable (_ ∧ _))

/-- A growth that is reported as granted, from stray stack contents and
with sectors for its blocks, is one that the levels are right for. -/
theorem Charted.splits (h : Charted e owner I ino fs) {g : Grown} {fs' : Fs} (hn : n ≠ 0)
    (hmax : ¬ (blocks ino + n) % 4294967296 > maxSectors) (hfree : n ≤ fs.freeMap.freeCount)
    (he : (sectorAllocateChecked stray n ino).exec (Fs.act t) fs = some (g, fs'))
    (hok : g.ok = true) : blocks ino + n ≤ maxSectors ∧ Split (blocks ino) n := by
  unfold sectorAllocateChecked at he
  rw [sectorAllocate_eq, if_neg hmax, if_neg hn] at he
  obtain ⟨⟨g₁, m, add⟩, fs₁, hdirect, he⟩ := exec_bind_some he
  obtain ⟨hsized, hr, hw, hsame⟩ := (h.sized.allocateDirect (t := t) n (blocks ino) ino).exec
    hdirect
  split at he
  · next hok₁ =>
    cases hr hok₁
    have hsize : fs₁.size < 4294967296 := by
      rw [hsized.size]
      exact h.holds.size
    have hcap := h.mapped.cap
    by_cases hlow : blocks ino + n ≤ 10
    · unfold Split maxSectors directNum blocksInIndirect
      omega
    have hle := allocateIndirect_strays hsize (by dsimp only; omega)
      (by unfold maxSectors directNum blocksInIndirect; dsimp only; omega) (fun h138 => ?_)
      (fun h10 => ?_) (fun h10 => ?_) he hok
    · unfold Split maxSectors directNum blocksInIndirect at *
      dsimp only at hle
      omega
    · rw [hw 11 (by omega)]
      exact h.tail.double (by dsimp only at h138; omega)
    · rw [hw 10 (by omega)]
      exact h.ne_zero (h.mapped.indirect (by dsimp only at h10; omega)) (by simp)
    · dsimp only at h10 ⊢
      rw [hsame (by omega)]
      omega
  · next hno =>
    cases he
    exact absurd hok hno

/-- Only the entries up to the end of the growth matter. -/
theorem Charted.levels (h : Charted e owner I ino fs)
    (he : 138 < blocks ino → blocks ino + n ≤ 138 + 128 * e)
    (hmax : blocks ino + n ≤ maxSectors) (hsplit : Split (blocks ino) n) :
    ∃ e', Charted e' owner I ino fs ∧ Levels e' (blocks ino) (blocks ino + n) := by
  obtain ⟨hcross, hlow⟩ := hsplit
  unfold maxSectors directNum blocksInIndirect at hmax
  by_cases hk : blocks ino ≤ 138
  · refine ⟨32, { h with tail := { h.tail with inner := by omega } }, ?_⟩
    exact ⟨by omega, by omega, hcross⟩
  · refine ⟨min e 128, { h with tail := { h.tail with inner := fun hn k hk => ?_ } }, ?_⟩
    · exact h.tail.inner hn k (by omega)
    · exact ⟨by omega, by omega, hcross⟩

-- ==== growth and lookup

/-- The grown file has its old blocks where they were, and each of the new
ones in a zeroed sector of its own that was free, by what the lookup finds. -/
def Agree (n : Nat) (ino : Block) (fs : Fs) (g : Grown) (fs' : Fs) : Prop :=
  ∀ len : Int, IsOff len → bytesToSectors len = blocks ino + n →
    (∀ i, i < blocks ino →
      byteToSectorOf fs' (setLength g.ino len) (512 * i) = byteToSectorOf fs ino (512 * i)) ∧
    ∃ sector : Nat → Nat, ∀ i, blocks ino ≤ i → i < blocks ino + n →
      byteToSectorOf fs' (setLength g.ino len) (512 * i) = some (sector i) ∧
      sector i < fs.size ∧ fs.freeMap.test (sector i) = false ∧
      fs'.disk (sector i) = zeros ∧
      ∀ j, blocks ino ≤ j → j < blocks ino + n → sector j = sector i → j = i

theorem Lengthened.agree {g : Grown} {fs' : Fs} {owner' : Owner} (h : Charted e owner I ino fs)
    (hl : Lengthened I (blocks ino) (blocks ino + n) ino fs g fs' owner') :
    Agree n ino fs g fs' := by
  intro len hlen hn
  have hblocks : blocks (setLength g.ino len) = blocks ino + n := by
    unfold blocks
    rw [length_setLength hlen, hn]
    rfl
  have hmapped : Mapped fs'.disk owner' I (setLength g.ino len) (blocks (setLength g.ino len)) := by
    rw [hblocks]
    exact hl.mapped.congr fun i hi => word_setWord_ne (by omega)
  have hfind i (hi : i < blocks ino + n) :
      byteToSectorOf fs' (setLength g.ino len) (512 * i) = some (blockOf fs'.disk g.ino i) := by
    have hagrees : Agrees g.ino (setLength g.ino len) (blocks ino + n) :=
      Agrees.of_words fun i hi => word_setWord_ne (by omega)
    rw [byteToSectorOf_eq hl.holds hmapped (by omega), hagrees.blockOf_eq hi]
  refine ⟨fun i hi => ?_, blockOf fs'.disk g.ino, fun i hi hlt => ?_⟩
  · rw [hfind i (by omega), hl.old i hi, byteToSectorOf_eq h.holds h.mapped hi]
  · have hdata := hl.mapped.data i hlt
    obtain ⟨hsize, hfree⟩ := hl.fresh _ _ hdata (by simp) hi
    refine ⟨hfind i hlt, hsize, hfree, hl.zero _ i hdata hi, fun j hj hlt' heq => ?_⟩
    have hdata' := hl.mapped.data j hlt'
    rw [heq, hdata] at hdata'
    cases hdata'
    rfl

theorem Holds.nil {live : List Nat} {owner : Owner} {fs : Fs}
    (h : Holds live owner fs) : Holds [] owner fs :=
  { h with
    header := nofun
    mapped := nofun }

theorem row_charted {n stale size used : Nat} (hn : n ≤ 4234) (hused : 64 + n ≤ 32 * used)
    (hfit : 32 * used ≤ size) (hsize : size < 4294967296) :
    Charted 32 (rowOwner n) 2 (rowInode n) (row n stale size used) where
  holds := (row_holds hn hused hfit hsize).nil
  map := rfl
  mapped := by
    rw [rowInode_blocks hn]
    exact row_mapped hn
  tail := by
    rw [rowInode_blocks hn]
    exact row_tail hn

end Pintos.Inode
