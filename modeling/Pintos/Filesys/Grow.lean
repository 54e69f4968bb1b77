/-
Growing a file: `sector_allocate` and what it calls, among other threads.

# What the others may do

While one thread grows the file `I`, the others leave the free map and
the index blocks alone; they may write headers without moving a pointer,
and data blocks that the file had before (`Quiet`). The growing thread
takes sectors from the free map, writes the sectors it took and extends
the index blocks of `I` (`GrowStep`).

# What the thread knows

`At` is its assertion: an owner that holds, the number of free sectors,
the contents `d` of the index blocks, and the sectors it has taken and not
yet given a slot (`res`). A sector taken for data is claimed once it is
zeroed, one taken for an index block once that block is written: until
then what it holds is left over from an earlier use and may look like
anything.

The facts about the pointers, `Mapped`, `Tail` and `Bounded`, are about
the owner and `d` and so do not depend on the state.
-/
import Pintos.Filesys.Layout

namespace Pintos.Inode

open Resume Env Function List

-- ==== the relations

/-- What the others do while `I`, with `n₀` blocks so far, is grown. -/
structure Quiet (live : List Nat) (I n₀ : Nat) (fs fs' : Fs) : Prop where
  size : fs'.size = fs.size
  freeMap : fs'.freeMap = fs.freeMap
  holds : ∀ owner, Holds live owner fs → Holds live owner fs'
  disk : ∀ owner x, Holds live owner fs → fs'.disk x = fs.disk x ∨
    (∃ J, owner x = some (J, .header)) ∨
    ∃ J i, owner x = some (J, .data i) ∧ (J = I → i < n₀)

/-- What it does to the disk: as in `Keeps`, with the data left alone. -/
structure Extends (owner : Owner) (d d' : Nat → Block) : Prop where
  keeps : Keeps owner d d'
  data : ∀ x J i, owner x = some (J, .data i) → d' x = d x

theorem Extends.refl (owner : Owner) (d : Nat → Block) : Extends owner d d :=
  ⟨.refl owner d, fun _ _ _ _ => rfl⟩

/-- What the growing thread does. -/
structure GrowStep (live : List Nat) (fs fs' : Fs) : Prop where
  size : fs'.size = fs.size
  inode : fs'.inode = fs.inode
  openInodes : fs'.openInodes = fs.openInodes
  owner : ∃ owner, Holds live owner fs ∧ Extends owner fs.disk fs'.disk

/-- The commands of `sector_allocate`. -/
def Growth (live : List Nat) : Cmd → Prop
  | .scanAndFlip | .mapFile | .bitmapWrite => True
  | .blockRead x | .blockWrite x _ => x ∉ live
  | _ => False

structure At (live : List Nat) (I n₀ : Nat) (res : List Nat)
    (owner : Owner) (d : Nat → Block) (f : Nat) (fs : Fs) : Prop where
  holds : Holds live owner fs
  free : fs.freeMap.freeCount = f
  index : ∀ x J slot, owner x = some (J, slot) → slot.isIndex = true → fs.disk x = d x
  zero : ∀ x i, owner x = some (I, .data i) → n₀ ≤ i → fs.disk x = zeros
  reserved : ∀ x ∈ res, owner x = none ∧ x < fs.size ∧ fs.freeMap.test x = true
  nodup : res.Nodup

/-- How owner and index blocks change as `I` is grown. -/
structure Grew (I : Nat) (owner : Owner) (d : Nat → Block) (owner' : Owner)
    (d' : Nat → Block) : Prop where
  ext : Ext owner owner'
  only : ∀ x J slot, J ≠ I → owner' x = some (J, slot) → owner x = some (J, slot)
  disk : ∀ x, d' x = d x ∨ owner x = none ∨
    ∃ slot, owner x = some (I, slot) ∧ slot.isIndex = true ∧
      ∀ j, j < 128 → owner (word (d x) j) = some (I, slot.entry j) → word (d' x) j = word (d x) j

variable {I x J n₀ f : Nat} {owner owner' owner'' : Owner} {d d' d'' : Nat → Block} {slot : Slot}
  {b : Block} {live res : List Nat} {fs fs' : Fs}

theorem Grew.refl (I : Nat) (owner : Owner) (d : Nat → Block) : Grew I owner d owner d :=
  ⟨Ext.refl owner, fun _ _ _ _ h => h, fun _ => .inl rfl⟩

section

variable (h : Grew I owner d owner' d')

include h

theorem Grew.trans (h' : Grew I owner' d' owner'' d'') : Grew I owner d owner'' d'' where
  ext := h.ext.trans h'.ext
  only := fun x J slot hJ hx => h.only x J slot hJ (h'.only x J slot hJ hx)
  disk := by
    intro x
    cases hx : owner x with
    | none => exact .inr (.inl rfl)
    | some z =>
      have hx' := h.ext x z hx
      rcases h'.disk x with h2 | h2 | ⟨slot, h2, hslot, hkeep⟩
      · rw [h2, ← hx]
        exact h.disk x
      · simp [hx'] at h2
      · rw [hx'] at h2
        cases h2
        refine .inr (.inr ⟨slot, rfl, hslot, fun j hj hown => ?_⟩)
        have h1 : word (d' x) j = word (d x) j := by
          rcases h.disk x with h1 | h1 | ⟨slot', h1, -, hkeep'⟩
          · rw [h1]
          · simp [hx] at h1
          · rw [hx] at h1
            cases h1
            exact hkeep' j hj hown
        rw [hkeep j hj (by rw [h1]; exact h.ext _ _ hown), h1]

theorem Grew.keeps : Keeps owner d d' := by
  intro x
  rcases h.disk x with h1 | h1 | ⟨slot, h1, h2, h3⟩
  · exact .inl h1
  · exact .inr (.inl h1)
  · exact .inr (.inr (.inr ⟨I, slot, h1, h2, h3⟩))

/-- The index blocks of other files stay. -/
theorem Grew.other (hJ : J ≠ I) (hx : owner x = some (J, slot)) : d' x = d x := by
  rcases h.disk x with h1 | h1 | ⟨slot', h1, -, -⟩
  · exact h1
  · simp [hx] at h1
  · rw [hx] at h1
    cases h1
    exact absurd rfl hJ

theorem Grew.mapped {n : Nat} {ino : Block} (hm : Mapped d owner J ino n) :
    Mapped d' owner' J ino n :=
  (hm.keeps h.keeps).ext h.ext

end

theorem Grew.claim (hx : owner x = none) : Grew I owner d (claim owner x (I, slot)) d where
  ext := claim_ext hx
  only := by
    intro y J slot' hJ hy
    rcases claim_eq hy with ⟨-, heq⟩ | hy
    · cases heq
      exact absurd rfl hJ
    · exact hy
  disk := fun _ => .inl rfl

/-- An unowned sector may hold anything. -/
theorem Grew.put (hx : owner x = none) : Grew I owner d owner (update d x b) where
  ext := Ext.refl owner
  only := fun _ _ _ _ h => h
  disk := by
    intro y
    by_cases hy : y = x
    · rw [hy]
      exact .inr (.inl hx)
    · exact .inl (update_of_ne hy b d)

/-- An index block is rewritten, with the entries in use as they were. -/
theorem Grew.rewrite (hx : owner x = some (I, slot)) (hslot : slot.isIndex = true)
    (hkeep : ∀ j, j < 128 → owner (word (d x) j) = some (I, slot.entry j) →
      word b j = word (d x) j) :
    Grew I owner d owner (update d x b) where
  ext := Ext.refl owner
  only := fun _ _ _ _ h => h
  disk := by
    intro y
    by_cases hy : y = x
    · subst hy
      refine .inr (.inr ⟨slot, hx, hslot, fun j hj hown => ?_⟩)
      rw [update_self]
      exact hkeep j hj hown
    · exact .inl (update_of_ne hy b d)

-- ==== At

theorem At.quiet (h : At live I n₀ res owner d f fs)
    (hq : Quiet live I n₀ fs fs') : At live I n₀ res owner d f fs' where
  holds := hq.holds owner h.holds
  free := by rw [hq.freeMap]; exact h.free
  index := by
    intro x J slot hx hslot
    rw [← h.index x J slot hx hslot]
    rcases hq.disk owner x h.holds with hd | ⟨J', hd⟩ | ⟨J', i, hd, -⟩
    · exact hd
    · rw [hx] at hd
      cases hd
      cases hslot
    · rw [hx] at hd
      cases hd
      cases hslot
  zero := by
    intro x i hx hi
    rw [← h.zero x i hx hi]
    rcases hq.disk owner x h.holds with hd | ⟨J', hd⟩ | ⟨J', i', hd, hlt⟩
    · exact hd
    · simp [hx] at hd
    · simp [hx] at hd
      omega
  reserved := by
    intro x hx
    rw [hq.size, hq.freeMap]
    exact h.reserved x hx
  nodup := h.nodup

section

variable (h : At live I n₀ (x :: res) owner d f fs)

include h

/-- What is left of the reserved sectors once the first has a slot. -/
theorem At.reserved_claim (z : Nat × Slot) : ∀ y ∈ res, claim owner x z y = none ∧
      y < fs.size ∧ fs.freeMap.test y = true := by
  intro y hy
  have hne : y ≠ x := fun heq => (nodup_cons.mp h.nodup).1 (heq ▸ hy)
  rw [claim_ne hne]
  exact h.reserved y (mem_cons_of_mem x hy)

/-- A zeroed sector becomes a data block. -/
theorem At.claim_data {n : Nat} (hz : fs.disk x = zeros) (hfresh : ∀ y, owner y ≠ some (I, .data n))
    : At live I n₀ res (claim owner x (I, .data n)) d f fs where
  holds :=
    have hx := h.reserved x mem_cons_self
    h.holds.claim hx.1 hx.2.1 hx.2.2 hfresh
  free := h.free
  index := by
    intro y J slot hy hslot
    rcases claim_eq hy with ⟨-, heq⟩ | ho
    · cases heq
      cases hslot
    · exact h.index y J slot ho hslot
  zero := by
    intro y i hy hi
    rcases claim_eq hy with ⟨rfl, -⟩ | ho
    · exact hz
    · exact h.zero y i ho hi
  reserved := h.reserved_claim _
  nodup := (nodup_cons.mp h.nodup).2

/-- A written sector becomes an index block. -/
theorem At.claim_index {slot : Slot} (hb : fs.disk x = b) (hslot : slot.isIndex = true)
    (hfresh : ∀ y, owner y ≠ some (I, slot)) :
    At live I n₀ res (claim owner x (I, slot)) (update d x b) f fs where
  holds :=
    have hx := h.reserved x mem_cons_self
    h.holds.claim hx.1 hx.2.1 hx.2.2 hfresh
  free := h.free
  index := by
    intro y J slot' hy hslot'
    by_cases hyx : y = x
    · rw [hyx, update_self, hb]
    · rw [update_of_ne hyx]
      rw [claim_ne hyx] at hy
      exact h.index y J slot' hy hslot'
  zero := by
    intro y i hy hi
    rcases claim_eq hy with ⟨-, heq⟩ | ho
    · cases heq
      cases hslot
    · exact h.zero y i ho hi
  reserved := h.reserved_claim _
  nodup := (nodup_cons.mp h.nodup).2

end

theorem setDisk_self (fs : Fs) (x : Nat) (b : Block) : (fs.setDisk x b).disk x = b := if_pos rfl

theorem setDisk_ne (fs : Fs) {x y : Nat} (b : Block) (h : y ≠ x) :
    (fs.setDisk x b).disk y = fs.disk y := if_neg h

/-- A write within `Extends`. -/
theorem GrowStep.setDisk (h : Holds live owner fs)
    (hk : Extends owner fs.disk (fs.setDisk x b).disk) : GrowStep live fs (fs.setDisk x b) :=
  ⟨rfl, rfl, rfl, owner, h, hk⟩

theorem At.write_reserved (h : At live I n₀ res owner d f fs) (hx : x ∈ res) :
    GrowStep live fs (fs.setDisk x b) ∧ At live I n₀ res owner d f (fs.setDisk x b) := by
  have hnone := (h.reserved x hx).1
  have hne : ∀ y z, owner y = some z → y ≠ x := by
    rintro y z hy rfl
    simp [hnone] at hy
  have hk : Keeps owner fs.disk (fs.setDisk x b).disk := by
    intro y
    by_cases hyx : y = x
    · rw [hyx]
      exact .inr (.inl hnone)
    · exact .inl (setDisk_ne fs b hyx)
  have hdata : ∀ y J i, owner y = some (J, .data i) →
      (fs.setDisk x b).disk y = fs.disk y := fun y J i hy =>
    setDisk_ne fs b (hne y _ hy)
  refine ⟨GrowStep.setDisk h.holds ⟨hk, hdata⟩, ?_⟩
  constructor
  · exact h.holds.keeps rfl rfl (fun _ h => h) hk
  · exact h.free
  · intro y J slot hy hslot
    rw [setDisk_ne fs b (hne y _ hy)]
    exact h.index y J slot hy hslot
  · intro y i hy hi
    rw [setDisk_ne fs b (hne y _ hy)]
    exact h.zero y i hy hi
  · exact h.reserved
  · exact h.nodup

theorem At.write_index (h : At live I n₀ res owner d f fs) {slot : Slot}
    (hx : owner x = some (I, slot)) (hslot : slot.isIndex = true)
    (hkeep : ∀ j, j < 128 → owner (word (d x) j) = some (I, slot.entry j) →
      word b j = word (d x) j) :
    GrowStep live fs (fs.setDisk x b) ∧
      At live I n₀ res owner (update d x b) f (fs.setDisk x b) := by
  have hk : Keeps owner fs.disk (fs.setDisk x b).disk := by
    intro y
    by_cases hyx : y = x
    · subst hyx
      refine .inr (.inr (.inr ⟨I, slot, hx, hslot, ?_⟩))
      rw [setDisk_self, h.index y I slot hx hslot]
      exact hkeep
    · exact .inl (setDisk_ne fs b hyx)
  have hdata y J i (hy : owner y = some (J, .data i)) : (fs.setDisk x b).disk y = fs.disk y := by
    refine setDisk_ne fs b ?_
    rintro rfl
    rw [hx] at hy
    cases hy
    cases hslot
  refine ⟨GrowStep.setDisk h.holds ⟨hk, hdata⟩, ?_⟩
  constructor
  · exact h.holds.keeps rfl rfl (fun _ h => h) hk
  · exact h.free
  · intro y J slot' hy hslot'
    by_cases hyx : y = x
    · rw [hyx, setDisk_self, update_self]
    · rw [setDisk_ne fs b hyx, update_of_ne hyx]
      exact h.index y J slot' hy hslot'
  · intro y i hy hi
    have hyx : y ≠ x := by
      rintro rfl
      rw [hx] at hy
      cases hy
      cases hslot
    rw [setDisk_ne fs b hyx]
    exact h.zero y i hy hi
  · exact h.reserved
  · exact h.nodup

/-- One sector is taken from the free map. -/
theorem At.take (h : At live I n₀ res owner d (f + 1) fs) {v : Option Nat} {m : Bitmap}
    (hscan : fs.freeMap.scanAndFlip 0 1 false = (v, m)) :
    GrowStep live fs { fs with freeMap := m } ∧ ∃ x, v = some x ∧
      At live I n₀ (x :: res) owner d f { fs with freeMap := m } := by
  rcases Bitmap.scanAndFlip_one fs.freeMap with
    ⟨-, hzero⟩ | ⟨x, m', heq, hlt, hfree, hcnt, htest, hcount⟩
  · simp [h.free] at hzero
  · rw [hscan, Prod.mk.injEq] at heq
    obtain ⟨rfl, rfl⟩ := heq
    have hmono y (hy : fs.freeMap.test y = true) : m.test y = true := by
      rw [htest]
      split
      · rfl
      · exact hy
    refine ⟨⟨rfl, rfl, rfl, owner, h.holds, Extends.refl owner fs.disk⟩, x, rfl, ?_⟩
    constructor
    · exact h.holds.keeps rfl hcnt hmono (Keeps.refl owner fs.disk)
    · have hf := h.free
      show m.freeCount = f
      omega
    · exact h.index
    · exact h.zero
    · intro y hy
      rcases mem_cons.mp hy with rfl | hy
      · refine ⟨h.holds.free_unowned hfree, ?_, ?_⟩
        · rw [← h.holds.bits]
          exact hlt
        · show m.test y = true
          rw [htest, if_pos rfl]
      · obtain ⟨h1, h2, h3⟩ := h.reserved y hy
        exact ⟨h1, h2, hmono y h3⟩
    · refine nodup_cons.mpr ⟨fun hmem => ?_, h.nodup⟩
      simp [(h.reserved x hmem).2.2] at hfree

end Pintos.Inode
