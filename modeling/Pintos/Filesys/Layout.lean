/-
Who owns which sector.

# The abstract view

A file is a set of slots: its inode, its data blocks, its indirect block,
its double indirect block and the indirect blocks under that. An `Owner`
says for each sector which slot of which inode it is, if any. It is a
partial injection, so the pointers of two files, or two pointers of one
file, can never lead to the same sector.

`Holds` connects it to the disk: the pointers of every live inode lead to
sectors owned by the slots they stand for, and owned sectors are marked
in the free map. `Keeps` is what writes may do to the disk under a fixed
owner: everything with sectors nobody owns and with data, and to an index
block anything that leaves alone the entries in use.

The numbers 10, 138 and 128 are `DIRECT_NUM`, `DIRECT_NUM +
BLOCKS_IN_INDIRECT` and `BLOCKS_IN_INDIRECT`.
-/
import Pintos.Filesys.Inode

namespace Pintos.Inode

inductive Slot where
  | header
  | data (i : Nat)
  | indirect
  | double
  /-- The indirect block in entry `k` of the double indirect block. -/
  | inner (k : Nat)
  deriving DecidableEq, Repr

def Slot.isIndex : Slot → Bool
  | .indirect | .double | .inner _ => true
  | .header | .data _ => false

/-- The index blocks whose entries are data blocks. -/
def Slot.isLeaf : Slot → Bool
  | .indirect | .inner _ => true
  | .header | .data _ | .double => false

/-- The first block that needs an index block. -/
def Slot.start : Slot → Nat
  | .header => 0
  | .data i => i
  | .indirect => 10
  | .double => 138
  | .inner k => 138 + 128 * k

/-- What entry `j` of an index block stands for. -/
def Slot.entry : Slot → Nat → Slot
  | .double, j => .inner j
  | slot, j => .data (slot.start + j)

theorem Slot.entry_leaf {slot : Slot} (h : slot.isLeaf = true) (j : Nat) :
    slot.entry j = .data (slot.start + j) := by
  cases slot <;> first | rfl | cases h

theorem Slot.isIndex_leaf {slot : Slot} (h : slot.isLeaf = true) : slot.isIndex = true := by
  cases slot <;> first | rfl | cases h

/-- The inode sector and the slot of each sector. -/
abbrev Owner := Nat → Option (Nat × Slot)

/-- The sector of block `n`, by the pointers of `ino`. -/
def blockOf (disk : Nat → Block) (ino : Block) (n : Nat) : Nat :=
  if n < 10 then word ino n
  else if n < 138 then word (disk (word ino 10)) (n - 10)
  else word (disk (word (disk (word ino 11)) ((n - 138) / 128))) ((n - 138) % 128)

/-- The sectors that the length of an inode asks for. -/
def blocks (ino : Block) : Nat := bytesToSectors (length ino)

/-- The pointers of `ino` lead to `n` blocks of the inode at `I`. -/
structure Mapped (disk : Nat → Block) (owner : Owner) (I : Nat) (ino : Block) (n : Nat) : Prop where
  cap : n ≤ 16522
  data : ∀ i, i < n → owner (blockOf disk ino i) = some (I, .data i)
  indirect : 10 < n → owner (word ino 10) = some (I, .indirect)
  double : 138 < n → owner (word ino 11) = some (I, .double)
  inner : ∀ k, 138 + 128 * k < n → owner (word (disk (word ino 11)) k) = some (I, .inner k)

/-- The pointers that growth past `n` blocks will ask for are null; in the
double indirect block only the first `e`, since it is not cleared as a
whole. -/
structure Tail (e : Nat) (disk : Nat → Block) (ino : Block) (n : Nat) : Prop where
  direct : ∀ i, n ≤ i → i < 10 → word ino i = 0
  indirect : n ≤ 10 → word ino 10 = 0
  double : n ≤ 138 → word ino 11 = 0
  inner : 138 < n → ∀ k, k < e → n ≤ 138 + 128 * k → word (disk (word ino 11)) k = 0

structure Holds (live : List Nat) (owner : Owner) (fs : Fs) : Prop where
  size : fs.size < 4294967296
  bits : fs.freeMap.bitCnt = fs.size
  used : ∀ x z, owner x = some z → x < fs.size ∧ fs.freeMap.test x = true
  inj : ∀ x y z, owner x = some z → owner y = some z → x = y
  header : ∀ I ∈ live, owner I = some (I, .header)
  mapped : ∀ I ∈ live, Mapped fs.disk owner I (fs.disk I) (blocks (fs.disk I))

/-- What may happen to the disk while the owner stays. -/
def Keeps (owner : Owner) (d d' : Nat → Block) : Prop :=
  ∀ x, d' x = d x ∨ owner x = none ∨ (∃ J i, owner x = some (J, .data i)) ∨
    ∃ J slot, owner x = some (J, slot) ∧ slot.isIndex = true ∧
      ∀ j, j < 128 → owner (word (d x) j) = some (J, slot.entry j) → word (d' x) j = word (d x) j

/-- No index block has changed. -/
def SameIndex (owner : Owner) (d d' : Nat → Block) : Prop :=
  ∀ x J slot, owner x = some (J, slot) → slot.isIndex = true → d' x = d x

/-- The entries of the index blocks that the first `n` blocks of `ino`
use have stayed. -/
structure Follows (d d' : Nat → Block) (ino : Block) (n : Nat) : Prop where
  indirect : ∀ j, j < 128 → 10 + j < n → word (d' (word ino 10)) j = word (d (word ino 10)) j
  double : ∀ k, 138 + 128 * k < n → word (d' (word ino 11)) k = word (d (word ino 11)) k
  inner : ∀ i, 138 ≤ i → i < n →
    word (d' (word (d (word ino 11)) ((i - 138) / 128))) ((i - 138) % 128) =
    word (d (word (d (word ino 11)) ((i - 138) / 128))) ((i - 138) % 128)

/-- The pointers that the first `n` blocks of `old` use are those of
`new`. -/
structure Agrees (old new : Block) (n : Nat) : Prop where
  direct : ∀ i, i < n → i < 10 → word new i = word old i
  indirect : 10 < n → word new 10 = word old 10
  double : 138 < n → word new 11 = word old 11

/-- No block of `I` from `n` on is owned, and no index block that only
blocks from `m` on need. -/
structure Bounded (owner : Owner) (I n m : Nat) : Prop where
  data : ∀ x i, owner x = some (I, .data i) → i < n
  index : ∀ x slot, owner x = some (I, slot) → slot.isIndex = true → slot.start < m

/-- One owner has all that the other has. -/
def Ext (owner owner' : Owner) : Prop := ∀ x z, owner x = some z → owner' x = some z

def claim (owner : Owner) (x : Nat) (z : Nat × Slot) : Owner := fun y =>
  if y = x then some z else owner y

section Owners

variable {owner owner' : Owner} {x y I n m : Nat} {z : Nat × Slot}

theorem Ext.refl (owner : Owner) : Ext owner owner := fun _ _ h => h

theorem Ext.trans {owner'' : Owner} (h : Ext owner owner')
    (h' : Ext owner' owner'') : Ext owner owner'' :=
  fun x z hx => h' x z (h x z hx)

theorem claim_self : claim owner x z x = some z := if_pos rfl

theorem claim_ne (h : y ≠ x) : claim owner x z y = owner y := if_neg h

theorem claim_ext (h : owner x = none) : Ext owner (claim owner x z) := by
  intro y w hy
  rw [claim_ne, hy]
  rintro rfl
  simp [h] at hy

theorem claim_eq {w : Nat × Slot} (h : claim owner x z y = some w) :
    (y = x ∧ z = w) ∨ owner y = some w := by
  unfold claim at h
  split at h
  case isTrue hy => exact .inl ⟨hy, Option.some.inj h⟩
  case isFalse => exact .inr h

variable (h : Bounded owner I n m)

include h

theorem Bounded.mono {n' m' : Nat} (hn : n ≤ n') (hm : m ≤ m') : Bounded owner I n' m' where
  data := fun x i hx => lt_of_lt_of_le (h.data x i hx) hn
  index := fun x slot hx hi => lt_of_lt_of_le (h.index x slot hx hi) hm

theorem Bounded.fresh_data {i : Nat} (hi : n ≤ i) : ∀ y, owner y ≠ some (I, .data i) :=
  fun y hy => not_lt.mpr hi (h.data y i hy)

theorem Bounded.fresh_index (slot : Slot) (hslot : slot.isIndex = true) (hm : m ≤ slot.start) :
    ∀ y, owner y ≠ some (I, slot) :=
  fun y hy => not_lt.mpr hm (h.index y slot hy hslot)

/-- The next block is claimed. -/
theorem Bounded.claim_data : Bounded (claim owner x (I, .data n)) I (n + 1) m where
  data := by
    intro y i hy
    rcases claim_eq hy with ⟨-, heq⟩ | hy
    · cases heq
      exact Nat.lt_succ_self n
    · exact Nat.lt_succ_of_lt (h.data y i hy)
  index := by
    intro y slot hy hslot
    rcases claim_eq hy with ⟨-, heq⟩ | hy
    · cases heq
      cases hslot
    · exact h.index y slot hy hslot

/-- An index block is claimed. -/
theorem Bounded.claim_index {slot : Slot} (hslot : slot.isIndex = true) (hm : slot.start < m) :
    Bounded (claim owner x (I, slot)) I n m where
  data := by
    intro y i hy
    rcases claim_eq hy with ⟨-, heq⟩ | hy
    · cases heq
      cases hslot
    · exact h.data y i hy
  index := by
    intro y slot' hy hslot'
    rcases claim_eq hy with ⟨-, heq⟩ | hy
    · cases heq
      exact hm
    · exact h.index y slot' hy hslot'

end Owners

-- ==== mapping

section Mapping

variable {d d' : Nat → Block} {owner owner' : Owner} {I n : Nat} {ino : Block}
variable {i m : Nat} {ino' old new : Block}

theorem Mapped.ext (h : Mapped d owner I ino n) (hext : Ext owner owner') :
    Mapped d owner' I ino n where
  cap := h.cap
  data := fun i hi => hext _ _ (h.data i hi)
  indirect := fun hn => hext _ _ (h.indirect hn)
  double := fun hn => hext _ _ (h.double hn)
  inner := fun k hk => hext _ _ (h.inner k hk)

/-- Entries in use of an index block in use are kept. -/
theorem Keeps.entry (hk : Keeps owner d d') {x : Nat} {slot : Slot} {j : Nat}
    (hx : owner x = some (I, slot)) (hslot : slot.isIndex = true) (hj : j < 128)
    (he : owner (word (d x) j) = some (I, slot.entry j)) : word (d' x) j = word (d x) j := by
  rcases hk x with h | h | ⟨J, i, h⟩ | ⟨J, slot', h, -, hkeep⟩
  · rw [h]
  · simp [hx] at h
  · rw [hx] at h
    cases h
    cases hslot
  · rw [hx] at h
    cases h
    exact hkeep j hj he

theorem Keeps.header (hk : Keeps owner d d') {x : Nat}
    (hx : owner x = some (I, .header)) : d' x = d x := by
  rcases hk x with h | h | ⟨J, i, h⟩ | ⟨J, slot, h, hslot, -⟩
  · exact h
  · simp [hx] at h
  · simp [hx] at h
  · rw [hx] at h
    cases h
    cases hslot

theorem Keeps.refl (owner : Owner) (d : Nat → Block) : Keeps owner d d := fun _ => .inl rfl

/-- The entry of the double indirect block that leads to block `i`. -/
theorem inner_index (hi : 138 ≤ i) (hin : i < n) : 138 + 128 * ((i - 138) / 128) < n := by omega

theorem Slot.entry_inner (hi : 138 ≤ i) :
    Slot.entry (.inner ((i - 138) / 128)) ((i - 138) % 128) = .data i :=
  congrArg Slot.data (show 138 + 128 * ((i - 138) / 128) + (i - 138) % 128 = i by omega)

/-- The index leads where it did. -/
theorem Follows.blockOf_eq (h : Follows d d' ino n) (hi : i < n) :
    blockOf d' ino i = blockOf d ino i := by
  unfold blockOf
  by_cases h1 : i < 10
  · rw [if_pos h1, if_pos h1]
  rw [if_neg h1, if_neg h1]
  split
  next h2 => exact h.indirect (i - 10) (by omega) (by omega)
  next h2 =>
    rw [h.double _ (inner_index (by omega) hi)]
    exact h.inner i (by omega) hi

section

variable (h : Mapped d owner I ino n)

include h

/-- The blocks that the inode itself leads to. -/
theorem Mapped.direct (hi : i < n) (hlt : i < 10) : owner (word ino i) = some (I, .data i) := by
  have hdata := h.data i hi
  unfold blockOf at hdata
  rwa [if_pos hlt] at hdata

/-- Those of the indirect block. -/
theorem Mapped.entry (hi : 10 + i < n) (hlt : i < 128) :
    owner (word (d (word ino 10)) i) = some (I, .data (10 + i)) := by
  have hdata := h.data (10 + i) hi
  unfold blockOf at hdata
  rwa [if_neg (by omega), if_pos (by omega), Nat.add_sub_cancel_left] at hdata

/-- What keeps the index blocks keeps the way. -/
theorem Mapped.follows (hk : Keeps owner d d') : Follows d d' ino n where
  indirect := fun _ hj hn => hk.entry (h.indirect (by omega)) rfl hj (h.entry hn hj)
  double := by
    intro k hk'
    have hcap := h.cap
    exact hk.entry (h.double (by omega)) rfl (by omega) (h.inner k hk')
  inner := by
    intro i hi hn
    have hdata := h.data i hn
    unfold blockOf at hdata
    rw [if_neg (by omega), if_neg (by omega)] at hdata
    refine hk.entry (h.inner _ (inner_index hi hn)) rfl (Nat.mod_lt _ (by omega)) ?_
    rw [hdata, Slot.entry_inner hi]

theorem Mapped.of_follows (hf : Follows d d' ino n) : Mapped d' owner I ino n where
  cap := h.cap
  data := by
    intro i hi
    rw [hf.blockOf_eq hi]
    exact h.data i hi
  indirect := h.indirect
  double := h.double
  inner := by
    intro k hk'
    rw [hf.double k hk']
    exact h.inner k hk'

theorem Mapped.keeps (hk : Keeps owner d d') : Mapped d' owner I ino n :=
  h.of_follows (h.follows hk)

/-- Only the index blocks matter. -/
theorem Mapped.follows_index (hidx : SameIndex owner d d') : Follows d d' ino n := by
  constructor
  · intro j _ hn
    rw [hidx _ _ _ (h.indirect (by omega)) rfl]
  · intro k hk
    rw [hidx _ _ _ (h.double (by omega)) rfl]
  · intro i hi hn
    rw [hidx _ _ _ (h.inner _ (inner_index hi hn)) rfl]

theorem Mapped.of_index (hidx : SameIndex owner d d') : Mapped d' owner I ino n :=
  h.of_follows (h.follows_index hidx)

/-- Two inodes that lead to the same blocks have the same pointers. -/
theorem Mapped.agrees {n' : Nat} (h' : Mapped d owner I ino' n') (hle : n ≤ n')
    (hinj : ∀ x y z, owner x = some z → owner y = some z → x = y) : Agrees ino ino' n where
  direct := by
    intro i hi hi10
    exact hinj _ _ _ (h'.direct (by omega) hi10) (h.direct hi hi10)
  indirect := fun hn => hinj _ _ _ (h'.indirect (by omega)) (h.indirect hn)
  double := fun hn => hinj _ _ _ (h'.double (by omega)) (h.double hn)

end

theorem Follows.refl (d : Nat → Block) (ino : Block) (n : Nat) : Follows d d ino n :=
  ⟨fun _ _ _ => rfl, fun _ _ => rfl, fun _ _ _ => rfl⟩

theorem Agrees.refl (ino : Block) (n : Nat) : Agrees ino ino n :=
  ⟨fun _ _ _ => rfl, fun _ => rfl, fun _ => rfl⟩

theorem Agrees.trans {a b c : Block} (h : Agrees a b n) (h' : Agrees b c m)
    (hm : n ≤ m) : Agrees a c n where
  direct := fun i hi hi' => (h'.direct i (by omega) hi').trans (h.direct i hi hi')
  indirect := fun hn => (h'.indirect (by omega)).trans (h.indirect hn)
  double := fun hn => (h'.double (by omega)).trans (h.double hn)

theorem Agrees.of_words (hw : ∀ i, i < 12 → word ino' i = word ino i) : Agrees ino ino' n :=
  ⟨fun i _ hi => hw i (by omega), fun _ => hw 10 (by omega), fun _ => hw 11 (by omega)⟩

/-- Both inodes lead to the same block. -/
theorem Agrees.blockOf_eq (h : Agrees old new n) (hi : i < n) :
    blockOf d new i = blockOf d old i := by
  unfold blockOf
  split
  next h1 => rw [h.direct i hi h1]
  rename_i h1
  by_cases h2 : i < 138
  · rw [if_pos h2, if_pos h2, h.indirect (by omega)]
  · rw [if_neg h2, if_neg h2, h.double (by omega)]

/-- What follows for a file follows for an earlier copy of it. -/
theorem Follows.older (h : Follows d d' new m) (ha : Agrees old new n)
    (hm : n ≤ m) : Follows d d' old n where
  indirect := by
    intro j hj hn
    have := h.indirect j hj (by omega)
    rw [ha.indirect (by omega)] at this
    exact this
  double := by
    intro k hk
    have := h.double k (by omega)
    rw [ha.double (by omega)] at this
    exact this
  inner := by
    intro i hi hn
    have := h.inner i hi (by omega)
    rw [ha.double (by omega)] at this
    exact this

/-- An earlier copy of a file leads to its blocks. -/
theorem Mapped.older (h : Mapped d owner I new m) (ha : Agrees old new n)
    (hm : n ≤ m) : Mapped d owner I old n where
  cap := le_trans hm h.cap
  data := by
    intro i hi
    rw [← ha.blockOf_eq hi]
    exact h.data i (by omega)
  indirect := by
    intro hn
    rw [← ha.indirect hn]
    exact h.indirect (by omega)
  double := by
    intro hn
    rw [← ha.double hn]
    exact h.double (by omega)
  inner := by
    intro k hk
    rw [← ha.double (by omega)]
    exact h.inner k (by omega)

/-- The mapping only depends on the first twelve words. -/
theorem Mapped.congr (h : Mapped d owner I ino n)
    (hw : ∀ i, i < 12 → word ino' i = word ino i) : Mapped d owner I ino' n :=
  h.older (Agrees.of_words fun i hi => (hw i hi).symm) le_rfl

theorem Tail.congr {e : Nat} (h : Tail e d ino n)
    (hw : ∀ i, i < 12 → word ino' i = word ino i) : Tail e d ino' n where
  direct := by
    intro i hi hlt
    rw [hw i (by omega)]
    exact h.direct i hi hlt
  indirect := by
    rw [hw 10 (by omega)]
    exact h.indirect
  double := by
    rw [hw 11 (by omega)]
    exact h.double
  inner := by
    rw [hw 11 (by omega)]
    exact h.inner

end Mapping

-- ==== Holds

variable {live : List Nat} {owner owner' : Owner} {fs fs' : Fs} {I x : Nat} {z : Nat × Slot}

/-- A step that keeps the owner's facts. -/
theorem Holds.keeps (h : Holds live owner fs) (hsize : fs'.size = fs.size)
    (hbits : fs'.freeMap.bitCnt = fs.freeMap.bitCnt)
    (hused : ∀ x, fs.freeMap.test x = true → fs'.freeMap.test x = true)
    (hk : Keeps owner fs.disk fs'.disk) : Holds live owner fs' where
  size := hsize ▸ h.size
  bits := by rw [hbits, hsize]; exact h.bits
  used := by
    intro x z hx
    obtain ⟨h1, h2⟩ := h.used x z hx
    exact ⟨hsize ▸ h1, hused x h2⟩
  inj := h.inj
  header := h.header
  mapped := by
    intro I hI
    rw [hk.header (h.header I hI)]
    exact (h.mapped I hI).keeps hk

/-- A sector marked used, owned by nobody, gets a slot nobody has. -/
theorem Holds.claim (h : Holds live owner fs) (hnone : owner x = none)
    (hx : x < fs.size) (hused : fs.freeMap.test x = true)
    (hfresh : ∀ y, owner y ≠ some z) : Holds live (claim owner x z) fs where
  size := h.size
  bits := h.bits
  used := by
    intro y w hy
    rcases claim_eq hy with ⟨rfl, -⟩ | hy
    · exact ⟨hx, hused⟩
    · exact h.used y w hy
  inj := by
    intro y y' w hy hy'
    rcases claim_eq hy with ⟨rfl, rfl⟩ | ho
    · rcases claim_eq hy' with ⟨rfl, -⟩ | ho'
      · rfl
      · exact absurd ho' (hfresh y')
    · rcases claim_eq hy' with ⟨rfl, rfl⟩ | ho'
      · exact absurd ho (hfresh y)
      · exact h.inj y y' w ho ho'
  header := fun J hJ => claim_ext hnone J _ (h.header J hJ)
  mapped := fun J hJ => (h.mapped J hJ).ext (claim_ext hnone)

/-- A free sector is owned by nobody. -/
theorem Holds.free_unowned (h : Holds live owner fs)
    (hfree : fs.freeMap.test x = false) : owner x = none := by
  cases hx : owner x with
  | none => rfl
  | some z => simp [(h.used x z hx).2] at hfree

/-- The blocks of a file are where they were, under any larger owner. -/
theorem Mapped.blockOf_eq {d d' : Nat → Block} {ino ino' : Block} {n n' i : Nat}
    (h : Mapped d owner I ino n) (h' : Mapped d' owner' I ino' n') (hext : Ext owner owner')
    (hinj : ∀ x y z, owner' x = some z → owner' y = some z → x = y) (hi : i < n) (hi' : i < n') :
    blockOf d' ino' i = blockOf d ino i :=
  hinj _ _ _ (h'.data i hi') (hext _ _ (h.data i hi))

end Pintos.Inode
