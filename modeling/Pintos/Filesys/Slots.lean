/-
A directory, byte by byte.

A directory is a file of slots of 20 bytes: the sector of the inode, the
name with its null byte in 15 bytes, and whether the slot is in use.
`dir_add` writes the first slot that is free, or one at the end of the
file, from a `struct dir_entry` on the stack whose other bytes are what
the scan left there, so behind the null byte of a name there is garbage.

# The two levels

`entries` reads the bytes as the entries of the directory layer. The loops
over the slots find what `Directory.lookup` and `Directory.freeSlot` find,
and a slot written is a `Directory.writeSlot`. What is said about names
and sectors is proved there.

# What else is involved

The file is an array of bytes: a read is a slice of it, a write a `splice`.
A write that does not go through (`Outcome.short`) has written some of its
bytes and moved the end of the file at most to where it was to end.
Whether `dir_remove` is held up by the inode that the entry names is not
decided by the directory (`allowed`).
-/
import Pintos.Filesys.Contents
import Pintos.Filesys.DirOps
import Pintos.Lib.Transition

namespace Pintos.Slots

open List Option Directory

open Directory (Entry Name entrySize nameMax)
open Inode (splice)

-- ==== bytes

/-- The bytes of a `struct dir_entry`. -/
abbrev Raw := Nat → UInt8

/-- Byte `p` of a file. -/
def byte (c : List UInt8) (p : Nat) : UInt8 := c.getD p 0

/-- The entry in slot `i`. -/
def slot (c : List UInt8) (i : Nat) : Raw := fun j =>
  byte c (entrySize * i + j)

/-- `e.inode_sector`. -/
def inodeSector (e : Raw) : Nat :=
  (e 0).toNat + 256 * (e 1).toNat + 65536 * (e 2).toNat + 16777216 * (e 3).toNat

/-- The string at the start of an array of `n` bytes. -/
def cString (n : Nat) (b : Raw) : List UInt8 := ((List.range n).map b).takeWhile (· ≠ 0)

/-- The string at `e.name`. -/
def entryName (e : Raw) : List UInt8 := cString 16 fun j => e (4 + j)

/-- `e.in_use`. -/
def inUse (e : Raw) : Bool := decide (e 19 ≠ 0)

-- ==== the calls

/-- `inode_read_at (dir->inode, &e, sizeof e, ofs)`: the bytes read, and
`e` with them. -/
def readEntry (c : List UInt8) (ofs : Nat) (e : Raw) : Nat × Raw :=
  let n := min entrySize (c.length - ofs)
  (n, fun j => if j < n then byte c (ofs + j) else e j)

/-- The loop of `lookup`: `*ep` and `*ofsp`. -/
def lookupLoop (c name : List UInt8) : Nat → Nat → Raw → Option (Raw × Nat)
  | 0, _, _ => none
  | fuel + 1, ofs, e =>
    let (n, e) := readEntry c ofs e
    if n = entrySize then
      if inUse e = true ∧ name = entryName e then some (e, ofs)
      else lookupLoop c name fuel (ofs + entrySize) e
    else none

def lookup (c name : List UInt8) : Option (Raw × Nat) :=
  lookupLoop c name (c.length + 1) 0 fun _ => 0

/-- The search for a free slot in `dir_add`: `ofs`, and what is in `e`. -/
def freeLoop (c : List UInt8) : Nat → Nat → Raw → Nat × Raw
  | 0, ofs, e => (ofs, e)
  | fuel + 1, ofs, e =>
    let (n, e) := readEntry c ofs e
    if n = entrySize then
      if inUse e = false then (ofs, e)
      else freeLoop c fuel (ofs + entrySize) e
    else (ofs, e)

/-- `e.in_use = true`, `strlcpy (e.name, name, sizeof e.name)` and
`e.inode_sector = inode_sector`. -/
def fillEntry (e : Raw) (name : List UInt8) (sector : Nat) : Raw := fun j =>
  if j < 4 then UInt8.ofNat (sector / 256 ^ j)
  else if j = 19 then 1
  else if j - 4 < name.length then name.getD (j - 4) 0
  else if j - 4 = name.length then 0
  else e j

/-- `e.in_use = false`. -/
def clearEntry (e : Raw) : Raw := fun j => if j = 19 then 0 else e j

/-- How a write of an entry ends. -/
inductive Outcome where
  | full
  /-- After `written` bytes; the file ends at `extent`, if that is not
  past the entry. -/
  | short (written extent : Nat)
  deriving DecidableEq, Repr

/-- `inode_write_at (dir->inode, &e, sizeof e, ofs)`. -/
def writeEntry (c : List UInt8) (e : Raw) (ofs : Nat) : Outcome → Nat × List UInt8
  | .full => (entrySize, splice c e entrySize ofs)
  | .short written extent =>
    let n := min written (entrySize - 1)
    let d := splice c e n ofs
    (n, d ++ List.replicate (min extent (ofs + entrySize) - d.length) 0)

/-- `dir_add`; `junk` is what is on the stack. -/
def dirAdd (c name : List UInt8) (sector : Nat) (junk : Raw) (o : Outcome) : Bool × List UInt8 :=
  if name = [] ∨ name.length > nameMax then (false, c)
  else if (lookup c name).isSome then (false, c)
  else
    let (ofs, e) := freeLoop c (c.length + 1) 0 junk
    let (n, c) := writeEntry c (fillEntry e name sector) ofs o
    (decide (n = entrySize), c)

/-- `dir_remove`. -/
def dirRemove (c name : List UInt8) (allowed : Bool) (o : Outcome) : Bool × List UInt8 :=
  match lookup c name with
  | none => (false, c)
  | some (e, ofs) =>
    if allowed then
      let (n, c) := writeEntry c (clearEntry e) ofs o
      (decide (n = entrySize), c)
    else (false, c)

-- ==== the entries

/-- The characters of a name. -/
def chars (name : List UInt8) : Name := name.map Char.ofUInt8

def decode (e : Raw) : Entry := ⟨inodeSector e, chars (entryName e), inUse e⟩

/-- The bytes of a directory as entries. -/
def entries (c : List UInt8) : List Entry :=
  (List.range (c.length / entrySize)).map fun i => decode (slot c i)

section Decode

variable {c : List UInt8} {e e' : Raw} {i : Nat}

/-- A string that has been copied with its null byte. -/
theorem cString_eq {n : Nat} {b : Raw} {name : List UInt8} (hname : 0 ∉ name)
    (hlen : name.length < n) (hcopy : ∀ j, j < name.length → b j = name.getD j 0)
    (hnul : b name.length = 0) : cString n b = name := by
  have hsplit : (List.range n).map b = name ++ 0 :: (List.range (n - 1 - name.length)).map fun j =>
        b (name.length + (1 + j)) := by
    obtain ⟨m, rfl⟩ : ∃ m, n = name.length + (1 + m) := ⟨n - 1 - name.length, by omega⟩
    have hsub : name.length + (1 + m) - 1 - name.length = m := by omega
    rw [hsub, range_add, List.map_append, range_add,
      List.map_append, List.map_map, List.map_append, List.map_map]
    congr 1
    · refine List.ext_getElem (by simp) fun j h1 h2 => ?_
      rw [getElem_map, getElem_range, hcopy j h2, getD_eq_getElem?_getD, getElem?_eq_getElem h2]
      rfl
    · simp [Function.comp_def, hnul]
  have hall (x : UInt8) (hx : x ∈ name) : decide (x ≠ 0) = true :=
    decide_eq_true fun h => hname (h ▸ hx)
  unfold cString
  rw [hsplit, takeWhile_append_of_pos hall]
  simp

theorem chars_injective {a b : List UInt8} (h : chars a = chars b) : a = b := by
  refine map_injective_iff.mpr (fun x y hxy => ?_) h
  have hval : x.toUInt32 = y.toUInt32 := congrArg Char.val hxy
  have hnat := congrArg UInt32.toNat hval
  exact UInt8.toNat_inj.mp hnat

section

variable (h : ∀ j, j < 20 → e j = e' j)

include h

theorem entryName_congr : entryName e = entryName e' := by
  unfold entryName cString
  congr 1
  refine map_congr_left fun j hj => h _ ?_
  have := mem_range.mp hj
  omega

theorem inUse_congr : inUse e = inUse e' := by
  unfold inUse
  rw [h 19 (by omega)]

theorem decode_congr : decode e = decode e' := by
  unfold decode inodeSector
  rw [entryName_congr h, inUse_congr h, h 0 (by omega), h 1 (by omega),
    h 2 (by omega), h 3 (by omega)]

end

theorem entries_length : (entries c).length = c.length / 20 := by
  unfold entries
  rw [length_map, length_range]
  rfl

theorem entries_getElem? : (entries c)[i]? =
      if i < c.length / 20 then some (decode (slot c i)) else none := by
  unfold entries entrySize
  rw [getElem?_map]
  split
  next h => rw [getElem?_range h, map_some]
  next h => rw [getElem?_eq_none (by rw [length_range]; omega), map_none]

end Decode

-- ==== the loops

section Loops

variable {c name : List UInt8} {i : Nat}

/-- A slot is read. -/
theorem readEntry_slot (h : i < c.length / 20) (e : Raw) : (readEntry c (20 * i) e).1 = entrySize ∧
      ∀ j, j < 20 → (readEntry c (20 * i) e).2 j = slot c i j := by
  have hn : min 20 (c.length - 20 * i) = 20 := by omega
  unfold readEntry entrySize
  rw [hn]
  exact ⟨rfl, fun j hj => if_pos hj⟩

/-- Behind the last slot the read is short. -/
theorem readEntry_end (h : c.length / 20 ≤ i) (e : Raw) :
    (readEntry c (20 * i) e).1 ≠ entrySize := by
  unfold readEntry entrySize
  dsimp only
  omega

theorem holds_iff {e : Raw} :
    (decode e).holds (chars name) = true ↔ inUse e = true ∧ name = entryName e := by
  unfold Entry.holds
  rw [Bool.and_eq_true, decide_eq_true_iff]
  refine and_congr_right fun _ => ⟨fun h => (chars_injective h).symm, ?_⟩
  rintro rfl
  rfl

theorem entries_drop (h : i < c.length / 20) :
    (entries c).drop i = decode (slot c i) :: (entries c).drop (i + 1) := by
  have hlt : i < (entries c).length := entries_length ▸ h
  have hget := entries_getElem? (c := c) (i := i)
  rw [if_pos h, getElem?_eq_getElem hlt] at hget
  rw [drop_eq_getElem_cons hlt, some.inj hget]

theorem entries_drop_end (h : c.length / 20 ≤ i) : (entries c).drop i = [] :=
  drop_eq_nil_of_le (entries_length ▸ h)

/-- The loop of `lookup`, from slot `i` on: the first entry in use with
the name. -/
theorem lookupLoop_spec (c name : List UInt8) (fuel i : Nat) (e : Raw)
    (hfuel : c.length / 20 < i + fuel) :
    lookupLoop c name fuel (20 * i) e = none ∧
        ((entries c).drop i).findIdx? (·.holds (chars name)) = none ∨
      ∃ k e', lookupLoop c name fuel (20 * i) e = some (e', 20 * (i + k)) ∧
        ((entries c).drop i).findIdx? (·.holds (chars name)) = some k ∧
        i + k < c.length / 20 ∧ ∀ j, j < 20 → e' j = slot c (i + k) j := by
  induction fuel generalizing i e with
  | zero =>
    rw [entries_drop_end (by omega)]
    exact .inl ⟨rfl, rfl⟩
  | succ fuel ih =>
    unfold lookupLoop
    dsimp only
    by_cases hi : i < c.length / 20
    · obtain ⟨hn, he⟩ := readEntry_slot hi e
      generalize (readEntry c (20 * i) e).2 = e₁ at he
      rw [if_pos hn, entries_drop hi, findIdx?_cons]
      have hiff : (decode (slot c i)).holds (chars name) = true ↔
          inUse e₁ = true ∧ name = entryName e₁ := by
        rw [holds_iff, inUse_congr he, entryName_congr he]
      by_cases hhit : inUse e₁ = true ∧ name = entryName e₁
      · rw [if_pos hhit, if_pos (hiff.mpr hhit)]
        exact .inr ⟨0, e₁, rfl, rfl, hi, he⟩
      · rw [if_neg hhit, if_neg (mt hiff.mp hhit)]
        rcases ih (i + 1) e₁ (by omega) with
          ⟨h1, h2⟩ | ⟨k, e', h1, h2, hlt, hslot⟩
        · exact .inl ⟨h1, by rw [h2]; rfl⟩
        · have hsum : i + 1 + k = i + (k + 1) := by omega
          rw [hsum] at h1 hlt hslot
          exact .inr ⟨k + 1, e', h1, h2 ▸ rfl, hlt, hslot⟩
    · rw [if_neg (readEntry_end (not_lt.mp hi) e), entries_drop_end (not_lt.mp hi)]
      exact .inl ⟨rfl, rfl⟩

/-- `lookup` finds what the directory layer finds. -/
theorem lookup_spec (c name : List UInt8) :
    lookup c name = none ∧
        Directory.lookup (entries c) (chars name) = none ∨
      ∃ i e, lookup c name = some (e, 20 * i) ∧
        Directory.lookup (entries c) (chars name) = some (i, decode (slot c i)) ∧
        i < c.length / 20 ∧ ∀ j, j < 20 → e j = slot c i j := by
  unfold lookup Directory.lookup
  rcases lookupLoop_spec c name (c.length + 1) 0 (fun _ => 0)
    (by omega) with ⟨h1, h2⟩ | ⟨i, e, h1, h2, hlt, hslot⟩
  · rw [drop_zero] at h2
    rw [h2]
    exact .inl ⟨h1, rfl⟩
  · rw [zero_add] at h1 hlt hslot
    rw [drop_zero] at h2
    rw [h2]
    refine .inr ⟨i, e, h1, ?_, hlt, hslot⟩
    dsimp only
    rw [entries_getElem?, if_pos hlt]
    rfl

/-- The search of `dir_add`, from slot `i` on. -/
theorem freeLoop_spec (fuel i : Nat) (e : Raw) (hfuel : c.length / 20 < i + fuel) :
    (freeLoop c fuel (20 * i) e).1 = 20 * (i + ((entries c).drop i).findIdx fun e => !e.inUse) := by
  induction fuel generalizing i e with
  | zero =>
    rw [entries_drop_end (by omega)]
    rfl
  | succ fuel ih =>
    unfold freeLoop
    dsimp only
    by_cases hi : i < c.length / 20
    · obtain ⟨hn, he⟩ := readEntry_slot hi e
      generalize (readEntry c (20 * i) e).2 = e₁ at he
      rw [if_pos hn, entries_drop hi, findIdx_cons]
      have huse : (decode (slot c i)).inUse = inUse e₁ := (inUse_congr he).symm
      rw [huse]
      cases hfree : inUse e₁ with
      | false => rfl
      | true =>
        have hnext : 20 * i + entrySize = 20 * (i + 1) := rfl
        rw [if_neg Bool.noConfusion, hnext, ih (i + 1) e₁ (by omega)]
        simp only [Bool.not_true, cond_false]
        omega
    · rw [if_neg (readEntry_end (not_lt.mp hi) e), entries_drop_end (not_lt.mp hi)]
      rfl

/-- `dir_add` writes to the free slot of the directory layer. -/
theorem freeLoop_eq (c : List UInt8) (junk : Raw) :
    (freeLoop c (c.length + 1) 0 junk).1 = 20 * freeSlot (entries c) := by
  have h := freeLoop_spec (c := c) (c.length + 1) 0 junk (by omega)
  rw [zero_add, drop_zero] at h
  exact h

end Loops

-- ==== the writes

section Writes

variable {c c' : List UInt8} {e : Raw} {i n : Nat}

theorem byte_splice (c : List UInt8) (e : Raw) (n ofs p : Nat) :
    byte (splice c e n ofs) p = if ofs ≤ p ∧ p < ofs + n then e (p - ofs) else byte c p := by
  unfold byte splice
  rw [Inode.range_getD]
  split
  next => rfl
  next hp =>
    rw [if_neg (by omega), getD_eq_getElem?_getD, getElem?_eq_none (by omega)]
    rfl

theorem splice_length (c : List UInt8) (e : Raw) (n ofs : Nat) :
    (splice c e n ofs).length = max c.length (ofs + n) := by
  unfold splice
  rw [length_map, length_range]

theorem byte_pad (c : List UInt8) (n p : Nat) : byte (c ++ List.replicate n 0) p = byte c p := by
  unfold byte
  rw [getD_eq_getElem?_getD, getD_eq_getElem?_getD, getElem?_append]
  split
  next => rfl
  next hp =>
    rw [getElem?_eq_none (l := c) (by omega), getElem?_replicate]
    split <;> rfl

/-- A slot past the end reads as zeros. -/
theorem byte_past {p : Nat} (h : c.length ≤ p) : byte c p = 0 := by
  unfold byte
  rw [getD_eq_getElem?_getD, getElem?_eq_none h]
  rfl

theorem entries_congr (hlen : c'.length = c.length)
    (hbyte : ∀ p, byte c' p = byte c p) : entries c' = entries c := by
  unfold entries
  rw [hlen]
  refine map_congr_left fun i _ => congrArg decode ?_
  funext j
  exact hbyte _

/-- A whole entry is written. -/
theorem entries_full (hi : i ≤ c.length / 20) :
    entries (splice c e 20 (20 * i)) = Directory.writeSlot (entries c) i (decode e) := by
  refine ext_getElem? fun k => ?_
  rw [getElem?_writeSlot (entries_length ▸ hi), entries_getElem?, entries_getElem?, splice_length]
  by_cases hk : k = i
  · have heq : decode (slot (splice c e 20 (20 * i)) k) = decode e := by
      refine decode_congr fun j hj => ?_
      unfold slot entrySize
      rw [byte_splice, if_pos (by omega), hk, Nat.add_sub_cancel_left]
    rw [if_pos hk, if_pos (by omega), heq]
  · have heq : decode (slot (splice c e 20 (20 * i)) k) = decode (slot c k) := by
      refine decode_congr fun j hj => ?_
      unfold slot entrySize
      rw [byte_splice, if_neg (by omega)]
    rw [if_neg hk, heq]
    exact if_congr (by omega) rfl rfl

/-- The entries in use are the same, in the same slots. -/
def SameUsed (es es' : List Entry) : Prop :=
  ∀ (i : Nat) (e : Entry), e.inUse = true → (es'[i]? = some e ↔ es[i]? = some e)

variable {written extent : Nat}

/-- A part of an entry is written to a slot that is not in use. -/
theorem entries_short (hi : i ≤ c.length / 20) (hfree : inUse (slot c i) = false) :
    SameUsed (entries c) (entries (writeEntry c e (20 * i) (.short written extent)).2) := by
  unfold writeEntry entrySize
  dsimp only
  generalize hn : min written (20 - 1) = n
  generalize hpad : min extent (20 * i + 20) - (splice c e n (20 * i)).length = pad
  have hlen := splice_length c e n (20 * i)
  intro k d hd
  rw [entries_getElem?, entries_getElem?, length_append, length_replicate]
  by_cases hk : k = i
  · -- its last byte stays, so neither is in use
    subst hk
    have hlast : inUse (slot (splice c e n (20 * k) ++ List.replicate pad 0) k) = false := by
      rw [← hfree]
      unfold inUse slot entrySize
      rw [byte_pad, byte_splice, if_neg (by omega)]
    constructor
    · intro h
      obtain ⟨-, ⟨⟩⟩ := ite_none_right_eq_some.mp h
      cases hlast.symm.trans hd
    · intro h
      obtain ⟨-, ⟨⟩⟩ := ite_none_right_eq_some.mp h
      cases hfree.symm.trans hd
  · have heq : decode (slot (splice c e n (20 * i) ++
        List.replicate pad 0) k) = decode (slot c k) := by
      refine decode_congr fun j hj => ?_
      unfold slot entrySize
      rw [byte_pad, byte_splice, if_neg (by omega)]
    have hlt : k < ((splice c e n (20 * i)).length + pad) / 20 ↔ k < c.length / 20 := by omega
    rw [heq, if_congr hlt rfl rfl]

theorem writeEntry_short (ofs : Nat) :
    decide ((writeEntry c e ofs (.short written extent)).1 = entrySize) = false := by
  refine decide_eq_false ?_
  unfold writeEntry entrySize
  dsimp only
  omega

/-- A part of an entry is written over itself. -/
theorem entries_over (hi : i < c.length / 20) (he : ∀ j, j < 19 → e j = slot c i j) :
    entries (writeEntry c e (20 * i) (.short written extent)).2 = entries c := by
  unfold writeEntry entrySize
  dsimp only
  generalize hn : min written (20 - 1) = n
  have hlen := splice_length c e n (20 * i)
  refine entries_congr ?_ fun p => ?_
  · rw [length_append, length_replicate]
    omega
  · rw [byte_pad, byte_splice]
    split
    next hp =>
      rw [he _ (by omega)]
      unfold slot entrySize
      rw [Nat.add_sub_cancel' hp.1]
    next => rfl

end Writes

-- ==== the map

/-- The names in use are there once, and are names. -/
structure Wf (es : List Entry) : Prop where
  named : ∀ (i : Nat) (e : Entry), es[i]? = some e → e.inUse = true →
    e.name ≠ [] ∧ e.name.length ≤ nameMax
  distinct : ∀ (i j : Nat) (e e' : Entry), es[i]? = some e →
    es[j]? = some e' → e.inUse = true → e'.inUse = true →
    e.name = e'.name → i = j

/-- The sector that a name leads to. -/
def sectorOf (es : List Entry) (name : Name) : Option Nat :=
  (Directory.lookup es name).map fun r => r.2.inodeSector

section Map

variable {es es' : List Entry} {name n : Name} {i s : Nat} {e : Entry}

theorem sectorOf_iff (h : Wf es) : sectorOf es name = some s ↔
    ∃ (i : Nat) (e : Entry), es[i]? = some e ∧ e.inUse = true ∧
      e.name = name ∧ e.inodeSector = s := by
  unfold sectorOf
  constructor
  · intro hs
    obtain ⟨⟨i, e⟩, hl, rfl⟩ := map_eq_some_iff.mp hs
    obtain ⟨hi, hu, hn⟩ := lookup_some hl
    exact ⟨i, e, hi, hu, hn, rfl⟩
  · rintro ⟨i, e, hi, hu, hn, rfl⟩
    cases hl : Directory.lookup es name with
    | none => exact absurd hn (Directory.lookup_none hl e (mem_of_getElem? hi) hu)
    | some r =>
      obtain ⟨hj, hu', hn'⟩ := lookup_some hl
      have heq := h.distinct i r.1 e r.2 hi hj hu hu' (hn.trans hn'.symm)
      rw [← heq, hi] at hj
      cases hj
      rfl

theorem sectorOf_none (h : Wf es)
    (hnone : ∀ (i : Nat) (e : Entry), es[i]? = some e → e.inUse = true →
      e.name ≠ name) : sectorOf es name = none := by
  cases hs : sectorOf es name with
  | none => rfl
  | some s =>
    obtain ⟨i, e, hi, hu, hn, -⟩ := (sectorOf_iff h).mp hs
    exact absurd hn (hnone i e hi hu)

/-- Two directories with the same entries under a name. -/
theorem sectorOf_eq (h : Wf es) (h' : Wf es')
    (hsame : ∀ (i : Nat) (e : Entry), e.inUse = true → e.name = name →
      (es'[i]? = some e ↔ es[i]? = some e)) : sectorOf es' name = sectorOf es name := by
  refine Option.ext fun s => ?_
  rw [sectorOf_iff h, sectorOf_iff h']
  constructor
  · rintro ⟨i, e, hi, hu, hn, hs⟩
    exact ⟨i, e, (hsame i e hu hn).mp hi, hu, hn, hs⟩
  · rintro ⟨i, e, hi, hu, hn, hs⟩
    exact ⟨i, e, (hsame i e hu hn).mpr hi, hu, hn, hs⟩

theorem SameUsed.wf (hs : SameUsed es es') (h : Wf es) : Wf es' where
  named := fun i e hi hu => h.named i e ((hs i e hu).mp hi) hu
  distinct := fun i j e e' hi hj hu hu' =>
    h.distinct i j e e' ((hs i e hu).mp hi) ((hs j e' hu').mp hj) hu hu'

/-- A name is added in a slot that is not in use. -/
theorem Wf.add (h : Wf es) (hi : i ≤ es.length) (hfree : ∀ e, es[i]? = some e → e.inUse = false)
    (hnew : e.name ≠ [] ∧ e.name.length ≤ nameMax) (hu : e.inUse = true)
    (habsent : Directory.lookup es e.name = none) :
    Wf (Directory.writeSlot es i e) ∧
      sectorOf (Directory.writeSlot es i e) e.name = some e.inodeSector ∧
      ∀ n, n ≠ e.name → sectorOf (Directory.writeSlot es i e) n = sectorOf es n := by
  have hget := getElem?_writeSlot hi e
  have hold (k : Nat) (d : Entry) (hk : es[k]? = some d) (hd : d.inUse = true) :
      k ≠ i ∧ d.name ≠ e.name := by
    refine ⟨?_, Directory.lookup_none habsent d (mem_of_getElem? hk) hd⟩
    rintro rfl
    simp [hfree d hk] at hd
  have hwf : Wf (Directory.writeSlot es i e) := by
    constructor
    · intro k d hk hd
      rw [hget] at hk
      split at hk
      · exact some.inj hk ▸ hnew
      · exact h.named k d hk hd
    · intro k l d d' hk hl hd hd' hn
      rw [hget] at hk hl
      split at hk
      next hki =>
        cases hk
        split at hl
        next hli => rw [hki, hli]
        next => exact absurd hn.symm (hold l d' hl hd').2
      next =>
        split at hl
        next =>
          cases hl
          exact absurd hn (hold k d hk hd).2
        next => exact h.distinct k l d d' hk hl hd hd' hn
  refine ⟨hwf, (sectorOf_iff hwf).mpr ⟨i, e, ?_, hu, rfl, rfl⟩,
    fun n hn => sectorOf_eq h hwf fun k d hd hname => ?_⟩
  · rw [hget, if_pos rfl]
  · rw [hget]
    split
    next hk =>
      subst hk
      refine ⟨fun hk => ?_, fun hk => absurd rfl (hold k d hk hd).1⟩
      cases hk
      exact absurd hname.symm hn
    next => exact Iff.rfl

/-- The entry of a name is cleared. -/
theorem Wf.remove (h : Wf es) (hi : es[i]? = some e) (hu : e.inUse = true)
    {e' : Entry} (hclear : e'.inUse = false) :
    Wf (Directory.writeSlot es i e') ∧
      sectorOf (Directory.writeSlot es i e') e.name = none ∧
      ∀ n, n ≠ e.name → sectorOf (Directory.writeSlot es i e') n = sectorOf es n := by
  have hlt := (List.getElem?_eq_some_iff.mp hi).1
  have hget := getElem?_writeSlot (le_of_lt hlt) e'
  have hkeep (k : Nat) (d : Entry) (hd : d.inUse = true) :
      (Directory.writeSlot es i e')[k]? = some d ↔ k ≠ i ∧ es[k]? = some d := by
    rw [hget]
    split
    next hk =>
      refine ⟨fun heq => ?_, fun hne => absurd hk hne.1⟩
      cases heq
      simp [hclear] at hd
    next hk => exact ⟨fun heq => ⟨hk, heq⟩, fun heq => heq.2⟩
  have hwf : Wf (Directory.writeSlot es i e') :=
    ⟨fun k d hk hd => h.named k d ((hkeep k d hd).mp hk).2 hd,
      fun k l d d' hk hl hd hd' => h.distinct k l d d'
        ((hkeep k d hd).mp hk).2 ((hkeep l d' hd').mp hl).2 hd hd'⟩
  refine ⟨hwf, sectorOf_none hwf fun k d hk hd hn => ?_,
    fun n hn => sectorOf_eq h hwf fun k d hd hname => ?_⟩
  · obtain ⟨hne, hk⟩ := (hkeep k d hd).mp hk
    exact hne (h.distinct k i d e hk hi hd hu hn)
  · rw [hkeep k d hd]
    refine ⟨fun hk => hk.2, fun hk => ⟨?_, hk⟩⟩
    rintro rfl
    rw [hi] at hk
    cases hk
    exact hn hname.symm

end Map

-- ==== what is done

/-- What `lookup` gives for a name: the sector of its inode. -/
def find (c name : List UInt8) : Option Nat := (lookup c name).map fun r => inodeSector r.1

theorem inodeSector_congr {e e' : Raw} (h : ∀ j, j < 20 → e j = e' j) :
    inodeSector e = inodeSector e' :=
  congrArg Entry.inodeSector (decode_congr h)

theorem find_eq (c name : List UInt8) : find c name = sectorOf (entries c) (chars name) := by
  unfold find sectorOf
  rcases lookup_spec c name with ⟨h1, h2⟩ | ⟨i, e, h1, h2, -, he⟩
  · rw [h1, h2]
    rfl
  · rw [h1, h2, map_some, map_some, inodeSector_congr he]
    rfl

theorem lookup_none_iff (c name : List UInt8) : lookup c name = none ↔
    Directory.lookup (entries c) (chars name) = none := by
  rcases lookup_spec c name with ⟨h1, h2⟩ | ⟨i, e, h1, h2, -, -⟩ <;> simp [h1, h2]

section Calls

variable {c name : List UInt8} {sector : Nat} {junk e : Raw} {o : Outcome}

/-- The name in an entry that has been filled in. -/
theorem entryName_fillEntry (hname : 0 ∉ name) (hlen : name.length ≤ nameMax) :
    entryName (fillEntry e name sector) = name := by
  unfold nameMax at hlen
  have hbyte j (hj : j < 15) :
      fillEntry e name sector (4 + j) = if j < name.length then name.getD j 0 else if j =
      name.length then 0 else e (4 + j) := by
    unfold fillEntry
    rw [if_neg (by omega), if_neg (by omega), Nat.add_sub_cancel_left]
  refine cString_eq hname (by omega) (fun j hj => ?_) ?_
  · rw [hbyte j (by omega), if_pos hj]
  · rw [hbyte _ (by omega), if_neg (lt_irrefl _), if_pos rfl]

theorem inodeSector_fillEntry (h : sector < 4294967296) :
    inodeSector (fillEntry e name sector) = sector := by
  have hbyte j (hj : j < 4) : (fillEntry e name sector j).toNat = sector / 256 ^ j % 256 := by
    unfold fillEntry
    rw [if_pos hj, UInt8.toNat_ofNat']
  unfold inodeSector
  rw [hbyte 0 (by omega), hbyte 1 (by omega), hbyte 2 (by omega), hbyte 3 (by omega)]
  omega

theorem decode_fillEntry (hname : 0 ∉ name) (hlen : name.length ≤ nameMax)
    (h : sector < 4294967296) :
    decode (fillEntry e name sector) = ⟨sector, chars name, true⟩ := by
  unfold decode
  rw [entryName_fillEntry hname hlen, inodeSector_fillEntry h]
  rfl

/-- The slot that `dir_add` chooses. -/
theorem freeSlot_slot (c : List UInt8) : inUse (slot c (freeSlot (entries c))) = false := by
  by_cases hlt : freeSlot (entries c) < c.length / 20
  · have hget := entries_getElem? (c := c) (i := freeSlot (entries c))
    rw [if_pos hlt] at hget
    exact freeSlot_unused hget
  · unfold inUse slot entrySize
    rw [byte_past (by omega)]
    rfl

/-- What a call may do to a directory: nothing to any name, or only to
this one, in the way it says. -/
structure Changes (c name : List UInt8) (value : Option Nat) (r : Bool × List UInt8) : Prop where
  wf : Wf (entries r.2)
  done : r.1 = true → find r.2 name = value
  others : ∀ n, n ≠ name → find r.2 n = find c n
  failed : r.1 = false → ∀ n, find r.2 n = find c n

theorem Changes.nothing (h : Wf (entries c)) (value : Option Nat) :
    Changes c name value (false, c) :=
  ⟨h, Bool.noConfusion, fun _ _ => rfl, fun _ _ => rfl⟩

variable {c' : List UInt8}

/-- The entries in use are what they were. -/
theorem Changes.same (h : Wf (entries c)) (hs : SameUsed (entries c) (entries c'))
    (value : Option Nat) : Changes c name value (false, c') := by
  have hfind (n : List UInt8) : find c' n = find c n := by
    rw [find_eq, find_eq]
    exact sectorOf_eq h (hs.wf h) fun i e hu _ => hs i e hu
  exact ⟨hs.wf h, Bool.noConfusion, fun n _ => hfind n, fun _ => hfind⟩

/-- The map has changed at the name. -/
theorem Changes.of_map {value : Option Nat} (hwf : Wf (entries c'))
    (hone : sectorOf (entries c') (chars name) = value)
    (hrest : ∀ n, n ≠ chars name → sectorOf (entries c') n = sectorOf (entries c) n) :
    Changes c name value (true, c') := by
  refine ⟨hwf, fun _ => (find_eq ..).trans hone, fun n hn => ?_, Bool.noConfusion⟩
  rw [find_eq, find_eq]
  exact hrest _ fun heq => hn (chars_injective heq)

/-- `dir_add`: when it succeeds, and what it does. -/
theorem dirAdd_spec (h : Wf (entries c)) (hname : 0 ∉ name) (hs : sector < 4294967296) :
    ((dirAdd c name sector junk o).1 = true ↔
      (name ≠ [] ∧ name.length ≤ nameMax) ∧ lookup c name = none ∧ o = .full) ∧
    Changes c name (some sector) (dirAdd c name sector junk o) := by
  unfold dirAdd
  split
  next hbad =>
    refine ⟨⟨Bool.noConfusion, fun hok => ?_⟩, .nothing h _⟩
    rcases hbad with hbad | hbad
    · exact absurd hbad hok.1.1
    · omega
  rename_i hbad
  have hvalid : name ≠ [] ∧ name.length ≤ nameMax :=
    ⟨fun heq => hbad (.inl heq), not_lt.mp fun hlt => hbad (.inr hlt)⟩
  by_cases hthere : (lookup c name).isSome = true
  · rw [if_pos hthere]
    refine ⟨⟨Bool.noConfusion, fun hok => ?_⟩, .nothing h _⟩
    simp [hok.2.1] at hthere
  rw [if_neg hthere]
  have hnone : lookup c name = none := by rwa [not_isSome_iff_eq_none] at hthere
  have hofs := freeLoop_eq c junk
  have hle : freeSlot (entries c) ≤ c.length / 20 := entries_length ▸ freeSlot_le _
  dsimp only
  rw [hofs]
  generalize (freeLoop c (c.length + 1) 0 junk).2 = e
  cases o with
  | full =>
    have hadd := h.add (e := ⟨sector, chars name, true⟩)
      (freeSlot_le _) (fun d hd => freeSlot_unused hd)
      ⟨by simpa [chars] using hvalid.1, by simpa [chars] using hvalid.2⟩
      rfl ((lookup_none_iff c name).mp hnone)
    have hent := entries_full (e := fillEntry e name sector) hle
    rw [decode_fillEntry hname hvalid.2 hs] at hent
    rw [← hent] at hadd
    exact ⟨⟨fun _ => ⟨hvalid, hnone, rfl⟩, fun _ => rfl⟩, .of_map hadd.1 hadd.2.1 hadd.2.2⟩
  | short written extent =>
    rw [writeEntry_short]
    refine ⟨⟨Bool.noConfusion, fun hok => ?_⟩, .same h (entries_short hle (freeSlot_slot c)) _⟩
    cases hok.2.2

/-- `dir_remove`: what it does. -/
theorem dirRemove_spec (h : Wf (entries c)) (allowed : Bool) :
    Changes c name none (dirRemove c name allowed o) := by
  unfold dirRemove
  rcases lookup_spec c name with ⟨h1, -⟩ | ⟨i, e, h1, h2, hlt, he⟩
  · rw [h1]
    exact .nothing h _
  rw [h1]
  dsimp only
  cases allowed with
  | false => exact .nothing h _
  | true =>
    obtain ⟨hi, hu, hn⟩ := lookup_some h2
    cases o with
    | full =>
      have hclear : (decode (clearEntry e)).inUse = false := rfl
      have hrem := h.remove hi hu hclear
      rw [← entries_full (le_of_lt hlt), hn] at hrem
      exact .of_map hrem.1 hrem.2.1 hrem.2.2
    | short written extent =>
      have hover (j : Nat) (hj : j < 19) : clearEntry e j = slot c i j := by
        rw [← he j (by omega)]
        exact if_neg (by omega)
      rw [writeEntry_short]
      refine .same h ?_ _
      rw [entries_over hlt hover]
      exact fun _ _ _ => Iff.rfl

end Calls

-- ==== runs

inductive Call where
  | add (name : List UInt8) (sector : Nat) (junk : Raw) (o : Outcome)
  | remove (name : List UInt8) (allowed : Bool) (o : Outcome)

def step : Call → List UInt8 → Option (List UInt8)
  | .add name sector junk o, c => some (dirAdd c name sector junk o).2
  | .remove name allowed o, c => some (dirRemove c name allowed o).2

/-- Names are strings and sectors are `block_sector_t`s. -/
def Call.legal : Call → List UInt8 → Prop
  | .add name sector _ _, _ => 0 ∉ name ∧ sector < 4294967296
  | .remove _ _ _, _ => True

/-- A new directory: empty, or with slots that are all zero. -/
def Blank (c : List UInt8) : Prop := ∀ b ∈ c, b = 0

theorem Blank.wf {c : List UInt8} (h : Blank c) : Wf (entries c) := by
  have hfree (i : Nat) (e : Entry) (hi : (entries c)[i]? = some e) : e.inUse = false := by
    rw [entries_getElem?] at hi
    obtain ⟨hlt, ⟨⟩⟩ := ite_none_right_eq_some.mp hi
    show inUse (slot c i) = false
    have hget : byte c (20 * i + 19) = 0 := by
      unfold byte
      rw [getD_eq_getElem?_getD, getElem?_eq_getElem (by omega)]
      exact h _ (getElem_mem _)
    unfold inUse slot entrySize
    rw [hget]
    rfl
  constructor
  · intro i e hi hu
    simp [hfree i e hi] at hu
  · intro i j e e' hi _ hu
    simp [hfree i e hi] at hu

theorem wf_reachable {c : List UInt8}
    (h : Transition.Reach Blank step Call.legal c) : Wf (entries c) := by
  refine Transition.Reach.induct (fun c hc => hc.wf) ?_ c h
  intro call c c' _ hwf hlegal hstep
  cases call with
  | add name sector junk o => exact some.inj hstep ▸ (dirAdd_spec hwf hlegal.1 hlegal.2).2.wf
  | remove name allowed o => exact some.inj hstep ▸ (dirRemove_spec hwf allowed).wf

/-- A directory is a finite map from names to sectors, after any calls. -/
theorem directory_is_finite_map {c : List UInt8} (h : Transition.Reach Blank step Call.legal c) :
    (∀ i, i < c.length / entrySize → inUse (slot c i) = true →
      entryName (slot c i) ≠ [] ∧
      (entryName (slot c i)).length ≤ nameMax ∧
      ∀ j, j < c.length / entrySize → inUse (slot c j) = true →
        entryName (slot c i) = entryName (slot c j) → i = j) ∧
    (∀ name sector junk o, 0 ∉ name → sector < 4294967296 →
      ((dirAdd c name sector junk o).1 = true ↔
        (name ≠ [] ∧ name.length ≤ nameMax) ∧ find c name = none ∧ o = .full) ∧
      Changes c name (some sector) (dirAdd c name sector junk o)) ∧
    ∀ name allowed o, Changes c name none (dirRemove c name allowed o) := by
  have hwf := wf_reachable h
  refine ⟨fun i hi hu => ?_, fun name sector junk o hname hs => ?_,
    fun name allowed o => dirRemove_spec hwf allowed⟩
  · have hget := fun k (hk : k < c.length / 20) =>
      (entries_getElem? (c := c) (i := k)).trans (if_pos hk)
    obtain ⟨hne, hlen⟩ := hwf.named i _ (hget i hi) hu
    exact ⟨fun heq => hne (congrArg chars heq), length_map Char.ofUInt8 ▸ hlen, fun j hj hu' heq =>
      hwf.distinct i j _ _ (hget i hi) (hget j hj) hu hu' (congrArg chars heq)⟩
  · have hiff : find c name = none ↔ lookup c name = none := by exact map_eq_none_iff
    rw [hiff]
    exact dirAdd_spec hwf hname hs

/-- A second name in a directory, from a stack full of garbage. -/
theorem directory_is_finite_map_second :
    find (dirAdd (dirAdd [] [97] 5 (fun _ => 255) .full).2 [98] 6
      (fun _ => 255) .full).2 [98] = some 6 := by
  have hreach : Transition.Reach Blank step Call.legal (dirAdd [] [97] 5 (fun _ => 255) .full).2 :=
    .step (.add [97] 5 (fun _ => 255) .full)
      (.init fun _ hb => absurd hb not_mem_nil)
      ⟨by decide, by decide⟩ rfl
  obtain ⟨-, hadd, -⟩ := directory_is_finite_map hreach
  obtain ⟨hiff, hch⟩ := hadd [98] 6 (fun _ => 255) .full (by decide) (by decide)
  exact hch.done (hiff.mpr ⟨⟨by decide, by decide⟩, by decide +kernel, rfl⟩)

end Pintos.Slots
