/-
`lib/kernel/bitmap.c`: bits packed 32 to a word.

# Reading the model

`bits` is the word array, indexed by `elem_idx`; `BITMAP_ERROR` is
`none`. The range assertions of the source bound the indices its callers
pass; the operations themselves are total here.

# The specification

`test` after each update, bit by bit (`test_set`, `test_setMultiple`),
and what a scan returns (`scan_some`, `scan_none`). Nothing outside this
file looks at a word.
-/
import Mathlib.Data.List.Nodup

namespace Pintos

open List

structure Bitmap where
  bitCnt : Nat
  bits : Nat → BitVec 32

namespace Bitmap

/-- The index of the word that holds bit `i`. -/
def elemIdx (i : Nat) : Nat := i / 32

/-- The word with only the bit of `i` set. -/
def bitMask (i : Nat) : BitVec 32 := 1#32 <<< (i % 32)

/-- `bitmap_mark`. -/
def mark (b : Bitmap) (i : Nat) : Bitmap :=
  { b with bits := fun e =>
      if e = elemIdx i then b.bits e ||| bitMask i else b.bits e }

/-- `bitmap_reset`. -/
def reset (b : Bitmap) (i : Nat) : Bitmap :=
  { b with bits := fun e =>
      if e = elemIdx i then b.bits e &&& ~~~bitMask i else b.bits e }

/-- `bitmap_set`. -/
def set (b : Bitmap) (i : Nat) (value : Bool) : Bitmap :=
  if value then b.mark i else b.reset i

/-- `bitmap_test`. -/
def test (b : Bitmap) (i : Nat) : Bool := b.bits (elemIdx i) &&& bitMask i != 0#32

/-- `bitmap_set_multiple`: the loop over `cnt` bits from `start` on. -/
def setMultiple (b : Bitmap) (start : Nat) : Nat → Bool → Bitmap
  | 0, _ => b
  | n + 1, value => (b.setMultiple start n value).set (start + n) value

/-- `bitmap_contains`. -/
def contains (b : Bitmap) (start cnt : Nat) (value : Bool) : Bool :=
  (List.range cnt).any fun i => b.test (start + i) == value

/-- `bitmap_all`. -/
def all (b : Bitmap) (start cnt : Nat) : Bool := !b.contains start cnt false

/-- `bitmap_scan`: the first group of `cnt` equal bits from `start` on. -/
def scan (b : Bitmap) (start cnt : Nat) (value : Bool) : Option Nat :=
  if cnt ≤ b.bitCnt then
    (List.range' start (b.bitCnt - cnt + 1 - start)).find? fun i => !b.contains i cnt (!value)
  else none

/-- `bitmap_scan_and_flip`. -/
def scanAndFlip (b : Bitmap) (start cnt : Nat) (value : Bool) : Option Nat × Bitmap :=
  match b.scan start cnt value with
  | none => (none, b)
  | some i => (some i, b.setMultiple i cnt (!value))

-- ==== bit by bit

theorem bitMask_getLsbD (i k : Nat) : (bitMask i).getLsbD k = decide (k = i % 32) := by
  have h : i % 32 < 32 := Nat.mod_lt _ (by decide)
  unfold bitMask
  by_cases hk : k = i % 32
  · subst hk
    simp [h]
  · by_cases hlt : k < i % 32
    · simp [hlt, hk]
    · have : k - i % 32 ≠ 0 := by omega
      simp [this, hk]

/-- The test of a bit is the bit. -/
theorem test_eq (b : Bitmap) (i : Nat) : b.test i = (b.bits (elemIdx i)).getLsbD (i % 32) := by
  unfold test
  rw [Bool.eq_iff_iff, bne_iff_ne]
  constructor
  · intro hne
    by_contra hbit
    refine hne (BitVec.eq_of_getLsbD_eq fun k hk => ?_)
    rw [BitVec.getLsbD_and, bitMask_getLsbD, BitVec.getLsbD_zero]
    by_cases hki : k = i % 32
    · subst hki
      simpa using hbit
    · simp [hki]
  · intro hbit h0
    have := congrArg (BitVec.getLsbD · (i % 32)) h0
    simp [bitMask_getLsbD, hbit] at this

variable {b : Bitmap} {i start cnt : Nat} {v : Bool}

/-- An update that changes one word in one bit changes one test. -/
theorem test_of_word {b' : Bitmap} (hother : ∀ e, e ≠ elemIdx i → b'.bits e = b.bits e)
    (hself : ∀ k, k < 32 → (b'.bits (elemIdx i)).getLsbD k =
      if k = i % 32 then v else (b.bits (elemIdx i)).getLsbD k) (j : Nat) :
    b'.test j = if j = i then v else b.test j := by
  rw [test_eq, test_eq]
  by_cases he : elemIdx j = elemIdx i
  · rw [he, hself _ (Nat.mod_lt _ (by decide))]
    split
    next hm => rw [if_pos (by unfold elemIdx at he; omega)]
    next hm => rw [if_neg fun h => hm (by rw [h])]
  · rw [hother _ he, if_neg fun h => he (by rw [h])]

theorem test_mark (b : Bitmap) (i j : Nat) :
    (b.mark i).test j = if j = i then true else b.test j := by
  refine test_of_word (fun e he => if_neg he) (fun k _ => ?_) j
  show (if elemIdx i = elemIdx i then _ else _ : BitVec 32).getLsbD k = _
  rw [if_pos rfl, BitVec.getLsbD_or, bitMask_getLsbD]
  by_cases hk : k = i % 32 <;> simp [hk]

theorem test_reset (b : Bitmap) (i j : Nat) :
    (b.reset i).test j = if j = i then false else b.test j := by
  refine test_of_word (fun e he => if_neg he) (fun k hk => ?_) j
  show (if elemIdx i = elemIdx i then _ else _ : BitVec 32).getLsbD k = _
  rw [if_pos rfl, BitVec.getLsbD_and, BitVec.getLsbD_not, bitMask_getLsbD]
  by_cases hki : k = i % 32 <;> simp [hki, hk]

theorem test_set (b : Bitmap) (i j : Nat) (v : Bool) :
    (b.set i v).test j = if j = i then v else b.test j := by
  cases v with
  | true => exact test_mark b i j
  | false => exact test_reset b i j

/-- `bitmap_set_multiple` sets the bits of the range. -/
theorem test_setMultiple (b : Bitmap) (start cnt j : Nat) (v : Bool) :
    (b.setMultiple start cnt v).test j = if start ≤ j ∧ j < start + cnt then v else b.test j := by
  induction cnt with
  | zero =>
    rw [if_neg (by omega)]
    rfl
  | succ n ih =>
    rw [setMultiple, test_set, ih]
    split
    next hj => rw [if_pos (by omega)]
    next hj =>
      by_cases hin : start ≤ j ∧ j < start + n
      · rw [if_pos hin, if_pos (by omega)]
      · rw [if_neg hin, if_neg (by omega)]

theorem test_setMultiple_one (b : Bitmap) (i j : Nat) (v : Bool) :
    (b.setMultiple i 1 v).test j = if j = i then v else b.test j :=
  test_set b i j v

@[simp] theorem set_bitCnt (b : Bitmap) (i : Nat) (v : Bool) : (b.set i v).bitCnt = b.bitCnt := by
  cases v <;> rfl

@[simp] theorem setMultiple_bitCnt (b : Bitmap) (start cnt : Nat)
    (v : Bool) : (b.setMultiple start cnt v).bitCnt = b.bitCnt := by
  induction cnt with
  | zero => rfl
  | succ n ih => rw [setMultiple, set_bitCnt, ih]

-- ==== ranges

theorem contains_eq_false : b.contains start cnt v = false ↔
      ∀ i, i < cnt → b.test (start + i) = !v := by
  unfold contains
  rw [any_eq_false]
  constructor
  · intro h i hi
    cases hv : b.test (start + i) <;> cases v <;> simp_all
  · intro h i hi
    rw [h i (mem_range.mp hi)]
    cases v <;> simp

theorem all_iff : b.all start cnt = true ↔ ∀ i, i < cnt → b.test (start + i) = true := by
  unfold all
  rw [Bool.not_eq_true', contains_eq_false]
  rfl

/-- What a scan finds is a group of `cnt` equal bits inside the map. -/
theorem scan_some (h : b.scan start cnt v = some i) :
    start ≤ i ∧ i + cnt ≤ b.bitCnt ∧ ∀ j, j < cnt → b.test (i + j) = v := by
  obtain ⟨hcnt, h⟩ := Option.ite_none_right_eq_some.mp h
  have hmem := mem_of_find?_eq_some h
  have hfree := find?_some h
  rw [mem_range'_1] at hmem
  rw [Bool.not_eq_true', contains_eq_false] at hfree
  refine ⟨hmem.1, by omega, fun j hj => ?_⟩
  rw [hfree j hj, Bool.not_not]

/-- A scan fails only when no such group exists. -/
theorem scan_none (h : b.scan start cnt v = none) (hs : start ≤ i)
    (hi : i + cnt ≤ b.bitCnt) : ∃ j, j < cnt ∧ b.test (i + j) = !v := by
  unfold scan at h
  rw [if_pos (by omega), find?_eq_none] at h
  have hno := h i (mem_range'_1.mpr ⟨hs, by omega⟩)
  by_contra hall
  have : b.contains i cnt (!v) = false := by
    rw [contains_eq_false]
    intro j hj
    by_contra hne
    refine hall ⟨j, hj, ?_⟩
    cases hv : b.test (i + j) <;> cases v <;> simp_all
  simp [this] at hno

-- ==== first fit

/-- A group of `cnt` bits equal to `v` begins at `i`. -/
def Fits (b : Bitmap) (start cnt : Nat) (v : Bool) (i : Nat) : Prop :=
  start ≤ i ∧ i + cnt ≤ b.bitCnt ∧ ∀ j, j < cnt → b.test (i + j) = v

/-- A scan stops at the first group. -/
theorem scan_first (h : b.scan start cnt v = some i) {k : Nat} (hk : k < i) :
    ¬b.Fits start cnt v k := by
  intro hfit
  obtain ⟨-, h⟩ := Option.ite_none_right_eq_some.mp h
  have hbefore := (find?_range'_eq_some.mp h).2.2 k hfit.1 hk
  have hnone : b.contains k cnt (!v) = false := by
    rw [contains_eq_false, Bool.not_not]
    exact hfit.2.2
  simp [hnone] at hbefore

/-- `bitmap_scan_and_flip` takes the first group there is, flips its bits
and no others, and fails only when there is none. -/
theorem scanAndFlip_first_fit (b : Bitmap) (start cnt : Nat) (v : Bool) :
    (∃ i b', b.scanAndFlip start cnt v = (some i, b') ∧ b.Fits start cnt v i ∧
      (∀ k, k < i → ¬b.Fits start cnt v k) ∧ b'.bitCnt = b.bitCnt ∧
      ∀ j, b'.test j = if i ≤ j ∧ j < i + cnt then !v else b.test j) ∨
    b.scanAndFlip start cnt v = (none, b) ∧ ∀ i, ¬b.Fits start cnt v i := by
  unfold scanAndFlip
  cases h : b.scan start cnt v with
  | some i =>
    refine .inl ⟨i, _, rfl, scan_some h, fun k => scan_first h, setMultiple_bitCnt .., fun j => ?_⟩
    exact test_setMultiple b i cnt j (!v)
  | none =>
    refine .inr ⟨rfl, fun i hfit => ?_⟩
    obtain ⟨j, hj, hne⟩ := scan_none h hfit.1 hfit.2.1
    simp [hfit.2.2 j hj] at hne

-- ==== free bits

/-- The number of clear bits. -/
def freeCount (b : Bitmap) : Nat := (List.range b.bitCnt).countP fun i => !b.test i

/-- Setting one clear bit takes one off the count. -/
theorem freeCount_of_set {b' : Bitmap} {x : Nat} (hcnt : b'.bitCnt = b.bitCnt) (hx : x < b.bitCnt)
    (hclear : b.test x = false) (htest : ∀ y, b'.test y = if y = x then true else b.test y) :
    b'.freeCount + 1 = b.freeCount := by
  unfold freeCount
  rw [hcnt]
  have hmem : x ∈ List.range b.bitCnt := mem_range.mpr hx
  have hperm := perm_cons_erase hmem
  have hnodup := nodup_range (n := b.bitCnt)
  rw [hperm.countP_eq, hperm.countP_eq, countP_cons, countP_cons, htest x, if_pos rfl, hclear]
  have hsame : ((List.range b.bitCnt).erase x).countP (fun i => !b'.test i) =
      ((List.range b.bitCnt).erase x).countP fun i => !b.test i := by
    refine countP_congr fun y hy => ?_
    have hne : y ≠ x := (hnodup.mem_erase_iff.mp hy).1
    rw [htest y, if_neg hne]
  rw [hsame]
  simp

/-- One sector taken from the map, or none free. -/
theorem scanAndFlip_one (b : Bitmap) : (b.scanAndFlip 0 1 false = (none, b) ∧ b.freeCount = 0) ∨
    ∃ x b', b.scanAndFlip 0 1 false = (some x, b') ∧ x < b.bitCnt ∧
      b.test x = false ∧ b'.bitCnt = b.bitCnt ∧
      (∀ y, b'.test y = if y = x then true else b.test y) ∧
      b'.freeCount + 1 = b.freeCount := by
  unfold scanAndFlip
  cases h : b.scan 0 1 false with
  | none =>
    refine .inl ⟨rfl, ?_⟩
    unfold freeCount
    rw [countP_eq_zero]
    intro i hi
    obtain ⟨j, hj, hset⟩ := scan_none h (Nat.zero_le i) (Nat.succ_le_of_lt (mem_range.mp hi))
    have : j = 0 := by omega
    subst this
    simpa using hset
  | some x =>
    obtain ⟨-, hx, hclear⟩ := scan_some h
    have hclear := hclear 0 (by omega)
    have htest := fun y => test_setMultiple_one b x y true
    exact .inr ⟨x, _, rfl, by omega, hclear, setMultiple_bitCnt ..,
      htest, freeCount_of_set (setMultiple_bitCnt ..) (by omega) hclear htest⟩

end Bitmap

end Pintos
