/-
`memmove` of `lib/string.c`.

Memory is a byte for every address, and a pointer an address; the two
blocks lie in the address space, so that no pointer wraps around. `none`
is an assertion that fails.

Each loop reads every byte before it is overwritten: the forward one runs
only if the destination is below the source, the backward one only if it
is not. The function returns its variable `dst` and not `dst_`; the
backward loop leaves it at the start of the block, the forward loop
behind the end.
-/
import Mathlib.Logic.Function.Basic

namespace Pintos.Memmove

open Function

abbrev Mem := Nat → UInt8

/-- `while (size-- > 0) *dst++ = *src++`, with `dst` after it. -/
def copyUp : Nat → Nat → Nat → Mem → Nat × Mem
  | 0, dst, _, m => (dst, m)
  | size + 1, dst, src, m => copyUp size (dst + 1) (src + 1) (update m dst (m src))

/-- `while (size-- > 0) *--dst = *--src`, with `dst` after it. -/
def copyDown : Nat → Nat → Nat → Mem → Nat × Mem
  | 0, dst, _, m => (dst, m)
  | size + 1, dst, src, m => copyDown size (dst - 1) (src - 1) (update m (dst - 1) (m (src - 1)))

def memmove (dst src size : Nat) (m : Mem) : Option (Nat × Mem) :=
  if (dst ≠ 0 ∨ size = 0) ∧ (src ≠ 0 ∨ size = 0) then
    some (if dst < src then copyUp size dst src m else copyDown size (dst + size) (src + size) m)
  else none

/-- The block at `dst` is what the one at `src` was, and nothing else has
changed. -/
def Moved (dst src size : Nat) (m m' : Mem) : Prop :=
  ∀ a, m' a = if dst ≤ a ∧ a < dst + size then m (src + (a - dst)) else m a

variable {dst src : Nat}

theorem copyUp_moved (size : Nat) (m : Mem) (h : dst < src) :
    (copyUp size dst src m).1 = dst + size ∧ Moved dst src size m (copyUp size dst src m).2 := by
  induction size generalizing dst src m with
  | zero => exact ⟨rfl, fun a => (if_neg (by omega)).symm⟩
  | succ size ih =>
    obtain ⟨hend, hmoved⟩ := ih (update m dst (m src)) (Nat.succ_lt_succ h)
    refine ⟨hend.trans (by omega), fun a => (hmoved a).trans ?_⟩
    by_cases hin : dst + 1 ≤ a ∧ a < dst + 1 + size
    · -- what is still to be read is above the byte just written
      rw [if_pos hin, if_pos (by omega), update_of_ne (by omega)]
      exact congrArg m (by omega)
    · rw [if_neg hin, update_apply]
      split
      next ha => rw [ha, if_pos (by omega), Nat.sub_self, Nat.add_zero]
      next ha => rw [if_neg (by omega)]

theorem copyDown_moved (size : Nat) (m : Mem) (h : src ≤ dst) :
    (copyDown size (dst + size) (src + size) m).1 = dst ∧
      Moved dst src size m (copyDown size (dst + size) (src + size) m).2 := by
  induction size generalizing m with
  | zero => exact ⟨rfl, fun a => (if_neg (by omega)).symm⟩
  | succ size ih =>
    obtain ⟨hend, hmoved⟩ := ih (update m (dst + size) (m (src + size)))
    refine ⟨hend, fun a => (hmoved a).trans ?_⟩
    by_cases hin : dst ≤ a ∧ a < dst + size
    · -- what is still to be read is below the byte just written
      rw [if_pos hin, if_pos (by omega), update_of_ne (by omega)]
    · rw [if_neg hin, update_apply]
      split
      next ha => rw [ha, if_pos (by omega), Nat.add_sub_cancel_left]
      next ha => rw [if_neg (by omega)]

/-- The bytes are moved whatever the overlap; what is returned is `dst`
only when they are moved up or not at all. -/
theorem memmove_moves (dst src size : Nat) (m : Mem) (h : size = 0 ∨ dst ≠ 0 ∧ src ≠ 0) :
    ∃ r m', memmove dst src size m = some (r, m') ∧ Moved dst src size m m' ∧
      (r = dst ↔ src ≤ dst ∨ size = 0) := by
  unfold memmove
  rw [if_pos (by omega)]
  by_cases hlt : dst < src
  · obtain ⟨hend, hmoved⟩ := copyUp_moved size m hlt
    rw [if_pos hlt]
    refine ⟨_, _, rfl, hmoved, ?_⟩
    omega
  · obtain ⟨hend, hmoved⟩ := copyDown_moved size m (Nat.not_lt.mp hlt)
    rw [if_neg hlt]
    exact ⟨_, _, rfl, hmoved, iff_of_true hend (.inl (Nat.not_lt.mp hlt))⟩

theorem memmove_moves_up : ∃ r m', memmove 2 1 3 UInt8.ofNat = some (r, m') ∧ r = 2 ∧ m' 4 = 3 := by
  obtain ⟨r, m', h, hmoved, hr⟩ := memmove_moves 2 1 3 UInt8.ofNat (.inr ⟨by decide, by decide⟩)
  exact ⟨r, m', h, hr.mpr (.inl (by decide)), hmoved 4⟩

/-- A move down by one returns the address behind the block. -/
theorem memmove_returns_end : ∃ m', memmove 1 2 1 UInt8.ofNat = some (2, m') := ⟨_, rfl⟩

end Pintos.Memmove
