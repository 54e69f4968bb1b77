/-
Finite sets with at most one element of each class of an equivalence
relation: what a keyed container stores.

# What the library fixes

`Reps r` carries the proof that its elements are pairwise inequivalent,
so an operation that returns one has nothing left to check. The
operations are those of a set addressed by key: `lookup` returns the
stored element of a class, `insert` keeps an element that is already
there, `replace` puts the new one in its place, `erase` drops the class.

# The rules

Each operation is known by its membership lemma, and `lookup` by
`lookup_eq_some` and `lookup_eq_none`; an implementation is shown
against these, element by element.
-/
import Mathlib.Data.Finset.Card

/-- A finite set of pairwise inequivalent elements. -/
@[ext]
structure Reps {α : Type*} (r : Setoid α) where
  elems : Finset α
  unique : ∀ x ∈ elems, ∀ y ∈ elems, r x y → x = y

namespace Reps

open Classical

variable {α : Type*} {r : Setoid α} (s : Reps r) {e x : α}

protected def empty : Reps r := ⟨∅, nofun⟩

/-- The stored element of the class of `e`. -/
noncomputable def lookup (e : α) : Option α :=
  if h : ∃ x ∈ s.elems, r x e then some h.choose else none

/-- Drop the class of `e`. -/
noncomputable def erase (e : α) : Reps r where
  elems := s.elems.filter fun x => ¬ r x e
  unique x hx y hy := s.unique x (Finset.mem_of_mem_filter x hx) y (Finset.mem_of_mem_filter y hy)

/-- `e` instead of whatever is stored of its class. -/
noncomputable def replace (e : α) : Reps r where
  elems := Insert.insert e (s.erase e).elems
  unique := by
    have hout : ∀ x ∈ (s.erase e).elems, ¬ r x e := fun x hx => (Finset.mem_filter.mp hx).2
    intro x hx y hy hxy
    obtain rfl | hx := Finset.mem_insert.mp hx
    · obtain rfl | hy := Finset.mem_insert.mp hy
      · rfl
      · exact absurd (r.symm hxy) (hout y hy)
    · obtain rfl | hy := Finset.mem_insert.mp hy
      · exact absurd hxy (hout x hx)
      · exact (s.erase e).unique x hx y hy hxy

/-- `e`, unless its class is stored already. -/
noncomputable def insert (e : α) : Reps r :=
  if s.lookup e = none then s.replace e else s

theorem lookup_eq_some : s.lookup e = some x ↔ x ∈ s.elems ∧ r x e := by
  unfold lookup
  split
  case isTrue h =>
    have hc := h.choose_spec
    constructor
    · intro heq
      cases heq
      exact hc
    · intro hx
      exact congrArg some (s.unique _ hc.1 x hx.1 (r.trans hc.2 (r.symm hx.2)))
  case isFalse h =>
    constructor
    · nofun
    · intro hx
      exact absurd ⟨x, hx⟩ h

theorem lookup_eq_none : s.lookup e = none ↔ ∀ x ∈ s.elems, ¬ r x e := by
  unfold lookup
  split
  case isTrue h =>
    constructor
    · nofun
    · intro hnone
      obtain ⟨x, hx, hxe⟩ := h
      exact absurd hxe (hnone x hx)
  case isFalse h =>
    constructor
    · intro _ x hx hxe
      exact h ⟨x, hx, hxe⟩
    · intro _
      rfl

@[simp] theorem mem_empty : x ∉ (Reps.empty : Reps r).elems := Finset.notMem_empty x

@[simp] theorem mem_erase : x ∈ (s.erase e).elems ↔ x ∈ s.elems ∧ ¬ r x e := Finset.mem_filter

@[simp] theorem mem_replace : x ∈ (s.replace e).elems ↔ x = e ∨ x ∈ s.elems ∧ ¬ r x e :=
  Finset.mem_insert.trans (or_congr_right s.mem_erase)

theorem insert_of_lookup {y : α} (h : s.lookup e = some y) : s.insert e = s :=
  if_neg (by rw [h]; exact Option.some_ne_none y)

theorem mem_insert (h : s.lookup e = none) : x ∈ (s.insert e).elems ↔ x = e ∨ x ∈ s.elems := by
  rw [insert, if_pos h, mem_replace]
  have hall := s.lookup_eq_none.mp h
  constructor
  · intro hx
    exact hx.imp_right And.left
  · intro hx
    exact hx.imp_right fun hx => ⟨hx, hall x hx⟩

theorem erase_of_lookup (h : s.lookup e = none) : s.erase e = s := by
  have hall := s.lookup_eq_none.mp h
  apply Reps.ext
  ext x
  rw [mem_erase]
  exact ⟨And.left, fun hx => ⟨hx, hall x hx⟩⟩

/-- A list without repetitions of the elements counts them. -/
theorem card_eq {l : List α} (hl : l.Nodup)
    (h : ∀ x, x ∈ l ↔ x ∈ s.elems) : s.elems.card = l.length := by
  have heq : l.toFinset = s.elems := by
    ext x
    rw [List.mem_toFinset]
    exact h x
  rw [← heq, List.toFinset_card_of_nodup hl]

end Reps
