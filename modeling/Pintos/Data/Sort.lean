/-
`sort`, `qsort` and `binary_search` of `lib/stdlib.c`.

An array is an element for every index, 1-based as in the source. An
element is a value of any type, so `do_swap` exchanges values, and a
comparison function with its `aux` is one function. `none` is an access
outside the array, or a loop that has used up its fuel. `size_t` has 32
bits.

Floating an element down keeps a heap but for the children of one index,
which are not above its parent (`HeapBut`). The second loop of the sort
keeps a heap in front of what is in place (`Placed`).
-/
import Mathlib.Logic.Equiv.Basic

namespace Pintos.Sort

open Option

variable {α : Type} (compare : α → α → Int) (len : Nat)

def doSwap (a : Nat → α) (i j : Nat) : Option (Nat → α) :=
  if (1 ≤ i ∧ i ≤ len) ∧ 1 ≤ j ∧ j ≤ len then some (a ∘ Equiv.swap i j) else none

def doCompare (a : Nat → α) (i j : Nat) : Option Int :=
  if (1 ≤ i ∧ i ≤ len) ∧ 1 ≤ j ∧ j ≤ len then some (compare (a i) (a j)) else none

/-- `if (child <= cnt && do_compare (child, max) > 0) max = child`. -/
def larger (a : Nat → α) (cnt child max : Nat) : Option Nat :=
  if child ≤ cnt then
    (doCompare compare len a child max).map fun r => if r > 0 then child else max
  else some max

def heapify (cnt : Nat) : Nat → (Nat → α) → Nat → Option (Nat → α)
  | 0, _, _ => none
  | fuel + 1, a, i => do
    let left := 2 * i % 4294967296
    let right := (2 * i + 1) % 4294967296
    let max ← larger compare len a cnt left i
    let max ← larger compare len a cnt right max
    if max = i then pure a
    else heapify cnt fuel (← doSwap len a i max) max

/-- Build a heap: `for (i = cnt / 2; i > 0; i--)`. -/
def buildHeap : Nat → (Nat → α) → Option (Nat → α)
  | 0, a => some a
  | i + 1, a => do buildHeap i (← heapify compare len len len a (i + 1))

/-- Sort the heap: `for (i = cnt; i > 1; i--)`. -/
def sortHeap : Nat → (Nat → α) → Option (Nat → α)
  | i + 2, a => do
    let a ← doSwap len a 1 (i + 2)
    sortHeap (i + 1) (← heapify compare len (i + 1) len a 1)
  | _, a => some a

def sort (cnt : Nat) (a : Nat → α) : Option (Nat → α) := do
  sortHeap compare cnt cnt (← buildHeap compare cnt (cnt / 2) a)

def compareThunk (a b : α) (aux : α → α → Int) : Int := aux a b

def qsort (cnt : Nat) (a : Nat → α) : Option (Nat → α) :=
  sort (fun a b => compareThunk a b compare) cnt a

/-- The element at the address `p`, in an array of elements of `size` bytes. -/
def element (array cnt size : Nat) (a : Nat → α) (p : Nat) : Option α :=
  let i := (p - array) / size
  if p = array + i * size ∧ i < cnt then some (a (i + 1)) else none

/-- The loop of `binary_search`, over the bytes from `first` to `last`. -/
def searchLoop (key : α) (array cnt size : Nat) (a : Nat → α) :
    Nat → Nat → Nat → Option (Option Nat)
  | 0, _, _ => none
  | fuel + 1, first, last =>
    if first < last then do
      let range := (last - first) / size
      let middle := first + range / 2 * size
      let cmp := compare key (← element array cnt size a middle)
      if cmp < 0 then searchLoop key array cnt size a fuel first middle
      else if cmp > 0 then searchLoop key array cnt size a fuel (middle + size) last
      else some (some middle)
    else some none

/-- The address of a match, or `NULL`. -/
def binarySearch (key : α) (array cnt size : Nat) (a : Nat → α) : Option (Option Nat) :=
  searchLoop compare key array cnt size a (cnt + 1) array (array + size * cnt)

-- ==== permutations

/-- `a'` is a permutation of the first `n` elements of `a`. -/
def Permuted (n : Nat) (a a' : Nat → α) : Prop :=
  ∃ σ : Equiv.Perm Nat, (∀ k, σ k ≠ k → 1 ≤ k ∧ k ≤ n) ∧ a' = a ∘ σ

variable {compare len} {a a' a'' : Nat → α} {lo n m i cnt : Nat}

theorem Permuted.refl (n : Nat) (a : Nat → α) : Permuted n a a :=
  ⟨.refl Nat, fun _ h => absurd rfl h, rfl⟩

theorem Permuted.mono (h : Permuted n a a') (hn : n ≤ m) : Permuted m a a' := by
  obtain ⟨σ, hσ, heq⟩ := h
  exact ⟨σ, fun k hk => ⟨(hσ k hk).1, Nat.le_trans (hσ k hk).2 hn⟩, heq⟩

theorem Permuted.trans (h : Permuted n a a') (h' : Permuted n a' a'') : Permuted n a a'' := by
  obtain ⟨σ, hσ, rfl⟩ := h
  obtain ⟨τ, hτ, rfl⟩ := h'
  refine ⟨τ.trans σ, fun k hk => ?_, rfl⟩
  by_cases hfix : τ k = k
  · exact hσ k (by simpa [hfix] using hk)
  · exact hτ k hfix

theorem Permuted.swap (a : Nat → α) {j : Nat} (hi : 1 ≤ i ∧ i ≤ n) (hj : 1 ≤ j ∧ j ≤ n) :
    Permuted n a (a ∘ Equiv.swap i j) := by
  refine ⟨Equiv.swap i j, fun k hk => ?_, rfl⟩
  rcases Equiv.eq_or_eq_of_swap_apply_ne_self hk with rfl | rfl
  · exact hi
  · exact hj

/-- Where the element at `k` comes from. -/
theorem Permuted.source (h : Permuted n a a') (k : Nat) :
    ∃ k', a' k = a k' ∧ (k' = k ∨ (1 ≤ k ∧ k ≤ n) ∧ 1 ≤ k' ∧ k' ≤ n) := by
  obtain ⟨σ, hσ, rfl⟩ := h
  refine ⟨σ k, rfl, ?_⟩
  by_cases hk : σ k = k
  · exact .inl hk
  · exact .inr ⟨hσ k hk, hσ (σ k) fun h => hk (σ.injective h)⟩

-- ==== heaps

/-- No element is above its parent, from the parent `lo` on. -/
def Heap (compare : α → α → Int) (lo n : Nat) (a : Nat → α) : Prop :=
  ∀ c ≤ n, lo ≤ c / 2 → compare (a c) (a (c / 2)) ≤ 0

/-- A heap, except that the element at `i` may be below its children. -/
structure HeapBut (compare : α → α → Int) (lo n : Nat) (a : Nat → α) (i : Nat) : Prop where
  heap : ∀ c ≤ n, lo ≤ c / 2 → c / 2 ≠ i → compare (a c) (a (c / 2)) ≤ 0
  above : ∀ c ≤ n, c / 2 = i → lo ≤ i / 2 → compare (a c) (a (i / 2)) ≤ 0

/-- The element goes down to the larger child `m`. -/
theorem HeapBut.swap (h : HeapBut compare lo n a i) (hi : 1 ≤ i ∧ lo ≤ i) (hm : m / 2 = i)
    (hn : m ≤ n) (hup : compare (a i) (a m) ≤ 0)
    (hmax : ∀ c ≤ n, c / 2 = i → compare (a c) (a m) ≤ 0) :
    HeapBut compare lo n (a ∘ Equiv.swap i m) m := by
  have hi' : (a ∘ Equiv.swap i m) i = a m := congrArg a (Equiv.swap_apply_left i m)
  have hm' : (a ∘ Equiv.swap i m) m = a i := congrArg a (Equiv.swap_apply_right i m)
  have hother : ∀ k, k ≠ i → k ≠ m → (a ∘ Equiv.swap i m) k = a k := fun k h1 h2 =>
    congrArg a (Equiv.swap_apply_of_ne_of_ne h1 h2)
  constructor
  · intro c hc hlo hne
    by_cases hci : c / 2 = i
    · rw [hci, hi']
      by_cases hcm : c = m
      · rw [hcm, hm']
        exact hup
      · rw [hother c (by omega) hcm]
        exact hmax c hc hci
    · rw [hother (c / 2) hci hne]
      by_cases hc' : c = i
      · rw [hc', hi']
        exact h.above m hn hm (hc' ▸ hlo)
      · rw [hother c hc' fun e => hci (e ▸ hm)]
        exact h.heap c hc hlo hci
  · intro c hc hcm _
    rw [hm, hi', hother c (by omega) (by omega), ← hcm]
    exact h.heap c hc (by omega) (by omega)

theorem HeapBut.done (h : HeapBut compare lo n a i)
    (hmax : ∀ c ≤ n, c / 2 = i → compare (a c) (a i) ≤ 0) : Heap compare lo n a := by
  intro c hc hlo
  by_cases hci : c / 2 = i
  · exact hci ▸ hmax c hc hci
  · exact h.heap c hc hlo hci

/-- After `n` every element is in order with all in front of it. -/
def Placed (compare : α → α → Int) (n cnt : Nat) (a : Nat → α) : Prop :=
  ∀ j k, 1 ≤ j → j ≤ k → n < k → k ≤ cnt → compare (a j) (a k) ≤ 0

theorem Placed.permuted (h : Placed compare n cnt a) (hp : Permuted n a a') :
    Placed compare n cnt a' := by
  intro j k hj hjk hn hk
  obtain ⟨k', hk', hkn⟩ := hp.source k
  obtain ⟨j', hj', hjn⟩ := hp.source j
  rw [hk', hj']
  exact h j' k' (by omega) (by omega) (by omega) (by omega)

theorem element_eq {array size : Nat} (hsize : 0 < size) (a : Nat → α) (hi : i < cnt) :
    element array cnt size a (array + i * size) = some (a (i + 1)) := by
  simp [element, Nat.mul_div_cancel _ hsize, hi]

-- ==== the loops

/-- `compare` tells how two elements stand in a total preorder. -/
structure Preorder (compare : α → α → Int) : Prop where
  flip : ∀ x y, compare x y < 0 ↔ 0 < compare y x
  trans : ∀ x y z, compare x y ≤ 0 → compare y z ≤ 0 → compare x z ≤ 0

variable (hle : Preorder compare)

include hle

theorem Preorder.refl (x : α) : compare x x ≤ 0 := by
  have := hle.flip x x
  omega

/-- The root is the largest. -/
theorem Heap.root (h : Heap compare 1 n a) (k : Nat) (hk : 1 ≤ k ∧ k ≤ n) :
    compare (a k) (a 1) ≤ 0 := by
  induction k using Nat.strongRecOn with
  | ind k ih =>
    by_cases h1 : k = 1
    · exact h1 ▸ hle.refl _
    · exact hle.trans _ _ _ (h k hk.2 (by omega)) (ih (k / 2) (by omega) (by omega))

theorem larger_spec (a : Nat → α) {c max : Nat} (hc : c ≤ cnt → 1 ≤ c) (hm : 1 ≤ max ∧ max ≤ len)
    (hcnt : cnt ≤ len) : ∃ m, larger compare len a cnt c max = some m ∧
      (m = max ∨ m = c ∧ c ≤ cnt) ∧ compare (a max) (a m) ≤ 0 ∧
      (c ≤ cnt → compare (a c) (a m) ≤ 0) := by
  unfold larger
  split
  next hlt =>
    rw [doCompare, if_pos ⟨⟨hc hlt, Nat.le_trans hlt hcnt⟩, hm⟩, map_some]
    refine ⟨_, rfl, ?_⟩
    split
    next hgt =>
      exact ⟨.inr ⟨rfl, hlt⟩, Int.le_of_lt ((hle.flip _ _).mpr hgt), fun _ => hle.refl _⟩
    next hgt => exact ⟨.inl rfl, hle.refl _, fun _ => Int.not_lt.mp hgt⟩
  next hlt => exact ⟨max, rfl, .inl rfl, hle.refl _, fun h => absurd h hlt⟩

theorem heapify_spec (hcnt : cnt ≤ len) (hbig : cnt < 2147483648) (fuel : Nat) (a : Nat → α)
    (i : Nat) (hi : 1 ≤ i ∧ lo ≤ i) (hin : i ≤ cnt) (hfuel : cnt < i + fuel)
    (h : HeapBut compare lo cnt a i) :
    ∃ a', heapify compare len cnt fuel a i = some a' ∧ Permuted cnt a a' ∧
      Heap compare lo cnt a' := by
  induction fuel generalizing a i with
  | zero => omega
  | succ fuel ih =>
    obtain ⟨m, hm, hmc, hup, hleft⟩ :=
      larger_spec hle a (c := 2 * i) (by omega) ⟨hi.1, Nat.le_trans hin hcnt⟩ hcnt
    obtain ⟨m', hm', hmc', hup', hright⟩ :=
      larger_spec hle a (c := 2 * i + 1) (by omega) (show 1 ≤ m ∧ m ≤ len by omega) hcnt
    have hmax : ∀ c ≤ cnt, c / 2 = i → compare (a c) (a m') ≤ 0 := by
      intro c hc hci
      rcases (show c = 2 * i ∨ c = 2 * i + 1 by omega) with rfl | rfl
      · exact hle.trans _ _ _ (hleft hc) hup'
      · exact hright hc
    rw [heapify, Nat.mod_eq_of_lt (by omega), Nat.mod_eq_of_lt (by omega)]
    simp only [hm, hm', bind_eq_bind, bind_some]
    by_cases hdone : m' = i
    · rw [if_pos hdone]
      exact ⟨a, rfl, .refl cnt a, h.done (hdone ▸ hmax)⟩
    · rw [if_neg hdone, doSwap, if_pos (by omega), bind_some]
      obtain ⟨a', ha', hp, hheap⟩ := ih _ m' (by omega) (by omega) (by omega)
        (h.swap hi (by omega) (by omega) (hle.trans _ _ _ hup hup') hmax)
      exact ⟨a', ha', (Permuted.swap a (by omega) (by omega)).trans hp, hheap⟩

theorem buildHeap_spec (hbig : cnt < 2147483648) (i : Nat) (a : Nat → α) (hi : i ≤ cnt / 2)
    (h : Heap compare (i + 1) cnt a) :
    ∃ a', buildHeap compare cnt i a = some a' ∧ Permuted cnt a a' ∧ Heap compare 1 cnt a' := by
  induction i generalizing a with
  | zero => exact ⟨a, rfl, .refl cnt a, h⟩
  | succ i ih =>
    obtain ⟨a₁, h1, hp1, hheap⟩ := heapify_spec hle .refl hbig cnt a (i + 1)
      ⟨by omega, .refl⟩ (by omega) (by omega)
      ⟨fun c hc _ _ => h c hc (by omega), fun c _ _ _ => by omega⟩
    obtain ⟨a₂, h2, hp2, hroot⟩ := ih a₁ (by omega) hheap
    refine ⟨a₂, ?_, hp1.trans hp2, hroot⟩
    rw [buildHeap, h1]
    exact h2

theorem sortHeap_spec (hbig : cnt < 2147483648) (i : Nat) (a : Nat → α) (hi : i ≤ cnt)
    (h : Heap compare 1 i a) (hplaced : Placed compare i cnt a) :
    ∃ a', sortHeap compare cnt i a = some a' ∧ Permuted cnt a a' ∧ Placed compare 0 cnt a' := by
  induction i generalizing a with
  | zero => exact ⟨a, rfl, .refl cnt a, hplaced⟩
  | succ i ih =>
    cases i with
    | zero =>
      refine ⟨a, rfl, .refl cnt a, fun j k hj hjk _ hk => ?_⟩
      by_cases hk1 : k = 1
      · rw [hk1, show j = 1 by omega]
        exact hle.refl _
      · exact hplaced j k hj hjk (by omega) hk
    | succ i =>
      have hperm := @Permuted.swap _ (i + 2) 1 a (i + 2) (by omega) (by omega)
      have hbut : HeapBut compare 1 (i + 1) (a ∘ Equiv.swap 1 (i + 2)) 1 := by
        refine ⟨fun c hc hlo hne => ?_, fun c _ _ hlo => by omega⟩
        have hkeep : ∀ k, 1 < k → k ≤ i + 1 → (a ∘ Equiv.swap 1 (i + 2)) k = a k := fun k h1 h2 =>
          congrArg a (Equiv.swap_apply_of_ne_of_ne (by omega) (by omega))
        rw [hkeep c (by omega) hc, hkeep (c / 2) (by omega) (by omega)]
        exact h c (by omega) hlo
      have hlast : Placed compare (i + 1) cnt (a ∘ Equiv.swap 1 (i + 2)) := by
        intro j k hj hjk hik hk
        by_cases hki : k = i + 2
        · obtain ⟨j', hj', hjn⟩ := hperm.source j
          rw [hj', hki, Function.comp_apply, Equiv.swap_apply_right]
          exact h.root hle j' (by omega)
        · exact hplaced.permuted hperm j k hj hjk (by omega) hk
      obtain ⟨a₁, h1, hp1, hheap⟩ := heapify_spec hle (show i + 1 ≤ cnt by omega) (by omega) cnt _ 1
        ⟨.refl, .refl⟩ (by omega) (by omega) hbut
      obtain ⟨a₂, h2, hp2, hdone⟩ := ih a₁ (by omega) hheap (hlast.permuted hp1)
      refine ⟨a₂, ?_, ((hperm.mono hi).trans (hp1.mono (by omega))).trans hp2, hdone⟩
      rw [sortHeap, doSwap, if_pos (by omega)]
      simp only [bind_eq_bind, bind_some, h1, h2]

/-- `sort` and `qsort` return, having accessed the array only, with its
elements in nondecreasing order. -/
theorem sort_nondecreasing (hcnt : cnt < 2147483648) (a : Nat → α) :
    ∃ a', sort compare cnt a = some a' ∧ qsort compare cnt a = some a' ∧ Permuted cnt a a' ∧
      ∀ j k, 1 ≤ j → j ≤ k → k ≤ cnt → compare (a' j) (a' k) ≤ 0 := by
  obtain ⟨a₁, h1, hp1, hheap⟩ := buildHeap_spec hle hcnt (cnt / 2) a .refl fun c hc _ => by omega
  obtain ⟨a₂, h2, hp2, hdone⟩ := sortHeap_spec hle hcnt cnt a₁ .refl hheap
    fun j k _ _ _ _ => by omega
  have hsort : sort compare cnt a = some a₂ := by
    rw [sort, h1]
    exact h2
  exact ⟨a₂, hsort, hsort, hp1.trans hp2, fun j k hj hjk hk => hdone j k hj hjk (by omega) hk⟩

omit hle in
theorem sort_nondecreasing_three : ∃ a', sort (α := Int) (· - ·) 3 (fun i => 5 - i) = some a' ∧
    a' 1 ≤ a' 2 ∧ a' 2 ≤ a' 3 := by
  obtain ⟨a', h, -, -, hle⟩ := @sort_nondecreasing Int (· - ·) 3
    ⟨fun x y => by omega, fun x y z => by omega⟩ (by decide) fun i => 5 - i
  have h1 := hle 1 2
  have h2 := hle 2 3
  exact ⟨a', h, by omega, by omega⟩

-- ==== binary search

/-- What is outside `[lo, hi)` does not match. -/
theorem searchLoop_spec {array size : Nat} (hsize : 0 < size) (key : α) (a : Nat → α)
    (hsorted : ∀ i j, i ≤ j → j < cnt → compare (a (i + 1)) (a (j + 1)) ≤ 0) (fuel lo hi : Nat)
    (hlo : lo ≤ hi) (hhi : hi ≤ cnt) (hfuel : hi < lo + fuel)
    (hbelow : ∀ i < lo, compare key (a (i + 1)) ≠ 0)
    (habove : ∀ i < cnt, hi ≤ i → compare key (a (i + 1)) ≠ 0) :
    ∃ r, searchLoop compare key array cnt size a fuel (array + lo * size) (array + hi * size) =
      some r ∧ (∀ p, r = some p → ∃ i < cnt, p = array + i * size ∧ compare key (a (i + 1)) = 0) ∧
      (r = none → ∀ i < cnt, compare key (a (i + 1)) ≠ 0) := by
  induction fuel generalizing lo hi with
  | zero => omega
  | succ fuel ih =>
    rw [searchLoop]
    by_cases hlt : lo < hi
    · have hrange : array + lo * size +
          (array + hi * size - (array + lo * size)) / size / 2 * size =
            array + (lo + (hi - lo) / 2) * size := by
        rw [Nat.add_sub_add_left, ← Nat.sub_mul, Nat.mul_div_cancel _ hsize, Nat.add_mul,
          Nat.add_assoc]
      generalize hmid : lo + (hi - lo) / 2 = mid at hrange
      have hin : mid < cnt := by omega
      simp only [hrange, element_eq hsize a hin, bind_eq_bind, bind_some]
      rw [if_pos (Nat.add_lt_add_left (Nat.mul_lt_mul_of_pos_right hlt hsize) _)]
      split
      next hcmp =>
        -- the key is below the middle, and so below all behind it
        refine ih lo mid (by omega) (by omega) (by omega) hbelow fun i hi hmi heq => ?_
        have hback : compare (a (i + 1)) key ≤ 0 := by
          have := hle.flip key (a (i + 1))
          omega
        have h1 := hle.trans _ _ _ (hsorted mid i hmi hi) hback
        have h2 := (hle.flip _ _).mp hcmp
        omega
      next hcmp =>
        split
        next hcmp' =>
          rw [Nat.add_assoc, ← Nat.succ_mul]
          refine ih (mid + 1) hi (by omega) hhi (by omega) (fun i hi heq => ?_) habove
          have h1 := hle.trans _ _ _ (Int.le_of_eq heq) (hsorted i mid (by omega) hin)
          omega
        next hcmp' =>
          exact ⟨_, rfl, fun p hp => ⟨mid, hin, (some.inj hp).symm, by omega⟩, nofun⟩
    · rw [if_neg fun h => hlt (Nat.lt_of_mul_lt_mul_right (Nat.lt_of_add_lt_add_left h))]
      refine ⟨none, rfl, nofun, fun _ i hi => ?_⟩
      by_cases hil : i < lo
      · exact hbelow i hil
      · exact habove i hi (by omega)

/-- `binary_search` of a sorted array finds a match if there is one. -/
theorem binarySearch_complete {array size : Nat} (hsize : 0 < size) (key : α) (a : Nat → α)
    (hsorted : ∀ i j, 1 ≤ i → i ≤ j → j ≤ cnt → compare (a i) (a j) ≤ 0) :
    ∃ r, binarySearch compare key array cnt size a = some r ∧
      (∀ p, r = some p → ∃ i < cnt, p = array + i * size ∧ compare key (a (i + 1)) = 0) ∧
      (r = none → ∀ i < cnt, compare key (a (i + 1)) ≠ 0) := by
  have h := @searchLoop_spec _ _ _ hle array _ hsize key a
    (fun i j hij hj => hsorted _ _ (by omega) (by omega) hj) (cnt + 1) 0 cnt (by omega) (by omega)
    (by omega) (fun i hi => by omega) fun i hi hi' => by omega
  rwa [Nat.zero_mul, Nat.mul_comm cnt] at h

omit hle in
theorem binarySearch_complete_three :
    ∃ r, binarySearch (α := Int) (· - ·) 6 100 3 8 (fun i => 2 * i) = some r ∧ r ≠ none := by
  obtain ⟨r, h, -, hnone⟩ := @binarySearch_complete Int (· - ·) 3
    ⟨fun x y => by omega, fun x y z => by omega⟩ 100 8 (by decide) 6 (fun i => 2 * i)
    fun i j _ _ _ => by omega
  exact ⟨r, h, fun hr => hnone hr 2 (by decide) rfl⟩

end Pintos.Sort
