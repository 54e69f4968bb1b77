/-
`lib/kernel/hash.c`: a chained hash table that resizes itself.

# Reading the model

An element is known by its `struct hash_elem`, and the two functions the
table was initialized with come with what the table needs of them: `less`
is a strict weak order, and elements that it does not tell apart have the
same hash. A bucket is its list. Every operation that may resize the table
takes `alloc`, whether `malloc` finds room for a new bucket array should
the operation ask for one. `none` from an operation is a `rehash` that
does not leave its rounding loop.

# Shape of the argument

- The rounding loop keeps the highest bit of the count and clears one
  other bit per round, so it ends at the power of two below it
  (`roundLoop_eq`).
- The elements of a table are the concatenation of its buckets. Storing a
  list in one bucket exchanges that bucket's share of the concatenation
  (`flatMap_update_perm`); pushing, removing and moving an element all
  come down to it.
- `Refines` relates a table to a set of representatives of the elements
  that `less` cannot tell apart; each operation is shown against the
  operation of the set, and a run against the run of the set.
-/
import Pintos.Lib.Representatives
import Mathlib.Data.Nat.Bitwise

namespace Pintos

open Function List

/-- The functions of a hash table, and what it relies on. -/
structure HashFuncs (α : Type*) where
  hash : α → BitVec 32
  less : α → α → Bool
  order : IsStrictWeakOrder α fun a b => less a b = true
  consistent : ∀ a b, less a b = false → less b a = false → hash a = hash b

/-- `struct hash`, its functions apart. -/
structure Hash (α : Type*) where
  elemCnt : Nat
  bucketCnt : Nat
  buckets : Nat → List α

namespace Hash

variable {α : Type*} (F : HashFuncs α)
variable {cnt n i : Nat} {e : α}

-- ==== the source

/-- The index of `find_bucket`'s bucket in an array of `cnt` buckets. -/
def bucketIdx (cnt : Nat) (e : α) : Nat := (F.hash e).toNat &&& (cnt - 1)

/-- The test of `find_elem`. -/
def same (a b : α) : Bool := !F.less a b && !F.less b a

/-- `find_elem`. -/
def findElem (bucket : List α) (e : α) : Option α := bucket.find? fun hi => same F hi e

/-- `list_push_front` on bucket `i`. -/
def pushFront (buckets : Nat → List α) (i : Nat) (e : α) : Nat → List α :=
  update buckets i (e :: buckets i)

/-- `insert_elem`. -/
def insertElem (h : Hash α) (i : Nat) (e : α) : Hash α :=
  { h with elemCnt := h.elemCnt + 1, buckets := pushFront h.buckets i e }

/-- `remove_elem`, for an element of bucket `i`. -/
def removeElem [DecidableEq α] (h : Hash α) (i : Nat) (e : α) : Hash α :=
  { h with
    elemCnt := h.elemCnt - 1
    buckets := update h.buckets i ((h.buckets i).erase e) }

def turnOffLeast1bit (x : Nat) : Nat := x &&& (x - 1)

def isPowerOf2 (x : Nat) : Bool := x != 0 && turnOffLeast1bit x == 0

/-- The rounding loop of `rehash`, for so many rounds. -/
def roundLoop : Nat → Nat → Option Nat
  | 0, _ => none
  | n + 1, x =>
    if isPowerOf2 x then some x else roundLoop n (turnOffLeast1bit x)

/-- The number of buckets for `elemCnt` elements. The loop gets as many
rounds as the count it starts from. -/
def newBucketCnt (elemCnt : Nat) : Option Nat :=
  let n := if elemCnt / 2 < 4 then 4 else elemCnt / 2
  roundLoop n n

/-- The loop of `rehash` that moves every element to its new bucket. -/
def moveAll (cnt oldCnt : Nat) (old : Nat → List α) : Nat → List α :=
  (List.range oldCnt).foldl (fun buckets i =>
    (old i).foldl (fun buckets e => pushFront buckets (bucketIdx F cnt e) e) buckets) fun _ => []

/-- `rehash`. -/
def rehash (alloc : Bool) (h : Hash α) : Option (Hash α) :=
  match newBucketCnt h.elemCnt with
  | none => none
  | some cnt =>
    if cnt = h.bucketCnt then some h
    else if alloc then
      some ⟨h.elemCnt, cnt, moveAll F cnt h.bucketCnt h.buckets⟩
    else some h

/-- `hash_init` with room for the four buckets. -/
def hashInit : Hash α := ⟨0, 4, fun _ => []⟩

/-- `hash_clear`: the elements handed to the destructor, if there is one,
and the empty table. -/
def hashClear (destructor : Bool) (h : Hash α) : List α × Hash α :=
  (if destructor then (List.range h.bucketCnt).flatMap h.buckets else [],
    ⟨0, h.bucketCnt, fun i => if i < h.bucketCnt then [] else h.buckets i⟩)

/-- `hash_insert`. -/
def hashInsert (alloc : Bool) (new : α) (h : Hash α) : Option (Option α × Hash α) :=
  let i := bucketIdx F h.bucketCnt new
  let old := findElem F (h.buckets i) new
  let h := if old.isNone then h.insertElem i new else h
  (rehash F alloc h).map (old, ·)

/-- `hash_replace`. -/
def hashReplace [DecidableEq α] (alloc : Bool) (new : α)
    (h : Hash α) : Option (Option α × Hash α) :=
  let i := bucketIdx F h.bucketCnt new
  let old := findElem F (h.buckets i) new
  let h := match old with
    | some old => h.removeElem i old
    | none => h
  (rehash F alloc (h.insertElem i new)).map (old, ·)

/-- `hash_find`. -/
def hashFind (e : α) (h : Hash α) : Option α := findElem F (h.buckets (bucketIdx F h.bucketCnt e)) e

/-- `hash_delete`. -/
def hashDelete [DecidableEq α] (alloc : Bool) (e : α) (h : Hash α) : Option (Option α × Hash α) :=
  let i := bucketIdx F h.bucketCnt e
  match findElem F (h.buckets i) e with
  | some found => (rehash F alloc (h.removeElem i found)).map (some found, ·)
  | none => some (none, h)

-- ==== runs

/-- A call; `alloc` is `malloc`'s answer should it be asked. -/
inductive Call (α : Type*) where
  | insert (new : α) (alloc : Bool)
  | replace (new : α) (alloc : Bool)
  | delete (e : α) (alloc : Bool)
  | find (e : α)
  | clear (destructor : Bool)

/-- What a call returns, or hands to the destructor. -/
inductive Reply (α : Type*) where
  | elem (e : Option α)
  | destroyed (es : List α)

def call [DecidableEq α] : Call α → Hash α → Option (Reply α × Hash α)
  | .insert new alloc, h => (hashInsert F alloc new h).map (.map .elem id)
  | .replace new alloc, h => (hashReplace F alloc new h).map (.map .elem id)
  | .delete e alloc, h => (hashDelete F alloc e h).map (.map .elem id)
  | .find e, h => some (.elem (hashFind F e h), h)
  | .clear destructor, h => some (.destroyed (hashClear destructor h).1, (hashClear destructor h).2)

/-- A sequence of calls: their replies and the table after them. -/
def run [DecidableEq α] : List (Call α) → Hash α → Option (List (Reply α) × Hash α)
  | [], h => some ([], h)
  | c :: cs, h =>
    match call F c h with
    | none => none
    | some (reply, h) => (run cs h).map (.map (reply :: ·) id)

-- ==== the rounding

/-- Below its highest power of two a count loses its last bit and keeps
its first. -/
theorem turnOffLeast1bit_bounds {k x : Nat} (hlo : 2 ^ k < x) (hhi : x < 2 ^ (k + 1)) :
    2 ^ k ≤ turnOffLeast1bit x ∧ turnOffLeast1bit x < x := by
  have hbit : ∀ y, 2 ^ k ≤ y → y < 2 ^ (k + 1) → y.testBit k = true := by
    intro y hy hy'
    rw [Nat.testBit_eq_decide_div_mod_eq, decide_eq_true_eq]
    have hdiv : y / 2 ^ k = 1 := by
      apply Nat.div_eq_of_lt_le
      · omega
      · omega
    rw [hdiv]
  constructor
  · apply Nat.ge_two_pow_of_testBit
    rw [turnOffLeast1bit, Nat.testBit_and, hbit x (by omega) hhi,
      hbit (x - 1) (by omega) (by omega)]
    rfl
  · have : turnOffLeast1bit x ≤ x - 1 := Nat.and_le_right
    omega

theorem turnOffLeast1bit_two_pow (k : Nat) : turnOffLeast1bit (2 ^ k) = 0 := by
  rw [turnOffLeast1bit, Nat.and_two_pow_sub_one_eq_mod, Nat.mod_self]

theorem isPowerOf2_two_pow (k : Nat) : isPowerOf2 (2 ^ k) = true := by
  simp [isPowerOf2, turnOffLeast1bit_two_pow]

/-- The loop ends at the power of two below the count. -/
theorem roundLoop_eq {k : Nat} (n x : Nat) (hlo : 2 ^ k ≤ x)
    (hhi : x < 2 ^ (k + 1)) (hn : x ≤ n) : roundLoop n x = some (2 ^ k) := by
  induction n generalizing x with
  | zero => omega
  | succ n ih =>
    by_cases heq : x = 2 ^ k
    · rw [heq, roundLoop, if_pos (isPowerOf2_two_pow k)]
    · obtain ⟨hge, hlt⟩ := turnOffLeast1bit_bounds (lt_of_le_of_ne hlo (Ne.symm heq)) hhi
      have hnot : ¬ isPowerOf2 x = true := by
        simp only [isPowerOf2, Bool.and_eq_true, beq_iff_eq]
        omega
      rw [roundLoop, if_neg hnot]
      exact ih _ hge (by omega) (by omega)

/-- A number of buckets is a power of two, and at least four. -/
def IsBucketCnt (cnt : Nat) : Prop := (∃ k, cnt = 2 ^ k) ∧ 4 ≤ cnt

theorem newBucketCnt_spec (elemCnt : Nat) :
    ∃ cnt, newBucketCnt elemCnt = some cnt ∧ IsBucketCnt cnt := by
  unfold newBucketCnt
  generalize hn : (if elemCnt / 2 < 4 then 4 else elemCnt / 2) = n
  have h4 : 4 ≤ n := by
    subst hn
    split <;> omega
  have hne : n ≠ 0 := by omega
  have hlog : 2 ≤ n.log2 := (Nat.le_log2 hne).mpr h4
  refine ⟨2 ^ n.log2, roundLoop_eq n n (Nat.log2_self_le hne)
    Nat.lt_log2_self (le_refl n), ⟨_, rfl⟩, ?_⟩
  exact Nat.pow_le_pow_right Nat.two_pos hlog

theorem IsBucketCnt.pos (h : IsBucketCnt cnt) : 0 < cnt := by
  have := h.2
  omega

/-- The mask of a power of two selects a bucket of the array. -/
theorem bucketIdx_lt (h : IsBucketCnt cnt) (e : α) : bucketIdx F cnt e < cnt := by
  have hle : bucketIdx F cnt e ≤ cnt - 1 := Nat.and_le_right
  have := h.pos
  omega

-- ==== the elements

/-- All elements of a table, bucket by bucket. -/
def elements (h : Hash α) : List α := (List.range h.bucketCnt).flatMap h.buckets

/-- Storing a list in one bucket exchanges that bucket's elements. -/
theorem flatMap_update_perm (hi : i < n) (b : Nat → List α) (l : List α) :
    ((List.range n).flatMap (update b i l)).Perm (l ++ ((List.range n).erase i).flatMap b) := by
  have hrange : (List.range n).Perm (i :: (List.range n).erase i) :=
    perm_cons_erase (mem_range.mpr hi)
  have hrest : ((List.range n).erase i).flatMap (update b i l) =
      ((List.range n).erase i).flatMap b := by
    apply flatMap_congr
    intro j hj
    have hne : j ≠ i := by
      intro heq
      rw [heq] at hj
      exact List.Nodup.not_mem_erase nodup_range hj
    exact update_of_ne hne l b
  have h := hrange.flatMap_right (update b i l)
  rw [flatMap_cons, update_self, hrest] at h
  exact h

theorem flatMap_perm (hi : i < n) (b : Nat → List α) :
    ((List.range n).flatMap b).Perm (b i ++ ((List.range n).erase i).flatMap b) := by
  have h := flatMap_update_perm hi b (b i)
  rw [update_eq_self] at h
  exact h

theorem flatMap_pushFront (hi : i < n) (b : Nat → List α) (e : α) :
    ((List.range n).flatMap (pushFront b i e)).Perm (e :: (List.range n).flatMap b) :=
  (flatMap_update_perm hi b (e :: b i)).trans ((flatMap_perm hi b).symm.cons e)

/-- Every element is in the bucket of its hash. -/
def Placed (cnt : Nat) (b : Nat → List α) : Prop := ∀ i e, e ∈ b i → i = bucketIdx F cnt e

variable {F}

theorem Placed.pushFront {b : Nat → List α} (h : Placed F cnt b) (e : α) :
    Placed F cnt (pushFront b (bucketIdx F cnt e) e) := by
  intro i x hx
  unfold Hash.pushFront at hx
  by_cases hi : i = bucketIdx F cnt e
  · rw [hi, update_self] at hx
    obtain rfl | hx := mem_cons.mp hx
    · exact hi
    · rw [hi]
      exact h _ x hx
  · rw [update_of_ne hi] at hx
    exact h i x hx

/-- What the moving loop has done: the elements `done` are in their new
buckets, and nothing else is. -/
structure Moved (F : HashFuncs α) (cnt : Nat) (done : List α) (b : Nat → List α) : Prop where
  placed : Placed F cnt b
  perm : ((List.range cnt).flatMap b).Perm done

theorem Moved.push {done : List α} {b : Nat → List α} (hcnt : IsBucketCnt cnt)
    (h : Moved F cnt done b) (e : α) : Moved F cnt (done ++ [e])
      (Hash.pushFront b (bucketIdx F cnt e) e) where
  placed := h.placed.pushFront e
  perm := ((flatMap_pushFront (bucketIdx_lt F hcnt e) b e).trans
    (h.perm.cons e)).trans (perm_append_singleton e done).symm

/-- One old bucket. -/
theorem Moved.bucket (hcnt : IsBucketCnt cnt) (l : List α) {done : List α} {b : Nat → List α}
    (h : Moved F cnt done b) :
    Moved F cnt (done ++ l) (l.foldl (fun b e => Hash.pushFront b (bucketIdx F cnt e) e) b) := by
  induction l generalizing done b with
  | nil =>
    rw [append_nil]
    exact h
  | cons e l ih =>
    have hnext := ih (h.push hcnt e)
    rw [append_assoc] at hnext
    exact hnext

/-- All old buckets. -/
theorem moveAll_moved (hcnt : IsBucketCnt cnt) (oldCnt : Nat) (old : Nat → List α) :
    Moved F cnt ((List.range oldCnt).flatMap old) (moveAll F cnt oldCnt old) := by
  unfold moveAll
  induction oldCnt with
  | zero =>
    refine ⟨nofun, ?_⟩
    simp
  | succ n ih =>
    rw [range_succ, foldl_append, flatMap_append]
    simpa using ih.bucket hcnt (old n)

-- ==== the invariant

/-- Elements that `less` does not tell apart. -/
def sameSetoid (F : HashFuncs α) : Setoid α where
  r a b := same F a b = true
  iseqv := by
    have hord := F.order
    have hsame a b : same F a b = true ↔ ¬ F.less a b = true ∧ ¬ F.less b a = true := by
      simp [same]
    refine ⟨fun a => ?_, fun h => ?_, fun hab hbc => ?_⟩
    · have hirr := irrefl_of (fun a b => F.less a b = true) a
      rw [hsame]
      exact ⟨hirr, hirr⟩
    · rw [hsame] at h ⊢
      exact h.symm
    · rw [hsame] at hab hbc ⊢
      exact hord.incomp_trans _ _ _ hab hbc

theorem hash_eq_of_same {a b : α} (h : same F a b = true) : F.hash a = F.hash b := by
  simp only [same, Bool.and_eq_true, Bool.not_eq_true'] at h
  exact F.consistent a b h.1 h.2

/-- No two of the elements are the same to `less`. -/
def Distinct (F : HashFuncs α) (l : List α) : Prop := l.Pairwise fun a b => ¬ same F a b = true

theorem Distinct.perm {l l' : List α} (h : Distinct F l) (hp : l.Perm l') : Distinct F l' := by
  refine (hp.pairwise_iff fun hab hba => hab ?_).mp h
  exact (sameSetoid F).symm hba

theorem Distinct.nodup {l : List α} (h : Distinct F l) : l.Nodup :=
  h.imp fun {a b} hab (heq : a = b) => hab (heq ▸ (sameSetoid F).refl a)

/-- What every operation keeps. -/
structure Inv (F : HashFuncs α) (h : Hash α) : Prop where
  bucketCnt : IsBucketCnt h.bucketCnt
  placed : Placed F h.bucketCnt h.buckets
  distinct : Distinct F h.elements
  elemCnt : h.elemCnt = h.elements.length

/-- A table stands for a set of representatives. -/
structure Refines (F : HashFuncs α) (h : Hash α) (s : Reps (sameSetoid F)) : Prop where
  inv : Inv F h
  mem : ∀ e, e ∈ h.elements ↔ e ∈ s.elems

variable {h : Hash α} {s : Reps (sameSetoid F)}

/-- An element of the table is in its bucket. -/
theorem Inv.mem_elements (hinv : Inv F h) :
    e ∈ h.elements ↔ e ∈ h.buckets (bucketIdx F h.bucketCnt e) := by
  constructor
  · intro he
    obtain ⟨i, _, he⟩ := mem_flatMap.mp he
    rw [← hinv.placed i e he]
    exact he
  · intro he
    exact mem_flatMap.mpr ⟨_, mem_range.mpr (bucketIdx_lt F hinv.bucketCnt e), he⟩

section

variable (hr : Refines F h s)

include hr

/-- The element `find_elem` looks for is in the bucket it looks in. -/
theorem Refines.findElem (e : α) :
    findElem F (h.buckets (bucketIdx F h.bucketCnt e)) e = s.lookup e := by
  cases hs : s.lookup e with
  | none =>
    have hnone := s.lookup_eq_none.mp hs
    refine find?_eq_none.mpr fun x hx hsame => ?_
    refine hnone x ((hr.mem x).mp ?_) hsame
    exact mem_flatMap.mpr ⟨_, mem_range.mpr (bucketIdx_lt F hr.inv.bucketCnt e), hx⟩
  | some x =>
    obtain ⟨hx, hsame⟩ := s.lookup_eq_some.mp hs
    have hidx : bucketIdx F h.bucketCnt x = bucketIdx F h.bucketCnt e := by
      rw [bucketIdx, hash_eq_of_same hsame]
      rfl
    have hin : x ∈ h.buckets (bucketIdx F h.bucketCnt e) := by
      rw [← hidx]
      exact hr.inv.mem_elements.mp ((hr.mem x).mpr hx)
    -- the search stops at some element, and there is only one it can be
    have hsome : (Hash.findElem F (h.buckets (bucketIdx F h.bucketCnt e)) e).isSome = true :=
      find?_isSome.mpr ⟨x, hin, hsame⟩
    obtain ⟨y, hy⟩ := Option.isSome_iff_exists.mp hsome
    have hyin : y ∈ h.elements := mem_flatMap.mpr
      ⟨_, mem_range.mpr (bucketIdx_lt F hr.inv.bucketCnt e), mem_of_find?_eq_some hy⟩
    have hysame : same F y e = true := find?_some (p := fun hi => same F hi e) hy
    have hlookup := s.lookup_eq_some.mpr ⟨(hr.mem y).mp hyin, hysame⟩
    rw [hs] at hlookup
    rw [hy, hlookup]

/-- A table with the same elements, all in place. -/
theorem Refines.of_perm {h' : Hash α} (hcnt : IsBucketCnt h'.bucketCnt)
    (hplaced : Placed F h'.bucketCnt h'.buckets) (hperm : h'.elements.Perm h.elements)
    (helem : h'.elemCnt = h.elemCnt) : Refines F h' s where
  inv := ⟨hcnt, hplaced, hr.inv.distinct.perm hperm.symm, by
    rw [helem, hr.inv.elemCnt, hperm.length_eq]⟩
  mem e := hperm.mem_iff.trans (hr.mem e)

/-- `rehash` ends, and leaves the set alone. -/
theorem Refines.rehash (alloc : Bool) : ∃ h', rehash F alloc h = some h' ∧ Refines F h' s := by
  obtain ⟨cnt, hnew, hcnt⟩ := newBucketCnt_spec h.elemCnt
  unfold Hash.rehash
  rw [hnew]
  dsimp only
  split
  · exact ⟨h, rfl, hr⟩
  · split
    · have hmoved := moveAll_moved (F := F) hcnt h.bucketCnt h.buckets
      exact ⟨_, rfl, hr.of_perm hcnt hmoved.placed hmoved.perm rfl⟩
    · exact ⟨h, rfl, hr⟩

/-- `insert_elem` of an element that is not there. -/
theorem Refines.insertElem (hnone : s.lookup e = none) :
    Refines F (h.insertElem (bucketIdx F h.bucketCnt e) e) (s.insert e) := by
  have hperm : (h.insertElem (bucketIdx F h.bucketCnt e) e).elements.Perm (e :: h.elements) :=
    flatMap_pushFront (bucketIdx_lt F hr.inv.bucketCnt e) h.buckets e
  have hnew : ∀ x ∈ h.elements, ¬ same F e x = true := by
    intro x hx hsame
    exact s.lookup_eq_none.mp hnone x ((hr.mem x).mp hx) ((sameSetoid F).symm hsame)
  refine ⟨⟨hr.inv.bucketCnt, hr.inv.placed.pushFront e, ?_, ?_⟩, ?_⟩
  · exact Distinct.perm (pairwise_cons.mpr ⟨hnew, hr.inv.distinct⟩) hperm.symm
  · rw [hperm.length_eq, length_cons, ← hr.inv.elemCnt]
    rfl
  · intro x
    rw [hperm.mem_iff, s.mem_insert hnone, mem_cons, hr.mem]

/-- `remove_elem` of the stored element of a class. -/
theorem Refines.removeElem [DecidableEq α] {x : α} (hsome : s.lookup e = some x) :
    Refines F (h.removeElem (bucketIdx F h.bucketCnt e) x) (s.erase e) := by
  obtain ⟨hx, hsame⟩ := s.lookup_eq_some.mp hsome
  have hidx : bucketIdx F h.bucketCnt x = bucketIdx F h.bucketCnt e := by
    rw [bucketIdx, hash_eq_of_same hsame]
    rfl
  have hlt := bucketIdx_lt F hr.inv.bucketCnt e
  have hin : x ∈ h.buckets (bucketIdx F h.bucketCnt e) := by
    rw [← hidx]
    exact hr.inv.mem_elements.mp ((hr.mem x).mpr hx)
  have hperm : h.elements.Perm (x :: (h.removeElem (bucketIdx F h.bucketCnt e) x).elements) := by
    refine (flatMap_perm hlt h.buckets).trans ?_
    refine ((perm_cons_erase hin).append_right _).trans ?_
    exact (flatMap_update_perm hlt h.buckets _).symm.cons x
  have hdist := pairwise_cons.mp (hr.inv.distinct.perm hperm)
  refine ⟨⟨hr.inv.bucketCnt, ?_, hdist.2, ?_⟩, ?_⟩
  · intro i y hy
    simp only [Hash.removeElem] at hy
    by_cases hi : i = bucketIdx F h.bucketCnt e
    · rw [hi, update_self] at hy
      rw [hi]
      exact hr.inv.placed _ y (mem_of_mem_erase hy)
    · rw [update_of_ne hi] at hy
      exact hr.inv.placed i y hy
  · have hlen := hperm.length_eq
    rw [length_cons, ← hr.inv.elemCnt] at hlen
    simp only [Hash.removeElem] at hlen ⊢
    omega
  · -- what else is the same as `e` is the same as `x`, so it is `x`
    intro y
    rw [s.mem_erase, ← hr.mem, hperm.mem_iff, mem_cons]
    constructor
    · intro hy
      refine ⟨.inr hy, fun hye => ?_⟩
      exact hdist.1 y hy ((sameSetoid F).trans hsame ((sameSetoid F).symm hye))
    · intro hy
      obtain ⟨rfl | hy, hye⟩ := hy
      · exact absurd hsame hye
      · exact hy

end

-- ==== the operations

theorem refines_hashInit : Refines F hashInit .empty := by
  have hnil : (hashInit : Hash α).elements = [] := rfl
  refine ⟨⟨⟨⟨2, rfl⟩, le_refl 4⟩, ?_, ?_, rfl⟩, ?_⟩
  · intro _ _ he
    exact absurd he not_mem_nil
  · exact List.Pairwise.nil
  · intro e
    simp [hnil]

theorem Refines.hashClear (hr : Refines F h s) (destructor : Bool) :
    Refines F (Hash.hashClear destructor h).2 .empty := by
  have hnil : (Hash.hashClear destructor h).2.elements = [] := by
    refine flatMap_eq_nil_iff.mpr fun i hi => ?_
    exact if_pos (mem_range.mp hi)
  refine ⟨⟨hr.inv.bucketCnt, ?_, ?_, ?_⟩, ?_⟩
  · intro i e he
    simp only [Hash.hashClear] at he
    split at he
    · exact absurd he not_mem_nil
    · exact hr.inv.placed i e he
  · rw [hnil]
    exact List.Pairwise.nil
  · rw [hnil]
    rfl
  · intro e
    simp [hnil]

theorem Refines.hashInsert (hr : Refines F h s) (alloc : Bool) (new : α) :
    ∃ h', hashInsert F alloc new h = some (s.lookup new, h') ∧ Refines F h' (s.insert new) := by
  unfold Hash.hashInsert
  dsimp only
  rw [hr.findElem new]
  cases hs : s.lookup new with
  | none =>
    obtain ⟨h', heq, hr'⟩ := (hr.insertElem hs).rehash alloc
    refine ⟨h', ?_, hr'⟩
    rw [if_pos (Option.isNone_none), heq]
    rfl
  | some x =>
    obtain ⟨h', heq, hr'⟩ := hr.rehash alloc
    rw [s.insert_of_lookup hs]
    refine ⟨h', ?_, hr'⟩
    rw [if_neg (by simp), heq]
    rfl

/-- Replacing is erasing and inserting. -/
theorem insert_erase (s : Reps (sameSetoid F)) (e : α) :
    (s.erase e).lookup e = none ∧ (s.erase e).insert e = s.replace e := by
  have hnone : (s.erase e).lookup e = none := by
    refine (s.erase e).lookup_eq_none.mpr fun x hx => ?_
    exact (s.mem_erase.mp hx).2
  refine ⟨hnone, Reps.ext ?_⟩
  ext x
  rw [(s.erase e).mem_insert hnone, s.mem_erase, s.mem_replace]

theorem Refines.hashReplace [DecidableEq α] (hr : Refines F h s) (alloc : Bool) (new : α) :
    ∃ h', hashReplace F alloc new h = some (s.lookup new, h') ∧ Refines F h' (s.replace new) := by
  obtain ⟨hnone, hreplace⟩ := insert_erase s new
  unfold Hash.hashReplace
  dsimp only
  rw [hr.findElem new]
  have herase : Refines F (match s.lookup new with
      | some old => h.removeElem (bucketIdx F h.bucketCnt new) old
      | none => h) (s.erase new) := by
    cases hs : s.lookup new with
    | none =>
      rw [s.erase_of_lookup hs]
      exact hr
    | some x => exact hr.removeElem hs
  have hcnt : (match s.lookup new with
      | some old => h.removeElem (bucketIdx F h.bucketCnt new) old
      | none => h).bucketCnt = h.bucketCnt := by
    cases s.lookup new <;> rfl
  have hins := herase.insertElem hnone
  rw [hreplace, hcnt] at hins
  obtain ⟨h', heq, hr'⟩ := hins.rehash alloc
  refine ⟨h', ?_, hr'⟩
  rw [heq]
  rfl

theorem Refines.hashDelete [DecidableEq α] (hr : Refines F h s) (alloc : Bool) (e : α) :
    ∃ h', hashDelete F alloc e h = some (s.lookup e, h') ∧ Refines F h' (s.erase e) := by
  unfold Hash.hashDelete
  dsimp only
  rw [hr.findElem e]
  cases hs : s.lookup e with
  | none =>
    rw [s.erase_of_lookup hs]
    exact ⟨h, rfl, hr⟩
  | some x =>
    obtain ⟨h', heq, hr'⟩ := (hr.removeElem hs).rehash alloc
    refine ⟨h', ?_, hr'⟩
    dsimp only
    rw [heq]
    rfl

-- ==== the runs

/-- What a call returns on a set: an element, or the elements it is told
to destroy. -/
inductive SetReply (α : Type*) where
  | elem (e : Option α)
  | destroyed (es : Set α)

/-- The calls on a set of representatives. -/
noncomputable def setCall (s : Reps (sameSetoid F)) :
    Call α → SetReply α × Reps (sameSetoid F)
  | .insert new _ => (.elem (s.lookup new), s.insert new)
  | .replace new _ => (.elem (s.lookup new), s.replace new)
  | .delete e _ => (.elem (s.lookup e), s.erase e)
  | .find e => (.elem (s.lookup e), s)
  | .clear true => (.destroyed (SetLike.coe s.elems), .empty)
  | .clear false => (.destroyed ∅, .empty)

noncomputable def setRun (s : Reps (sameSetoid F)) :
    List (Call α) → List (SetReply α) × Reps (sameSetoid F)
  | [] => ([], s)
  | c :: cs => ((setCall s c).1 :: (setRun (setCall s c).2 cs).1, (setRun (setCall s c).2 cs).2)

/-- The same element, or the same elements, each of them once. -/
def Agree : Reply α → SetReply α → Prop
  | .elem e, .elem e' => e = e'
  | .destroyed es, .destroyed es' => es.Nodup ∧ ∀ e, e ∈ es ↔ e ∈ es'
  | _, _ => False

/-- One call. -/
theorem Refines.call [DecidableEq α] (hr : Refines F h s) (c : Call α) :
    ∃ reply h', call F c h = some (reply, h') ∧
      Agree reply (setCall s c).1 ∧ Refines F h' (setCall s c).2 := by
  cases c with
  | insert new alloc =>
    obtain ⟨h', heq, hr'⟩ := hr.hashInsert alloc new
    refine ⟨.elem (s.lookup new), h', ?_, rfl, hr'⟩
    rw [Hash.call, heq]
    rfl
  | replace new alloc =>
    obtain ⟨h', heq, hr'⟩ := hr.hashReplace alloc new
    refine ⟨.elem (s.lookup new), h', ?_, rfl, hr'⟩
    rw [Hash.call, heq]
    rfl
  | delete e alloc =>
    obtain ⟨h', heq, hr'⟩ := hr.hashDelete alloc e
    refine ⟨.elem (s.lookup e), h', ?_, rfl, hr'⟩
    rw [Hash.call, heq]
    rfl
  | find e => exact ⟨_, h, rfl, hr.findElem e, hr⟩
  | clear destructor =>
    refine ⟨_, _, rfl, ?_, ?_⟩
    · cases destructor with
      | true => exact ⟨hr.inv.distinct.nodup, hr.mem⟩
      | false => exact ⟨nodup_nil, by simp [Hash.hashClear]⟩
    · cases destructor <;> exact hr.hashClear _

/-- A sequence of calls. -/
theorem Refines.run [DecidableEq α] (calls : List (Call α)) {h : Hash α} {s : Reps (sameSetoid F)}
    (hr : Refines F h s) :
    ∃ replies h', run F calls h = some (replies, h') ∧
      List.Forall₂ Agree replies (setRun s calls).1 ∧
      Refines F h' (setRun s calls).2 := by
  induction calls generalizing h s with
  | nil => exact ⟨[], h, rfl, .nil, hr⟩
  | cons c calls ih =>
    obtain ⟨reply, h1, heq, hagree, hr1⟩ := hr.call c
    obtain ⟨replies, h', hrun, hall, hr'⟩ := ih hr1
    refine ⟨reply :: replies, h', ?_, .cons hagree hall, hr'⟩
    rw [Hash.run, heq]
    dsimp only
    rw [hrun]
    rfl

/-- A table is a finite set: after any calls on a new one, whatever the
allocations did, every call has returned what it returns on the set, and
the table holds the set's elements, in their buckets. -/
theorem table_is_a_set [DecidableEq α] (F : HashFuncs α) (calls : List (Call α)) :
    ∃ replies h, run F calls hashInit = some (replies, h) ∧
      List.Forall₂ Agree replies (setRun (F := F) .empty calls).1 ∧
      (∃ k, h.bucketCnt = 2 ^ k) ∧ 4 ≤ h.bucketCnt ∧
      (∀ i e, e ∈ h.buckets i → i = (F.hash e).toNat &&& (h.bucketCnt - 1) ∧ i < h.bucketCnt) ∧
      Distinct F h.elements ∧
      (∀ e, e ∈ h.elements ↔ e ∈ (setRun (F := F) .empty calls).2.elems) ∧
      h.elemCnt = (setRun (F := F) .empty calls).2.elems.card := by
  obtain ⟨replies, h, hrun, hall, hr⟩ := (refines_hashInit (F := F)).run calls
  refine ⟨replies, h, hrun, hall, hr.inv.bucketCnt.1, hr.inv.bucketCnt.2,
    ?_, hr.inv.distinct, hr.mem, ?_⟩
  · intro i e he
    have hi := hr.inv.placed i e he
    exact ⟨hi, hi ▸ bucketIdx_lt F hr.inv.bucketCnt e⟩
  · rw [hr.inv.elemCnt, Reps.card_eq _ hr.inv.distinct.nodup hr.mem]

-- ==== iteration

/-- `struct hash_iterator`: its bucket, and what comes after `elem` in the
list of that bucket; nothing if `elem` is null. -/
structure HashIterator (α : Type*) where
  bucket : Nat
  after : Option (List α)

/-- The list of bucket `i`; there is none outside the array. -/
def bucketAt (h : Hash α) (i : Nat) : Option (List α) :=
  if i < h.bucketCnt then some (h.buckets i) else none

/-- `hash_first`. -/
def hashFirst (h : Hash α) : Option (HashIterator α) :=
  (h.bucketAt 0).map fun list => ⟨0, some list⟩

/-- `hash_next` from its first `list_next` on: what it returns, and the
iterator after it. -/
def nextLoop (h : Hash α) (b : Nat) : List α → Option (Option α × HashIterator α)
  | e :: rest => some (some e, ⟨b, some rest⟩)
  | [] =>
    if h.bucketCnt ≤ b + 1 then some (none, ⟨b + 1, none⟩)
    else (h.bucketAt (b + 1)).bind (nextLoop h (b + 1))
  termination_by h.bucketCnt - b

/-- `hash_next`. -/
def hashNext (h : Hash α) (it : HashIterator α) : Option (Option α × HashIterator α) :=
  it.after.bind (h.nextLoop it.bucket)

/-- What `n` calls of `hash_next` in a row return. -/
def nexts (h : Hash α) : Nat → HashIterator α → Option (List (Option α))
  | 0, _ => some []
  | n + 1, it => (h.hashNext it).bind fun (e, it) => (h.nexts n it).map (e :: ·)

/-- The elements of the buckets behind bucket `b`. -/
def behind (h : Hash α) (b : Nat) : List α :=
  (List.range' (b + 1) (h.bucketCnt - (b + 1))).flatMap h.buckets

/-- One call takes the first of the elements ahead. -/
theorem nextLoop_spec {b : Nat} (l : List α) (hb : b < h.bucketCnt) :
    (l ++ h.behind b = [] ∧ ∃ it, h.nextLoop b l = some (none, it)) ∨
      ∃ e c rest, c < h.bucketCnt ∧ h.nextLoop b l = some (some e, ⟨c, some rest⟩) ∧
        l ++ h.behind b = e :: (rest ++ h.behind c) := by
  fun_induction nextLoop h b l with
  | case1 b e rest => exact .inr ⟨e, b, rest, hb, rfl, rfl⟩
  | case2 b hlast =>
    have hnone : h.bucketCnt - (b + 1) = 0 := by omega
    exact .inl ⟨by simp [behind, hnone], _, rfl⟩
  | case3 b hmore ih =>
    have hb : b + 1 < h.bucketCnt := by omega
    have hbehind : h.behind b = h.buckets (b + 1) ++ h.behind (b + 1) := by
      have hsucc : h.bucketCnt - (b + 1) = h.bucketCnt - (b + 1 + 1) + 1 := by omega
      rw [behind, hsucc, range'_succ, flatMap_cons]
      rfl
    rw [bucketAt, if_pos hb, nil_append, hbehind]
    exact ih _ hb

/-- The calls return what is ahead in its order, and then null. -/
theorem nexts_ahead {b : Nat} {l es : List α} (hb : b < h.bucketCnt) (hes : l ++ h.behind b = es) :
    h.nexts (es.length + 1) ⟨b, some l⟩ = some (es.map some ++ [none]) := by
  induction es generalizing b l with
  | nil =>
    obtain ⟨_, it, hnext⟩ | ⟨e, c, rest, _, _, hcons⟩ := nextLoop_spec l hb
    · simp [nexts, hashNext, hnext]
    · simp [hes] at hcons
  | cons e es ih =>
    obtain ⟨hnil, _⟩ | ⟨e', c, rest, hc, hnext, hcons⟩ := nextLoop_spec l hb
    · simp [hes] at hnil
    · obtain ⟨rfl, htail⟩ := cons.inj (hes.symm.trans hcons)
      have hrest := ih hc htail.symm
      rw [length_cons, nexts]
      simp [hashNext, hnext, hrest]

/-- An iteration returns as many elements as `hash_size` says, every
element of every bucket once, and then null. -/
theorem iteration_visits_once (hpos : 0 < h.bucketCnt) (hcnt : h.elemCnt = h.elements.length)
    (hnodup : h.elements.Nodup) : ∃ it, ∃ es : List α, h.hashFirst = some it ∧
      h.nexts (h.elemCnt + 1) it = some (es.map some ++ [none]) ∧ es.length = h.elemCnt ∧
      es.Nodup ∧ ∀ e, e ∈ es ↔ ∃ i < h.bucketCnt, e ∈ h.buckets i := by
  have hall : h.buckets 0 ++ h.behind 0 = h.elements := by
    obtain ⟨n, hn⟩ := Nat.exists_eq_succ_of_ne_zero hpos.ne'
    rw [elements, behind, range_eq_range', hn, range'_succ, flatMap_cons]
    rfl
  refine ⟨⟨0, some (h.buckets 0)⟩, h.elements, ?_, hcnt ▸ nexts_ahead hpos hall, hcnt.symm, hnodup,
    fun e => ?_⟩
  · rw [hashFirst, bucketAt, if_pos hpos]
    rfl
  · simp [elements]

/-- Five buckets, every other one empty. -/
theorem iteration_visits_three : ∃ it, ∃ es : List Nat,
    hashFirst ⟨3, 5, fun i => if i = 1 then [7, 2] else if i = 3 then [4] else []⟩ = some it ∧
      es.length = 3 ∧ 7 ∈ es := by
  obtain ⟨it, es, hfirst, _, hlen, _, hmem⟩ := iteration_visits_once
    (h := ⟨3, 5, fun i => if i = 1 then [7, 2] else if i = 3 then [4] else []⟩)
    (by decide) rfl (by decide)
  exact ⟨it, es, hfirst, hlen, (hmem 7).mpr ⟨1, by decide⟩⟩

/-- Numbers by value, hashed to their low bits. -/
def byValue : HashFuncs Nat where
  hash n := BitVec.ofNat 32 n
  less a b := decide (a < b)
  order :=
    { irrefl := by simp
      trans := by simpa using fun _ _ _ => lt_trans
      incomp_trans := by
        intro a b c hab hbc
        simp only [decide_eq_true_eq] at hab hbc ⊢
        omega }
  consistent a b hab hba := by
    simp only [decide_eq_false_iff_not] at hab hba
    rw [show a = b by omega]

-- sixteen elements in four buckets are a reason to ask for eight
example : ((run byValue
    ((List.range 16).map (.insert · true)) hashInit).map (·.2.bucketCnt),
    (run byValue
    ((List.range 16).map (.insert · false)) hashInit).map (·.2.bucketCnt))
    = (some 8, some 4) := by
  decide +kernel

end Hash

end Pintos
