/-
`threads/malloc.c`: blocks of a few sizes in one-page arenas, and bigger
blocks in pages of their own.

# Reading the model

`arena a` is the `struct arena` at the start of the page at `a`, whatever
that page holds, and `memory` the bytes behind it; `held` lists the page
ranges that the page allocator has handed out to `malloc` and not got
back. A descriptor is known by its index in `descs`.

A free list is the list of its blocks' addresses. The links are inside the
blocks: a list operation may write the first eight bytes of every block on
the list, and what it leaves there is not modelled but taken from the
`Choice` of the call, like the page allocator's answer. So are the bytes
and headers of pages that `malloc` does not hold (`other`).

`none` is a failed assertion, or a step that C leaves undefined: popping an
empty list, unlinking a block that is not on the list, freeing pages that
are not held.
-/
import Pintos.Threads.Palloc
import Mathlib.Algebra.Group.Nat.Defs

namespace Pintos.Malloc

open Transition
open Palloc (pgsize pgOfs)

-- ==== descriptors

/-- `struct desc`, its free list apart. -/
structure Desc where
  blockSize : Nat
  blocksPerArena : Nat
  deriving DecidableEq

/-- `sizeof (struct arena)`. -/
def arenaSize : Nat := 12

def arenaMagic : BitVec 32 := 0x9a548eed#32

/-- The loop of `malloc_init`, with room for so many descriptors. -/
def initLoop : Nat → Nat → List Desc
  | 0, _ => []
  | n + 1, blockSize =>
    if blockSize < pgsize / 2 then
      ⟨blockSize, (pgsize - arenaSize) / blockSize⟩ :: initLoop n (blockSize * 2)
    else []

/-- `descs` after `malloc_init`. -/
def descs : List Desc := initLoop 10 16

-- ==== heap

/-- `struct arena`; a null `desc` is a big block. -/
structure Arena where
  magic : BitVec 32
  desc : Option Nat
  freeCnt : Nat

structure Heap where
  arena : Nat → Arena
  freeList : Nat → List Nat
  memory : Nat → UInt8
  held : List (Nat × Nat)

/-- What a call leaves to others: the page allocator's answer should it be
asked, and the bytes of list links. -/
structure Choice where
  page : Option Nat
  links : Nat → UInt8

/-- `x` is one of the `n` bytes from `start` on. -/
def covers (start n x : Nat) : Bool := decide (start ≤ x ∧ x < start + n)

namespace Heap

def memset (h : Heap) (dst : Nat) (v : UInt8) (n : Nat) : Heap :=
  { h with memory := fun x => if covers dst n x then v else h.memory x }

def memcpy (h : Heap) (dst src n : Nat) : Heap :=
  { h with memory := fun x =>
      if covers dst n x then h.memory (src + (x - dst)) else h.memory x }

/-- List operations over the blocks `bs`. -/
def relink (h : Heap) (links : Nat → UInt8) (bs : List Nat) : Heap :=
  { h with memory := fun x =>
      if bs.any fun b => covers b 8 x then links x else h.memory x }

def setArena (h : Heap) (a : Nat) (v : Arena) : Heap :=
  { h with arena := Function.update h.arena a v }

def setFreeList (h : Heap) (d : Nat) (l : List Nat) : Heap :=
  { h with freeList := Function.update h.freeList d l }

/-- `palloc_get_multiple` that answered `a`. -/
def hold (h : Heap) (a n : Nat) : Heap := { h with held := (a, n) :: h.held }

/-- `palloc_free_multiple`: the pages are filled with 0xcc. -/
def release (h : Heap) (a n : Nat) : Option Heap :=
  if (a, n) ∈ h.held then
    some (({ h with held := h.held.erase (a, n) }.memset a 0xcc
      (n * pgsize)).setArena a ⟨0xcccccccc#32, some 0xcccccccc, 0xcccccccc⟩)
  else none

/-- `x` is in a page that `malloc` holds. -/
def inHeld (h : Heap) (x : Nat) : Bool := h.held.any fun r => covers r.1 (r.2 * pgsize) x

end Heap

-- ==== the functions

/-- `block_to_arena`. -/
def blockToArena (h : Heap) (b : Nat) : Option Nat :=
  let a := b - pgOfs b
  if a ≠ 0 ∧ (h.arena a).magic = arenaMagic then
    match (h.arena a).desc with
    | none => if pgOfs b = arenaSize then some a else none
    | some d =>
      match descs[d]? with
      | none => none
      | some D =>
        -- in unsigned arithmetic
        if (pgOfs b + 2 ^ 32 - arenaSize) % 2 ^ 32 % D.blockSize = 0
        then some a else none
  else none

/-- The address of block `i` of an arena. -/
def blockAt (D : Desc) (a i : Nat) : Nat := a + arenaSize + i * D.blockSize

/-- `arena_to_block`. -/
def arenaToBlock (h : Heap) (a idx : Nat) : Option Nat :=
  if a ≠ 0 ∧ (h.arena a).magic = arenaMagic then
    match (h.arena a).desc.bind (descs[·]?) with
    | none => none
    | some D =>
      if idx < D.blocksPerArena then some (blockAt D a idx) else none
  else none

/-- The loop of `malloc` that appends an arena's blocks to a list. -/
def addBlocks (h : Heap) (a n : Nat) (l : List Nat) : Option (List Nat) :=
  (List.range n).foldlM (fun l i => (arenaToBlock h a i).map fun b => l ++ [b]) l

/-- The loop of `free` that unlinks an arena's blocks. -/
def removeBlocks (h : Heap) (a n : Nat) (l : List Nat) : Option (List Nat) :=
  (List.range n).foldlM (fun l i =>
    (arenaToBlock h a i).bind fun b =>
      if b ∈ l then some (l.erase b) else none) l

/-- The pages of a big block, in `size_t` arithmetic. -/
def pagesFor (size : Nat) : Nat := (size + arenaSize + pgsize - 1) % 2 ^ 32 / pgsize

/-- The index of the smallest descriptor that serves `size` bytes. -/
def findDesc (size : Nat) : Option Nat := descs.findIdx? fun D => decide (size ≤ D.blockSize)

/-- A new arena of descriptor `d` at `a`, its blocks on the free list. -/
def newArena (c : Choice) (d : Nat) (D : Desc) (a : Nat) (h : Heap) : Option Heap :=
  let h := (h.hold a 1).setArena a ⟨arenaMagic, some d, D.blocksPerArena⟩
  (addBlocks h a D.blocksPerArena (h.freeList d)).map fun l => (h.setFreeList d l).relink c.links l

/-- The end of `malloc`: a block off the free list. -/
def takeBlock (c : Choice) (d : Nat) (h : Heap) : Option (Option Nat × Heap) :=
  match h.freeList d with
  | [] => none
  | b :: rest =>
    (blockToArena h b).map fun a =>
      (some b, ((h.setFreeList d rest).setArena a
        { h.arena a with freeCnt := (h.arena a).freeCnt - 1 }).relink c.links (b :: rest))

/-- `malloc`. -/
def malloc (c : Choice) (size : Nat) (h : Heap) : Option (Option Nat × Heap) :=
  if size = 0 then some (none, h)
  else
    match findDesc size with
    | none =>
      match c.page with
      | none => some (none, h)
      | some a =>
        some (some (a + arenaSize), (h.hold a (pagesFor size)).setArena a
          ⟨arenaMagic, none, pagesFor size⟩)
    | some d =>
      if h.freeList d = [] then
        match c.page, descs[d]? with
        | none, _ => some (none, h)
        | some _, none => none
        | some a, some D => (newArena c d D a h).bind (takeBlock c d)
      else takeBlock c d h

/-- `calloc`. -/
def calloc (c : Choice) (a b : Nat) (h : Heap) : Option (Option Nat × Heap) :=
  let size := a * b % 2 ^ 32
  if size < a ∨ size < b then some (none, h)
  else
    (malloc c size h).map fun
      | (none, h) => (none, h)
      | (some p, h) => (some p, h.memset p 0 size)

/-- `block_size`. -/
def blockSize (h : Heap) (block : Nat) : Option Nat :=
  (blockToArena h block).bind fun a =>
    match (h.arena a).desc with
    | some d => (descs[d]?).map Desc.blockSize
    | none => some (pgsize * (h.arena a).freeCnt - pgOfs block)

/-- The end of `free`, for a block of descriptor `d`. -/
def freeBlock (c : Choice) (b a d : Nat) (D : Desc) (h : Heap) : Option Heap :=
  let l := b :: h.freeList d
  let cnt := (h.arena a).freeCnt + 1
  let h := (((h.memset b 0xcc D.blockSize).setFreeList d l).setArena a
    { h.arena a with freeCnt := cnt }).relink c.links l
  if D.blocksPerArena ≤ cnt then
    if cnt = D.blocksPerArena then
      (removeBlocks h a D.blocksPerArena l).bind fun l' =>
        ((h.setFreeList d l').relink c.links l).release a 1
    else none
  else some h

/-- `free`. -/
def free (c : Choice) (p : Nat) (h : Heap) : Option Heap :=
  if p = 0 then some h
  else
    (blockToArena h p).bind fun a =>
      match (h.arena a).desc with
      | some d => (descs[d]?).bind fun D => freeBlock c p a d D h
      | none => h.release a (h.arena a).freeCnt

/-- `realloc`; `c` is the choice of its `malloc`, `c'` of its `free`. -/
def realloc (c c' : Choice) (old newSize : Nat) (h : Heap) : Option (Option Nat × Heap) :=
  if newSize = 0 then (free c' old h).map fun h => (none, h)
  else
    (malloc c newSize h).bind fun
      | (none, h) => some (none, h)
      | (some new, h) =>
        if old = 0 then some (some new, h)
        else
          (blockSize h old).bind fun oldSize =>
            (free c' old (h.memcpy new old (min newSize oldSize))).map fun h => (some new, h)

-- ==== runs

/-- A block that was handed out: its address, the bytes asked for, and the
bytes that `block_size` gives it. -/
structure Block where
  addr : Nat
  size : Nat
  cap : Nat
  deriving DecidableEq

def Block.has (B : Block) (x : Nat) : Bool := covers B.addr B.cap x

structure World where
  heap : Heap
  live : List Block

/-- Calls on live blocks, a store into one, and what happens to pages
outside the heap. A null pointer is `none`. -/
inductive Action where
  | malloc (c : Choice) (size : Nat)
  | calloc (c : Choice) (a b : Nat)
  | free (c : Choice) (p : Option Block)
  | realloc (c c' : Choice) (p : Option Block) (newSize : Nat)
  | store (B : Block) (x : Nat) (v : UInt8)
  | other (memory : Nat → UInt8) (arena : Nat → Arena)

/-- The pages that `malloc` asks for. -/
def pagesAsked (size : Nat) : Nat :=
  if (findDesc size).isSome then 1 else pagesFor size

/-- The page allocator answers with free pages. -/
def Choice.Legal (c : Choice) (h : Heap) (n : Nat) : Prop :=
  ∀ a ∈ c.page, a % pgsize = 0 ∧ 0 < a ∧ ∀ r ∈ h.held, a + n * pgsize ≤ r.1 ∨ r.1 + r.2 * pgsize ≤ a

instance (c : Choice) (h : Heap) (n : Nat) : Decidable (c.Legal h n) :=
  inferInstanceAs (Decidable (∀ a ∈ c.page, _))

def addrOf (p : Option Block) : Nat := (p.map Block.addr).getD 0

/-- The world after an allocation. -/
def World.gotten (live : List Block) (size : Nat) : Option Nat × Heap → World
  | (none, h) => ⟨h, live⟩
  | (some p, h) => ⟨h, ⟨p, size, (blockSize h p).getD 0⟩ :: live⟩

/-- The blocks without `p`. -/
def without (live : List Block) : Option Block → List Block
  | none => live
  | some B => live.erase B

def step : Action → World → Option World
  | .malloc c size, w =>
    if c.Legal w.heap (pagesAsked size) then
      (malloc c size w.heap).map (.gotten w.live size)
    else none
  | .calloc c a b, w =>
    if c.Legal w.heap (pagesAsked (a * b % 2 ^ 32)) then
      (calloc c a b w.heap).map (.gotten w.live (a * b % 2 ^ 32))
    else none
  | .free c p, w =>
    if ∀ B ∈ p, B ∈ w.live then
      (free c (addrOf p) w.heap).map fun h => ⟨h, without w.live p⟩
    else none
  | .realloc c c' p newSize, w =>
    if c.Legal w.heap (pagesAsked newSize) ∧ ∀ B ∈ p, B ∈ w.live then
      (realloc c c' (addrOf p) newSize w.heap).map fun r =>
        -- a failed `realloc` leaves the block alone
        if newSize ≠ 0 ∧ r.1 = none then ⟨r.2, w.live⟩
        else .gotten (without w.live p) newSize r
    else none
  | .store B x v, w =>
    if B ∈ w.live ∧ B.has x then
      some { w with heap := w.heap.memset x v 1 }
    else none
  | .other memory arena, w =>
    some { w with heap := { w.heap with
      memory := fun x =>
        if w.heap.inHeld x then w.heap.memory x else memory x
      arena := fun a =>
        if w.heap.inHeld a then w.heap.arena a else arena a } }

/-- After `malloc_init`. -/
def Start (w : World) : Prop := w.heap.held = [] ∧ (∀ d, w.heap.freeList d = []) ∧ w.live = []

/-- Requests far enough below 4 GB. -/
def requestsFit : Action → World → Prop
  | .malloc _ size, _ => size < 2 ^ 32 - 2 * pgsize
  | .calloc _ a b, _ => a * b < 2 ^ 32 - 2 * pgsize
  | .realloc _ _ _ newSize, _ => newSize < 2 ^ 32 - 2 * pgsize
  | _, _ => True

instance : (a : Action) → (w : World) → Decidable (requestsFit a w)
  | .malloc _ _, _ => inferInstanceAs (Decidable (_ < _))
  | .calloc _ _ _, _ => inferInstanceAs (Decidable (_ < _))
  | .realloc _ _ _ _, _ => inferInstanceAs (Decidable (_ < _))
  | .free _ _, _ | .store _ _ _, _ | .other _ _, _ => .isTrue trivial

end Pintos.Malloc
