/-
The heap invariant of `threads/malloc.c`: who owns which bytes.

# Shape of the argument

Every block, live or free, is a `Slot`: a block of a small arena, or the
one block of a big one. Two slots at different addresses have no byte in
common (`Slot.disjoint`), because slots of one arena lie a block size
apart, and arenas are different pages. Everything about bytes follows from
that: live blocks do not overlap, and a list operation, which writes into
free blocks only, does not touch a live one (`Core.relink_frame`).

`Core` couples the free lists, the counters and the live blocks; each of
the five things `malloc` and `free` do to the heap keeps it (`Core.hold`,
`Core.take`, `Core.big`, `Core.give`, `Core.drop`). Between them a new
arena has no live block yet, and an emptied one none any more, so that
every arena has one (`Owned`) is kept apart.
-/
import Pintos.Threads.Malloc
import Mathlib.Data.List.Pairwise
import Mathlib.Data.List.Perm.Basic

namespace Pintos.Malloc

open Transition Function List Option
open Palloc (pgsize pgOfs)

-- ==== slots

variable {a d n i p d' a' m b : Nat} {D D' : Desc} {r : Nat × Nat}
  {l : List Nat} {B : Block} {h' : Heap}

theorem desc_facts (h : descs[d]? = some D) :
    16 ≤ D.blockSize ∧ 0 < D.blocksPerArena ∧
      arenaSize + D.blocksPerArena * D.blockSize ≤ pgsize := by
  have hall : ∀ D ∈ descs, 16 ≤ D.blockSize ∧ 0 < D.blocksPerArena ∧
      arenaSize + D.blocksPerArena * D.blockSize ≤ pgsize := by decide
  exact hall D (mem_of_getElem? h)

/-- A one-page arena of descriptor `d`. -/
structure Heap.Small (h : Heap) (a d : Nat) (D : Desc) : Prop where
  held : (a, 1) ∈ h.held
  desc : (h.arena a).desc = some d
  known : descs[d]? = some D

/-- The arena of a big block of `n` pages. -/
structure Heap.Big (h : Heap) (a n : Nat) : Prop where
  held : (a, n) ∈ h.held
  desc : (h.arena a).desc = none

/-- The blocks of the heap: arena, address and size. -/
inductive Heap.Slot (h : Heap) : Nat × Nat → Nat → Nat → Prop
  | small {a d i : Nat} {D : Desc} (hs : h.Small a d D)
      (hi : i < D.blocksPerArena) :
      h.Slot (a, 1) (blockAt D a i) D.blockSize
  | big {a n : Nat} (hb : h.Big a n) : h.Slot (a, n) (a + arenaSize) (n * pgsize - arenaSize)

/-- What every held range is. -/
structure Heap.Ok (h : Heap) : Prop where
  page : ∀ r ∈ h.held, r.1 % pgsize = 0 ∧ 0 < r.1 ∧ 0 < r.2 ∧
    (h.arena r.1).magic = arenaMagic ∧
    ((∃ d D, h.Small r.1 d D ∧ r.2 = 1) ∨ (h.Big r.1 r.2 ∧ (h.arena r.1).freeCnt = r.2))
  apart : h.held.Pairwise fun r q => r.1 + r.2 * pgsize ≤ q.1 ∨ q.1 + q.2 * pgsize ≤ r.1

variable {h : Heap}

/-- Different held ranges have no byte in common. -/
theorem Heap.Ok.held_apart (hok : h.Ok) {q : Nat × Nat} (hr : r ∈ h.held) (hq : q ∈ h.held)
    (hne : r ≠ q) : r.1 + r.2 * pgsize ≤ q.1 ∨ q.1 + q.2 * pgsize ≤ r.1 := by
  have : Std.Symm fun r q : Nat × Nat => r.1 + r.2 * pgsize ≤ q.1 ∨ q.1 + q.2 * pgsize ≤ r.1 :=
    ⟨fun _ _ h => h.symm⟩
  exact hok.apart.forall hr hq hne

theorem pages_le (hn : 0 < n) : 4096 ≤ n * pgsize := Nat.mul_le_mul_right pgsize hn

/-- An arena is a small one or a big one. -/
theorem Heap.Small.not_big (hs : h.Small a d D) (hb : h.Big a n) : False := by
  have hdesc := hs.desc
  simp [hb.desc] at hdesc

theorem blockAt_bounds (hD : descs[d]? = some D) (hi : i < D.blocksPerArena)
    (a : Nat) : a + arenaSize ≤ blockAt D a i ∧ blockAt D a i + D.blockSize ≤ a + pgsize := by
  have hfit := (desc_facts hD).2.2
  have hmul : (i + 1) * D.blockSize ≤ D.blocksPerArena * D.blockSize := Nat.mul_le_mul_right _ hi
  rw [Nat.add_mul] at hmul
  unfold blockAt
  omega

/-- Rounding the address of a block down gives its arena. -/
theorem blockAt_round (hD : descs[d]? = some D) (hi : i < D.blocksPerArena) (ha : a % pgsize = 0) :
    pgOfs (blockAt D a i) = arenaSize + i * D.blockSize ∧
      blockAt D a i - pgOfs (blockAt D a i) = a := by
  have hb := blockAt_bounds hD hi a
  have hpos := (desc_facts hD).1
  unfold pgOfs blockAt pgsize at *
  omega

theorem blockAt_inj {j : Nat} (hD : descs[d]? = some D)
    (h : blockAt D a i = blockAt D a j) : i = j := by
  have hpos := (desc_facts hD).1
  unfold blockAt at h
  have hmul : i * D.blockSize = j * D.blockSize := by omega
  exact Nat.eq_of_mul_eq_mul_right (by omega) hmul

theorem Heap.Small.unique (hs : h.Small a d D) (hs' : h.Small a d' D') : d = d' ∧ D = D' := by
  obtain rfl := some.inj (hs.desc.symm.trans hs'.desc)
  exact ⟨rfl, some.inj (hs.known.symm.trans hs'.known)⟩

theorem Heap.Big.bounds (hok : h.Ok) (hb : h.Big a n) :
    a + arenaSize + (n * pgsize - arenaSize) = a + n * pgsize ∧ 0 < n * pgsize - arenaSize := by
  have hn : 0 < n := (hok.page _ hb.held).2.2.1
  unfold pgsize arenaSize
  omega

/-- Where a slot lies. -/
theorem Heap.Slot.within (hok : h.Ok) (hs : h.Slot r p n) :
    r ∈ h.held ∧ r.1 + arenaSize ≤ p ∧ p + n ≤ r.1 + r.2 * pgsize ∧ 0 < n := by
  cases hs with
  | @small a d i D hs hi =>
    have hb := blockAt_bounds hs.known hi a
    have hpos := (desc_facts hs.known).1
    exact ⟨hs.held, hb.1, by omega, by omega⟩
  | @big a n hb =>
    have hbounds := hb.bounds hok
    exact ⟨hb.held, Nat.le_refl _, Nat.le_of_eq hbounds.1, hbounds.2⟩

/-- Two slots at different addresses have no byte in common. -/
theorem Heap.Slot.disjoint (hok : h.Ok) {r' : Nat × Nat} {q : Nat} (hp : h.Slot r p n)
    (hq : h.Slot r' q m) (hne : p ≠ q) : p + n ≤ q ∨ q + m ≤ p := by
  obtain ⟨hr, hlo, hhi, -⟩ := hp.within hok
  obtain ⟨hr', hlo', hhi', -⟩ := hq.within hok
  by_cases hrr : r = r'
  · -- the same arena: blocks lie a block size apart
    subst hrr
    cases hp with
    | @small a d i D hs hi =>
      cases hq with
      | @small _ _ i' _ hs' hi' =>
        obtain ⟨rfl, rfl⟩ := hs.unique hs'
        have hne' : i ≠ i' := fun h => hne (by rw [h])
        unfold blockAt
        obtain hlt | hlt := Nat.lt_or_gt_of_ne hne'
        · have := Nat.mul_le_mul_right D.blockSize hlt
          rw [Nat.succ_mul] at this
          omega
        · have := Nat.mul_le_mul_right D.blockSize hlt
          rw [Nat.succ_mul] at this
          omega
      | big hb => exact (hs.not_big hb).elim
    | big hb =>
      cases hq with
      | small hs' hi' => exact (hs'.not_big hb).elim
      | big hb' => exact absurd rfl hne
  · have := hok.held_apart hr hr' hrr
    omega

/-- What a range is while its arena stays. -/
theorem Heap.Small.transfer (hs : h.Small a d D) (hheld : (a, 1) ∈ h'.held)
    (harena : h'.arena a = h.arena a) : h'.Small a d D :=
  ⟨hheld, (congrArg Arena.desc harena).trans hs.desc, hs.known⟩

theorem Heap.Ok.transfer (hok : h.Ok) (hr : r ∈ h.held) (hheld : r ∈ h'.held)
    (harena : h'.arena r.1 = h.arena r.1) : r.1 % pgsize = 0 ∧ 0 < r.1 ∧ 0 < r.2 ∧
    (h'.arena r.1).magic = arenaMagic ∧
    ((∃ d D, h'.Small r.1 d D ∧ r.2 = 1) ∨ (h'.Big r.1 r.2 ∧ (h'.arena r.1).freeCnt = r.2)) := by
  obtain ⟨halign, hpos, hn, hmagic, hkind⟩ := hok.page r hr
  refine ⟨halign, hpos, hn, harena ▸ hmagic, hkind.imp ?_ ?_⟩
  · rintro ⟨d, D, hs, h1⟩
    exact ⟨d, D, hs.transfer (h1 ▸ hheld) harena, h1⟩
  · rintro ⟨hb, hcnt⟩
    exact ⟨⟨hheld, harena ▸ hb.desc⟩, harena ▸ hcnt⟩

/-- A slot stays one while its arena does. -/
theorem Heap.Slot.transfer (hs : h.Slot r p n) (hheld : r ∈ h'.held)
    (hdesc : (h'.arena r.1).desc = (h.arena r.1).desc) : h'.Slot r p n := by
  cases hs with
  | small hs hi => exact .small ⟨hheld, hdesc.trans hs.desc, hs.known⟩ hi
  | big hb => exact .big ⟨hheld, hdesc.trans hb.desc⟩

/-- `block_to_arena` of a block. -/
theorem blockToArena_small (hok : h.Ok) (hs : h.Small a d D)
    (hi : i < D.blocksPerArena) : blockToArena h (blockAt D a i) = some a := by
  obtain ⟨halign, hpos, -, hmagic, -⟩ := hok.page _ hs.held
  obtain ⟨hofs, hround⟩ := blockAt_round hs.known hi halign
  have hmod : (arenaSize + i * D.blockSize + 2 ^ 32 - arenaSize) % 2 ^ 32 % D.blockSize = 0 := by
    have hfit := blockAt_bounds hs.known hi a
    have hsmall : i * D.blockSize < 2 ^ 32 := by
      unfold blockAt pgsize arenaSize at hfit
      omega
    rw [show arenaSize + i * D.blockSize + 2 ^ 32 - arenaSize = i * D.blockSize + 2 ^ 32 by omega,
      Nat.add_mod_right, Nat.mod_eq_of_lt hsmall, Nat.mul_mod_left]
  unfold blockToArena
  rw [hround, hofs, if_pos ⟨by dsimp only at hpos; omega, hmagic⟩, hs.desc]
  dsimp only
  rw [hs.known]
  exact if_pos hmod

theorem Heap.Ok.big_cnt (hok : h.Ok) (hb : h.Big a n) : (h.arena a).freeCnt = n := by
  obtain ⟨d, D, hs, -⟩ | ⟨-, hcnt⟩ := (hok.page _ hb.held).2.2.2.2
  · exact (hs.not_big hb).elim
  · exact hcnt

theorem pgOfs_arena (ha : a % pgsize = 0) : pgOfs (a + arenaSize) = arenaSize := by
  unfold pgOfs pgsize arenaSize at *
  omega

theorem blockToArena_big (hok : h.Ok) (hb : h.Big a n) :
    blockToArena h (a + arenaSize) = some a := by
  obtain ⟨halign, hpos, -, hmagic, -⟩ := hok.page _ hb.held
  unfold blockToArena
  rw [pgOfs_arena halign, Nat.add_sub_cancel, if_pos ⟨by dsimp only at hpos; omega, hmagic⟩,
    hb.desc]
  exact if_pos rfl

/-- `block_size` of a block. -/
theorem Heap.Slot.blockSize (hok : h.Ok) (hs : h.Slot r p n) : Malloc.blockSize h p = some n := by
  unfold Malloc.blockSize
  cases hs with
  | @small a d i D hs hi =>
    rw [blockToArena_small hok hs hi, bind_some, hs.desc]
    dsimp only
    rw [hs.known]
    rfl
  | @big a n hb =>
    rw [blockToArena_big hok hb, bind_some, hb.desc]
    rw [hok.big_cnt hb, pgOfs_arena (hok.page _ hb.held).1, mul_comm]

theorem arenaToBlock_small (hok : h.Ok) (hs : h.Small a d D) (hi : i < D.blocksPerArena) :
    arenaToBlock h a i = some (blockAt D a i) := by
  obtain ⟨-, hpos, -, hmagic, -⟩ := hok.page _ hs.held
  unfold arenaToBlock
  rw [if_pos ⟨by dsimp only at hpos; omega, hmagic⟩, hs.desc, bind_some, hs.known]
  exact if_pos hi

-- ==== the loops

/-- The addresses of an arena's first blocks. -/
def blocksOf (D : Desc) (a n : Nat) : List Nat := (List.range n).map (blockAt D a)

theorem blocksOf_succ (D : Desc) (a n : Nat) :
    blocksOf D a (n + 1) = blocksOf D a n ++ [blockAt D a n] := by
  simp [blocksOf, range_succ]

theorem mem_blocksOf : b ∈ blocksOf D a n ↔ ∃ i, i < n ∧ blockAt D a i = b := by simp [blocksOf]

theorem blocksOf_nodup (hD : descs[d]? = some D) (a n : Nat) : (blocksOf D a n).Nodup := by
  refine List.Nodup.map_on ?_ nodup_range
  intro i _ j _ h
  exact blockAt_inj hD h

theorem addBlocks_eq (hok : h.Ok) (hs : h.Small a d D) (l : List Nat) (hn : n ≤ D.blocksPerArena) :
    addBlocks h a n l = some (l ++ blocksOf D a n) := by
  induction n with
  | zero => simp [addBlocks, blocksOf]
  | succ n ih =>
    have hprev := ih (by omega)
    unfold addBlocks at hprev ⊢
    rw [range_succ, foldlM_append, hprev, blocksOf_succ]
    simp [arenaToBlock_small hok hs (show n < D.blocksPerArena by omega)]

/-- Unlinking blocks that are all there leaves the others. -/
theorem removeBlocks_spec (hok : h.Ok) (hs : h.Small a d D) (hl : l.Nodup)
    (hn : n ≤ D.blocksPerArena) (hall : ∀ i, i < n → blockAt D a i ∈ l) :
    ∃ l', removeBlocks h a n l = some l' ∧ l'.Nodup ∧ ∀ b, b ∈ l' ↔ b ∈ l ∧ b ∉ blocksOf D a n := by
  induction n with
  | zero => exact ⟨l, rfl, hl, by simp [blocksOf]⟩
  | succ n ih =>
    obtain ⟨l₁, heq, hnd, hmem⟩ := ih (by omega) fun i hi => hall i (by omega)
    have hin : blockAt D a n ∈ l₁ := by
      refine (hmem _).mpr ⟨hall n (by omega), fun hin => ?_⟩
      obtain ⟨i, hi, hieq⟩ := mem_blocksOf.mp hin
      have := blockAt_inj hs.known hieq
      omega
    refine ⟨l₁.erase (blockAt D a n), ?_, hnd.erase _, fun b => ?_⟩
    · unfold removeBlocks at heq ⊢
      rw [range_succ, foldlM_append, heq]
      simp [arenaToBlock_small hok hs (show n < D.blocksPerArena by omega), hin]
    · rw [hnd.mem_erase_iff, hmem, blocksOf_succ, mem_append, mem_singleton]
      tauto

-- ==== the invariant

/-- The free lists, the counters and the live blocks agree. -/
structure Core (h : Heap) (live : List Block) : Prop where
  ok : h.Ok
  freeIn : ∀ d, ∀ b ∈ h.freeList d, ∃ a D i, h.Small a d D ∧
    i < D.blocksPerArena ∧ b = blockAt D a i
  freeNodup : ∀ d, (h.freeList d).Nodup
  liveIn : ∀ B ∈ live, B.size ≤ B.cap ∧ ∃ r, h.Slot r B.addr B.cap
  liveNodup : (live.map Block.addr).Nodup
  slot : ∀ {a d D}, h.Small a d D → ∀ i, i < D.blocksPerArena →
    (blockAt D a i ∈ h.freeList d ↔ blockAt D a i ∉ live.map Block.addr)
  count : ∀ {a d D}, h.Small a d D → (h.arena a).freeCnt =
    (blocksOf D a D.blocksPerArena).countP fun b => b ∈ h.freeList d

/-- Every held range has a live block in it. -/
def Owned (h : Heap) (live : List Block) : Prop :=
  ∀ r ∈ h.held, ∃ B ∈ live, covers r.1 (r.2 * pgsize) B.addr = true

variable {live : List Block}

/-- A heap with the same arenas and the same free lists. -/
theorem Core.of_same (hc : Core h live) (harena : ∀ r ∈ h.held, h'.arena r.1 = h.arena r.1)
    (hfree : h'.freeList = h.freeList) (hheld : h'.held = h.held) : Core h' live := by
  have hsmall {a d D} : h'.Small a d D ↔ h.Small a d D := by
    constructor
    · intro hs
      have hin : (a, 1) ∈ h.held := hheld ▸ hs.held
      exact hs.transfer hin (harena _ hin).symm
    · exact fun hs => hs.transfer (hheld ▸ hs.held) (harena _ hs.held)
  refine ⟨⟨fun r hr => ?_, hheld ▸ hc.ok.apart⟩, fun d b hb => ?_, fun d => hfree ▸ hc.freeNodup d,
    fun B hB => ?_, hc.liveNodup, fun hs => hfree ▸ hc.slot (hsmall.mp hs), fun hs => ?_⟩
  · have hin : r ∈ h.held := hheld ▸ hr
    exact hc.ok.transfer hin hr (harena r hin)
  · rw [hfree] at hb
    obtain ⟨a, D, i, hs, hi, hbi⟩ := hc.freeIn d b hb
    exact ⟨a, D, i, hsmall.mpr hs, hi, hbi⟩
  · obtain ⟨hsize, r, hs⟩ := hc.liveIn B hB
    have hr := (hs.within hc.ok).1
    exact ⟨hsize, r, hs.transfer (hheld ▸ hr) (congrArg Arena.desc (harena r hr))⟩
  · have hs' := hsmall.mp hs
    rw [harena _ hs'.held, hfree]
    exact hc.count hs'

theorem Core.of_memory (hc : Core h live) (memory : Nat → UInt8) :
    Core { h with memory := memory } live :=
  hc.of_same (fun _ _ => rfl) rfl rfl

-- ==== counting

variable {bs : List Nat}

theorem countP_mem_cons_of_notMem (hb : b ∉ bs) :
    (bs.countP fun x => x ∈ b :: l) = bs.countP fun x => x ∈ l := by
  refine countP_congr fun x hx => ?_
  have hne : x ≠ b := fun h => hb (h ▸ hx)
  simp [hne]

/-- A block more on the list counts once. -/
theorem countP_mem_cons (hbs : bs.Nodup) (hb : b ∈ bs) (hl : b ∉ l) :
    (bs.countP fun x => x ∈ b :: l) = (bs.countP fun x => x ∈ l) + 1 := by
  induction bs with
  | nil => cases hb
  | cons x bs ih =>
    obtain ⟨hx, hbs⟩ := nodup_cons.mp hbs
    rw [countP_cons, countP_cons]
    by_cases heq : x = b
    · subst heq
      rw [countP_mem_cons_of_notMem hx]
      simp [hl]
    · have hb' : b ∈ bs := (mem_cons.mp hb).resolve_left (Ne.symm heq)
      rw [ih hbs hb']
      by_cases hxl : x ∈ l
      · simp [hxl]
      · simp [hxl, heq]

-- ==== the updates

variable {x : Nat} {live' : List Block} {v : Arena}

/-- The bytes of a free block belong to no live block. -/
theorem Core.free_not_live (hc : Core h live) (hb : b ∈ h.freeList d)
    (hx : covers b 8 x = true) (hB : B ∈ live) : B.has x = false := by
  obtain ⟨a, D, i, hs, hi, rfl⟩ := hc.freeIn d b hb
  obtain ⟨-, r, hslot⟩ := hc.liveIn B hB
  have hne : blockAt D a i ≠ B.addr := fun heq => (hc.slot hs i hi).mp hb (heq ▸ mem_map_of_mem hB)
  have hdis := (Heap.Slot.small hs hi).disjoint hc.ok hslot hne
  have hsize := (desc_facts hs.known).1
  simp only [Block.has, covers, decide_eq_true_eq, decide_eq_false_iff_not] at hx ⊢
  omega

/-- List operations leave the bytes of live blocks alone. -/
theorem Core.relink_frame (hc : Core h live) (hl : ∀ b ∈ l, b ∈ h.freeList d) (links : Nat → UInt8)
    (hB : B ∈ live) (hx : B.has x = true) : (h.relink links l).memory x = h.memory x := by
  refine if_neg fun hany => ?_
  obtain ⟨b, hb, hcov⟩ := any_eq_true.mp hany
  simp [hc.free_not_live (hl b hb) hcov hB] at hx

/-- The heap with another free list and another counter. -/
def Heap.recount (h : Heap) (a d : Nat) (l : List Nat) (k : Nat) : Heap :=
  (h.setFreeList d l).setArena a { h.arena a with freeCnt := k }

theorem Heap.recount_desc (h : Heap) (a d : Nat) (l : List Nat) (k a' : Nat) :
    ((h.recount a d l k).arena a').desc = (h.arena a').desc ∧ ((h.recount a d l k).arena a').magic =
    (h.arena a').magic := by
  change (update h.arena a _ a').desc = _ ∧ (update h.arena a _ a').magic = _
  by_cases ha : a' = a
  · subst ha
    rw [update_self]
    exact ⟨rfl, rfl⟩
  · rw [update_of_ne ha]
    exact ⟨rfl, rfl⟩

theorem Heap.recount_small {k : Nat} : (h.recount a d l k).Small a' d' D' ↔ h.Small a' d' D' := by
  have hdesc := (h.recount_desc a d l k a').1
  constructor
  · intro hs
    exact ⟨hs.held, hdesc.symm.trans hs.desc, hs.known⟩
  · intro hs
    exact ⟨hs.held, hdesc.trans hs.desc, hs.known⟩

theorem Heap.Ok.recount (hok : h.Ok) (hs : h.Small a d D) (l : List Nat)
    (k : Nat) : (h.recount a d l k).Ok := by
  refine ⟨fun r hr => ?_, hok.apart⟩
  obtain ⟨halign, hpos, hn, hmagic, hkind⟩ := hok.page r hr
  have hdesc := h.recount_desc a d l k r.1
  refine ⟨halign, hpos, hn, hdesc.2.trans hmagic, ?_⟩
  obtain ⟨d', D', hs', h1⟩ | ⟨hb, hcnt⟩ := hkind
  · exact .inl ⟨d', D', Heap.recount_small.mpr hs', h1⟩
  · refine .inr ⟨⟨hb.held, hdesc.1.trans hb.desc⟩, ?_⟩
    -- a big arena is not the one whose counter changed
    have hne : r.1 ≠ a := by
      rintro rfl
      exact hs.not_big hb
    change (update h.arena a _ r.1).freeCnt = r.2
    rw [update_of_ne hne]
    exact hcnt

/-- A list and a counter that change together keep the invariant. -/
theorem Core.recount (hc : Core h live) (hs : h.Small a d D) (hnd : l.Nodup)
    (hin : ∀ b ∈ l, ∃ a D i, h.Small a d D ∧ i < D.blocksPerArena ∧ b = blockAt D a i)
    (hlive : ∀ B ∈ live', B.size ≤ B.cap ∧ ∃ r, h.Slot r B.addr B.cap)
    (hlnd : (live'.map Block.addr).Nodup)
    (hslot : ∀ {a' d' D'}, h.Small a' d' D' → ∀ i, i < D'.blocksPerArena →
      (blockAt D' a' i ∈ update h.freeList d l d' ↔ blockAt D' a' i ∉ live'.map Block.addr))
    (hother : ∀ {a' D'}, h.Small a' d D' → a' ≠ a →
      ((blocksOf D' a' D'.blocksPerArena).countP fun b => b ∈ l) =
        (blocksOf D' a' D'.blocksPerArena).countP fun b => b ∈ h.freeList d) :
    Core (h.recount a d l ((blocksOf D a D.blocksPerArena).countP fun b => b ∈ l)) live' := by
  refine ⟨hc.ok.recount hs _ _, fun d' b hb => ?_, fun d' => ?_,
    fun B hB => ?_, hlnd, fun hs' i hi => ?_, fun {a' d' D'} hs' => ?_⟩
  · change b ∈ update h.freeList d l d' at hb
    have hex : ∃ a D i, h.Small a d' D ∧ i < D.blocksPerArena ∧ b = blockAt D a i := by
      by_cases hd : d' = d
      · subst hd
        rw [update_self] at hb
        exact hin b hb
      · rw [update_of_ne hd] at hb
        exact hc.freeIn d' b hb
    obtain ⟨a', D', i, hs', hi, hbi⟩ := hex
    exact ⟨a', D', i, Heap.recount_small.mpr hs', hi, hbi⟩
  · exact (forall_update_iff h.freeList fun _ l => l.Nodup).mpr
      ⟨hnd, fun d' _ => hc.freeNodup d'⟩ d'
  · obtain ⟨hsize, r, hr⟩ := hlive B hB
    exact ⟨hsize, r, hr.transfer (hr.within hc.ok).1 (h.recount_desc a d l _ r.1).1⟩
  · exact hslot (Heap.recount_small.mp hs') i hi
  · have hs0 := Heap.recount_small.mp hs'
    change (update h.arena a _ a').freeCnt = List.countP (fun b => b ∈ update h.freeList d l d') _
    by_cases ha : a' = a
    · subst ha
      obtain ⟨rfl, rfl⟩ := hs.unique hs0
      rw [update_self, update_self]
    · rw [update_of_ne ha, hc.count hs0]
      by_cases hd : d' = d
      · subst hd
        rw [update_self]
        exact (hother hs0 ha).symm
      · rw [update_of_ne hd]

/-- Blocks of different arenas are at different addresses. -/
theorem Heap.Ok.blockAt_arena (hok : h.Ok) {i' : Nat} (hs : h.Small a d D)
    (hi : i < D.blocksPerArena) (hs' : h.Small a' d' D') (hi' : i' < D'.blocksPerArena)
    (heq : blockAt D a i = blockAt D' a' i') : a = a' := by
  have h1 := (blockAt_round hs.known hi (hok.page _ hs.held).1).2
  have h2 := (blockAt_round hs'.known hi' (hok.page _ hs'.held).1).2
  rw [heq, h2] at h1
  exact h1.symm

theorem Heap.Ok.notMem_blocksOf (hok : h.Ok) (hs : h.Small a d D) (hi : i < D.blocksPerArena)
    (hs' : h.Small a' d' D') (hne : a' ≠ a) : blockAt D a i ∉ blocksOf D' a' D'.blocksPerArena := by
  intro hmem
  obtain ⟨i', hi', heq⟩ := mem_blocksOf.mp hmem
  exact hne (hok.blockAt_arena hs' hi' hs hi heq)

/-- A block off a free list becomes live. -/
theorem Core.take (hc : Core h live) {rest : List Nat} (hl : h.freeList d = b :: rest) :
    ∃ a D, h.Small a d D ∧ blockToArena h b = some a ∧
      (h.arena a).freeCnt - 1 = ((blocksOf D a D.blocksPerArena).countP fun x => x ∈ rest) ∧
      ∀ size ≤ D.blockSize,
        Core (h.recount a d rest ((h.arena a).freeCnt - 1)) (⟨b, size, D.blockSize⟩ :: live) := by
  have hb : b ∈ h.freeList d := by
    rw [hl]
    exact mem_cons_self
  obtain ⟨a, D, i, hs, hi, rfl⟩ := hc.freeIn d b hb
  have hnd := hc.freeNodup d
  rw [hl, nodup_cons] at hnd
  have hin : blockAt D a i ∈ blocksOf D a D.blocksPerArena := mem_blocksOf.mpr ⟨i, hi, rfl⟩
  have hcnt : (h.arena a).freeCnt - 1 =
      ((blocksOf D a D.blocksPerArena).countP fun x => x ∈ rest) := by
    rw [hc.count hs, hl, countP_mem_cons (blocksOf_nodup hs.known a _) hin hnd.1]
    rfl
  refine ⟨a, D, hs, blockToArena_small hc.ok hs hi, hcnt, fun size hsize => ?_⟩
  rw [hcnt]
  refine hc.recount hs hnd.2 ?_ ?_ ?_ ?_ ?_
  · intro x hx
    refine hc.freeIn d x ?_
    rw [hl]
    exact mem_cons_of_mem _ hx
  · refine forall_mem_cons.mpr ⟨⟨hsize, (a, 1), .small hs hi⟩, ?_⟩
    exact hc.liveIn
  · rw [map_cons, nodup_cons]
    exact ⟨(hc.slot hs i hi).mp hb, hc.liveNodup⟩
  · intro a' d' D' hs' j hj
    rw [map_cons, mem_cons, not_or, ← hc.slot hs' j hj]
    by_cases hd : d' = d
    · subst hd
      rw [update_self, hl, mem_cons]
      constructor
      · intro hmem
        refine ⟨fun (heq : blockAt D' a' j = blockAt D a i) => ?_, .inr hmem⟩
        exact hnd.1 (heq ▸ hmem)
      · intro hmem
        exact hmem.2.resolve_left hmem.1
    · rw [update_of_ne hd]
      refine (and_iff_right fun heq => hd ?_).symm
      have ha := hc.ok.blockAt_arena hs' hj hs hi heq
      subst ha
      exact (hs'.unique hs).1
  · intro a' D' hs' hne
    rw [hl]
    exact (countP_mem_cons_of_notMem (hc.ok.notMem_blocksOf hs hi hs' hne)).symm

/-- The live blocks at other addresses than that of `B`. -/
theorem mem_map_erase (hnd : (live.map Block.addr).Nodup) (hB : B ∈ live)
    (x : Nat) : x ∈ (live.erase B).map Block.addr ↔ x ∈ live.map Block.addr ∧ x ≠ B.addr := by
  have hperm : (live.map Block.addr).Perm (B.addr :: (live.erase B).map Block.addr) :=
    (perm_cons_erase hB).map Block.addr
  have hcons := nodup_cons.mp (hperm.nodup_iff.mp hnd)
  rw [hperm.mem_iff, mem_cons]
  constructor
  · intro hx
    exact ⟨.inr hx, fun heq => hcons.1 (heq ▸ hx)⟩
  · intro hx
    exact hx.1.resolve_left hx.2

/-- A live block of a small arena goes back on the free list. -/
theorem Core.give (hc : Core h live) (hB : B ∈ live) (hs : h.Small a d D)
    (hi : i < D.blocksPerArena) (haddr : B.addr = blockAt D a i) :
    (h.arena a).freeCnt + 1 = ((blocksOf D a D.blocksPerArena).countP
      fun x => x ∈ B.addr :: h.freeList d) ∧
    Core (h.recount a d (B.addr :: h.freeList d) ((h.arena a).freeCnt + 1)) (live.erase B) := by
  have hlive : B.addr ∈ live.map Block.addr := mem_map_of_mem hB
  have hnot : B.addr ∉ h.freeList d := by
    intro hmem
    rw [haddr] at hmem hlive
    exact (hc.slot hs i hi).mp hmem hlive
  have hin : B.addr ∈ blocksOf D a D.blocksPerArena := mem_blocksOf.mpr ⟨i, hi, haddr.symm⟩
  have hcnt : (h.arena a).freeCnt + 1 =
      ((blocksOf D a D.blocksPerArena).countP fun x => x ∈ B.addr :: h.freeList d) := by
    rw [countP_mem_cons (blocksOf_nodup hs.known a _) hin hnot, hc.count hs]
  refine ⟨hcnt, ?_⟩
  rw [hcnt]
  refine hc.recount hs (nodup_cons.mpr ⟨hnot, hc.freeNodup d⟩) ?_ ?_
    (hc.liveNodup.sublist (erase_sublist.map Block.addr)) ?_ ?_
  · intro b hb
    obtain rfl | hb := mem_cons.mp hb
    · exact ⟨a, D, i, hs, hi, haddr⟩
    · exact hc.freeIn d b hb
  · intro B' hB'
    exact hc.liveIn B' (mem_of_mem_erase hB')
  · intro a' d' D' hs' j hj
    rw [mem_map_erase hc.liveNodup hB, not_and_or, not_not, ← hc.slot hs' j hj]
    by_cases hd : d' = d
    · subst hd
      rw [update_self, mem_cons, or_comm]
    · rw [update_of_ne hd]
      refine (or_iff_left fun heq => hd ?_).symm
      have ha := hc.ok.blockAt_arena hs' hj hs hi (heq.trans haddr)
      subst ha
      exact (hs'.unique hs).1
  · intro a' D' hs' hne
    rw [haddr]
    exact countP_mem_cons_of_notMem (hc.ok.notMem_blocksOf hs hi hs' hne)

-- ==== arenas come and go

/-- Pages that are not held yet. -/
structure Heap.Fresh (h : Heap) (a n : Nat) : Prop where
  aligned : a % pgsize = 0
  pos : 0 < a
  some : 0 < n
  apart : ∀ r ∈ h.held, a + n * pgsize ≤ r.1 ∨ r.1 + r.2 * pgsize ≤ a

theorem Heap.Fresh.ne (hf : h.Fresh a n) (hok : h.Ok) (hr : r ∈ h.held) : r.1 ≠ a := by
  intro heq
  have hmul := pages_le (hok.page r hr).2.2.1
  have hmul' := pages_le hf.some
  have := hf.apart r hr
  omega

/-- The heap with `n` more pages at `a`. -/
def Heap.grown (h : Heap) (a n : Nat) (v : Arena) : Heap := (h.hold a n).setArena a v

theorem Heap.grown_arena (hf : h.Fresh a n) (hok : h.Ok) (hr : r ∈ h.held)
    (v : Arena) : (h.grown a n v).arena r.1 = h.arena r.1 :=
  update_of_ne (hf.ne hok hr) _ _

theorem Heap.grown_small (hf : h.Fresh a n) (hok : h.Ok) (hs : (h.grown a n v).Small a' d D) :
    h.Small a' d D ∨ a' = a ∧ v.desc = some d ∧ n = 1 := by
  obtain heq | hheld := mem_cons.mp hs.held
  · obtain ⟨rfl, rfl⟩ := Prod.mk.inj heq
    refine .inr ⟨rfl, ?_, rfl⟩
    have hdesc := hs.desc
    change (update h.arena a' v a').desc = some d at hdesc
    rw [update_self] at hdesc
    exact hdesc
  · refine .inl ⟨hheld, ?_, hs.known⟩
    rw [← hs.desc, Heap.grown_arena hf hok hheld]

theorem Heap.Ok.grown (hok : h.Ok) (hf : h.Fresh a n) (hmagic : v.magic = arenaMagic)
    (hkind : (∃ d D, v.desc = some d ∧ descs[d]? = some D ∧ n = 1) ∨
      v.desc = none ∧ v.freeCnt = n) : (h.grown a n v).Ok := by
  have hnew : (h.grown a n v).arena a = v := update_self _ _ _
  refine ⟨?_, pairwise_cons.mpr ⟨hf.apart, hok.apart⟩⟩
  refine forall_mem_cons.mpr ⟨⟨hf.aligned, hf.pos, hf.some, ?_, ?_⟩, ?_⟩
  · rw [hnew, hmagic]
  · obtain ⟨d, D, hd, hD, rfl⟩ | ⟨hd, hcnt⟩ := hkind
    · exact .inl ⟨d, D, ⟨mem_cons_self, (congrArg Arena.desc hnew).trans hd, hD⟩, rfl⟩
    · exact .inr ⟨⟨mem_cons_self, (congrArg Arena.desc hnew).trans hd⟩,
        (congrArg Arena.freeCnt hnew).trans hcnt⟩
  · exact fun r hr => hok.transfer hr (mem_cons_of_mem _ hr) (Heap.grown_arena hf hok hr v)

theorem Heap.Small.grown (hok : h.Ok) (hf : h.Fresh a n) (v : Arena) (hs : h.Small a' d D) :
    (h.grown a n v).Small a' d D :=
  hs.transfer (mem_cons_of_mem _ hs.held) (Heap.grown_arena hf hok hs.held v)

theorem Heap.Slot.grown (hok : h.Ok) (hf : h.Fresh a n) (v : Arena)
    (hs : h.Slot r p m) : (h.grown a n v).Slot r p m := by
  have hr := (hs.within hok).1
  refine hs.transfer (mem_cons_of_mem _ hr) ?_
  rw [Heap.grown_arena hf hok hr]

/-- A slot is not in fresh pages. -/
theorem Heap.Slot.not_fresh (hok : h.Ok) (hf : h.Fresh a n) (hs : h.Slot r p m) :
    covers a (n * pgsize) p = false := by
  obtain ⟨hr, hlo, hhi, hm⟩ := hs.within hok
  have := hf.apart r hr
  simp only [covers, decide_eq_false_iff_not]
  omega

/-- A new arena for a descriptor whose free list is empty. -/
theorem Core.hold (hc : Core h live) (hf : h.Fresh a 1)
    (hD : descs[d]? = some D) (hempty : h.freeList d = []) :
    Core ((h.grown a 1 ⟨arenaMagic, some d, D.blocksPerArena⟩).setFreeList d
      (blocksOf D a D.blocksPerArena)) live := by
  generalize hv : (⟨arenaMagic, some d, D.blocksPerArena⟩ : Arena) = v
  have hok : (h.grown a 1 v).Ok :=
    hc.ok.grown hf (by rw [← hv]) (.inl ⟨d, D, by rw [← hv], hD, rfl⟩)
  have hnew : (h.grown a 1 v).arena a = v := update_self _ _ _
  have hself : (h.grown a 1 v).Small a d D := ⟨mem_cons_self, by rw [hnew, ← hv], hD⟩
  -- a small arena is an old one, or the new one
  have hcases {a' d' D'} (hs : (h.grown a 1 v).Small a' d' D') :
      (h.Small a' d' D' ∧ a' ≠ a) ∨ (a' = a ∧ d' = d ∧ D' = D) := by
    by_cases ha : a' = a
    · subst ha
      obtain ⟨rfl, rfl⟩ := hs.unique hself
      exact .inr ⟨rfl, rfl, rfl⟩
    · obtain hs | hs := Heap.grown_small hf hc.ok hs
      · exact .inl ⟨hs, ha⟩
      · exact absurd hs.1 ha
  have hold : ∀ {a' d' D'}, h.Small a' d' D' → (h.grown a 1 v).Small a' d' D' :=
    fun hs => hs.grown hc.ok hf v
  have hnone : ∀ i, i < D.blocksPerArena → blockAt D a i ∉ live.map Block.addr := by
    intro i hi hmem
    obtain ⟨B, hB, heq⟩ := mem_map.mp hmem
    obtain ⟨-, r, hslot⟩ := hc.liveIn B hB
    have hout := hslot.not_fresh hc.ok hf
    have hbounds := blockAt_bounds hD hi a
    have hsize := (desc_facts hD).1
    simp only [covers, decide_eq_false_iff_not] at hout
    omega
  refine ⟨⟨?_, hok.apart⟩, fun d' b hb => ?_, fun d' => ?_, fun B hB => ?_,
    hc.liveNodup, fun {a' d' D'} hs i hi => ?_, fun {a' d' D'} hs => ?_⟩
  · exact fun r hr => hok.transfer hr hr rfl
  · change b ∈ update h.freeList d _ d' at hb
    by_cases hd : d' = d
    · subst hd
      rw [update_self] at hb
      obtain ⟨i, hi, rfl⟩ := mem_blocksOf.mp hb
      exact ⟨a, D, i, hself.transfer hself.held rfl, hi, rfl⟩
    · rw [update_of_ne hd] at hb
      obtain ⟨a', D', i, hs, hi, hbi⟩ := hc.freeIn d' b hb
      exact ⟨a', D', i, (hold hs).transfer (hold hs).held rfl, hi, hbi⟩
  · exact (forall_update_iff h.freeList fun _ l => l.Nodup).mpr
      ⟨blocksOf_nodup hD a _, fun d' _ => hc.freeNodup d'⟩ d'
  · obtain ⟨hsize, r, hslot⟩ := hc.liveIn B hB
    have hslot' := hslot.grown hc.ok hf v
    exact ⟨hsize, r, hslot'.transfer (hslot'.within hok).1 rfl⟩
  · change blockAt D' a' i ∈ update h.freeList d _ d' ↔ _
    obtain ⟨hs0, hne⟩ | ⟨rfl, rfl, rfl⟩ := hcases ⟨hs.held, hs.desc, hs.known⟩
    · have hslot := hc.slot hs0 i hi
      by_cases hd : d' = d
      · subst hd
        rw [hempty] at hslot
        rw [update_self, ← hslot]
        refine iff_of_false (fun hmem => ?_) not_mem_nil
        exact hok.notMem_blocksOf (hold hs0) hi hself (Ne.symm hne) hmem
      · rw [update_of_ne hd]
        exact hslot
    · rw [update_self]
      exact iff_of_true (mem_blocksOf.mpr ⟨i, hi, rfl⟩) (hnone i hi)
  · change ((h.grown a 1 v).arena a').freeCnt =
      List.countP (fun b => b ∈ update h.freeList d _ d') _
    obtain ⟨hs0, hne⟩ | ⟨rfl, rfl, rfl⟩ := hcases ⟨hs.held, hs.desc, hs.known⟩
    · rw [Heap.grown_arena hf hc.ok hs0.held v, hc.count hs0]
      by_cases hd : d' = d
      · subst hd
        rw [update_self, hempty]
        refine countP_congr fun b hb => ?_
        obtain ⟨i, hi, rfl⟩ := mem_blocksOf.mp hb
        have := hok.notMem_blocksOf (hold hs0) hi hself (Ne.symm hne)
        simp [this]
      · rw [update_of_ne hd]
    · rw [hnew, ← hv, update_self]
      have hall : List.countP (fun b => decide (b ∈ blocksOf D' a' D'.blocksPerArena))
          (blocksOf D' a' D'.blocksPerArena) = (blocksOf D' a' D'.blocksPerArena).length :=
        countP_eq_length.mpr fun b hb => decide_eq_true hb
      rw [hall, blocksOf, length_map, length_range]

/-- Pages for a big block. -/
theorem Core.big (hc : Core h live) {size : Nat} (hf : h.Fresh a n)
    (hsize : size ≤ n * pgsize - arenaSize) :
    Core (h.grown a n ⟨arenaMagic, none, n⟩)
      (⟨a + arenaSize, size, n * pgsize - arenaSize⟩ :: live) := by
  generalize hv : (⟨arenaMagic, none, n⟩ : Arena) = v
  have hok : (h.grown a n v).Ok := hc.ok.grown hf (by rw [← hv]) (.inr ⟨by rw [← hv], by rw [← hv]⟩)
  have hnew : (h.grown a n v).arena a = v := update_self _ _ _
  have hbig : (h.grown a n v).Big a n := ⟨mem_cons_self, by rw [hnew, ← hv]⟩
  have hcases {a' d' D'} (hs : (h.grown a n v).Small a' d' D') : h.Small a' d' D' := by
    obtain hs | ⟨-, hd, -⟩ := Heap.grown_small hf hc.ok hs
    · exact hs
    · simp [← hv] at hd
  have hin : covers a (n * pgsize) (a + arenaSize) = true := by
    have hmul := pages_le hf.some
    refine decide_eq_true ?_
    unfold arenaSize
    omega
  have hout : ∀ {r p m}, h.Slot r p m → p ≠ a + arenaSize := by
    intro r p m hs heq
    have := hs.not_fresh hc.ok hf
    simp [heq, hin] at this
  refine ⟨hok, fun d b hb => ?_, hc.freeNodup, ?_, ?_,
    fun {a' d' D'} hs i hi => ?_, fun {a' d' D'} hs => ?_⟩
  · obtain ⟨a', D', i, hs, hi, hbi⟩ := hc.freeIn d b hb
    exact ⟨a', D', i, hs.grown hc.ok hf v, hi, hbi⟩
  · refine forall_mem_cons.mpr ⟨⟨hsize, (a, n), .big hbig⟩, ?_⟩
    intro B hB
    obtain ⟨hB, r, hslot⟩ := hc.liveIn B hB
    exact ⟨hB, r, hslot.grown hc.ok hf v⟩
  · rw [map_cons, nodup_cons]
    refine ⟨fun hmem => ?_, hc.liveNodup⟩
    obtain ⟨B, hB, heq⟩ := mem_map.mp hmem
    obtain ⟨-, r, hslot⟩ := hc.liveIn B hB
    exact hout hslot heq
  · rw [map_cons, mem_cons, not_or, ← hc.slot (hcases hs) i hi]
    exact (and_iff_right (hout (.small (hcases hs) hi))).symm
  · rw [Heap.grown_arena hf hc.ok (hcases hs).held v]
    exact hc.count (hcases hs)

theorem Heap.Ok.held_nodup (hok : h.Ok) : h.held.Nodup := by
  refine hok.apart.imp_of_mem fun {r q} hr hq hrq heq => ?_
  subst heq
  have hmul := pages_le (hok.page r hr).2.2.1
  omega

/-- An arena without live blocks goes back: its blocks leave the free
lists with it. -/
theorem Core.drop (hc : Core h live) (hr : r ∈ h.held) (hheld : h'.held = h.held.erase r)
    (harena : ∀ a, a ≠ r.1 → h'.arena a = h.arena a)
    (hfree : ∀ d b, b ∈ h'.freeList d ↔ b ∈ h.freeList d ∧ covers r.1 (r.2 * pgsize) b = false)
    (hnd : ∀ d, (h'.freeList d).Nodup) (hsub : live'.Sublist live)
    (hlive : ∀ x, x ∈ live'.map Block.addr ↔
      x ∈ live.map Block.addr ∧ covers r.1 (r.2 * pgsize) x = false) : Core h' live' := by
  have hmem q : q ∈ h'.held ↔ q ≠ r ∧ q ∈ h.held := by
    rw [hheld]
    exact hc.ok.held_nodup.mem_erase_iff
  -- the other arenas start at other pages
  have hne : ∀ q ∈ h'.held, q.1 ≠ r.1 := by
    intro q hq heq
    obtain ⟨hqr, hq⟩ := (hmem q).mp hq
    have hmul := pages_le (hc.ok.page q hq).2.2.1
    have hmul' := pages_le (hc.ok.page r hr).2.2.1
    have := hc.ok.held_apart hq hr hqr
    omega
  have hsame : ∀ q ∈ h'.held, h'.arena q.1 = h.arena q.1 := fun q hq => harena q.1 (hne q hq)
  have hsmall : ∀ {a d D}, h'.Small a d D → h.Small a d D :=
    fun hs => hs.transfer ((hmem _).mp hs.held).2 (hsame _ hs.held).symm
  -- the arena of a slot outside the dropped range stays
  have hkeep {q p m} (hs : h.Slot q p m) (hout : covers r.1 (r.2 * pgsize) p = false) :
      q ∈ h'.held := by
    obtain ⟨hq, hlo, hhi, hm⟩ := hs.within hc.ok
    refine (hmem q).mpr ⟨?_, hq⟩
    rintro rfl
    simp only [covers, decide_eq_false_iff_not] at hout
    omega
  -- and a block of another arena is outside it
  have hother {a d i D} (hs : h'.Small a d D) (hi : i < D.blocksPerArena) :
      covers r.1 (r.2 * pgsize) (blockAt D a i) = false := by
    have hb := blockAt_bounds hs.known hi a
    have hsize := (desc_facts hs.known).1
    obtain ⟨har, ha⟩ := (hmem _).mp hs.held
    have := hc.ok.held_apart ha hr har
    simp only [covers, decide_eq_false_iff_not]
    omega
  refine ⟨⟨fun q hq => ?_, ?_⟩, fun d b hb => ?_, hnd, fun B hB => ?_,
    hc.liveNodup.sublist (hsub.map Block.addr), fun {a d D} hs i hi => ?_, fun {a d D} hs => ?_⟩
  · exact hc.ok.transfer ((hmem q).mp hq).2 hq (hsame q hq)
  · rw [hheld]
    exact hc.ok.apart.sublist erase_sublist
  · obtain ⟨hb, hout⟩ := (hfree d b).mp hb
    obtain ⟨a, D, i, hs, hi, rfl⟩ := hc.freeIn d b hb
    have hheld' := hkeep (.small hs hi) hout
    exact ⟨a, D, i, hs.transfer hheld' (hsame _ hheld'), hi, rfl⟩
  · obtain ⟨hsize, q, hslot⟩ := hc.liveIn B (hsub.mem hB)
    have hq := hkeep hslot ((hlive B.addr).mp (mem_map_of_mem hB)).2
    exact ⟨hsize, q, hslot.transfer hq (congrArg Arena.desc (hsame q hq))⟩
  · have hout := hother hs hi
    rw [hfree, hlive, hc.slot (hsmall hs) i hi, hout]
    simp
  · rw [hsame _ hs.held, hc.count (hsmall hs)]
    refine countP_congr fun b hb => ?_
    obtain ⟨i, hi, rfl⟩ := mem_blocksOf.mp hb
    have hout := hother hs hi
    simp [hfree, hout]

end Pintos.Malloc
