/-
`threads/palloc.c`: the page allocator and its two pools.

# Reading the model

Addresses are kernel virtual addresses as numbers. `start.S` asks the BIOS
for the size of memory and caps it at 64 MB, so the end of RAM is far
below the end of the address space and no address wraps. A pool keeps the
address of its `used_map` beside the map, since `init_pool` carves the map
out of the pool; `contents` is what the words of the map's buffer hold
before they are cleared. `none` is a panic or a failed assertion.

The allocator's lock makes a call one step; `live` is the record of the
ranges that have been handed out and not been freed.

# The invariant

A bit of a `used_map` is set iff its page belongs to a live range. The
rest is arithmetic between addresses, page numbers and bit indices, which
`pgNo_page` does once: page `i` of a pool is the page `i` after its base.
-/
import Pintos.Data.Bitmap
import Pintos.Lib.Transition

namespace Pintos

open List Option Bitmap

-- ==== bitmaps

namespace Bitmap

/-- `bitmap_buf_size`. -/
def bufSize (bitCnt : Nat) : Nat := 8 + 4 * ((bitCnt + 31) / 32)

/-- `bitmap_set_all`. -/
def setAll (b : Bitmap) (value : Bool) : Bitmap := b.setMultiple 0 b.bitCnt value

/-- `bitmap_create_in_buf`. -/
def createInBuf (bitCnt : Nat) (contents : Nat → BitVec 32) (blockSize : Nat) : Option Bitmap :=
  if bufSize bitCnt ≤ blockSize then some (setAll ⟨bitCnt, contents⟩ false)
  else none

end Bitmap

namespace Palloc

open Transition

-- ==== addresses

def pgsize : Nat := 4096

def physBase : Nat := 0xc0000000

def pgOfs (va : Nat) : Nat := va % pgsize

def pgNo (va : Nat) : Nat := va / pgsize

/-- `ptov`. -/
def ptov (paddr : Nat) : Option Nat :=
  if paddr < physBase then some (paddr + physBase) else none

/-- `start.S`: the pages of RAM from the BIOS's count of kB above 1 MB. -/
def ramPages (ax : BitVec 16) : Nat := min (ax.toNat + 1024) 0x10000 / 4

-- ==== pools

/-- `struct pool`, with the address of its map. -/
structure Pool where
  mapAddr : Nat
  usedMap : Bitmap
  base : Nat

/-- The two pools, and memory. -/
structure State where
  initRamPages : Nat
  kernelPool : Pool
  userPool : Pool
  memory : Nat → UInt8

/-- `enum palloc_flags`. -/
structure Flags where
  assert : Bool
  zero : Bool
  user : Bool

def State.pool (s : State) (user : Bool) : Pool :=
  if user then s.userPool else s.kernelPool

def State.setMap (s : State) (user : Bool) (b : Bitmap) : State :=
  if user then { s with userPool := { s.userPool with usedMap := b } }
  else { s with kernelPool := { s.kernelPool with usedMap := b } }

/-- `memset`. -/
def State.memset (s : State) (dst : Nat) (value : UInt8) (size : Nat) : State :=
  { s with memory := fun a =>
      if dst ≤ a ∧ a < dst + size then value else s.memory a }

/-- `init_pool`. -/
def initPool (contents : Nat → BitVec 32) (base pageCnt : Nat) : Option Pool :=
  let bmPages := (bufSize pageCnt + pgsize - 1) / pgsize
  if pageCnt < bmPages then none
  else
    match createInBuf (pageCnt - bmPages) contents (bmPages * pgsize) with
    | none => none
    | some b => some ⟨base, b, base + bmPages * pgsize⟩

/-- `palloc_init`. -/
def pallocInit (initRamPages userPageLimit : Nat)
    (contents : Nat → Nat → BitVec 32) (memory : Nat → UInt8) :
    Option State :=
  match ptov (1024 * 1024), ptov (initRamPages * pgsize) with
  | some freeStart, some freeEnd =>
    let freePages := (freeEnd - freeStart) / pgsize
    let userPages := min (freePages / 2) userPageLimit
    let kernelPages := freePages - userPages
    let userBase := freeStart + kernelPages * pgsize
    match initPool (contents freeStart) freeStart kernelPages,
        initPool (contents userBase) userBase userPages with
    | some k, some u => some ⟨initRamPages, k, u, memory⟩
    | _, _ => none
  | _, _ => none

/-- `palloc_get_multiple`: the address returned, or null. -/
def pallocGetMultiple (s : State) (flags : Flags) (pageCnt : Nat) : Option (Option Nat × State) :=
  if pageCnt = 0 then some (none, s)
  else
    let pool := s.pool flags.user
    match pool.usedMap.scanAndFlip 0 pageCnt false with
    | (some pageIdx, b) =>
      let pages := pool.base + pgsize * pageIdx
      let s := s.setMap flags.user b
      some (some pages,
        if flags.zero then s.memset pages 0 (pgsize * pageCnt) else s)
    | (none, _) => if flags.assert then none else some (none, s)

/-- `page_from_pool`. -/
def pageFromPool (pool : Pool) (page : Nat) : Bool :=
  decide (pgNo pool.base ≤ pgNo page) && decide (pgNo page < pgNo pool.base + pool.usedMap.bitCnt)

/-- `palloc_free_multiple` from where it has found the pool. -/
def freeIn (s : State) (user : Bool) (pages pageCnt : Nat) : Option State :=
  let pool := s.pool user
  let pageIdx := pgNo pages - pgNo pool.base
  if pool.usedMap.all pageIdx pageCnt then
    some ((s.memset pages 0xcc (pgsize * pageCnt)).setMap user
      (pool.usedMap.setMultiple pageIdx pageCnt false))
  else none

/-- `palloc_free_multiple`. -/
def pallocFreeMultiple (s : State) (pages pageCnt : Nat) : Option State :=
  if pgOfs pages ≠ 0 then none
  else if pages = 0 ∨ pageCnt = 0 then some s
  else if pageFromPool s.kernelPool pages then freeIn s false pages pageCnt
  else if pageFromPool s.userPool pages then freeIn s true pages pageCnt
  else none

-- ==== runs

/-- A range that was handed out. -/
structure Range where
  pages : Nat
  pageCnt : Nat
  user : Bool
  deriving DecidableEq

structure World where
  alloc : State
  live : List Range

inductive Action where
  | get (flags : Flags) (pageCnt : Nat)
  | free (r : Range)

/-- A call on the allocator; a range may be freed while it is live. -/
def step : Action → World → Option World
  | .get flags pageCnt, w =>
    match pallocGetMultiple w.alloc flags pageCnt with
    | none => none
    | some (none, s) => some { w with alloc := s }
    | some (some pages, s) => some ⟨s, ⟨pages, pageCnt, flags.user⟩ :: w.live⟩
  | .free r, w =>
    if r ∈ w.live then
      (pallocFreeMultiple w.alloc r.pages r.pageCnt).map fun s => ⟨s, w.live.erase r⟩
    else none

/-- `palloc_init` with any RAM and any limit that it accepts. -/
def Start (w : World) : Prop :=
  ∃ ax userPageLimit contents memory,
    pallocInit (ramPages ax) userPageLimit contents memory = some w.alloc ∧
    w.live = []

-- ==== what is promised

/-- A range of pages by page number. -/
structure Pages where
  start : Nat
  cnt : Nat

instance : Membership Nat Pages := ⟨fun ps p => ps.start ≤ p ∧ p < ps.start + ps.cnt⟩

def Pages.Disjoint (a b : Pages) : Prop := ∀ p ∈ a, p ∉ b

/-- The pages a pool hands out, and the pages of its map. -/
def Pool.pages (p : Pool) : Pages := ⟨pgNo p.base, p.usedMap.bitCnt⟩

def Pool.mapPages (p : Pool) : Pages := ⟨pgNo p.mapAddr, pgNo p.base - pgNo p.mapAddr⟩

def Range.toPages (r : Range) : Pages := ⟨pgNo r.pages, r.pageCnt⟩

/-- Pools and maps lie apart, between 1 MB and the end of RAM, on page
boundaries, and the maps fit. -/
structure Apart (s : State) : Prop where
  disjoint : [s.kernelPool.mapPages, s.kernelPool.pages,
    s.userPool.mapPages, s.userPool.pages].Pairwise Pages.Disjoint
  inRam : ∀ ps ∈ [s.kernelPool.mapPages, s.kernelPool.pages,
    s.userPool.mapPages, s.userPool.pages], ∀ p ∈ ps,
      pgNo (physBase + 1024 * 1024) ≤ p ∧ p < pgNo (physBase + s.initRamPages * pgsize)
  aligned : ∀ user, pgOfs (s.pool user).mapAddr = 0 ∧ pgOfs (s.pool user).base = 0
  fits : ∀ user, (s.pool user).mapAddr + bufSize (s.pool user).usedMap.bitCnt ≤ (s.pool user).base

/-- A page of a pool whose bit is clear. -/
def Available (s : State) (user : Bool) (p : Nat) : Prop :=
  p ∈ (s.pool user).pages ∧ (s.pool user).usedMap.test (p - pgNo (s.pool user).base) = false

/-- So many available pages in a row. -/
def HasRun (s : State) (user : Bool) (n : Nat) : Prop :=
  ∃ start, ∀ p ∈ (⟨start, n⟩ : Pages), Available s user p

-- ==== the updates

@[simp] theorem State.memset_pool (s : State) (dst : Nat) (v : UInt8)
    (size : Nat) (user : Bool) : (s.memset dst v size).pool user = s.pool user :=
  rfl

theorem State.setMap_pool (s : State) (user user' : Bool) (b : Bitmap) :
    (s.setMap user b).pool user' =
      if user' = user then { s.pool user with usedMap := b }
      else s.pool user' := by
  cases user <;> cases user' <;> rfl

/-- An update that leaves the shape of the pools alone. -/
structure SameShape (s s' : State) : Prop where
  ram : s'.initRamPages = s.initRamPages
  mapAddr : ∀ user, (s'.pool user).mapAddr = (s.pool user).mapAddr
  base : ∀ user, (s'.pool user).base = (s.pool user).base
  bitCnt : ∀ user, (s'.pool user).usedMap.bitCnt = (s.pool user).usedMap.bitCnt

theorem sameShape_setMap (s : State) (user : Bool) {b : Bitmap}
    (hb : b.bitCnt = (s.pool user).usedMap.bitCnt) : SameShape s (s.setMap user b) := by
  constructor
  · cases user <;> rfl
  all_goals
    intro user'
    rw [s.setMap_pool]
    split
  · rename_i h
    rw [h]
  · rfl
  · rename_i h
    rw [h]
  · rfl
  · rename_i h
    rw [h, ← hb]
  · rfl

variable {s s' : State} {user : Bool} {n : Nat}

theorem SameShape.pages (h : SameShape s s') (user : Bool) :
    (s'.pool user).pages = (s.pool user).pages := by
  rw [Pool.pages, Pool.pages, h.base, h.bitCnt]

theorem SameShape.mapPages (h : SameShape s s') (user : Bool) :
    (s'.pool user).mapPages = (s.pool user).mapPages := by
  rw [Pool.mapPages, Pool.mapPages, h.base, h.mapAddr]

theorem Apart.of_sameShape (ha : Apart s) (h : SameShape s s') : Apart s' := by
  have hkm : s'.kernelPool.mapPages = s.kernelPool.mapPages := h.mapPages false
  have hum : s'.userPool.mapPages = s.userPool.mapPages := h.mapPages true
  have hk : s'.kernelPool.pages = s.kernelPool.pages := h.pages false
  have hu : s'.userPool.pages = s.userPool.pages := h.pages true
  constructor
  · rw [hkm, hum, hk, hu]
    exact ha.disjoint
  · rw [hkm, hum, hk, hu, h.ram]
    exact ha.inRam
  · intro user
    rw [h.mapAddr, h.base]
    exact ha.aligned user
  · intro user
    rw [h.mapAddr, h.base, h.bitCnt]
    exact ha.fits user

-- ==== the start

variable {pageCnt p pages : Nat} {r : Range}

/-- What `init_pool` sets up: the map at the start, the pages behind it,
all of them free. -/
theorem initPool_spec {contents : Nat → BitVec 32} {base : Nat}
    {p : Pool} (h : initPool contents base pageCnt = some p) :
    ∃ bmPages ≤ pageCnt, p.mapAddr = base ∧
      p.base = base + bmPages * pgsize ∧
      p.usedMap.bitCnt = pageCnt - bmPages ∧
      bufSize p.usedMap.bitCnt ≤ bmPages * pgsize ∧
      ∀ i, i < p.usedMap.bitCnt → p.usedMap.test i = false := by
  unfold initPool createInBuf at h
  obtain ⟨hroom, h⟩ := ite_none_left_eq_some.mp h
  split at h
  case h_1 => cases h
  case h_2 b hb =>
    split at hb
    case isFalse => cases hb
    case isTrue hfit =>
      cases hb
      cases h
      have hcnt n c : (setAll ⟨n, c⟩ false).bitCnt = n := by
        exact setMultiple_bitCnt _ _ _ _
      refine ⟨_, Nat.le_of_not_lt hroom, rfl, rfl, hcnt _ _, ?_, ?_⟩
      · rw [hcnt]
        exact hfit
      · intro i hi
        rw [hcnt] at hi
        rw [setAll, test_setMultiple, if_pos]
        exact ⟨Nat.zero_le i, by simpa using hi⟩

theorem mem_pages {ps : Pages} : p ∈ ps ↔ ps.start ≤ p ∧ p < ps.start + ps.cnt := Iff.rfl

@[simp] theorem pgNo_mul (n : Nat) : pgNo (pgsize * n) = n := Nat.mul_div_cancel_left n (by decide)

@[simp] theorem pgOfs_mul (n : Nat) : pgOfs (pgsize * n) = 0 := Nat.mul_mod_right pgsize n

/-- Two pools one behind the other, each with its map in front. -/
theorem Apart.of_layout {start bk kp bu up : Nat} (hstart : start = pgNo (physBase + 1024 * 1024))
    (hend : start + kp + up = pgNo (physBase + s.initRamPages * pgsize)) (hbk : bk ≤ kp)
    (hbu : bu ≤ up) (hkm : s.kernelPool.mapAddr = pgsize * start)
    (hkb : s.kernelPool.base = pgsize * (start + bk)) (hkc : s.kernelPool.usedMap.bitCnt = kp - bk)
    (hkf : bufSize (kp - bk) ≤ pgsize * bk) (hum : s.userPool.mapAddr = pgsize * (start + kp))
    (hub : s.userPool.base = pgsize * (start + kp + bu)) (huc : s.userPool.usedMap.bitCnt = up - bu)
    (huf : bufSize (up - bu) ≤ pgsize * bu) : Apart s := by
  have h1 : s.kernelPool.mapPages = ⟨start, bk⟩ := by simp [Pool.mapPages, hkm, hkb]
  have h2 : s.kernelPool.pages = ⟨start + bk, kp - bk⟩ := by simp [Pool.pages, hkb, hkc]
  have h3 : s.userPool.mapPages = ⟨start + kp, bu⟩ := by simp [Pool.mapPages, hum, hub]
  have h4 : s.userPool.pages = ⟨start + kp + bu, up - bu⟩ := by simp [Pool.pages, hub, huc]
  constructor
  · rw [h1, h2, h3, h4]
    simp only [pairwise_cons, mem_cons, not_mem_nil,
      or_false, forall_eq_or_imp, forall_eq, Pages.Disjoint, mem_pages]
    refine ⟨⟨?_, ?_, ?_⟩, ⟨?_, ?_⟩, ?_, ?_⟩
    all_goals first
      | (intro p hp hq; omega)
      | simp
  · rw [h1, h2, h3, h4, ← hstart, ← hend]
    simp only [mem_cons, not_mem_nil, or_false, forall_eq_or_imp, forall_eq, mem_pages]
    refine ⟨?_, ?_, ?_, ?_⟩
    all_goals
      intro p hp
      omega
  · intro user
    cases user
    · exact ⟨hkm ▸ pgOfs_mul _, hkb ▸ pgOfs_mul _⟩
    · exact ⟨hum ▸ pgOfs_mul _, hub ▸ pgOfs_mul _⟩
  · intro user
    cases user
    · change s.kernelPool.mapAddr + bufSize s.kernelPool.usedMap.bitCnt ≤ s.kernelPool.base
      rw [hkm, hkb, hkc, Nat.mul_add]
      exact Nat.add_le_add_left hkf _
    · change s.userPool.mapAddr + bufSize s.userPool.usedMap.bitCnt ≤ s.userPool.base
      rw [hum, hub, huc, Nat.mul_add pgsize (start + kp)]
      exact Nat.add_le_add_left huf _

/-- The pools that `palloc_init` sets up. -/
theorem pallocInit_spec {ram limit : Nat} {contents : Nat → Nat → BitVec 32} {memory : Nat → UInt8}
    (hlo : 256 ≤ ram) (h : pallocInit ram limit contents memory = some s) :
    Apart s ∧ ∀ user i, i < (s.pool user).usedMap.bitCnt →
      (s.pool user).usedMap.test i = false := by
  unfold pallocInit ptov at h
  split at h
  case h_2 => cases h
  case h_1 freeStart freeEnd hs he =>
    cases hs
    obtain ⟨hram, ⟨⟩⟩ := ite_none_right_eq_some.mp he
    have hfree : (ram * pgsize + physBase - (1024 * 1024 + physBase)) / pgsize = ram - 256 := by
      unfold pgsize
      omega
    have hstart : 1024 * 1024 + physBase = pgsize * 786688 := rfl
    rw [hfree, hstart] at h
    dsimp only at h
    split at h
    case h_2 => cases h
    case h_1 k u hk hu =>
      cases h
      obtain ⟨bk, hbk, hkm, hkb, hkc, hkf, hkt⟩ := initPool_spec hk
      obtain ⟨bu, hbu, hum, hub, huc, huf, hut⟩ := initPool_spec hu
      have hpage : 786688 = pgNo (physBase + 1024 * 1024) := rfl
      refine ⟨Apart.of_layout hpage ?_ hbk hbu hkm ?_ hkc ?_ ?_ ?_ huc ?_, ?_⟩
      · change _ = (physBase + ram * pgsize) / pgsize
        unfold pgsize physBase
        omega
      · rw [Nat.mul_add, Nat.mul_comm pgsize bk]
        exact hkb
      · rw [← hkc, Nat.mul_comm]
        exact hkf
      · rw [Nat.mul_add, Nat.mul_comm pgsize (ram - 256 - _)]
        exact hum
      · rw [Nat.mul_add, Nat.mul_add, Nat.mul_comm pgsize (ram - 256 - _), Nat.mul_comm pgsize bu]
        exact hub
      · rw [← huc, Nat.mul_comm]
        exact huf
      · intro user i hi
        cases user
        · exact hkt i hi
        · exact hut i hi

-- ==== the invariant

/-- The available pages are those of the pools that no live range has. -/
structure Inv (w : World) : Prop where
  apart : Apart w.alloc
  inPool : ∀ r ∈ w.live, pgOfs r.pages = 0 ∧ 0 < r.pageCnt ∧
    ∀ p ∈ r.toPages, p ∈ (w.alloc.pool r.user).pages
  disjoint : w.live.Pairwise fun a b => a.toPages.Disjoint b.toPages
  available : ∀ user p, Available w.alloc user p ↔
    p ∈ (w.alloc.pool user).pages ∧ ∀ r ∈ w.live, p ∉ r.toPages

/-- A page belongs to one pool. -/
theorem Apart.user_eq (h : Apart s) {u v : Bool}
    (hu : p ∈ (s.pool u).pages) (hv : p ∈ (s.pool v).pages) : u = v := by
  have hd := h.disjoint
  simp only [pairwise_cons, mem_cons, not_mem_nil, or_false, forall_eq_or_imp, forall_eq] at hd
  cases u <;> cases v
  · rfl
  · exact absurd hv (hd.2.1.2 p hu)
  · exact absurd hu (hd.2.1.2 p hv)
  · rfl

/-- Page `i` of a pool is the page `i` after its base. -/
theorem pgNo_page (h : Apart s) (user : Bool) (i : Nat) :
    pgNo ((s.pool user).base + pgsize * i) = pgNo (s.pool user).base + i ∧
      pgOfs ((s.pool user).base + pgsize * i) = 0 := by
  have hbase := (h.aligned user).2
  unfold pgNo pgOfs pgsize at *
  omega

variable {w : World}

theorem start_inv (h : Start w) : Inv w := by
  obtain ⟨ax, limit, contents, memory, hinit, hlive⟩ := h
  obtain ⟨hapart, hclear⟩ := pallocInit_spec (by unfold ramPages; omega) hinit
  refine ⟨hapart, ?_, ?_, ?_⟩
  · rw [hlive]
    exact nofun
  · rw [hlive]
    exact List.Pairwise.nil
  · intro user p
    refine and_congr_right fun hp => ?_
    have hi : p - pgNo (w.alloc.pool user).base < (w.alloc.pool user).usedMap.bitCnt := by
      have hlo : pgNo (w.alloc.pool user).base ≤ p := hp.1
      have hhi : p < pgNo (w.alloc.pool user).base + (w.alloc.pool user).usedMap.bitCnt := hp.2
      omega
    rw [hclear user _ hi, hlive]
    simp

/-- Setting or clearing the bits of a range of pages. -/
theorem available_setMultiple (s : State) (user user' : Bool) (i n p : Nat) (v : Bool) :
    Available (s.setMap user
        ((s.pool user).usedMap.setMultiple i n v)) user' p ↔
      p ∈ (s.pool user').pages ∧
      if user' = user ∧ pgNo (s.pool user).base + i ≤ p ∧
        p < pgNo (s.pool user).base + i + n then v = false
      else (s.pool user').usedMap.test (p - pgNo (s.pool user').base) = false := by
  have hshape : SameShape s (s.setMap user ((s.pool user).usedMap.setMultiple i n v)) :=
    sameShape_setMap s user (setMultiple_bitCnt _ _ _ _)
  unfold Available
  rw [hshape.pages, hshape.base]
  refine and_congr_right fun hp => ?_
  have hlo : pgNo (s.pool user').base ≤ p := hp.1
  rw [s.setMap_pool]
  by_cases hu : user' = user
  · subst hu
    rw [if_pos rfl]
    rw [test_setMultiple]
    by_cases hin : pgNo (s.pool user').base + i ≤ p ∧ p < pgNo (s.pool user').base + i + n
    · rw [if_pos (by omega), if_pos ⟨rfl, hin⟩]
    · rw [if_neg (by omega), if_neg fun h => hin h.2]
  · rw [if_neg hu, if_neg fun h => hu h.1]

-- ==== getting

/-- What a call that returns pages did: it took free pages of the pool it
was told to take them from, and no others. -/
structure Got (s : State) (user : Bool) (n pages : Nat) (s' : State) : Prop where
  shape : SameShape s s'
  aligned : pgOfs pages = 0
  positive : 0 < n
  free : ∀ p ∈ (⟨pgNo pages, n⟩ : Pages), Available s user p
  taken : ∀ user' p, Available s' user' p ↔ Available s user' p ∧
    ¬ (user' = user ∧ p ∈ (⟨pgNo pages, n⟩ : Pages))

theorem got_of_scan (ha : Apart s) {i : Nat} (hn : n ≠ 0)
    (h : (s.pool user).usedMap.scan 0 n false = some i) :
    Got s user n ((s.pool user).base + pgsize * i)
      (s.setMap user ((s.pool user).usedMap.setMultiple i n true)) := by
  obtain ⟨-, hfit, hclear⟩ := scan_some h
  obtain ⟨hno, hofs⟩ := pgNo_page ha user i
  refine ⟨sameShape_setMap s user (setMultiple_bitCnt _ _ _ _), hofs, Nat.pos_of_ne_zero hn, ?_, ?_⟩
  · intro p hp
    rw [hno] at hp
    have hlo : pgNo (s.pool user).base + i ≤ p := hp.1
    have hhi : p < pgNo (s.pool user).base + i + n := hp.2
    have hbit := hclear (p - pgNo (s.pool user).base - i) (by omega)
    rw [show i + (p - pgNo (s.pool user).base - i) = p - pgNo (s.pool user).base by omega] at hbit
    refine ⟨⟨?_, ?_⟩, hbit⟩
    · change pgNo (s.pool user).base ≤ p
      omega
    · change p < pgNo (s.pool user).base + (s.pool user).usedMap.bitCnt
      omega
  · intro user' p
    rw [available_setMultiple, hno, Available, and_assoc]
    refine and_congr_right fun _ => ?_
    by_cases hin : user' = user ∧ pgNo (s.pool user).base + i ≤ p ∧
        p < pgNo (s.pool user).base + i + n
    · rw [if_pos hin]
      constructor
      · nofun
      · intro h
        exact absurd hin h.2
    · rw [if_neg hin]
      exact (and_iff_left hin).symm

theorem Got.memset (h : Got s user n pages s') (dst : Nat)
    (v : UInt8) (size : Nat) : Got s user n pages (s'.memset dst v size) :=
  ⟨⟨h.shape.ram, h.shape.mapAddr, h.shape.base, h.shape.bitCnt⟩, h.aligned,
    h.positive, h.free, h.taken⟩

theorem no_run_of_scan (hn : n ≠ 0)
    (h : (s.pool user).usedMap.scan 0 n false = none) : ¬ HasRun s user n := by
  intro hrun
  obtain ⟨start, hall⟩ := hrun
  have hpos : 0 < n := Nat.pos_of_ne_zero hn
  have hin j (hj : j < n) : Available s user (start + j) := by
    exact hall (start + j) ⟨Nat.le_add_right _ _, Nat.add_lt_add_left hj _⟩
  have hfirst : pgNo (s.pool user).base ≤ start := (hin 0 hpos).1.1
  have hlast : start + (n - 1) < pgNo (s.pool user).base +
      (s.pool user).usedMap.bitCnt := (hin (n - 1) (by omega)).1.2
  obtain ⟨j, hj, hset⟩ := scan_none h (Nat.zero_le (start - pgNo (s.pool user).base)) (by omega)
  have hclear := (hin j hj).2
  rw [show start + j - pgNo (s.pool user).base =
    start - pgNo (s.pool user).base + j by omega, hset] at hclear
  cases hclear

/-- What a call to `palloc_get_multiple` does. -/
def GetSpec (s : State) (flags : Flags) (n : Nat) : Prop :=
  match pallocGetMultiple s flags n with
  | none => flags.assert = true ∧ n ≠ 0 ∧ ¬ HasRun s flags.user n
  | some (none, s') => s' = s ∧ (n = 0 ∨ ¬ HasRun s flags.user n)
  | some (some pages, s') => Got s flags.user n pages s'

theorem getSpec (ha : Apart s) (flags : Flags) (n : Nat) : GetSpec s flags n := by
  unfold GetSpec pallocGetMultiple scanAndFlip
  by_cases hn : n = 0
  · rw [if_pos hn]
    exact ⟨rfl, .inl hn⟩
  · rw [if_neg hn]
    dsimp only
    cases hscan : (s.pool flags.user).usedMap.scan 0 n false with
    | none =>
      have hno := no_run_of_scan hn hscan
      by_cases hassert : flags.assert = true
      · rw [if_pos hassert]
        exact ⟨hassert, hn, hno⟩
      · rw [if_neg hassert]
        exact ⟨rfl, .inr hno⟩
    | some i =>
      have hgot := got_of_scan ha hn hscan
      dsimp only
      split
      · exact hgot.memset _ _ _
      · exact hgot

theorem Inv.get (h : Inv w) (hgot : Got w.alloc user n pages s') :
    Inv ⟨s', ⟨pages, n, user⟩ :: w.live⟩ := by
  have hfree : ∀ p ∈ (⟨pgNo pages, n⟩ : Pages),
      p ∈ (w.alloc.pool user).pages ∧ ∀ r ∈ w.live, p ∉ r.toPages :=
    fun p hp => (h.available user p).mp (hgot.free p hp)
  refine ⟨h.apart.of_sameShape hgot.shape, ?_, ?_, ?_⟩
  · rw [forall_mem_cons]
    refine ⟨⟨hgot.aligned, hgot.positive, ?_⟩, ?_⟩
    · intro p hp
      rw [hgot.shape.pages]
      exact (hfree p hp).1
    · intro r hr
      obtain ⟨hofs, hpos, hin⟩ := h.inPool r hr
      refine ⟨hofs, hpos, fun p hp => ?_⟩
      rw [hgot.shape.pages]
      exact hin p hp
  · refine pairwise_cons.mpr ⟨fun r hr p hp => ?_, h.disjoint⟩
    exact (hfree p hp).2 r hr
  · intro user' p
    rw [hgot.taken, h.available, hgot.shape.pages, forall_mem_cons, and_assoc]
    refine and_congr_right fun hp => ?_
    rw [and_comm]
    refine and_congr_left fun _ => ?_
    constructor
    · intro hnot hin
      refine hnot ⟨?_, hin⟩
      exact h.apart.user_eq hp (hfree p hin).1
    · intro hnot hin
      exact hnot hin.2

-- ==== freeing

/-- What freeing a range does: it makes its pages available. -/
structure Freed (s : State) (r : Range) (s' : State) : Prop where
  shape : SameShape s s'
  given : ∀ user p, Available s' user p ↔ Available s user p ∨ user = r.user ∧ p ∈ r.toPages

theorem pageFromPool_iff (p : Pool) (page : Nat) :
    pageFromPool p page = true ↔ pgNo page ∈ p.pages := by
  simp [pageFromPool, mem_pages, Pool.pages]

/-- The pool of a page is found. -/
theorem pallocFreeMultiple_eq (ha : Apart s) (hofs : pgOfs pages = 0) (hpos : 0 < pageCnt)
    (hin : pgNo pages ∈ (s.pool user).pages) :
    pallocFreeMultiple s pages pageCnt = freeIn s user pages pageCnt := by
  have hmem : (s.pool user).pages ∈ [s.kernelPool.mapPages,
      s.kernelPool.pages, s.userPool.mapPages, s.userPool.pages] := by
    cases user <;> simp [State.pool]
  have hram : 786688 ≤ pgNo pages := (ha.inRam _ hmem _ hin).1
  have hne : ¬ (pages = 0 ∨ pageCnt = 0) := by
    intro h
    obtain rfl | rfl := h
    · exact absurd hram (by decide)
    · exact absurd hpos (Nat.lt_irrefl 0)
  rw [pallocFreeMultiple, if_neg (not_not.mpr hofs), if_neg hne]
  cases user with
  | false => exact if_pos ((pageFromPool_iff _ _).mpr hin)
  | true =>
    have hnot : ¬ pageFromPool s.kernelPool pages = true := by
      intro h
      have hk : pgNo pages ∈ (s.pool false).pages := (pageFromPool_iff _ _).mp h
      cases ha.user_eq hk hin
    rw [if_neg hnot]
    exact if_pos ((pageFromPool_iff _ _).mpr hin)

/-- A live range is found in its pool and passes the assertions. -/
theorem Inv.free (h : Inv w) (hr : r ∈ w.live) :
    ∃ s', pallocFreeMultiple w.alloc r.pages r.pageCnt = some s' ∧ Freed w.alloc r s' := by
  obtain ⟨hofs, hpos, hin⟩ := h.inPool r hr
  have hfirst := hin (pgNo r.pages) ⟨Nat.le_refl _, Nat.lt_add_of_pos_right hpos⟩
  have hlo : pgNo (w.alloc.pool r.user).base ≤ pgNo r.pages := hfirst.1
  rw [pallocFreeMultiple_eq h.apart hofs hpos hfirst]
  -- every page of the range has its bit set, being in a live range
  have hall : (w.alloc.pool r.user).usedMap.all
      (pgNo r.pages - pgNo (w.alloc.pool r.user).base) r.pageCnt = true := by
    refine all_iff.mpr fun i hi => ?_
    have hp : pgNo r.pages + i ∈ r.toPages := ⟨Nat.le_add_right _ _, Nat.add_lt_add_left hi _⟩
    by_contra hclear
    have hav : Available w.alloc r.user (pgNo r.pages + i) := by
      refine ⟨hin _ hp, ?_⟩
      rw [show pgNo r.pages + i - pgNo (w.alloc.pool r.user).base =
        pgNo r.pages - pgNo (w.alloc.pool r.user).base + i by omega]
      exact Bool.eq_false_iff.mpr hclear
    exact ((h.available _ _).mp hav).2 r hr hp
  refine ⟨_, if_pos hall, ?_, ?_⟩
  · obtain ⟨hram, hmap, hbase, hcnt⟩ := sameShape_setMap
      (w.alloc.memset r.pages 0xcc (pgsize * r.pageCnt)) r.user (setMultiple_bitCnt _ _ _ _)
    exact ⟨hram, hmap, hbase, hcnt⟩
  · intro user p
    refine (available_setMultiple (w.alloc.memset _ _ _) r.user user _ _ _ _).trans ?_
    simp only [State.memset_pool]
    have hbase : pgNo (w.alloc.pool r.user).base + (pgNo r.pages -
        pgNo (w.alloc.pool r.user).base) = pgNo r.pages := by omega
    rw [hbase]
    split
    next hmem =>
      constructor
      · intro _
        exact .inr hmem
      · intro _
        exact ⟨hmem.1 ▸ hin p hmem.2, trivial⟩
    next hmem => exact (or_iff_left hmem).symm

theorem Inv.erase (h : Inv w) (hr : r ∈ w.live)
    (hfreed : Freed w.alloc r s') : Inv ⟨s', w.live.erase r⟩ := by
  have hperm : w.live.Perm (r :: w.live.erase r) := perm_cons_erase hr
  have hdis : (r :: w.live.erase r).Pairwise fun a b => a.toPages.Disjoint b.toPages :=
    (hperm.pairwise_iff fun hab p hb ha => hab p ha hb).mp h.disjoint
  rw [pairwise_cons] at hdis
  refine ⟨h.apart.of_sameShape hfreed.shape, ?_, hdis.2, ?_⟩
  · intro q hq
    obtain ⟨hofs, hpos, hin⟩ := h.inPool q (mem_of_mem_erase hq)
    refine ⟨hofs, hpos, fun p hp => ?_⟩
    rw [hfreed.shape.pages]
    exact hin p hp
  · intro user p
    rw [hfreed.given, h.available, hfreed.shape.pages]
    constructor
    · intro hp
      obtain ⟨hp, hno⟩ | ⟨rfl, hp⟩ := hp
      · exact ⟨hp, fun q hq => hno q (mem_of_mem_erase hq)⟩
      · exact ⟨(h.inPool r hr).2.2 p hp, fun q hq => hdis.1 q hq p hp⟩
    · intro hp
      by_cases hpr : p ∈ r.toPages
      · exact .inr ⟨h.apart.user_eq hp.1 ((h.inPool r hr).2.2 p hpr), hpr⟩
      · refine .inl ⟨hp.1, fun q hq hpq => ?_⟩
        obtain rfl | hq := mem_cons.mp (hperm.mem_iff.mp hq)
        · exact hpr hpq
        · exact hp.2 q hq hpq

-- ==== runs

theorem Inv.step (h : Inv w) {a : Action} {w' : World} (hs : step a w = some w') : Inv w' := by
  cases a with
  | get flags n =>
    have hspec := getSpec h.apart flags n
    simp only [Palloc.step, GetSpec] at hs hspec
    cases hget : pallocGetMultiple w.alloc flags n with
    | none => simp [hget] at hs
    | some res =>
      obtain ⟨res, s'⟩ := res
      rw [hget] at hs hspec
      cases res with
      | none =>
        cases hs
        rw [hspec.1]
        exact h
      | some pages =>
        cases hs
        exact h.get hspec
  | free r =>
    obtain ⟨hr, hs⟩ := ite_none_right_eq_some.mp hs
    obtain ⟨s', heq, hfreed⟩ := h.free hr
    rw [heq] at hs
    cases hs
    exact h.erase hr hfreed

/-- In every state that calls on the allocator lead to: pools and maps lie
apart in RAM, the live ranges lie apart and the available pages are the
others; a call returns available pages of its pool, or null if there are
not enough in a row; and a live range can be freed, which makes its pages
available and no others. -/
theorem pages_are_exclusive {w : World} (h : Reach Start step anyStep w) :
    Apart w.alloc ∧
    w.live.Pairwise (fun a b => a.toPages.Disjoint b.toPages) ∧
    (∀ user p, Available w.alloc user p ↔
      p ∈ (w.alloc.pool user).pages ∧ ∀ r ∈ w.live, p ∉ r.toPages) ∧
    (∀ flags n, GetSpec w.alloc flags n) ∧
    ∀ r ∈ w.live, ∃ s',
      pallocFreeMultiple w.alloc r.pages r.pageCnt = some s' ∧
      Freed w.alloc r s' := by
  have hinv : Inv w := by
    refine Reach.induct (P := Inv) ?_ ?_ w h
    · intro w hw
      exact start_inv hw
    · intro a w w' _ hw _ hs
      exact hw.step hs
  exact ⟨hinv.apart, hinv.disjoint, hinv.available,
    fun flags n => getSpec hinv.apart flags n, fun r hr => hinv.free hr⟩

/-- 2 MB of RAM: two pages in a row, one page for a user, and the two
pages freed. -/
theorem pages_are_exclusive_after_free : ∃ w, Reach Start step anyStep w ∧
    w.live = [⟨physBase + 0x1c1000, 1, true⟩] ∧ Apart w.alloc := by
  have hrun : ∃ s ∈ pallocInit (ramPages 1024) 64 (fun _ _ => 0) fun _ => 0,
      ∃ w ∈ runAll (guarded step anyStep) [.get ⟨false, true, false⟩ 2, .get ⟨true, false, true⟩ 1,
        .free ⟨physBase + 0x101000, 2, false⟩] ⟨s, []⟩,
        w.live = [⟨physBase + 0x1c1000, 1, true⟩] := by
    decide +kernel
  obtain ⟨s, hs, hrun⟩ := hrun
  have hboot : Reach Start step anyStep ⟨s, []⟩ := .init ⟨1024, 64, _, _, hs, rfl⟩
  obtain ⟨w, hw, hp⟩ := hboot.of_runAll _ _ hrun
  exact ⟨w, hw, hp, (pages_are_exclusive hw).1⟩

end Palloc

end Pintos
