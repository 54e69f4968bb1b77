/-
`malloc`, `calloc`, `realloc` and `free` on a heap with the invariant.

# Shape of the argument

`malloc_spec` and `free_spec` say what the two calls do: they succeed or
return null, never fail an assertion, keep the invariant, and leave the
bytes of the blocks that stay live alone (`Frame`). `realloc` is made of
the two, and its promise about the bytes is the frame of the one, the
copy, and the frame of the other.
-/
import Pintos.Threads.Heap

namespace Pintos.Malloc

open Transition Function List Option
open Palloc (pgsize pgOfs)

variable {h : Heap} {live : List Block}
variable {size d n a p : Nat} {B : Block} {w : World} {D : Desc} {r q : Nat × Nat} {h' : Heap}

/-- The bytes of the blocks in `live` are the same. -/
def Frame (live : List Block) (h h' : Heap) : Prop :=
  ∀ B ∈ live, ∀ x, B.has x = true → h'.memory x = h.memory x

theorem Frame.trans {m : Heap} (hm : Frame live h m) (hm' : Frame live m h') : Frame live h h' :=
  fun B hB x hx => (hm' B hB x hx).trans (hm B hB x hx)

/-- The invariant between calls. -/
structure Inv (h : Heap) (live : List Block) : Prop where
  core : Core h live
  owned : Owned h live

-- ==== malloc

theorem findDesc_some (hd : findDesc size = some d) :
    ∃ D, descs[d]? = some D ∧ size ≤ D.blockSize := by
  obtain ⟨hlt, hle, -⟩ := findIdx?_eq_some_iff_getElem.mp hd
  exact ⟨descs[d], getElem?_eq_getElem hlt, of_decide_eq_true hle⟩

/-- The pages the page allocator answers with, if any, are enough. -/
def Choice.Enough (c : Choice) (size : Nat) : Prop :=
  findDesc size = none → c.page ≠ none →
    0 < pagesFor size ∧ size ≤ pagesFor size * pgsize - arenaSize

variable {c : Choice} {B' : Block} {x b : Nat}

theorem Choice.enough (hfit : size < 2 ^ 32 - 2 * pgsize) : c.Enough size := by
  intro _ _
  unfold pagesFor pgsize arenaSize at *
  omega

theorem Choice.Legal.fresh (hc : c.Legal h n)
    (ha : c.page = some a) (hn : 0 < n) : h.Fresh a n := by
  obtain ⟨halign, hpos, hapart⟩ := hc a ha
  exact ⟨halign, hpos, hn, hapart⟩

/-- A block from a free list that has one. -/
theorem takeBlock_spec (hc : Core h live) (c : Choice)
    (hD : descs[d]? = some D) (hsize : size ≤ D.blockSize)
    (hne : h.freeList d ≠ []) : ∃ b h', takeBlock c d h = some (some b, h') ∧
      Core h' (⟨b, size, D.blockSize⟩ :: live) ∧ Frame live h h' ∧
      h'.held = h.held ∧ b ∈ h.freeList d := by
  obtain ⟨b, rest, hl⟩ := exists_cons_of_ne_nil hne
  obtain ⟨a, D', hs, harena, -, hcore⟩ := hc.take hl
  obtain rfl : D' = D := some.inj (hs.known.symm.trans hD)
  refine ⟨b, (h.recount a d rest ((h.arena a).freeCnt - 1)).relink c.links
    (b :: rest), ?_, (hcore size hsize).of_memory _, ?_, rfl, ?_⟩
  · unfold takeBlock
    rw [hl]
    dsimp only
    rw [harena]
    rfl
  · intro B hB x hx
    exact hc.relink_frame (l := b :: rest) (d := d) (fun y hy => hl ▸ hy) c.links hB hx
  · rw [hl]
    exact mem_cons_self

/-- What a successful `malloc` did. -/
structure Gotten (live : List Block) (h : Heap) (size p : Nat) (h' : Heap) : Prop where
  inv : Inv h' (⟨p, size, (blockSize h' p).getD 0⟩ :: live)
  frame : Frame live h h'

theorem Gotten.of_core {cap : Nat} (hc : Core h' (⟨p, size, cap⟩ :: live)) (hf : Frame live h h')
    (ho : Owned h' (⟨p, size, cap⟩ :: live)) : Gotten live h size p h' := by
  obtain ⟨-, r, hslot⟩ := hc.liveIn _ mem_cons_self
  have hcap : (blockSize h' p).getD 0 = cap := by
    rw [hslot.blockSize hc.ok]
    rfl
  refine ⟨?_, hf⟩
  rw [hcap]
  exact ⟨hc, ho⟩

theorem Owned.cons (ho : Owned h live) (B : Block) : Owned h (B :: live) := by
  intro r hr
  obtain ⟨B', hB', hcov⟩ := ho r hr
  exact ⟨B', mem_cons_of_mem B hB', hcov⟩

/-- A block from a new arena. -/
theorem newArena_spec (hi : Inv h live) (c : Choice) (hD : descs[d]? = some D)
    (hsize : size ≤ D.blockSize) (hempty : h.freeList d = [])
    (hf : h.Fresh a 1) : ∃ p h', (newArena c d D a h).bind (takeBlock c d) =
      some (some p, h') ∧ Gotten live h size p h' := by
  obtain ⟨h1, hh1⟩ : ∃ h1, h1 = (h.grown a 1 ⟨arenaMagic, some d, D.blocksPerArena⟩) := ⟨_, rfl⟩
  have hok : h1.Ok := by
    rw [hh1]
    exact hi.core.ok.grown hf rfl (.inl ⟨d, D, rfl, hD, rfl⟩)
  have hself : h1.Small a d D := by
    have hnew : h1.arena a = ⟨arenaMagic, some d, D.blocksPerArena⟩ := by
      rw [hh1]
      exact update_self _ _ _
    refine ⟨?_, congrArg Arena.desc hnew, hD⟩
    rw [hh1]
    exact mem_cons_self
  have hadd : addBlocks h1 a D.blocksPerArena (h1.freeList d) =
      some (blocksOf D a D.blocksPerArena) := by
    have hnil : h1.freeList d = [] := by
      rw [hh1]
      exact hempty
    rw [hnil, addBlocks_eq hok hself [] (Nat.le_refl _), nil_append]
  have hnew : newArena c d D a h = some ((h1.setFreeList d
      (blocksOf D a D.blocksPerArena)).relink c.links (blocksOf D a D.blocksPerArena)) := by
    change (addBlocks (h.grown a 1 _) a _ ((h.grown a 1 _).freeList d)).map
      _ = _
    rw [← hh1, hadd, hh1]
    rfl
  have hcore := hi.core.hold hf hD hempty
  rw [← hh1] at hcore
  have hlist : (h1.setFreeList d (blocksOf D a D.blocksPerArena)).freeList d =
      blocksOf D a D.blocksPerArena := update_self _ _ _
  have hne : ((h1.setFreeList d (blocksOf D a D.blocksPerArena)).relink
      c.links (blocksOf D a D.blocksPerArena)).freeList d ≠ [] := by
    change (h1.setFreeList d _).freeList d ≠ []
    rw [hlist]
    refine ne_nil_of_mem (mem_blocksOf.mpr ⟨0, ?_, rfl⟩)
    exact (desc_facts hD).2.1
  obtain ⟨p, h', htake, hcore', hframe, hheld, hp⟩ :=
    takeBlock_spec (hcore.of_memory _) c hD hsize hne
  refine ⟨p, h', ?_, Gotten.of_core hcore' ?_ ?_⟩
  · rw [hnew]
    exact htake
  · refine Frame.trans (m := (h1.setFreeList d
      (blocksOf D a D.blocksPerArena)).relink c.links (blocksOf D a D.blocksPerArena)) ?_ hframe
    intro B hB x hx
    have hsub b (hb : b ∈ blocksOf D a D.blocksPerArena) :
        b ∈ (h1.setFreeList d (blocksOf D a D.blocksPerArena)).freeList d := by
      rw [hlist]
      exact hb
    rw [hcore.relink_frame hsub c.links hB hx, hh1]
    rfl
  · -- the new arena has the block that was taken from it
    have hheld' : h'.held = (a, 1) :: h.held := by
      rw [hheld, hh1]
      rfl
    intro r hr
    rw [hheld'] at hr
    obtain rfl | hr := mem_cons.mp hr
    · refine ⟨_, mem_cons_self, ?_⟩
      rw [hlist] at hp
      obtain ⟨i, hi, rfl⟩ := mem_blocksOf.mp hp
      have hb := blockAt_bounds hD hi a
      have hsize := (desc_facts hD).1
      refine decide_eq_true ?_
      dsimp only
      omega
    · exact hi.owned.cons _ r hr

/-- `malloc` returns null and does nothing, or returns a block. -/
theorem malloc_spec (hi : Inv h live) (c : Choice)
    (hlegal : c.Legal h (pagesAsked size)) (hroom : c.Enough size) :
    malloc c size h = some (none, h) ∨
      ∃ p h', malloc c size h = some (some p, h') ∧ size ≠ 0 ∧ Gotten live h size p h' := by
  unfold malloc
  split
  · exact .inl rfl
  rename_i h0
  cases hfind : findDesc size with
  | none =>
    cases hpage : c.page with
    | none => exact .inl rfl
    | some a =>
      obtain ⟨hpos, hroom⟩ := hroom hfind (by simp [hpage])
      have hasked : pagesAsked size = pagesFor size := by
        rw [pagesAsked, hfind]
        rfl
      rw [hasked] at hlegal
      have hcore := hi.core.big (hlegal.fresh hpage hpos) hroom
      refine .inr ⟨_, _, rfl, h0, Gotten.of_core hcore ?_ ?_⟩
      · intro B hB x hx
        rfl
      · intro r hr
        obtain rfl | hr := mem_cons.mp hr
        · refine ⟨_, mem_cons_self, decide_eq_true ?_⟩
          dsimp only
          omega
        · exact hi.owned.cons _ r hr
  | some d =>
    obtain ⟨D, hD, hsize⟩ := findDesc_some hfind
    have hasked : pagesAsked size = 1 := by
      rw [pagesAsked, hfind]
      rfl
    rw [hasked] at hlegal
    dsimp only
    by_cases hempty : h.freeList d = []
    · rw [if_pos hempty, hD]
      cases hpage : c.page with
      | none => exact .inl rfl
      | some a =>
        obtain ⟨p, h', heq, hgot⟩ := newArena_spec hi c hD hsize hempty
          (hlegal.fresh hpage Nat.one_pos)
        exact .inr ⟨p, h', heq, h0, hgot⟩
    · rw [if_neg hempty]
      obtain ⟨p, h', heq, hcore, hframe, hheld, -⟩ := takeBlock_spec hi.core c hD hsize hempty
      refine .inr ⟨p, h', heq, h0, Gotten.of_core hcore hframe ?_⟩
      intro r hr
      rw [hheld] at hr
      exact (hi.owned.cons _) r hr

-- ==== free

theorem Heap.Slot.covers_self (hok : h.Ok) (hs : h.Slot q p n) :
    covers q.1 (q.2 * pgsize) p = true := by
  obtain ⟨-, hlo, hhi, hn⟩ := hs.within hok
  refine decide_eq_true ?_
  omega

theorem Heap.Slot.ne_zero (hok : h.Ok) (hs : h.Slot q p n) : p ≠ 0 := by
  have hw := hs.within hok
  have : 0 < arenaSize := by decide
  omega

theorem Heap.Ok.covers_unique (hok : h.Ok) (hq : q ∈ h.held) (hr : r ∈ h.held)
    (hqp : covers q.1 (q.2 * pgsize) p = true) (hrp : covers r.1 (r.2 * pgsize) p = true) :
    q = r := by
  by_contra hne
  have := hok.held_apart hq hr hne
  simp only [covers, decide_eq_true_eq] at hqp hrp
  omega

/-- The arena of a slot is the held range its address is in. -/
theorem Heap.Slot.arena_eq (hok : h.Ok) (hs : h.Slot q p n) (hr : r ∈ h.held)
    (hcov : covers r.1 (r.2 * pgsize) p = true) : q = r :=
  hok.covers_unique (hs.within hok).1 hr (hs.covers_self hok) hcov

/-- Live blocks at other addresses have other bytes. -/
theorem Core.has_ne (hc : Core h live) (hB : B ∈ live) (hB' : B' ∈ live) (hne : B.addr ≠ B'.addr)
    (hx : B.has x = true) : B'.has x = false := by
  obtain ⟨-, r, hs⟩ := hc.liveIn B hB
  obtain ⟨-, r', hs'⟩ := hc.liveIn B' hB'
  have := hs.disjoint hc.ok hs' hne
  simp only [Block.has, covers, decide_eq_true_eq, decide_eq_false_iff_not] at hx ⊢
  omega

/-- Releasing an arena fills only its own bytes. -/
theorem release_frame (hrel : h.release r.1 r.2 = some h') (hout : ∀ B ∈ live, ∀ x, B.has x = true →
      covers r.1 (r.2 * pgsize) x = false) : Frame live h h' := by
  obtain ⟨hheld, ⟨⟩⟩ := ite_none_right_eq_some.mp hrel
  intro B hB x hx
  refine if_neg fun hcov => ?_
  rw [hout B hB x hx] at hcov
  cases hcov

/-- The bytes of a block are in its arena. -/
theorem Core.has_covers (hc : Core h live) (hr : r ∈ h.held) (hB : B ∈ live)
    (hout : covers r.1 (r.2 * pgsize) B.addr = false)
    (hx : B.has x = true) : covers r.1 (r.2 * pgsize) x = false := by
  obtain ⟨-, q, hs⟩ := hc.liveIn B hB
  obtain ⟨hq, hlo, hhi, hn⟩ := hs.within hc.ok
  have hne : q ≠ r := by
    intro heq
    subst heq
    simp [hs.covers_self hc.ok] at hout
  have := hc.ok.held_apart hq hr hne
  simp only [Block.has, covers, decide_eq_true_eq, decide_eq_false_iff_not] at hx ⊢
  omega

/-- The other arenas keep their live block. -/
theorem Inv.owned_erase (hi : Inv h live) (hs : h.Slot q B.addr n) (hr : r ∈ h.held) (hne : r ≠ q) :
    ∃ B' ∈ live.erase B, covers r.1 (r.2 * pgsize) B'.addr = true := by
  obtain ⟨B', hB', hcov⟩ := hi.owned r hr
  refine ⟨B', (mem_erase_of_ne fun heq => ?_).mpr hB', hcov⟩
  subst heq
  exact hne (hs.arena_eq hi.core.ok hr hcov).symm

theorem Inv.owned_release (hi : Inv h live) (hs : h.Slot q B.addr n)
    (hheld : h'.held = h.held.erase q) : Owned h' (live.erase B) := by
  intro r hr
  rw [hheld] at hr
  obtain ⟨hne, hr⟩ := hi.core.ok.held_nodup.mem_erase_iff.mp hr
  exact hi.owned_erase hs hr hne

/-- The free blocks in the page of an arena are the arena's. -/
theorem Core.free_covers (hc : Core h live) {d' : Nat} (hs : h.Small a d D)
    (hb : b ∈ h.freeList d') : covers a (1 * pgsize) b = true ↔
      d' = d ∧ b ∈ blocksOf D a D.blocksPerArena := by
  constructor
  · intro hcov
    obtain ⟨a', D', j, hs', hj, rfl⟩ := hc.freeIn d' b hb
    cases (Heap.Slot.small hs' hj).arena_eq hc.ok hs.held hcov
    obtain ⟨rfl, rfl⟩ := hs.unique hs'
    exact ⟨rfl, mem_blocksOf.mpr ⟨j, hj, rfl⟩⟩
  · intro hin
    obtain ⟨j, hj, rfl⟩ := mem_blocksOf.mp hin.2
    exact (Heap.Slot.small hs hj).covers_self hc.ok

/-- An arena whose blocks are all free has no live one. -/
theorem Core.none_live (hc : Core h live) (hs : h.Small a d D)
    (hall : ∀ j, j < D.blocksPerArena → blockAt D a j ∈ h.freeList d)
    (hB : B ∈ live) : covers a (1 * pgsize) B.addr = false := by
  by_contra hcov
  obtain ⟨-, q, hq⟩ := hc.liveIn B hB
  have hqa := hq.arena_eq hc.ok hs.held (by simpa using hcov)
  have hin : B.addr ∈ live.map Block.addr := mem_map_of_mem hB
  generalize B.addr = p at hq hin
  generalize B.cap = m at hq
  cases hq with
  | @small a' d' j D' hs' hj =>
    cases hqa
    obtain ⟨rfl, rfl⟩ := hs.unique hs'
    exact (hc.slot hs j hj).mp (hall j hj) hin
  | big hb =>
    cases hqa
    exact hs.not_big hb

/-- The heap after a block was put on the free list. -/
def given (c : Choice) (b a d : Nat) (D : Desc) (h : Heap) : Heap :=
  (((h.memset b 0xcc D.blockSize).setFreeList d
    (b :: h.freeList d)).setArena a
      { h.arena a with freeCnt := (h.arena a).freeCnt + 1 }).relink c.links (b :: h.freeList d)

variable {i : Nat}

theorem given_frame (hc : Core h live) (c : Choice) (hB : B ∈ live) (hs : h.Small a d D)
    (hi : i < D.blocksPerArena) (haddr : B.addr = blockAt D a i) (hcap : B.cap = D.blockSize) :
    Frame (live.erase B) h (given c B.addr a d D h) := by
  intro B' hB' x hx
  have hcore := ((hc.give hB hs hi haddr).2.of_memory (h.memset B.addr 0xcc D.blockSize).memory)
  have hlist b (hb : b ∈ B.addr :: h.freeList d) :
      b ∈ (h.recount a d (B.addr :: h.freeList d) ((h.arena a).freeCnt + 1)).freeList d := by
    change b ∈ update h.freeList d _ d
    rw [update_self]
    exact hb
  refine (hcore.relink_frame hlist c.links hB' hx).trans ?_
  refine if_neg fun hcov => ?_
  have hne := ((mem_map_erase hc.liveNodup hB _).mp (mem_map_of_mem hB')).2
  have hout := hc.has_ne (mem_of_mem_erase hB') hB hne hx
  simp [Block.has, hcap, hcov] at hout

/-- `free` of a block of a small arena. -/
theorem freeBlock_spec (hinv : Inv h live) (c : Choice) (hB : B ∈ live) (hs : h.Small a d D)
    (hi : i < D.blocksPerArena) (haddr : B.addr = blockAt D a i) (hcap : B.cap = D.blockSize) :
    ∃ h', freeBlock c B.addr a d D h = some h' ∧
      Inv h' (live.erase B) ∧ Frame (live.erase B) h h' ∧
      ∀ r ∈ h'.held, r ∈ h.held := by
  have hcnt := (hinv.core.give hB hs hi haddr).1
  have hslot : h.Slot (a, 1) B.addr D.blockSize := by
    rw [haddr]
    exact .small hs hi
  have hcore : Core (given c B.addr a d D h) (live.erase B) :=
    (hinv.core.give hB hs hi haddr).2.of_memory _
  have hframe := given_frame hinv.core c hB hs hi haddr hcap
  have hlist : (given c B.addr a d D h).freeList d = B.addr :: h.freeList d := update_self _ _ _
  have hdesc : ((given c B.addr a d D h).arena a).desc = some d :=
    (h.recount_desc a d (B.addr :: h.freeList d) _ a).1.trans hs.desc
  have hsmall : (given c B.addr a d D h).Small a d D := ⟨hs.held, hdesc, hs.known⟩
  have hlen : (blocksOf D a D.blocksPerArena).length = D.blocksPerArena := by
    rw [blocksOf, length_map, length_range]
  have hle : (h.arena a).freeCnt + 1 ≤ D.blocksPerArena := by
    rw [hcnt]
    exact Nat.le_trans countP_le_length (Nat.le_of_eq hlen)
  unfold freeBlock
  by_cases hfull : D.blocksPerArena ≤ (h.arena a).freeCnt + 1
  · -- the last live block of the arena
    have heq : (h.arena a).freeCnt + 1 = D.blocksPerArena := by omega
    rw [if_pos hfull, if_pos heq]
    have hall j (hj : j < D.blocksPerArena) : blockAt D a j ∈ B.addr :: h.freeList d := by
      have hcount := hcnt.symm.trans (heq.trans hlen.symm)
      have := countP_eq_length.mp hcount (blockAt D a j) (mem_blocksOf.mpr ⟨j, hj, rfl⟩)
      exact of_decide_eq_true this
    have hnd : (B.addr :: h.freeList d).Nodup := by
      have := hcore.freeNodup d
      rw [hlist] at this
      exact this
    obtain ⟨l', hrem, hnd', hmem⟩ := removeBlocks_spec hcore.ok hsmall hnd (Nat.le_refl _) hall
    change ∃ h', (removeBlocks (given c B.addr a d D h) a _ _).bind _ = some h' ∧ _
    rw [hrem, bind_some]
    have hnone : ∀ B' ∈ live.erase B, covers a (1 * pgsize) B'.addr = false := by
      intro B' hB'
      refine hcore.none_live hsmall (fun j hj => ?_) hB'
      rw [hlist]
      exact hall j hj
    refine ⟨_, if_pos hs.held, ?_, ?_, fun r => mem_of_mem_erase⟩
    · refine ⟨hcore.drop (r := (a, 1)) hs.held rfl ?_ ?_ ?_ (List.Sublist.refl _) ?_, ?_⟩
      · intro a' ha'
        exact update_of_ne ha' _ _
      · intro d' b
        change b ∈ update (given c B.addr a d D h).freeList d l' d' ↔ _
        rw [← Bool.not_eq_true]
        by_cases hd : d' = d
        · subst hd
          rw [update_self, hmem, ← hlist]
          refine and_congr_right fun hb => ?_
          rw [hcore.free_covers hsmall hb, and_iff_right rfl]
        · rw [update_of_ne hd]
          refine (and_iff_left_of_imp fun hb hcov => hd ?_).symm
          exact ((hcore.free_covers hsmall hb).mp hcov).1
      · intro d'
        change (update (given c B.addr a d D h).freeList d l' d').Nodup
        by_cases hd : d' = d
        · subst hd
          rw [update_self]
          exact hnd'
        · rw [update_of_ne hd]
          exact hcore.freeNodup d'
      · intro x
        refine (and_iff_left_of_imp fun hx => ?_).symm
        obtain ⟨B', hB', rfl⟩ := mem_map.mp hx
        exact hnone B' hB'
      · exact hinv.owned_release hslot rfl
    · refine hframe.trans (Frame.trans (m := ((given c B.addr a d D
        h).setFreeList d l').relink c.links (B.addr :: h.freeList d)) ?_ ?_)
      · intro B' hB' x hx
        refine hcore.relink_frame (d := d) ?_ c.links hB' hx
        intro b hb
        rw [hlist]
        exact hb
      · refine release_frame (r := (a, 1)) (if_pos hs.held) ?_
        intro B' hB' x hx
        exact hcore.has_covers hs.held hB' (hnone B' hB') hx
  · rw [if_neg hfull]
    refine ⟨given c B.addr a d D h, rfl, ⟨hcore, ?_⟩, hframe, fun r hr => hr⟩
    intro r hr
    by_cases hra : r = (a, 1)
    · -- some block of the arena is not free, so it is live
      subst hra
      have hlt : ¬ ∀ b ∈ blocksOf D a D.blocksPerArena,
          decide (b ∈ B.addr :: h.freeList d) = true := by
        intro hall
        have := countP_eq_length.mpr hall
        omega
      obtain ⟨b, hb⟩ := not_forall.mp hlt
      obtain ⟨hb, hnot⟩ := Classical.not_imp.mp hb
      obtain ⟨j, hj, rfl⟩ := mem_blocksOf.mp hb
      have hslotj := hcore.slot hsmall j hj
      rw [hlist] at hslotj
      have hlive : blockAt D a j ∈ (live.erase B).map Block.addr := by
        by_contra hno
        exact hnot (decide_eq_true (hslotj.mpr hno))
      obtain ⟨B', hB', heq⟩ := mem_map.mp hlive
      refine ⟨B', hB', ?_⟩
      rw [heq]
      exact (Heap.Slot.small hsmall hj).covers_self hcore.ok
    · exact hinv.owned_erase hslot hr hra

/-- `free` of a live block. -/
theorem free_spec (hinv : Inv h live) (c : Choice) (hB : B ∈ live) :
    ∃ h', free c B.addr h = some h' ∧ Inv h' (live.erase B) ∧
      Frame (live.erase B) h h' ∧ ∀ r ∈ h'.held, r ∈ h.held := by
  obtain ⟨-, r, hslot⟩ := hinv.core.liveIn B hB
  unfold free
  rw [if_neg (hslot.ne_zero hinv.core.ok)]
  obtain ⟨p, hp⟩ : ∃ p, p = B.addr := ⟨_, rfl⟩
  obtain ⟨m, hm⟩ : ∃ m, m = B.cap := ⟨_, rfl⟩
  rw [← hp, ← hm] at hslot
  cases hslot with
  | @small a d i D hs hi =>
    rw [← hp, blockToArena_small hinv.core.ok hs hi, bind_some, hs.desc]
    dsimp only
    rw [hs.known, bind_some, hp]
    exact freeBlock_spec hinv c hB hs hi hp.symm hm.symm
  | @big a n hb =>
    have hslot : h.Slot (a, n) B.addr (n * pgsize - arenaSize) := by
      rw [← hp]
      exact .big hb
    rw [← hp, blockToArena_big hinv.core.ok hb, bind_some, hb.desc, hinv.core.ok.big_cnt hb]
    -- the block is the only one in its pages
    have hlive x :
        x ∈ (live.erase B).map Block.addr ↔ x ∈ live.map Block.addr ∧ covers a (n * pgsize) x =
        false := by
      rw [mem_map_erase hinv.core.liveNodup hB]
      refine and_congr_right fun hx => ?_
      obtain ⟨B', hB', rfl⟩ := mem_map.mp hx
      obtain ⟨-, q, hq⟩ := hinv.core.liveIn B' hB'
      rw [← Bool.not_eq_true, not_iff_not]
      constructor
      · intro heq
        rw [heq]
        exact hslot.covers_self hinv.core.ok
      · intro hcov
        have hqa := hq.arena_eq hinv.core.ok hb.held hcov
        subst hqa
        have hself := hq
        generalize B'.addr = p' at hself ⊢
        generalize B'.cap = m' at hself
        cases hself with
        | small hs hi => exact (hs.not_big hb).elim
        | big _ => exact hp
    have hout : ∀ B' ∈ live.erase B, covers a (n * pgsize) B'.addr = false := fun B' hB' =>
      ((hlive B'.addr).mp (mem_map_of_mem hB')).2
    refine ⟨_, if_pos hb.held, ⟨?_, ?_⟩, ?_, fun r => mem_of_mem_erase⟩
    · refine hinv.core.drop (r := (a, n)) hb.held rfl ?_ ?_ hinv.core.freeNodup erase_sublist hlive
      · intro a' ha'
        exact update_of_ne ha' _ _
      · intro d b
        refine (and_iff_left_of_imp fun hmem => ?_).symm
        by_contra hcov
        obtain ⟨a', D, i, hs, hi, rfl⟩ := hinv.core.freeIn d b hmem
        cases (Heap.Slot.small hs hi).arena_eq hinv.core.ok hb.held (by simpa using hcov)
        exact hs.not_big hb
    · exact hinv.owned_release hslot rfl
    · refine release_frame (r := (a, n)) (if_pos hb.held) ?_
      intro B' hB' x hx
      exact hinv.core.has_covers hb.held (mem_of_mem_erase hB') (hout B' hB') hx

-- ==== calloc and realloc

theorem Inv.of_memory (hinv : Inv h live) (memory : Nat → UInt8) :
    Inv { h with memory := memory } live :=
  ⟨hinv.core.of_memory memory, hinv.owned⟩

def World.Inv (w : World) : Prop := Malloc.Inv w.heap w.live

theorem calloc_spec (hinv : Inv h live) (c : Choice)
    (hlegal : c.Legal h (pagesAsked (a * b % 2 ^ 32))) (hfit : a * b < 2 ^ 32 - 2 * pgsize) :
    ∃ r, calloc c a b h = some r ∧ (World.gotten live (a * b % 2 ^ 32) r).Inv := by
  unfold calloc
  dsimp only
  split
  · exact ⟨_, rfl, hinv⟩
  · obtain heq | ⟨p, h', heq, -, hgot⟩ := malloc_spec hinv c hlegal (Choice.enough (by omega))
    · rw [heq]
      exact ⟨_, rfl, hinv⟩
    · rw [heq]
      exact ⟨_, rfl, hgot.inv.of_memory _⟩

/-- What `realloc` promises: the block moves with its bytes. -/
def Moved (h : Heap) (p : Option Block) (newSize : Nat) (r : Option Nat × Heap) : Prop :=
  ∀ B ∈ p, ∀ q, r.1 = some q → ∀ i, i < min B.cap newSize →
    r.2.memory (q + i) = h.memory (B.addr + i)

theorem realloc_spec (hinv : Inv h live) (c c' : Choice) {p : Option Block} (hp : ∀ B ∈ p, B ∈ live)
    {newSize : Nat} (hlegal : c.Legal h (pagesAsked newSize)) (hfit : newSize < 2 ^ 32 - 2 * pgsize)
    :
    ∃ r, realloc c c' (addrOf p) newSize h = some r ∧
      (if newSize ≠ 0 ∧ r.1 = none then (⟨r.2, live⟩ : World)
        else .gotten (without live p) newSize r).Inv ∧
      Moved h p newSize r := by
  unfold realloc
  split
  next h0 =>
    have hnone : ∀ h', Moved h p newSize (none, h') := nofun
    cases p with
    | none =>
      refine ⟨(none, h), ?_, ?_, hnone h⟩
      · rfl
      · rw [if_neg fun hne => hne.1 h0]
        exact hinv
    | some B =>
      obtain ⟨h', heq, hinv', -⟩ := free_spec hinv c' (hp B rfl)
      refine ⟨(none, h'), ?_, ?_, hnone h'⟩
      · change (free c' B.addr h).map _ = _
        rw [heq]
        rfl
      · rw [if_neg fun hne => hne.1 h0]
        exact hinv'
  next h0 =>
    obtain heq | ⟨q, h1, heq, -, hgot⟩ := malloc_spec hinv c hlegal (Choice.enough hfit)
    · -- no memory: the old block stays
      rw [heq]
      refine ⟨(none, h), rfl, ?_, nofun⟩
      rw [if_pos ⟨h0, rfl⟩]
      exact hinv
    · rw [heq, bind_some]
      dsimp only
      cases p with
      | none =>
        refine ⟨(some q, h1), rfl, ?_, nofun⟩
        rw [if_neg fun hne => by cases hne.2]
        exact hgot.inv
      | some B =>
        have hB := hp B rfl
        have hcore := hgot.inv.core
        obtain ⟨N, hN⟩ : ∃ N : Block, N = ⟨q, newSize, (blockSize h1 q).getD 0⟩ := ⟨_, rfl⟩
        rw [← hN] at hcore
        have hNaddr : N.addr = q := by rw [hN]
        have hNsize : newSize ≤ N.cap := by
          have := (hcore.liveIn N mem_cons_self).1
          rw [hN] at this ⊢
          exact this
        obtain ⟨-, r, hslot⟩ := hcore.liveIn B (mem_cons_of_mem _ hB)
        have hne := hslot.ne_zero hcore.ok
        have hinv1 : Inv (h1.memcpy q B.addr (min newSize B.cap)) (N :: live) := by
          rw [hN]
          exact hgot.inv.of_memory _
        have hBN : B ∈ N :: live := mem_cons_of_mem _ hB
        obtain ⟨h2, hfree, hinv2, hframe, -⟩ := free_spec hinv1 c' hBN
        -- the new block is not the old one
        have hNB : N ≠ B := by
          intro heq'
          have hnd := hcore.liveNodup
          rw [map_cons, nodup_cons, heq'] at hnd
          exact hnd.1 (mem_map_of_mem hB)
        have herase : (N :: live).erase B = N :: live.erase B :=
          erase_cons_tail (by simpa using hNB)
        rw [herase] at hinv2 hframe
        have haddr : addrOf (some B) = B.addr := rfl
        rw [haddr, if_neg hne, hslot.blockSize hcore.ok, bind_some, hfree]
        refine ⟨(some q, h2), rfl, ?_, ?_⟩
        · rw [if_neg fun hne => by cases hne.2]
          have hcap : blockSize h2 q = some N.cap := by
            obtain ⟨-, r', hs'⟩ := hinv2.core.liveIn N mem_cons_self
            rw [hNaddr] at hs'
            exact hs'.blockSize hinv2.core.ok
          change Malloc.Inv h2 (⟨q, newSize, (blockSize h2 q).getD 0⟩ :: live.erase B)
          rw [hcap]
          have hNeq : (⟨q, newSize, (some N.cap).getD 0⟩ : Block) = N := by
            rw [hN]
            rfl
          rw [hNeq]
          exact hinv2
        · intro B' hB' q' hq' i hi
          cases hB'
          cases hq'
          have hhas : N.has (q + i) = true := by
            refine decide_eq_true ?_
            omega
          have hhas' : B.has (B.addr + i) = true := by
            refine decide_eq_true ?_
            omega
          have h21 := hframe N mem_cons_self (q + i) hhas
          have h10 := hgot.frame B hB (B.addr + i) hhas'
          have hcopy : (h1.memcpy q B.addr (min newSize B.cap)).memory
              (q + i) = h1.memory (B.addr + i) := by
            have hcov : covers q (min newSize B.cap) (q + i) = true := decide_eq_true (by omega)
            change (if _ then _ else _) = _
            rw [if_pos hcov, Nat.add_sub_cancel_left]
          exact h21.trans (hcopy.trans h10)

-- ==== runs

theorem World.Inv.step {w' : World} {a : Action} (hw : w.Inv)
    (hfit : requestsFit a w) (hs : step a w = some w') : w'.Inv := by
  cases a with
  | malloc c size =>
    obtain ⟨hlegal, hs⟩ := ite_none_right_eq_some.mp hs
    obtain heq | ⟨p, h', heq, -, hgot⟩ := malloc_spec hw c hlegal (Choice.enough hfit)
    · rw [heq] at hs
      cases hs
      exact hw
    · rw [heq] at hs
      cases hs
      exact hgot.inv
  | calloc c a b =>
    obtain ⟨hlegal, hs⟩ := ite_none_right_eq_some.mp hs
    obtain ⟨r, heq, hinv⟩ := calloc_spec hw c hlegal hfit
    rw [heq] at hs
    cases hs
    exact hinv
  | free c p =>
    obtain ⟨hp, hs⟩ := ite_none_right_eq_some.mp hs
    cases p with
    | none =>
      cases hs
      exact hw
    | some B =>
      obtain ⟨h', heq, hinv, -⟩ := free_spec hw c (hp B rfl)
      change (free c B.addr w.heap).map _ = _ at hs
      rw [heq] at hs
      cases hs
      exact hinv
  | realloc c c' p newSize =>
    obtain ⟨hlegal, hs⟩ := ite_none_right_eq_some.mp hs
    obtain ⟨r, heq, hinv, -⟩ := realloc_spec hw c c' hlegal.2 hlegal.1 hfit
    rw [heq] at hs
    cases hs
    exact hinv
  | store B x v =>
    obtain ⟨hx, ⟨⟩⟩ := ite_none_right_eq_some.mp hs
    exact Malloc.Inv.of_memory hw _
  | other memory arena =>
    cases hs
    refine ⟨hw.core.of_same (fun r hr => if_pos ?_) rfl rfl, hw.owned⟩
    -- the first byte of a held range is held
    obtain ⟨-, -, hn, -⟩ := hw.core.ok.page r hr
    refine any_eq_true.mpr ⟨r, hr, decide_eq_true ⟨Nat.le_refl _, ?_⟩⟩
    have hmul := pages_le hn
    omega

theorem start_inv (h : Start w) : w.Inv := by
  obtain ⟨hheld, hfree, hlive⟩ := h
  refine ⟨⟨⟨?_, ?_⟩, ?_, ?_, ?_, ?_, ?_, ?_⟩, ?_⟩
  · intro r hr
    simp [hheld] at hr
  · rw [hheld]
    exact List.Pairwise.nil
  · intro d b hb
    simp [hfree d] at hb
  · intro d
    rw [hfree d]
    exact nodup_nil
  · intro B hB
    simp [hlive] at hB
  · rw [hlive]
    exact nodup_nil
  · intro a d D hs
    have := hs.held
    simp [hheld] at this
  · intro a d D hs
    have := hs.held
    simp [hheld] at this
  · intro r hr
    simp [hheld] at hr

theorem reach_inv (h : Reach Start step requestsFit w) : w.Inv := by
  refine Reach.induct (P := World.Inv) ?_ ?_ w h
  · intro w hw
    exact start_inv hw
  · intro a w w' _ hw hfit hs
    exact hw.step hfit hs

/-- What holds of the heap between calls. -/
structure Sound (w : World) : Prop where
  /-- Live blocks have no byte in common. -/
  disjoint : w.live.Pairwise fun B B' => B.addr + B.cap ≤ B'.addr ∨ B'.addr + B'.cap ≤ B.addr
  /-- They have the size that was asked for, and lie in one arena behind
  its header, so in no header. -/
  inside : ∀ B ∈ w.live, B.size ≤ B.cap ∧
    (∃ r ∈ w.heap.held, r.1 + arenaSize ≤ B.addr ∧ B.addr + B.cap ≤ r.1 + r.2 * pgsize) ∧
    ∀ r ∈ w.heap.held, B.addr + B.cap ≤ r.1 ∨ r.1 + arenaSize ≤ B.addr
  /-- The counter of an arena counts its blocks on the free list. -/
  freeCnt : ∀ r ∈ w.heap.held, ∀ d, (w.heap.arena r.1).desc = some d →
    ∃ D, descs[d]? = some D ∧ (w.heap.arena r.1).freeCnt =
      (blocksOf D r.1 D.blocksPerArena).countP fun b => b ∈ w.heap.freeList d
  /-- No block is on a list twice, or on two lists. -/
  once : ∀ d, (w.heap.freeList d).Nodup ∧ ∀ d', d' ≠ d →
    ∀ b ∈ w.heap.freeList d, b ∉ w.heap.freeList d'
  /-- A free block is a block of an arena that is held, and not live. -/
  free : ∀ d, ∀ b ∈ w.heap.freeList d, w.heap.inHeld b = true ∧ ∀ B ∈ w.live, B.has b = false
  /-- An arena is held as long as it has a live block. -/
  owned : ∀ r ∈ w.heap.held, ∃ B ∈ w.live, covers r.1 (r.2 * pgsize) B.addr = true

/-- What holds of the next call. -/
structure Serves (w : World) : Prop where
  /-- No assertion fails. -/
  malloc : ∀ c size, c.Legal w.heap (pagesAsked size) →
    size < 2 ^ 32 - 2 * pgsize → (malloc c size w.heap).isSome
  calloc : ∀ c a b, c.Legal w.heap (pagesAsked (a * b % 2 ^ 32)) →
    a * b < 2 ^ 32 - 2 * pgsize → (calloc c a b w.heap).isSome
  /-- Freeing a block gives its arena back iff it was the last live one,
  and then no free list has a block of the arena. -/
  free : ∀ c, ∀ B ∈ w.live, ∃ h', free c B.addr w.heap = some h' ∧
    ∀ r ∈ w.heap.held,
      (r ∈ h'.held ↔ ∃ B' ∈ w.live.erase B, covers r.1 (r.2 * pgsize) B'.addr = true) ∧
      (r ∉ h'.held → ∀ d, ∀ b ∈ h'.freeList d, covers r.1 (r.2 * pgsize) b = false)
  /-- `realloc` keeps the bytes. -/
  realloc : ∀ c c' p newSize, (∀ B ∈ p, B ∈ w.live) →
    c.Legal w.heap (pagesAsked newSize) → newSize < 2 ^ 32 - 2 * pgsize →
    ∃ r, realloc c c' (addrOf p) newSize w.heap = some r ∧ Moved w.heap p newSize r

theorem World.Inv.sound (hw : w.Inv) : Sound w := by
  have hc := hw.core
  refine ⟨?_, fun B hB => ?_, fun r hr d hd => ?_, fun d => ?_, fun d b hb => ?_, hw.owned⟩
  · have hnd := pairwise_map.mp hc.liveNodup
    refine hnd.imp_of_mem fun {B B'} hB hB' hne => ?_
    obtain ⟨-, r, hs⟩ := hc.liveIn B hB
    obtain ⟨-, r', hs'⟩ := hc.liveIn B' hB'
    exact hs.disjoint hc.ok hs' hne
  · obtain ⟨hsize, r, hs⟩ := hc.liveIn B hB
    obtain ⟨hr, hlo, hhi, -⟩ := hs.within hc.ok
    refine ⟨hsize, ⟨r, hr, hlo, hhi⟩, fun q hq => ?_⟩
    by_cases hqr : q = r
    · subst hqr
      exact .inr hlo
    · have := hc.ok.held_apart hq hr hqr
      omega
  · obtain ⟨d', D, hs, -⟩ | ⟨hb, -⟩ := (hc.ok.page r hr).2.2.2.2
    · obtain rfl : d' = d := some.inj (hs.desc.symm.trans hd)
      exact ⟨D, hs.known, hc.count hs⟩
    · simp [hb.desc] at hd
  · refine ⟨hc.freeNodup d, fun d' hne b hb hb' => ?_⟩
    obtain ⟨a, D, i, hs, hi, rfl⟩ := hc.freeIn d b hb
    have hself := (Heap.Slot.small hs hi).covers_self hc.ok
    exact hne ((hc.free_covers hs hb').mp hself).1
  · obtain ⟨a, D, i, hs, hi, heq⟩ := hc.freeIn d b hb
    refine ⟨any_eq_true.mpr ⟨(a, 1), hs.held, ?_⟩, fun B hB => ?_⟩
    · rw [heq]
      exact (Heap.Slot.small hs hi).covers_self hc.ok
    · exact hc.free_not_live hb (decide_eq_true (by omega)) hB

theorem World.Inv.serves (hw : w.Inv) : Serves w := by
  refine ⟨fun c size hlegal hfit => ?_, fun c a b hlegal hfit => ?_,
    fun c B hB => ?_, fun c c' p newSize hp hlegal hfit => ?_⟩
  · obtain heq | ⟨p, h', heq, -⟩ := malloc_spec hw c hlegal (Choice.enough hfit)
    · rw [heq]
      rfl
    · rw [heq]
      rfl
  · obtain ⟨r, heq, -⟩ := calloc_spec hw c hlegal hfit
    rw [heq]
    rfl
  · obtain ⟨h', heq, hinv, -, hsub⟩ := free_spec hw c hB
    refine ⟨h', heq, fun r hr => ⟨⟨hinv.owned r, fun hex => ?_⟩, fun hnot d b hb => ?_⟩⟩
    · obtain ⟨B', hB', hcov⟩ := hex
      obtain ⟨-, q, hs⟩ := hinv.core.liveIn B' hB'
      have hq := (hs.within hinv.core.ok).1
      have hself := hs.covers_self hinv.core.ok
      have hqr := hw.core.ok.covers_unique (hsub q hq) hr hself hcov
      rw [← hqr]
      exact hq
    · by_contra hcov
      obtain ⟨a, D, i, hs, hi, rfl⟩ := hinv.core.freeIn d b hb
      have hself := (Heap.Slot.small hs hi).covers_self hinv.core.ok
      have har := hw.core.ok.covers_unique (hsub _ hs.held) hr hself (by simpa using hcov)
      exact hnot (har ▸ hs.held)
  · obtain ⟨r, heq, -, hmoved⟩ := realloc_spec hw c c' hp hlegal hfit
    exact ⟨r, heq, hmoved⟩

/-- After any calls, whatever the page allocator answered, the heap is
sound and the next call is served. -/
theorem heap_invariant {w : World} (h : Reach Start step requestsFit w) : Sound w ∧ Serves w :=
  ⟨(reach_inv h).sound, (reach_inv h).serves⟩

/-- Nothing allocated yet. -/
def emptyWorld : World := ⟨⟨fun _ => ⟨0, none, 0⟩, fun _ => [], fun _ => 0, []⟩, []⟩

theorem reach_empty : Reach Start step requestsFit emptyWorld := .init ⟨rfl, fun _ => rfl, rfl⟩

/-- 100 bytes from a new arena, a byte stored, and 3000 bytes asked for
instead: the byte has moved, and the arena is gone. -/
theorem heap_invariant_after_realloc : ∃ w, Reach Start step requestsFit w ∧
    w.live = [⟨0xc0201000 + 12, 3000, 4084⟩] ∧
    w.heap.held = [(0xc0201000, 1)] ∧
    w.heap.memory (0xc0201000 + 12) = 7 ∧ Sound w := by
  obtain ⟨w, hw, hlive, hheld, hmem⟩ := reach_empty.of_runAll
    [.malloc ⟨some 0xc0200000, fun _ => 1⟩ 100,
      .store ⟨0xc0200000 + 12, 100, 128⟩ (0xc0200000 + 12) 7,
      .realloc ⟨some 0xc0201000, fun _ => 1⟩ ⟨none, fun _ => 1⟩
        (some ⟨0xc0200000 + 12, 100, 128⟩) 3000]
    (fun w => w.live = [⟨0xc0201000 + 12, 3000, 4084⟩] ∧ w.heap.held = [(0xc0201000, 1)] ∧
      w.heap.memory (0xc0201000 + 12) = 7) (by decide +kernel)
  exact ⟨w, hw, hlive, hheld, hmem, (heap_invariant hw).1⟩

-- ==== requests close to 4 GB

/-- The block at `p` has `size` bytes, behind the header of its arena, so
that neither its owner nor a `realloc` that copies into it leaves it. -/
def RoomFor (size p : Nat) (h : Heap) : Prop :=
  ∃ cap, blockSize h p = some cap ∧ size ≤ cap ∧
    (∃ r ∈ h.held, r.1 + arenaSize ≤ p ∧ p + cap ≤ r.1 + r.2 * pgsize) ∧
    ∀ old x, covers p (min size old) x = true → covers p cap x = true

theorem Gotten.room (hgot : Gotten live h size p h') : RoomFor size p h' := by
  have hc := hgot.inv.core
  obtain ⟨hsize, r, hslot⟩ := hc.liveIn _ mem_cons_self
  obtain ⟨hr, hlo, hhi, -⟩ := hslot.within hc.ok
  refine ⟨_, hslot.blockSize hc.ok, hsize, ⟨r, hr, hlo, hhi⟩, fun old x hx => ?_⟩
  simp only [covers, decide_eq_true_eq] at hx ⊢
  dsimp only at hsize
  omega

/-- Pages for a header and a request that together fit a `size_t`; where
only the rounding wraps no page is asked for. -/
theorem enough_of_le (hnull : pagesAsked size = 0 → c.page = none)
    (hfit : size + arenaSize ≤ 2 ^ 32) : c.Enough size := by
  intro hfind hpage
  have hasked : pagesAsked size = pagesFor size := by simp [pagesAsked, hfind]
  have hpos : pagesFor size ≠ 0 := fun h => hpage (hnull (hasked.trans h))
  unfold pagesFor pgsize arenaSize at *
  omega

theorem findDesc_none (hsize : 1024 < size) : findDesc size = none := by
  have hall : ∀ D ∈ descs, D.blockSize ≤ 1024 := by decide
  refine findIdx?_eq_none_iff.mpr fun D hD => decide_eq_false ?_
  have := hall D hD
  omega

/-- A request that wraps is granted one page. -/
theorem malloc_wrapped (hlegal : c.Legal h n) (hpage : c.page = some a) (hsize : size < 2 ^ 32)
    (hwrap : 2 ^ 32 < size + arenaSize) :
    ∃ h', malloc c size h = some (some (a + arenaSize), h') ∧
      blockSize h' (a + arenaSize) = some (pgsize - arenaSize) := by
  obtain ⟨halign, hpos, -⟩ := hlegal a hpage
  have hone : pagesFor size = 1 := by
    unfold pagesFor pgsize arenaSize at *
    omega
  have hbig : malloc c size h = some (some (a + arenaSize),
      (h.hold a 1).setArena a ⟨arenaMagic, none, 1⟩) := by
    unfold malloc arenaSize at *
    rw [if_neg (by omega), findDesc_none (by omega), hpage, hone]
  have hofs : pgOfs (a + arenaSize) = arenaSize := by
    unfold pgOfs pgsize arenaSize at *
    omega
  have harena : blockToArena ((h.hold a 1).setArena a ⟨arenaMagic, none, 1⟩) (a + arenaSize) =
      some a := by
    unfold blockToArena
    simp [hofs, Heap.setArena, Nat.ne_of_gt hpos]
  refine ⟨_, hbig, ?_⟩
  rw [blockSize, harena, bind_some]
  simp only [Heap.setArena, update_self, hofs, Nat.mul_one]

/-- There is a page, or a free block of the right size. -/
def Available (c : Choice) (size : Nat) (h : Heap) : Prop :=
  c.page ≠ none ∨ ∃ d, findDesc size = some d ∧ h.freeList d ≠ []

/-- `malloc` returns null where nothing is available, and only there. -/
theorem malloc_grants (hi : Inv h live) (c : Choice) (hlegal : c.Legal h (pagesAsked size))
    (h0 : size ≠ 0) : (∃ p h', malloc c size h = some (some p, h')) ↔ Available c size h := by
  unfold malloc Available
  rw [if_neg h0]
  cases hfind : findDesc size with
  | none => cases hpage : c.page <;> simp
  | some d =>
    obtain ⟨D, hD, hsize⟩ := findDesc_some hfind
    dsimp only
    by_cases hempty : h.freeList d = []
    · rw [if_pos hempty, hD]
      cases hpage : c.page with
      | none => simp [hempty]
      | some a =>
        have hasked : pagesAsked size = 1 := by simp [pagesAsked, hfind]
        obtain ⟨p, h', heq, -⟩ := newArena_spec hi c hD hsize hempty
          ((hasked ▸ hlegal).fresh hpage Nat.one_pos)
        exact iff_of_true ⟨p, h', heq⟩ (.inl (by simp))
    · rw [if_neg hempty]
      obtain ⟨p, h', heq, -⟩ := takeBlock_spec hi.core c hD hsize hempty
      exact iff_of_true ⟨p, h', heq⟩ (.inr ⟨d, rfl, hempty⟩)

/-- `calloc` returns a block if its check passes and `malloc` returns one. -/
theorem calloc_eq_some : calloc c a b h = some (some p, h') ↔
    ¬(a * b % 2 ^ 32 < a ∨ a * b % 2 ^ 32 < b) ∧ ∃ h₁,
      malloc c (a * b % 2 ^ 32) h = some (some p, h₁) ∧ h' = h₁.memset p 0 (a * b % 2 ^ 32) := by
  unfold calloc
  dsimp only
  split
  next hfail => exact iff_of_false (by simp) fun hpass => hpass.1 hfail
  next hpass =>
    rw [map_eq_some_iff]
    constructor
    · rintro ⟨⟨_ | q, h₁⟩, hm, hzero⟩ <;> cases hzero
      exact ⟨hpass, h₁, hm, rfl⟩
    · rintro ⟨-, h₁, hm, rfl⟩
      exact ⟨_, hm, rfl⟩

section

variable {c : Choice} (hr : Reach Start step requestsFit w)
include hr

/-- A block that fits a `size_t` with its header has room. -/
theorem room_of_le (hlegal : c.Legal w.heap (pagesAsked size))
    (hnull : pagesAsked size = 0 → c.page = none) (hfit : size + arenaSize ≤ 2 ^ 32)
    (hm : malloc c size w.heap = some (some p, h')) : RoomFor size p h' := by
  obtain heq | ⟨p', h1, heq, -, hgot⟩ := malloc_spec (reach_inv hr) c hlegal
    (enough_of_le hnull hfit)
  · simp [heq] at hm
  · rw [heq] at hm
    cases hm
    exact hgot.room

/-- A block that `malloc` returned has room for the request, if and only if
the request and an arena's header fit a `size_t` or there is no page. -/
theorem malloc_room (hsize : size < 2 ^ 32) (hlegal : c.Legal w.heap (pagesAsked size))
    (hnull : pagesAsked size = 0 → c.page = none) :
    (∀ p h', malloc c size w.heap = some (some p, h') → RoomFor size p h') ↔
      size + arenaSize ≤ 2 ^ 32 ∨ c.page = none := by
  refine ⟨fun hroom => ?_, ?_⟩
  · by_contra hwrap
    obtain ⟨hwrap, hpage⟩ := not_or.mp hwrap
    obtain ⟨a, ha⟩ := ne_none_iff_exists'.mp hpage
    obtain ⟨h', hm, hcap⟩ := malloc_wrapped hlegal ha hsize (Nat.lt_of_not_le hwrap)
    obtain ⟨cap, hcap', hle, -⟩ := hroom _ _ hm
    rw [hcap, some_inj] at hcap'
    unfold pgsize arenaSize at *
    omega
  · rintro (hfit | hpage) p h' hm
    · exact room_of_le hr hlegal hnull hfit hm
    · -- from a free list, so small
      have h0 : size ≠ 0 := by
        rintro rfl
        cases hm
      obtain hne | ⟨d, hd, -⟩ := (malloc_grants (reach_inv hr) c hlegal h0).mp ⟨p, h', hm⟩
      · exact absurd hpage hne
      · refine room_of_le hr hlegal hnull ?_ hm
        by_contra hbig
        rw [findDesc_none (by unfold arenaSize at *; omega)] at hd
        cases hd

/-- A block that `calloc` returned has room for the product and is zeroed,
if and only if the product and an arena's header fit a `size_t`, the check
of the wrapped product fails, or nothing is available for it. -/
theorem calloc_room {b : Nat} (hlegal : c.Legal w.heap (pagesAsked (a * b % 2 ^ 32)))
    (hnull : pagesAsked (a * b % 2 ^ 32) = 0 → c.page = none) :
    (∀ p h', calloc c a b w.heap = some (some p, h') →
      a * b < 2 ^ 32 ∧ ∃ cap, blockSize h' p = some cap ∧ a * b ≤ cap ∧
        ∀ i, i < a * b → h'.memory (p + i) = 0) ↔
    a * b + arenaSize ≤ 2 ^ 32 ∨ a * b % 2 ^ 32 < a ∨ a * b % 2 ^ 32 < b ∨
      ¬ Available c (a * b % 2 ^ 32) w.heap := by
  simp only [calloc_eq_some]
  generalize hs : a * b % 2 ^ 32 = size at *
  have hsize : size < 2 ^ 32 := hs ▸ Nat.mod_lt _ (by decide)
  constructor
  · intro hroom
    by_contra hcond
    obtain ⟨hbig, ha, hb, havail⟩ : 2 ^ 32 < a * b + arenaSize ∧ ¬size < a ∧ ¬size < b ∧
        Available c size w.heap := by
      simpa only [not_or, Nat.not_le, not_not] using hcond
    have h0 : size ≠ 0 := by
      rintro rfl
      obtain rfl : a = 0 := by omega
      rw [Nat.zero_mul] at hbig
      exact absurd hbig (by decide)
    obtain ⟨p, h₁, hm⟩ := (malloc_grants (reach_inv hr) c hlegal h0).mpr havail
    obtain ⟨hlt, cap, hcap, hle, -⟩ := hroom p _ ⟨by omega, h₁, hm, rfl⟩
    obtain rfl : a * b = size := by omega
    -- the product is right, so it is the header that wraps
    obtain ⟨x, hx⟩ : ∃ x, c.page = some x := by
      refine ne_none_iff_exists'.mp (havail.resolve_right ?_)
      rintro ⟨d, hd, -⟩
      rw [findDesc_none (by unfold arenaSize at *; omega)] at hd
      cases hd
    obtain ⟨h₂, hm', hcap'⟩ := malloc_wrapped hlegal hx hsize hbig
    rw [hm] at hm'
    cases hm'
    have hsame : blockSize h₁ (x + arenaSize) = some cap := hcap
    rw [hcap', some_inj] at hsame
    unfold pgsize arenaSize at *
    omega
  · rintro hcond p h' ⟨hpass, h₁, hm, rfl⟩
    have h0 : size ≠ 0 := by
      rintro rfl
      cases hm
    have havail := (malloc_grants (reach_inv hr) c hlegal h0).mp ⟨_, _, hm⟩
    have hfit : a * b + arenaSize ≤ 2 ^ 32 := by
      rcases hcond with hfit | ha | hb | hno
      · exact hfit
      · exact absurd (.inl ha) hpass
      · exact absurd (.inr hb) hpass
      · exact absurd havail hno
    obtain rfl : a * b = size := by
      unfold arenaSize at hfit
      omega
    obtain ⟨cap, hcap, hle, -⟩ := room_of_le hr hlegal hnull hfit hm
    exact ⟨hsize, cap, hcap, hle, fun i hi => if_pos (decide_eq_true (by omega))⟩

end

/-- The page allocator's answer in the runs below. -/
def firstPage : Choice := ⟨some 0xc0200000, fun _ => 1⟩

theorem malloc_room_pages : ∃ p h', malloc firstPage 5000 emptyWorld.heap = some (some p, h') ∧
    RoomFor 5000 p h' :=
  ⟨_, _, rfl, (malloc_room reach_empty (c := firstPage) (by decide) (by decide)
    (by decide)).mpr (.inl (by decide)) _ _ rfl⟩

/-- 100 times 50 bytes are zeroed, and 65536 times 65536 are refused. -/
theorem calloc_room_pages : (∃ p h', calloc firstPage 100 50 emptyWorld.heap = some (some p, h') ∧
      ∀ i, i < 5000 → h'.memory (p + i) = 0) ∧
    ∀ p h', calloc firstPage 65536 65536 emptyWorld.heap ≠ some (some p, h') := by
  obtain ⟨-, cap, -, -, hzero⟩ := (calloc_room reach_empty (c := firstPage) (a := 100) (b := 50)
    (by decide) (by decide)).mpr (.inl (by decide)) _ _ rfl
  refine ⟨⟨_, _, rfl, hzero⟩, fun p h' hm => ?_⟩
  have hlt := ((calloc_room reach_empty (c := firstPage) (a := 65536) (b := 65536)
    (by decide) (by decide)).mpr (.inr (.inl (by decide))) p h' hm).1
  exact absurd hlt (by decide)

/-- The size of the largest request wraps when the header is added, and
one page is returned for 4 GB. -/
theorem malloc_wraps : ∃ p h', Reach Start step requestsFit emptyWorld ∧
    firstPage.Legal emptyWorld.heap (pagesAsked (2 ^ 32 - 1)) ∧
    malloc firstPage (2 ^ 32 - 1) emptyWorld.heap = some (some p, h') ∧
    blockSize h' p = some 4084 :=
  ⟨_, _, reach_empty, by decide, rfl, by decide +kernel⟩

/-- The square of 65537 wraps to a number larger than 65537. -/
theorem calloc_wraps : ∃ p h', Reach Start step requestsFit emptyWorld ∧
    firstPage.Legal emptyWorld.heap (pagesAsked (65537 * 65537 % 2 ^ 32)) ∧
    calloc firstPage 65537 65537 emptyWorld.heap = some (some p, h') ∧
    blockSize h' p = some (33 * 4096 - 12) ∧ 2 ^ 32 ≤ 65537 * 65537 :=
  ⟨_, _, reach_empty, by decide, rfl, by decide +kernel, by decide⟩

end Pintos.Malloc
