/-
`sector_allocate`: the growth of a whole file.

A file whose blocks are in place (`Shaped`) is grown right when the
request does not run from the middle of the indirect block past its end
and stays within the entries that a new double indirect block has cleared
(`Levels`), and there is space for it (`cost`). The split of the request
over the levels is wrong otherwise.
-/
import Pintos.Filesys.IndexBlocks

namespace Pintos.Inode

open Resume Env

/-- The `n` blocks of `I` are in place and there is nothing after them. -/
structure Shaped (e : Nat) (d : Nat → Block) (owner : Owner) (I : Nat) (ino : Block) (n : Nat) :
    Prop where
  mapped : Mapped d owner I ino n
  tail : Tail e d ino n
  bounded : Bounded owner I n n

/-- A growth that the levels of the index are right for, with `e` entries
of the double indirect block that are in use or null: 32 if it is new. -/
def Levels (e n n' : Nat) : Prop :=
  n' ≤ 138 + 128 * e ∧ (e ≤ 128 ∧ (n ≤ 138 → e ≤ 32)) ∧ ¬ (10 < n ∧ n < 138 ∧ 138 < n')

instance (e n n' : Nat) : Decidable (Levels e n n') := inferInstanceAs (Decidable (_ ∧ _))

/-- The sectors of a file with `n` blocks, its inode apart: the blocks,
the indirect block, the double indirect block and those under it. -/
def cost (n : Nat) : Nat := n + min (n - 10) 1 + min (n - 138) 1 + (n - 138 + 127) / 128

variable {e n n' I : Nat} {owner : Owner} {d : Nat → Block} {ino : Block}

theorem cost_mono (h : n ≤ n') : cost n ≤ cost n' := by
  unfold cost
  omega

/-- The cost of a growth is that of its parts. -/
theorem cost_split {now add f f₁ : Nat} (h : f₁ + cost n = f + cost (n + add)) (hnow : now ≤ add) :
    ∃ f₂, f₂ + cost (n + now) = f + cost (n + add) ∧ f₁ + cost n = f₂ + cost (n + now) := by
  have hmono := cost_mono (Nat.add_le_add_left hnow n)
  exact ⟨f + cost (n + add) - cost (n + now), by omega, by omega⟩

theorem cost_direct (h : n ≤ 10) : cost n = n := by
  unfold cost
  omega

/-- All after the pointers of an inode is kept. -/
def Kept (ino ino' : Block) : Prop := ∀ j, 48 ≤ j → ino' j = ino j

variable {ino' ino'' : Block}

theorem Kept.refl (ino : Block) : Kept ino ino := fun _ _ => rfl

theorem Kept.trans (h : Kept ino ino') (h' : Kept ino' ino'') : Kept ino ino'' :=
  fun j hj => (h' j hj).trans (h j hj)

theorem Kept.setWord (h : Kept ino ino') {i v : Nat} (hi : i < 12) :
    Kept ino (setWord ino' i v) := by
  intro j hj
  unfold Inode.setWord
  rw [if_neg (by omega)]
  exact h j hj

theorem Kept.word (h : Kept ino ino') {i : Nat} (hi : 12 ≤ i) : word ino' i = word ino i := by
  unfold Inode.word
  rw [h _ (by omega), h _ (by omega), h _ (by omega), h _ (by omega)]

theorem Kept.length (h : Kept ino ino') : length ino' = length ino := by
  unfold Inode.length
  rw [h.word (by decide)]

-- ==== growth of the pointers

section ShapedLemmas

variable {d d' : Nat → Block} {owner owner' : Owner} {I n x : Nat} {ino : Block}

variable (h : Shaped e d owner I ino n)

include h

/-- A direct block is added. -/
theorem Shaped.direct (hn : n < 10) (hx : owner x = none) (hlt : x < 4294967296) :
    Shaped e d (claim owner x (I, .data n)) I (setWord ino n x) (n + 1) where
  mapped :=
    { cap := by omega
      data := by
        intro i hi
        have hblock : blockOf d (setWord ino n x) i = word (setWord ino n x) i := if_pos (by omega)
        rw [hblock]
        by_cases hin : i = n
        · rw [hin, word_setWord_self (by omega) hlt]
          exact claim_self
        · rw [word_setWord_ne hin]
          exact claim_ext hx _ _ (h.mapped.direct (by omega) (by omega))
      indirect := fun hn' => by omega
      double := fun hn' => by omega
      inner := fun k hk => by omega }
  tail :=
    { direct := by
        intro i hi hi'
        rw [word_setWord_ne (by omega)]
        exact h.tail.direct i (by omega) hi'
      indirect := by
        intro _
        rw [word_setWord_ne (by omega)]
        exact h.tail.indirect (by omega)
      double := by
        intro _
        rw [word_setWord_ne (by omega)]
        exact h.tail.double (by omega)
      inner := fun hn' => by omega }
  bounded := h.bounded.claim_data.mono le_rfl (by omega)

/-- The entries of the indirect block. -/
theorem Shaped.entries (hn : n ≤ 138) :
    ∀ j, j < n - 10 → owner (word (d (word ino 10)) j) =
      some (I, .data (Slot.indirect.start + j)) := by
  intro j hj
  exact h.mapped.entry (by omega) (by omega)

/-- The indirect block has been extended. -/
theorem Shaped.indirect {cnt : Nat} (hn : 10 ≤ n) (hpos : n < 10 + cnt) (hcap : cnt ≤ 128)
    (hlt : x < 4294967296) (hidx : Indexed I .indirect cnt x owner d owner' d') :
    Shaped e d' owner' I (setWord ino 10 x) (10 + cnt) where
  mapped :=
    { cap := by omega
      data := by
        intro i hi
        unfold blockOf
        by_cases hi10 : i < 10
        · rw [if_pos hi10, word_setWord_ne (by omega)]
          exact hidx.grew.ext _ _ (h.mapped.direct (by omega) hi10)
        · rw [if_neg hi10, if_pos (by omega),
            word_setWord_self (by omega) hlt, hidx.entry (i - 10) (by omega)]
          show some (I, Slot.data (10 + (i - 10))) = _
          rw [Nat.add_sub_cancel' (by omega)]
      indirect := by
        intro _
        rw [word_setWord_self (by omega) hlt]
        exact hidx.owned
      double := fun hn' => by omega
      inner := fun k hk => by omega }
  tail :=
    { direct := fun i hi hi' => by omega
      indirect := fun hn' => by omega
      double := by
        intro _
        exact h.tail.double (by omega)
      inner := fun hn' => by omega }
  bounded := hidx.bounded

/-- What the double indirect block holds. -/
theorem Shaped.doubled (hn : 138 < n) : Doubled e I owner d (d (word ino 11)) (n - 138) where
  inner := fun k hk => h.mapped.inner k (by omega)
  data := by
    intro i hi
    have hdata := h.mapped.data (138 + i) (by omega)
    unfold blockOf at hdata
    rw [if_neg (by omega), if_neg (by omega), Nat.add_sub_cancel_left] at hdata
    exact hdata
  null := fun k hk hle => h.tail.inner hn k hk (by omega)
  bounded := by
    rw [Nat.add_sub_cancel' (by omega)]
    exact h.bounded

/-- The double indirect block has been extended. -/
theorem Shaped.double {c : Nat} (hn : 138 ≤ n) (hpos : n < 138 + c) (hcap : c ≤ 16384)
    (hlt : x < 4294967296) (hidx : DoubleIndexed e I c x owner d owner' d') :
    Shaped e d' owner' I (setWord ino 11 x) (138 + c) where
  mapped :=
    { cap := by omega
      data := by
        intro i hi
        by_cases hi138 : i < 138
        · have hold := (hidx.grew.mapped h.mapped).data i (by omega)
          unfold blockOf at hold ⊢
          by_cases hi10 : i < 10
          · rw [if_pos hi10] at hold ⊢
            rw [word_setWord_ne (by omega)]
            exact hold
          · rw [if_neg hi10, if_pos hi138] at hold ⊢
            exact hold
        · unfold blockOf
          rw [if_neg (by omega), if_neg hi138, word_setWord_self (by omega) hlt,
            hidx.doubled.data (i - 138) (by omega), Nat.add_sub_cancel' (by omega)]
      indirect := by
        intro _
        exact hidx.grew.ext _ _ (h.mapped.indirect (by omega))
      double := by
        intro _
        rw [word_setWord_self (by omega) hlt]
        exact hidx.owned
      inner := by
        intro k hk
        rw [word_setWord_self (by omega) hlt]
        exact hidx.doubled.inner k (by omega) }
  tail :=
    { direct := fun i hi hi' => by omega
      indirect := fun hn' => by omega
      double := fun hn' => by omega
      inner := by
        intro _ k hk hle
        rw [word_setWord_self (by omega) hlt]
        exact hidx.doubled.null k hk (by omega) }
  bounded := hidx.doubled.bounded

end ShapedLemmas

-- ==== the levels

/-- A successful growth to `n` blocks. -/
structure Allocated (e I : Nat) (owner : Owner) (d : Nat → Block)
    (ino : Block) (n : Nat) (g : Grown) (owner' : Owner)
    (d' : Nat → Block) : Prop where
  ok : g.ok = true
  grew : Grew I owner d owner' d'
  shaped : Shaped e d' owner' I g.ino n
  kept : Kept ino g.ino

theorem Allocated.none (h : Shaped e d owner I ino n) :
    Allocated e I owner d ino n ⟨true, ino⟩ owner d :=
  ⟨rfl, Grew.refl I owner d, h, .refl ino⟩

theorem Allocated.trans {owner' owner'' : Owner} {d' d'' : Nat → Block} {g g' : Grown}
    (h : Allocated e I owner d ino n g owner' d')
    (h' : Allocated e I owner' d' g.ino n' g' owner'' d'') :
    Allocated e I owner d ino n' g' owner'' d'' :=
  ⟨h'.ok, h.grew.trans h'.grew, h'.shaped, h.kept.trans h'.kept⟩

section Levels

variable {σ : Type} {E : Env Cmd Ret σ} {view : σ → Fs} {t : Tid}
  {live : List Nat} {I n₀ : Nat} {F : σ → Prop} {res : List Nat}
  {f : Nat}
variable {d junk : Nat → Block} {owner : Owner} {ino : Block} {add n f₁ : Nat}
  (hG : Grows E view t live I n₀ F)

/-- The direct blocks, with a sector for each. -/
theorem Grows.allocateDirect (add n : Nat) (ino : Block) (owner : Owner)
    (h : Shaped e d owner I ino n) :
    E.Triple (hG.Has res owner d (f + min add (10 - n)))
      (allocateDirect unchecked add n ino) fun r s => ∃ owner',
        (r.2 = (n + min add (10 - n), add - min add (10 - n)) ∧
          Allocated e I owner d ino (n + min add (10 - n)) r.1 owner' d) ∧
        hG.Has res owner' d f s := by
  induction add generalizing n ino owner with
  | zero =>
    exact .ret hG.stable fun s hs => ⟨owner, ⟨rfl, Allocated.none h⟩, hs⟩
  | succ add ih =>
    unfold Inode.allocateDirect directNum
    split
    next hn =>
      have hmin : min (add + 1) (10 - n) = min add (10 - (n + 1)) + 1 := by omega
      rw [hmin, ← add_assoc f]
      refine hG.freeMapAllocate fun x hlt hx => ?_
      refine .bind (hG.zeroBlock (h.bounded.fresh_data (le_refl n))) fun _ => ?_
      have hone : Allocated e I owner d ino (n + 1) ⟨true, setWord ino n x⟩
          (claim owner x (I, .data n)) d :=
        ⟨rfl, Grew.claim hx, h.direct hn hx hlt, (Kept.refl ino).setWord (by omega)⟩
      refine (ih (n + 1) (setWord ino n x) _ hone.shaped).post ?_
      rintro r s ⟨owner', ⟨hr, hrest⟩, hs⟩
      have hsum : n + (min add (10 - (n + 1)) + 1) = n + 1 + min add (10 - (n + 1)) := by omega
      rw [hsum]
      refine ⟨owner', ⟨?_, hone.trans hrest⟩, hs⟩
      rw [hr]
      congr 1
      omega
    next hn =>
      have hmin : min (add + 1) (10 - n) = 0 := by omega
      rw [hmin]
      exact .ret hG.stable fun s hs => ⟨owner, ⟨rfl, Allocated.none h⟩, hs⟩

/-- The blocks under the double indirect block. -/
theorem Grows.allocateDouble (h0 : owner 0 = some (0, .header)) (h : Shaped e d owner I ino n)
    (hn : 0 < add → 138 ≤ n) (hcap : n + add ≤ 138 + 128 * e)
    (he : e ≤ 128 ∧ (n ≤ 138 → e ≤ 32)) (hf : f₁ + cost n = f + cost (n + add)) :
    E.Triple (hG.Has res owner d f₁)
      (allocateDouble unchecked junk n add ino) fun g =>
        hG.Leads res f (Allocated e I owner d ino (n + add) g) := by
  unfold cost at hf
  unfold Inode.allocateDouble directNum blocksInIndirect
  split
  next hpos =>
    obtain ⟨c, rfl⟩ : ∃ c, n = 138 + c := ⟨n - 138, by omega⟩
    have hsub : 138 + c - 10 - 128 = c := by omega
    have hsum : 138 + c + add = 138 + (c + add) := by omega
    rw [hsub, hsum]
    by_cases hc : c = 0
    · subst hc
      rw [h.tail.double (by omega), zero_add]
      have hcost : f₁ = f + doubleCost add + 1 := by
        unfold doubleCost
        omega
      subst hcost
      refine hG.bind (hG.doubleNew (e := e) h0 hpos (by omega) (by omega) h.bounded)
        fun x owner' d' hidx => ?_
      have hx0 := index_ne_zero (hidx.grew.ext 0 _ h0) hidx.owned rfl
      refine .implied (In.owned_lt hidx.owned) fun hlt => ?_
      refine .ret hG.stable fun s hs => ⟨owner', d', ⟨?_, hidx.grew,
        h.double (by omega) (by omega) (by omega) hlt hidx, ?_⟩, hs⟩
      · exact decide_eq_true hx0
      · exact (Kept.refl ino).setWord (by omega)
    · have howned := h.mapped.double (by omega)
      have hdoubled := h.doubled (by omega)
      rw [Nat.add_sub_cancel_left] at hdoubled
      have hx0 := index_ne_zero h0 howned rfl
      refine .implied (In.owned_lt howned) fun hlt => ?_
      refine hG.bind (hG.doubleOld (f := f) h0 (by omega) hx0 howned hdoubled ?_) ?_
      · unfold doubleCost
        omega
      · rintro x owner' d' ⟨rfl, hidx⟩
        refine .ret hG.stable fun s hs => ⟨owner', d', ⟨?_,
          hidx.grew, h.double (by omega) (by omega) (by omega) hlt hidx,
          (Kept.refl ino).setWord (by omega)⟩, hs⟩
        exact decide_eq_true hx0
  next hpos =>
    have hadd : add = 0 := by omega
    subst hadd
    have hf1 : f₁ = f := add_right_cancel hf
    subst hf1
    exact .ret hG.stable fun s hs => ⟨owner, d, Allocated.none h, hs⟩

/-- The blocks in the indirect block: a new one, or the one in use. -/
theorem Grows.indirectLevel {junk : Block} (h0 : owner 0 = some (0, .header))
    (h : Shaped e d owner I ino n) (hpos : 0 < add) (hn : 10 ≤ n) (hcap : n + add ≤ 138)
    (hf : f₁ + cost n = f + cost (n + add)) :
    E.Triple (hG.Has res owner d f₁)
      (indirectBlockAllocate unchecked junk (n - 10) add (word ino 10))
      fun x => hG.Leads res f fun owner' d' =>
        x ≠ 0 ∧ Allocated e I owner d ino (n + add) ⟨true, setWord ino 10 x⟩ owner' d' := by
  unfold cost at hf
  obtain ⟨c, rfl⟩ : ∃ c, n = 10 + c := ⟨n - 10, by omega⟩
  rw [Nat.add_sub_cancel_left, add_assoc]
  by_cases hc : c = 0
  · subst hc
    have hnull := h.tail.indirect le_rfl
    rw [hnull, zero_add]
    have hcost : f₁ = f + add + 1 := by omega
    subst hcost
    refine (hG.indirectNew .indirect rfl hpos (by omega) h.bounded).post ?_
    rintro x s ⟨owner', d', hidx, hs⟩
    have hlt := In.owned_lt hidx.owned s hs
    have hx0 := index_ne_zero (hidx.grew.ext 0 _ h0) hidx.owned rfl
    exact ⟨owner', d', ⟨hx0, rfl, hidx.grew, h.indirect (by omega) (by omega) (by omega) hlt hidx,
      (Kept.refl ino).setWord (by omega)⟩, hs⟩
  · have howned := h.mapped.indirect (by omega)
    have hentry := h.entries (by omega)
    rw [Nat.add_sub_cancel_left] at hentry
    have hcost : f₁ = f + add := by omega
    subst hcost
    have hx0 := index_ne_zero h0 howned rfl
    refine (hG.indirectOld .indirect rfl hpos (by omega) hx0 howned hentry h.bounded).post ?_
    rintro x s ⟨owner', d', ⟨rfl, hidx⟩, hs⟩
    have hlt := In.owned_lt hidx.owned s hs
    exact ⟨owner', d', ⟨hx0, rfl, hidx.grew, h.indirect (by omega) (by omega) (by omega) hlt hidx,
      (Kept.refl ino).setWord (by omega)⟩, hs⟩

theorem Grows.allocateIndirect (h0 : owner 0 = some (0, .header)) (h : Shaped e d owner I ino n)
    (hn : 0 < add → 10 ≤ n) (hlev : Levels e n (n + add)) (hf : f₁ + cost n = f + cost (n + add)) :
    E.Triple (hG.Has res owner d f₁)
      (allocateIndirect unchecked junk n add ino) fun g =>
        hG.Leads res f (Allocated e I owner d ino (n + add) g) := by
  obtain ⟨hcap, he, hlev⟩ := hlev
  unfold Inode.allocateIndirect directNum blocksInIndirect
  split
  next hlevel =>
    have hn := hn hlevel.1
    obtain ⟨now, hnow⟩ : ∃ now, now = if add > 128 then 128 else add := ⟨_, rfl⟩
    simp only [← hnow]
    -- all of it, or, from the start of the level, as much as fits
    have hsplit : now = add ∧ add ≤ 128 ∨ n = 10 ∧ now = 128 ∧ 128 < add := by
      split at hnow <;> omega
    have hfit : n + now ≤ 138 ∧ 0 < now ∧ now ≤ add := by omega
    have hsum : n + now + (add - now) = n + add := by omega
    obtain ⟨f₂, hf2, hf1⟩ := cost_split hf hfit.2.2
    refine hG.bind (hG.indirectLevel h0 h hfit.2.1 hn hfit.1 hf1) ?_
    rintro x owner₁ d₁ ⟨hx0, hal⟩
    rw [if_neg hx0]
    refine (hG.allocateDouble (f := f) (hal.grew.ext 0 _ h0) hal.shaped
      (by omega) (by omega) (by omega) (by rw [hsum]; exact hf2)).post ?_
    rintro g s ⟨owner', d', hal', hs⟩
    rw [hsum] at hal'
    exact ⟨owner', d', hal.trans hal', hs⟩
  next hlevel => exact hG.allocateDouble h0 h (by omega) hcap he hf

theorem sectorAllocate_eq (use : Use) (junk : Nat → Block) (add : Nat) (ino : Block) :
    sectorAllocateWith use junk add ino =
      if (blocks ino + add) % 4294967296 > maxSectors then
        pure ⟨false, ino⟩
      else if add = 0 then pure ⟨true, ino⟩
      else allocateDirect use add (blocks ino) ino >>= fun r =>
        if r.1.ok then Inode.allocateIndirect use junk r.2.1 r.2.2 r.1.ino else pure r.1 :=
  rfl

theorem maxSectors_eq : maxSectors = 16522 := rfl

/-- `sector_allocate`, on a request it is right for. -/
theorem Grows.sectorAllocate (junk : Nat → Block) (res : List Nat)
    (h0 : owner 0 = some (0, .header)) (h : Shaped e d owner I ino (blocks ino))
    (hlev : Levels e (blocks ino) (blocks ino + add))
    (hf : f₁ + cost (blocks ino) = f + cost (blocks ino + add)) :
    E.Triple (hG.Has res owner d f₁)
      (sectorAllocate junk add ino) fun g =>
        hG.Leads res f (Allocated e I owner d ino (blocks ino + add) g) := by
  obtain ⟨hcap, he, hnot⟩ := hlev
  unfold Inode.sectorAllocate
  rw [sectorAllocate_eq, maxSectors_eq]
  generalize blocks ino = n at *
  rw [if_neg (by omega)]
  split
  next hadd =>
    rw [hadd, add_zero] at hf ⊢
    rw [add_right_cancel hf]
    exact .ret hG.stable fun s hs => ⟨owner, d, Allocated.none h, hs⟩
  next hadd =>
    obtain ⟨now, hnow⟩ : ∃ now, now = min add (10 - n) := ⟨_, rfl⟩
    have hsum : n + now + (add - now) = n + add := by omega
    have hlow : 0 < add - now → 10 ≤ n + now := by omega
    have hlev' : Levels e (n + now) (n + add) := ⟨hcap, by omega, by omega⟩
    have hnowcost : cost (n + now) = cost n + now := by
      by_cases hn : n ≤ 10
      · rw [cost_direct (by omega), cost_direct hn]
      · rw [hnow, Nat.sub_eq_zero_of_le (by omega), Nat.min_zero, add_zero, add_zero]
    have hle : now ≤ add := by omega
    obtain ⟨f₂, hf2, hf1⟩ := cost_split hf hle
    have hf1 : f₁ = f₂ + now := by omega
    subst hf1
    subst hnow
    refine .bind (hG.allocateDirect add n ino owner h) ?_
    rintro ⟨g, n', add'⟩
    refine .exists fun owner₁ => .assume ?_
    rintro ⟨hr, hal⟩
    cases hr
    rw [if_pos hal.ok]
    refine (hG.allocateIndirect (f := f) (hal.grew.ext 0 _ h0) hal.shaped hlow
      (by rw [hsum]; exact hlev') (by rw [hsum]; exact hf2)).post ?_
    rintro g' s ⟨owner', d', hal', hs⟩
    rw [hsum] at hal'
    exact ⟨owner', d', hal.trans hal', hs⟩

/-- The same from a file system with space for it, before any step. -/
theorem Grows.sectorAllocate_start {fs : Fs} (hG : Grows E view t live I (blocks ino) F)
    (junk : Nat → Block) (hh : Holds live owner fs) (h0 : owner 0 = some (0, .header))
    (h : Shaped e fs.disk owner I ino (blocks ino))
    (hlev : Levels e (blocks ino) (blocks ino + add))
    (hcost : cost (blocks ino + add) ≤ cost (blocks ino) + fs.freeMap.freeCount) :
    ∃ f, f + cost (blocks ino + add) = fs.freeMap.freeCount + cost (blocks ino) ∧
      E.Triple (fun s => F s ∧ view s = fs) (Inode.sectorAllocate junk add ino) fun g =>
        hG.Leads [] f (Allocated e I owner fs.disk ino (blocks ino + add) g) := by
  obtain ⟨f, hf⟩ := Nat.exists_eq_add_of_le hcost
  have htaken : f + cost (blocks ino + add) = fs.freeMap.freeCount + cost (blocks ino) := by omega
  have htriple := hG.sectorAllocate junk [] h0 h hlev htaken.symm
  refine ⟨f, htaken, htriple.conseq ?_ fun _ _ hs => hs⟩
  rintro s ⟨hF, rfl⟩
  exact ⟨hF, hh, rfl, fun _ _ _ _ _ => rfl,
    fun x i hx hi => absurd (h.bounded.data x i hx) (not_lt.mpr hi), nofun, List.nodup_nil⟩

end Levels

end Pintos.Inode
