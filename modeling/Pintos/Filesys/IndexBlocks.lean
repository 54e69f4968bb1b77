/-
`free_map_allocate`, `indirect_block_allocate` and
`double_indirect_block_allocate`, as triples.

Each leads from an owner and index blocks `d` to larger ones (`Grew`),
with the free sectors counted. A new index block gets its slot when it is
written, so the stale contents of its sector never matter; when an index
block in use is written back, an entry past the blocks in use may look
like one of the new blocks, and then it is that block (`Injective`).
-/
import Pintos.Filesys.Grow

namespace Pintos.Inode

open Resume Env

/-- A world for a thread that grows the file `I`; `F` is what else the
thread knows. -/
structure Grows {σ : Type} (E : Env Cmd Ret σ) (view : σ → Fs) (t : Tid)
    (live : List Nat) (I n₀ : Nat) (F : σ → Prop) : Prop where
  act : ∀ {c : Cmd} {s s' : σ} {v : Ret c}, E.act c s = some (v, s') →
    (view s).act t c = some (v, view s')
  quiet : ∀ {s s' : σ}, F s → E.rely s s' → Quiet live I n₀ (view s) (view s') ∧ F s'
  step : ∀ {c : Cmd} {s s' : σ} {v : Ret c}, F s → Growth live c →
    E.ok c s → E.act c s = some (v, s') →
    GrowStep live (view s) (view s') → E.guar s s' ∧ F s'

/-- The thread's own knowledge and an assertion about the file system. -/
def In {σ : Type} (F : σ → Prop) (view : σ → Fs) (X : Fs → Prop) : σ → Prop :=
  fun s => F s ∧ X (view s)

section Commands

variable {σ : Type} {E : Env Cmd Ret σ} {view : σ → Fs} {t : Tid}
  {live : List Nat} {I n₀ : Nat} {F : σ → Prop} {res : List Nat}
  {owner : Owner} {d : Nat → Block} {f x n : Nat} {b : Block}

variable {fs : Fs} {slot : Slot}

theorem GrowStep.same {fs' : Fs} (h : Holds live owner fs) (hd : fs'.disk = fs.disk)
    (hsize : fs'.size = fs.size) (hino : fs'.inode = fs.inode)
    (hopen : fs'.openInodes = fs.openInodes) : GrowStep live fs fs' :=
  ⟨hsize, hino, hopen, owner, h, by rw [hd]; exact Extends.refl owner _⟩

theorem Holds.not_live (h : Holds live owner fs) (hx : owner x = some (I, slot))
    (hslot : slot.isIndex = true) : x ∉ live := by
  intro hmem
  rw [h.header x hmem] at hx
  cases hx
  cases hslot

theorem In.unowned {view : σ → Fs} {F : σ → Prop} (s : σ)
    (h : In F view (At live I n₀ (x :: res) owner d f) s) : owner x = none :=
  (h.2.reserved x List.mem_cons_self).1

theorem At.reserved_not_live (h : At live I n₀ (x :: res) owner d f fs) : x ∉ live := by
  intro hmem
  have hnone := (h.reserved x List.mem_cons_self).1
  simp [h.holds.header x hmem] at hnone

/-- No two sectors have the same slot. -/
def Injective (owner : Owner) : Prop := ∀ x y z, owner x = some z → owner y = some z → x = y

/-- What the thread knows: the owners, the index blocks, its reserved
sectors and the number of free ones. -/
abbrev Grows.Has (_ : Grows E view t live I n₀ F) (res : List Nat) (owner : Owner)
    (d : Nat → Block) (f : Nat) : σ → Prop :=
  In F view (At live I n₀ res owner d f)

/-- The file has grown to what `P` says. -/
abbrev Grows.Leads (hG : Grows E view t live I n₀ F) (res : List Nat) (f : Nat)
    (P : Owner → (Nat → Block) → Prop) (s : σ) : Prop :=
  ∃ owner d, P owner d ∧ hG.Has res owner d f s

section

variable (hG : Grows E view t live I n₀ F)

include hG

theorem Grows.stable : E.Stable (hG.Has res owner d f) := by
  intro s s' h hr
  obtain ⟨hq, hF⟩ := hG.quiet h.1 hr
  exact ⟨hF, h.2.quiet hq⟩

/-- A command of the growing thread. -/
theorem Grows.command {c : Cmd} {B : Ret c → σ → Prop}
    (hB : ∀ v, E.Stable (B v)) (h : ∀ s v s', At live I n₀ res owner d f (view s) →
      (view s).act t c = some (v, view s') → Growth live c ∧
        GrowStep live (view s) (view s') ∧ (F s' → B v s')) :
    E.Triple (hG.Has res owner d f) (run c) B := by
  refine .call hG.stable hB fun s v s' hs hok hact => ?_
  obtain ⟨hc, hstep, hB'⟩ := h s v s' hs.2 (hG.act hact)
  obtain ⟨hg, hF⟩ := hG.step hs.1 hc hok hact hstep
  exact ⟨hg, hB' hF⟩

theorem Grows.scanAndFlip :
    E.Triple (hG.Has res owner d (f + 1)) scanAndFlip
      fun v s => ∃ x, (v = some x ∧ x < 4294967296) ∧ hG.Has (x :: res) owner d f s := by
  refine hG.command (fun v => Stable.exists fun x =>
    (stable_const _).and hG.stable) fun s v s' hs hact => ?_
  injection hact with hact
  injection hact with hv hs'
  obtain ⟨hstep, x, hx, hat⟩ := hs.take (v := v)
    (m := ((view s).freeMap.scanAndFlip 0 1 false).2) (by rw [← hv])
  rw [hs'] at hstep hat
  obtain ⟨-, hlt, -⟩ := hat.reserved x List.mem_cons_self
  exact ⟨trivial, hstep, fun hF => ⟨x, ⟨hx, lt_trans hlt hat.holds.size⟩, hF, hat⟩⟩

theorem Grows.mapFile :
    E.Triple (hG.Has res owner d f) mapFileOpen fun _ => hG.Has res owner d f := by
  refine hG.command (fun _ => hG.stable) fun s v s' hs hact => ?_
  injection hact with hact
  injection hact with hv hs'
  rw [← hs']
  exact ⟨trivial, GrowStep.same hs.holds rfl rfl rfl rfl, fun hF => ⟨hF, hs' ▸ hs⟩⟩

theorem Grows.bitmapWrite :
    E.Triple (hG.Has res owner d f) bitmapWrite fun v s => v = true ∧ hG.Has res owner d f s := by
  refine hG.command (fun _ => (stable_const _).and hG.stable) fun s v s' hs hact => ?_
  injection hact with hact
  injection hact with hv hs'
  have hat : At live I n₀ res owner d f (view s') := by
    rw [← hs']
    exact ⟨hs.holds.keeps rfl rfl (fun _ h => h) (Keeps.refl owner _),
      hs.free, hs.index, hs.zero, hs.reserved, hs.nodup⟩
  refine ⟨trivial, ?_, fun hF => ⟨hv.symm, hF, hat⟩⟩
  rw [← hs']
  exact GrowStep.same hs.holds rfl rfl rfl rfl

variable {α : Type} {k : Option Nat → Prog Cmd Ret α} {B : α → σ → Prop}

/-- `free_map_allocate`, with a sector free. -/
theorem Grows.freeMapAllocate (h : ∀ x, x < 4294967296 → owner x = none →
      E.Triple (hG.Has (x :: res) owner d f) (k (some x)) B) :
    E.Triple (hG.Has res owner d (f + 1)) (freeMapAllocate >>= k) B := by
  have hgot : E.Triple (hG.Has res owner d (f + 1)) Inode.freeMapAllocate fun v s =>
      ∃ x, (v = some x ∧ x < 4294967296) ∧ hG.Has (x :: res) owner d f s := by
    refine .bind hG.scanAndFlip fun v => .exists fun x => Triple.assume ?_
    rintro ⟨rfl, hx⟩
    refine .bind hG.mapFile fun isOpen => ?_
    cases isOpen with
    | false => exact .ret hG.stable fun s hs => ⟨x, ⟨rfl, hx⟩, hs⟩
    | true =>
      refine .bind hG.bitmapWrite fun v => .assume ?_
      rintro rfl
      exact .ret hG.stable fun s hs => ⟨x, ⟨rfl, hx⟩, hs⟩
  refine .bind hgot fun v => .exists fun x => Triple.assume ?_
  rintro ⟨rfl, hx⟩
  exact .implied In.unowned (h x hx)

/-- A program that grows the file, and what follows it. -/
theorem Grows.bind {β : Type} {p : Prog Cmd Ret β} {k : β → Prog Cmd Ret α} {A : σ → Prop}
    {P : β → Owner → (Nat → Block) → Prop} (hp : E.Triple A p fun v => hG.Leads res f (P v))
    (hk : ∀ v owner' d', P v owner' d' → E.Triple (hG.Has res owner' d' f) (k v) B) :
    E.Triple A (p >>= k) B :=
  .bind hp fun v => .exists fun owner' => .exists fun d' => .assume (hk v owner' d')

-- ==== sectors

/-- A reserved sector is written and gets its slot. -/
theorem Grows.writeReserved {owner' : Owner} {d' : Nat → Block}
    (hclaim : ∀ fs, At live I n₀ (x :: res) owner d f fs → fs.disk x = b →
      At live I n₀ res owner' d' f fs) :
    E.Triple (hG.Has (x :: res) owner d f) (blockWrite x b) fun _ => hG.Has res owner' d' f := by
  refine hG.command (fun _ => hG.stable) fun s v s' hs hact => ?_
  have hs' := act_blockWrite hact
  obtain ⟨hstep, hat⟩ := hs.write_reserved (b := b) List.mem_cons_self
  rw [← hs'] at hstep hat
  refine ⟨hs.reserved_not_live, hstep, fun hF => ⟨hF, hclaim _ hat ?_⟩⟩
  rw [hs']
  exact setDisk_self ..

/-- A sector is zeroed and becomes a data block. -/
theorem Grows.zeroBlock (hfresh : ∀ y, owner y ≠ some (I, .data n)) :
    E.Triple (hG.Has (x :: res) owner d f) (blockWrite x zeros) fun _ =>
      hG.Has res (claim owner x (I, .data n)) d f :=
  hG.writeReserved fun _ hat hz => hat.claim_data hz hfresh

/-- A new index block is written. -/
theorem Grows.newIndex (hslot : slot.isIndex = true) (hfresh : ∀ y, owner y ≠ some (I, slot)) :
    E.Triple (hG.Has (x :: res) owner d f) (blockWrite x b) fun _ =>
      hG.Has res (claim owner x (I, slot)) (Function.update d x b) f :=
  hG.writeReserved fun _ hat hb => hat.claim_index hb hslot hfresh

/-- An index block is written back, extended. -/
theorem Grows.oldIndex (hx : owner x = some (I, slot))
    (hslot : slot.isIndex = true) (hkeep : Injective owner → ∀ j, j < 128 →
      owner (word (d x) j) = some (I, slot.entry j) →
      word b j = word (d x) j) :
    E.Triple (hG.Has res owner d f) (blockWrite x b)
      fun _ => hG.Has res owner (Function.update d x b) f := by
  refine hG.command (fun _ => hG.stable) fun s v s' hs hact => ?_
  have hs' := act_blockWrite hact
  obtain ⟨hstep, hat⟩ := hs.write_index hx hslot (hkeep hs.holds.inj)
  rw [← hs'] at hstep hat
  exact ⟨hs.holds.not_live hx hslot, hstep, fun hF => ⟨hF, hat⟩⟩

/-- An index block is read. -/
theorem Grows.readIndex (hx : owner x = some (I, slot)) (hslot : slot.isIndex = true) :
    E.Triple (hG.Has res owner d f) (blockRead x) fun v s => v = d x ∧ hG.Has res owner d f s := by
  refine hG.command (fun _ => (stable_const _).and hG.stable) fun s v s' hs hact => ?_
  obtain ⟨hv, hs'⟩ := act_blockRead hact
  rw [hs', hv]
  exact ⟨hs.holds.not_live hx hslot, GrowStep.same hs.holds rfl rfl rfl rfl,
    fun hF => ⟨hs.index x I slot hx hslot, hF, hs' ▸ hs⟩⟩

end

end Commands

-- ==== indirect block

/-- The entries `[current, current + add)` of `b` are new data blocks. -/
structure Filled (I base current add m : Nat) (buffer : Block)
    (owner : Owner) (d : Nat → Block) (b : Block) (owner' : Owner) :
    Prop where
  grew : Grew I owner d owner' d
  bounded : Bounded owner' I (base + current + add) m
  double : ∀ y, owner' y = some (I, .double) → owner y = some (I, .double)
  entry : ∀ j, current ≤ j → j < current + add → owner' (word b j) = some (I, .data (base + j))
  other : ∀ j, j < current ∨ current + add ≤ j → word b j = word buffer j

/-- One round of the loop and the rest. -/
theorem Filled.cons {I base current add m x : Nat} {buffer b : Block} {owner owner' : Owner}
    {d : Nat → Block} (hx : owner x = none) (hlt : x < 4294967296) (hcur : current < 128)
    (h : Filled I base (current + 1) add m (setWord buffer current x)
      (claim owner x (I, .data (base + current))) d b owner') :
    Filled I base current (add + 1) m buffer owner d b owner' where
  grew := (Grew.claim hx).trans h.grew
  bounded := by
    have heq : base + current + (add + 1) = base + (current + 1) + add := by omega
    rw [heq]
    exact h.bounded
  double := by
    intro y hy
    rcases claim_eq (h.double y hy) with ⟨-, heq⟩ | hy
    · cases heq
    · exact hy
  entry := by
    intro j hj hj'
    by_cases hjc : j = current
    · subst hjc
      rw [h.other j (by omega), word_setWord_self hcur hlt]
      exact h.grew.ext x _ claim_self
    · exact h.entry j (by omega) (by omega)
  other := by
    intro j hj
    rw [h.other j (by omega), word_setWord_ne (by omega)]

section Indirect

variable {σ : Type} {E : Env Cmd Ret σ} {view : σ → Fs} {t : Tid}
  {live : List Nat} {I n₀ : Nat} {F : σ → Prop} {res : List Nat}
  {d : Nat → Block} {f x : Nat}
variable {owner : Owner} {add : Nat} {junk : Block} (hG : Grows E view t live I n₀ F)

theorem Grows.fillIndirect (base m : Nat) (add current : Nat) (buffer : Block) (owner : Owner)
    (hcap : current + add ≤ 128) (hb : Bounded owner I (base + current) m) :
    E.Triple (hG.Has res owner d (f + add))
      (fillIndirect unchecked add current buffer) fun b s => ∃ owner',
        Filled I base current add m buffer owner d b owner' ∧
        hG.Has res owner' d f s := by
  induction add generalizing current buffer owner with
  | zero =>
    refine .ret hG.stable fun s hs => ⟨owner, ?_, hs⟩
    exact ⟨Grew.refl I owner d, hb, fun _ hy => hy, fun j _ _ => by omega, fun _ _ => rfl⟩
  | succ add ih =>
    refine hG.freeMapAllocate fun x hlt hx => ?_
    refine .bind (hG.zeroBlock (hb.fresh_data le_rfl)) fun _ => ?_
    refine (ih (current + 1) (setWord buffer current x) _ (by omega)
      (add_assoc base current 1 ▸ hb.claim_data)).post ?_
    rintro b s ⟨owner', hfill, hs⟩
    exact ⟨owner', hfill.cons hx hlt (by omega), hs⟩

/-- An index block at `x` with `cnt` data blocks. -/
structure Indexed (I : Nat) (slot : Slot) (cnt x : Nat) (owner : Owner)
    (d : Nat → Block) (owner' : Owner) (d' : Nat → Block) : Prop where
  grew : Grew I owner d owner' d'
  owned : owner' x = some (I, slot)
  double : ∀ y, owner' y = some (I, .double) → owner y = some (I, .double)
  entry : ∀ j, j < cnt → owner' (word (d' x) j) = some (I, .data (slot.start + j))
  bounded : Bounded owner' I (slot.start + cnt) (slot.start + cnt)

/-- A new indirect block. -/
theorem Grows.indirectNew (slot : Slot) (hleaf : slot.isLeaf = true) (hpos : 0 < add)
    (hadd : add ≤ 128) (hb : Bounded owner I slot.start slot.start) :
    E.Triple (hG.Has res owner d (f + add + 1))
      (indirectBlockAllocate unchecked junk 0 add 0) fun x =>
        hG.Leads res f (Indexed I slot add x owner d) := by
  have hslot := Slot.isIndex_leaf hleaf
  refine hG.freeMapAllocate fun x hlt _ => ?_
  refine .bind (hG.fillIndirect slot.start slot.start add 0
    (memset junk) owner (by omega) hb) fun b => .exists fun owner₁ =>
      Triple.assume fun hfill => .implied In.unowned fun hx => ?_
  refine .bind (hG.newIndex hslot (hfill.bounded.fresh_index slot hslot le_rfl)) fun _ => ?_
  refine .ret hG.stable fun s hs => ⟨_, _, ⟨?_, claim_self, ?_, ?_, ?_⟩, hs⟩
  · exact (hfill.grew.trans (Grew.put hx)).trans (Grew.claim hx)
  · intro y hy
    rcases claim_eq hy with ⟨-, heq⟩ | hy
    · cases heq
      cases hleaf
    · exact hfill.double y hy
  · intro j hj
    rw [Function.update_self]
    exact claim_ext hx _ _ (hfill.entry j (Nat.zero_le j) (by omega))
  · exact (hfill.bounded.mono (by omega) (by omega)).claim_index hslot (by omega)

/-- An indirect block in use is extended. -/
theorem Grows.indirectOld {current : Nat} (slot : Slot) (hleaf : slot.isLeaf = true)
    (hpos : 0 < add) (hcap : current + add ≤ 128) (hx0 : x ≠ 0) (hx : owner x = some (I, slot))
    (hentry : ∀ j, j < current → owner (word (d x) j) = some (I, .data (slot.start + j)))
    (hb : Bounded owner I (slot.start + current) (slot.start + current)) :
    E.Triple (hG.Has res owner d (f + add))
      (indirectBlockAllocate unchecked junk current add x) fun y =>
        hG.Leads res f fun owner' d' =>
          y = x ∧ Indexed I slot (current + add) x owner d owner' d' := by
  have hslot := Slot.isIndex_leaf hleaf
  unfold indirectBlockAllocate
  rw [if_neg hx0]
  refine .bind (hG.readIndex hx hslot) fun buffer => .assume ?_
  rintro rfl
  refine .bind (hG.fillIndirect slot.start _ add current (d x) owner
    hcap hb) fun b => .exists fun owner₁ => Triple.assume fun hfill => ?_
  have hx1 := hfill.grew.ext x _ hx
  have hkeep : Injective owner₁ → ∀ j, j < 128 → owner₁ (word (d x) j) = some (I, slot.entry j) →
      word b j = word (d x) j := by
    intro hinj j _ hown
    by_cases hj : current ≤ j ∧ j < current + add
    · -- a stale entry that happens to be the new one
      rw [Slot.entry_leaf hleaf] at hown
      exact hinj _ _ _ (hfill.entry j hj.1 hj.2) hown
    · exact hfill.other j (by omega)
  refine .implied (fun s hs => hs.2.holds.inj) fun hinj => ?_
  refine .bind (hG.oldIndex hx1 hslot hkeep) fun _ => ?_
  refine .ret hG.stable fun s hs => ⟨_, _, ⟨rfl, ?_, hx1, hfill.double, ?_, ?_⟩, hs⟩
  · exact hfill.grew.trans (Grew.rewrite hx1 hslot (hkeep hinj))
  · intro j hj
    rw [Function.update_self]
    by_cases hjc : j < current
    · rw [hfill.other j (.inl hjc)]
      exact hfill.grew.ext _ _ (hentry j hjc)
    · exact hfill.entry j (by omega) hj
  · exact hfill.bounded.mono (by omega) (by omega)

end Indirect

-- ==== double indirect block

/-- The first `c` blocks under a double indirect block that holds
`buffer`, and nothing in the entries after them, up to the first `e`. -/
structure Doubled (e I : Nat) (owner : Owner) (d : Nat → Block)
    (buffer : Block) (c : Nat) : Prop where
  inner : ∀ k, 128 * k < c → owner (word buffer k) = some (I, .inner k)
  data : ∀ i, i < c → owner (word (d (word buffer (i / 128))) (i % 128)) = some (I, .data (138 + i))
  null : ∀ k, k < e → c ≤ 128 * k → word buffer k = 0
  bounded : Bounded owner I (138 + c) (138 + c)

/-- Sectors for `c` blocks and the indirect blocks over them. -/
def doubleCost (c : Nat) : Nat := c + (c + 127) / 128

variable {e I c : Nat} {owner owner' : Owner} {d d' : Nat → Block} {buffer : Block}

theorem entry_inner (i : Nat) : Slot.entry (.inner (i / 128)) (i % 128) = .data (138 + i) := by
  have h := Slot.entry_inner (Nat.le_add_right 138 i)
  rw [Nat.add_sub_cancel_left] at h
  exact h

section

variable (h : Doubled e I owner d buffer c)

include h

/-- The blocks in use stay where they are. -/
theorem Doubled.kept (hg : Grew I owner d owner' d') {i : Nat} (hi : i < c) :
    owner' (word (d' (word buffer (i / 128))) (i % 128)) = some (I, .data (138 + i)) := by
  have hdata := h.data i hi
  rw [hg.keeps.entry (h.inner (i / 128) (by omega)) rfl
    (Nat.mod_lt _ (by omega)) (by rw [hdata, entry_inner])]
  exact hg.ext _ _ hdata

theorem Doubled.grew (hg : Grew I owner d owner' d') (hb : Bounded owner' I (138 + c) (138 + c)) :
    Doubled e I owner' d' buffer c where
  inner := fun k hk => hg.ext _ _ (h.inner k hk)
  data := fun _ hi => h.kept hg hi
  null := h.null
  bounded := hb

/-- The indirect block in entry `c / 128` has been extended. -/
theorem Doubled.extend {add x : Nat} (hpos : 0 < add) (hadd : c % 128 + add ≤ 128)
    (hcap : c + add ≤ 128 * min e 128) (hx : x < 4294967296)
    (hidx : Indexed I (.inner (c / 128)) (c % 128 + add) x owner d owner' d') :
    Doubled e I owner' d' (setWord buffer (c / 128) x) (c + add) where
  inner := by
    intro k hk
    by_cases hkc : k = c / 128
    · rw [hkc, word_setWord_self (by omega) hx]
      exact hidx.owned
    · rw [word_setWord_ne hkc]
      exact hidx.grew.ext _ _ (h.inner k (by omega))
  data := by
    intro i hi
    by_cases hic : i / 128 = c / 128
    · rw [hic, word_setWord_self (by omega) hx, hidx.entry _ (by omega)]
      show some (I, Slot.data (138 + 128 * (c / 128) + i % 128)) = _
      congr 3
      omega
    · rw [word_setWord_ne hic]
      exact h.kept hidx.grew (by omega)
  null := by
    intro k hk hck
    rw [word_setWord_ne (by omega)]
    exact h.null k hk (by omega)
  bounded := by
    have heq : 138 + (c + add) = 138 + 128 * (c / 128) + (c % 128 + add) := by omega
    rw [heq]
    exact hidx.bounded

end

section Double

variable {σ : Type} {E : Env Cmd Ret σ} {view : σ → Fs} {t : Tid}
  {live : List Nat} {I n₀ : Nat} {F : σ → Prop} {res : List Nat}
  {f x : Nat}
variable {owner : Owner} {d junk : Nat → Block} {add : Nat} (hG : Grows E view t live I n₀ F)

theorem In.owned_lt {view : σ → Fs} {F : σ → Prop} {z : Nat × Slot} (hx : owner x = some z) (s : σ)
    (h : In F view (At live I n₀ res owner d f) s) : x < 4294967296 :=
  lt_trans (h.2.holds.used x z hx).1 h.2.holds.size

/-- An index block is not sector 0. -/
theorem index_ne_zero {slot : Slot} (h0 : owner 0 = some (0, .header))
    (hx : owner x = some (I, slot)) (hslot : slot.isIndex = true) : x ≠ 0 := by
  rintro rfl
  rw [h0] at hx
  cases hx
  cases hslot

/-- The loop has got to `c` blocks. -/
structure DoubleFilled (e I c : Nat) (owner : Owner) (d : Nat → Block)
    (buffer : Block) (owner' : Owner) (d' : Nat → Block) : Prop where
  grew : Grew I owner d owner' d'
  double : ∀ y, owner' y = some (I, .double) → owner y = some (I, .double)
  doubled : Doubled e I owner' d' buffer c

/-- One round of the loop: a new indirect block or the last one in use. -/
theorem Grows.fillDouble_round {buffer : Block} {c f₁ : Nat}
    {junk : Block} (h0 : owner 0 = some (0, .header)) (h : Doubled e I owner d buffer c)
    (hpos : 0 < add) (hadd : c % 128 + add ≤ 128) (hcap : c + add ≤ 128 * min e 128)
    (hf : f₁ + doubleCost c = f + doubleCost (c + add)) :
    E.Triple (hG.Has res owner d f₁)
      (indirectBlockAllocate unchecked junk (c % 128) add (word buffer (c / 128)))
      fun x =>
        hG.Leads res f (DoubleFilled e I (c + add) owner d (setWord buffer (c / 128) x)) := by
  unfold doubleCost at hf
  have hstart : 138 + c = 138 + 128 * (c / 128) + c % 128 := by omega
  have hb := h.bounded
  rw [hstart] at hb
  by_cases hfresh : c % 128 = 0
  · have hnull := h.null (c / 128) (by omega) (by omega)
    rw [hnull, hfresh]
    rw [hfresh] at hb
    have hcost : f₁ = f + add + 1 := by omega
    subst hcost
    refine (hG.indirectNew (.inner (c / 128)) rfl hpos (by omega) hb).post ?_
    rintro x s ⟨owner', d', hidx, hs⟩
    refine ⟨owner', d', ⟨hidx.grew, hidx.double, h.extend hpos (by omega) hcap
      (In.owned_lt hidx.owned s hs) ?_⟩, hs⟩
    rw [hfresh, zero_add]
    exact hidx
  · have hinner := h.inner (c / 128) (by omega)
    have hcost : f₁ = f + add := by omega
    subst hcost
    have hx0 := index_ne_zero h0 hinner rfl
    refine (hG.indirectOld (.inner (c / 128)) rfl hpos (by omega) hx0 hinner ?_ hb).post ?_
    · intro j hj
      have hdata := h.data (128 * (c / 128) + j) (by omega)
      have hdiv : (128 * (c / 128) + j) / 128 = c / 128 := by omega
      have hmod : (128 * (c / 128) + j) % 128 = j := by omega
      rw [hdiv, hmod] at hdata
      rw [hdata]
      show _ = some (I, Slot.data (138 + 128 * (c / 128) + j))
      rw [add_assoc]
    · rintro x s ⟨owner', d', ⟨rfl, hidx⟩, hs⟩
      exact ⟨owner', d', ⟨hidx.grew, hidx.double, h.extend hpos hadd hcap
        (In.owned_lt hidx.owned s hs) hidx⟩, hs⟩

theorem Grows.fillDouble (junk : Nat → Block) (fuel c add f₁ : Nat) (buffer : Block) (owner : Owner)
    (d : Nat → Block)
    (h0 : owner 0 = some (0, .header)) (hfuel : add ≤ fuel) (hcap : c + add ≤ 128 * min e 128)
    (h : Doubled e I owner d buffer c) (hf : f₁ + doubleCost c = f + doubleCost (c + add)) :
    E.Triple (hG.Has res owner d f₁)
      (fillDouble unchecked junk fuel c add buffer) fun b =>
        hG.Leads res f (DoubleFilled e I (c + add) owner d b) := by
  induction fuel generalizing c add f₁ buffer owner d with
  | zero =>
    have hadd : add = 0 := by omega
    subst hadd
    have hf1 : f₁ = f := add_right_cancel hf
    subst hf1
    exact .ret hG.stable fun s hs => ⟨owner, d, ⟨Grew.refl I owner d, fun _ hy => hy, h⟩, hs⟩
  | succ fuel ih =>
    unfold Inode.fillDouble
    by_cases hadd : add = 0
    · subst hadd
      have hf1 : f₁ = f := add_right_cancel hf
      subst hf1
      exact .ret hG.stable fun s hs => ⟨owner, d, ⟨Grew.refl I owner d, fun _ hy => hy, h⟩, hs⟩
    · rw [if_neg hadd]
      -- how much goes into this indirect block
      obtain ⟨now, hnow⟩ : ∃ now, now = min add (128 - c % 128) := ⟨_, rfl⟩
      show E.Triple _ (indirectBlockAllocate unchecked (junk fuel) (c % 128)
        (min add (128 - c % 128)) (word buffer (c / 128)) >>= fun s =>
          Inode.fillDouble unchecked junk fuel (c + min add (128 - c % 128))
            (add - min add (128 - c % 128))
            (setWord buffer (c / 128) s)) _
      rw [← hnow]
      have hsum : c + now + (add - now) = c + add := by omega
      refine hG.bind (hG.fillDouble_round h0 h
        (f := f + doubleCost (c + add) - doubleCost (c + now)) (by omega)
        (by omega) (by omega) ?_) fun x owner₁ d₁ hround => ?_
      · unfold doubleCost at hf ⊢
        omega
      · refine (ih (c + now) (add - now) _ _ owner₁ d₁
          (hround.grew.ext 0 _ h0) (by omega) (by omega)
          hround.doubled ?_).post ?_
        · unfold doubleCost at hf ⊢
          omega
        · rintro b s ⟨owner', d', hrest, hs⟩
          rw [hsum] at hrest
          exact ⟨owner', d', ⟨hround.grew.trans hrest.grew,
            fun y hy => hround.double y (hrest.double y hy),
            hrest.doubled⟩, hs⟩

/-- The double indirect block at `x` has `c` blocks under it. -/
structure DoubleIndexed (e I c x : Nat) (owner : Owner) (d : Nat → Block)
    (owner' : Owner) (d' : Nat → Block) : Prop where
  grew : Grew I owner d owner' d'
  owned : owner' x = some (I, .double)
  doubled : Doubled e I owner' d' (d' x) c

theorem Grows.doubleNew (h0 : owner 0 = some (0, .header))
    (hpos : 0 < add) (hadd : add ≤ 128 * e) (he : e ≤ 32) (hb : Bounded owner I 138 138) :
    E.Triple (hG.Has res owner d (f + doubleCost add + 1))
      (doubleIndirectBlockAllocate unchecked junk 0 add 0) fun x =>
        hG.Leads res f (DoubleIndexed e I add x owner d) := by
  refine hG.freeMapAllocate fun x hlt _ => ?_
  have hempty : Doubled e I owner d (memset (junk add)) 0 :=
    ⟨fun k hk => by omega, fun i hi => by omega, fun k hk _ => word_memset (by omega), hb⟩
  refine hG.bind (hG.fillDouble junk add 0 add _ _ owner d h0 le_rfl (by omega) hempty
    (f := f) ?_) fun b owner₁ d₁ hfill => .implied In.unowned fun hx => ?_
  · rw [zero_add]
    rfl
  rw [zero_add] at hfill
  have hfresh : ∀ y, owner₁ y ≠ some (I, .double) := fun y hy =>
    hb.fresh_index .double rfl le_rfl y (hfill.double y hy)
  have hb1 : Bounded (claim owner₁ x (I, .double)) I (138 + add) (138 + add) :=
    hfill.doubled.bounded.claim_index rfl (Nat.lt_add_of_pos_right hpos)
  refine .bind (hG.newIndex rfl hfresh) fun _ => ?_
  refine .ret hG.stable fun s hs => ⟨_, _, ⟨?_, claim_self, ?_⟩, hs⟩
  · exact (hfill.grew.trans (Grew.put hx)).trans (Grew.claim hx)
  · rw [Function.update_self]
    exact hfill.doubled.grew ((Grew.put hx).trans (Grew.claim hx)) hb1

theorem Grows.doubleOld {c f₁ : Nat} (h0 : owner 0 = some (0, .header))
    (hcap : c + add ≤ 128 * min e 128) (hx0 : x ≠ 0)
    (hx : owner x = some (I, .double)) (h : Doubled e I owner d (d x) c)
    (hf : f₁ + doubleCost c = f + doubleCost (c + add)) :
    E.Triple (hG.Has res owner d f₁)
      (doubleIndirectBlockAllocate unchecked junk c add x) fun y =>
        hG.Leads res f fun owner' d' =>
          y = x ∧ DoubleIndexed e I (c + add) x owner d owner' d' := by
  unfold doubleIndirectBlockAllocate
  rw [if_neg hx0]
  refine .bind (hG.readIndex hx rfl) fun buffer => .assume ?_
  rintro rfl
  refine hG.bind (hG.fillDouble junk add c add f₁ (d x) owner d h0 le_rfl hcap h hf)
    fun b owner₁ d₁ hfill => ?_
  have hx1 := hfill.grew.ext x _ hx
  have hkeep : Injective owner₁ → ∀ j, j < 128 → owner₁ (word (d₁ x) j) = some (I,
      Slot.double.entry j) → word b j = word (d₁ x) j := by
    intro hinj j _ hown
    have hj : 138 + 128 * j < 138 + (c + add) := hfill.doubled.bounded.index _ _ hown rfl
    exact hinj _ _ _ (hfill.doubled.inner j (by omega)) hown
  refine .implied (fun s hs => hs.2.holds.inj) fun hinj => ?_
  have hwrite := Grew.rewrite hx1 rfl (hkeep hinj)
  refine .bind (hG.oldIndex hx1 rfl hkeep) fun _ => ?_
  refine .ret hG.stable fun s hs => ⟨_, _, ⟨rfl, hfill.grew.trans hwrite, hx1, ?_⟩, hs⟩
  rw [Function.update_self]
  exact hfill.doubled.grew hwrite hfill.doubled.bounded

end Double

end Pintos.Inode
