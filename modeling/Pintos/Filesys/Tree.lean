/-
The directories form a tree.

# The invariant

`Tree v dirs parent` fixes the set of directories of the tree and the
parent of each. `link d i` is the inode that the entry in use at slot
`i + 2` of `d` names; the two slots before it are `.` and `..`. Every
directory has its two first entries, every link leads to an inode that is
there, no two links lead to the same inode, and a directory other than the
root has its link in its parent.

An inode is live while the tree names it or it is open, and the inode of
the free map always is. Live inodes keep their sector: it is used, holds
an inode and belongs to no file's data. This is why a new inode is never
one of them, and why the last close of a removed inode frees nothing that
the tree needs.

# How it is kept

References come and go (`Tree.bump`, `Tree.drop`), files grow into free
sectors (`Tree.fresh`), `dir_add` makes one link (`Tree.link`) and
`dir_remove` takes one away (`Tree.erase`). A directory that loses its
link has no other user and no link of its own; `..` is refused because the
parent has the link, `.` because the directory is open.
-/
import Pintos.Userprog.Handles

namespace Pintos.Directory

open Oracle Oracle.Prog Transition List Option Vol

variable {v v' w : Vol} {dirs : Nat → Prop} {parent : Nat → Nat} {s d i : Nat}
variable {es : List Entry}

-- ==== links

def linkAt (es : List Entry) (i : Nat) : Option Nat :=
  match es[i]? with
  | some e => if e.inUse then some e.inodeSector else none
  | none => none

/-- The inode named by the entry at slot `i + 2`, if it is in use. -/
def Vol.link (v : Vol) (d i : Nat) : Option Nat := linkAt (v.entries d) (i + 2)

theorem link_congr (h : v'.node d = v.node d) (i : Nat) : v'.link d i = v.link d i := by
  unfold Vol.link
  rw [entries_congr h]

variable {b : Bool} {k : Nat}

theorem isdir_eq (h : v.node d = some ⟨b, es⟩) : v.isdir d = b := by
  unfold Vol.isdir
  rw [h]

theorem linkAt_writeSlot (hk : k ≤ es.length) (e : Entry) (i : Nat) :
    linkAt (writeSlot es k e) i
      = if i = k then (if e.inUse then some e.inodeSector else none)
        else linkAt es i := by
  unfold linkAt
  rw [getElem?_writeSlot hk e i]
  by_cases h : i = k <;> simp [h]

theorem linkAt_set (hk : k < es.length) (e : Entry) (i : Nat) :
    linkAt (es.set k e) i
      = if i = k then (if e.inUse then some e.inodeSector else none)
        else linkAt es i := by
  have h := linkAt_writeSlot (Nat.le_of_lt hk) e i
  unfold writeSlot at h
  rwa [if_pos hk] at h

theorem linkAt_of_getElem {e : Entry} (h : es[i]? = some e)
    (hu : e.inUse = true) : linkAt es i = some e.inodeSector := by
  unfold linkAt
  rw [h]
  exact if_pos hu

theorem linkAt_none (h : ∀ e, es[i]? = some e → e.inUse = false) : linkAt es i = none := by
  unfold linkAt
  split
  next e he => simp [h e he]
  next => rfl

/-- Slots 0 and 1 are in use, so the free slot comes later. -/
theorem freeSlot_dots {a b : Entry} (ha : a.inUse = true) (hb : b.inUse = true) (es : List Entry) :
    freeSlot (a :: b :: es) = freeSlot es + 2 := by
  unfold freeSlot
  rw [findIdx_cons, findIdx_cons, ha, hb]
  rfl

theorem writeSlot_dots (a b e : Entry) (es : List Entry) (k : Nat) :
    writeSlot (a :: b :: es) (k + 2) e = a :: b :: writeSlot es k e := by
  unfold writeSlot
  simp only [length_cons, Nat.add_lt_add_iff_right]
  split <;> rfl

-- ==== the invariant

def dotEntry (d : Nat) : Entry := ⟨d, dot, true⟩

def dotDotEntry (p : Nat) : Entry := ⟨p, dotDot, true⟩

/-- A link of the tree leads to the inode. -/
def Named (v : Vol) (dirs : Nat → Prop) (s : Nat) : Prop := ∃ d i, dirs d ∧ v.link d i = some s

/-- The free map, the inodes the tree names, and those that are open. -/
inductive Live (v : Vol) (dirs : Nat → Prop) (s : Nat) : Prop
  | map (h : s = freeMapSector)
  | dir (h : dirs s)
  | named (h : Named v dirs s)
  | opened (h : v.opened s ≠ none)

structure Tree (v : Vol) (dirs : Nat → Prop) (parent : Nat → Nat) : Prop where
  root : dirs rootDirSector
  top : parent rootDirSector = rootDirSector
  up : ∀ d, dirs d → dirs (parent d)
  dots : ∀ d, dirs d → ∃ es, v.node d = some ⟨true, dotEntry d :: dotDotEntry (parent d) :: es⟩
  kept : ∀ d, dirs d → v.isRemoved d = false
  named : ∀ s, Named v dirs s → s ≠ rootDirSector ∧ s ≠ freeMapSector ∧ v.isRemoved s = false
  map : v.isdir freeMapSector = false ∧ v.isRemoved freeMapSector = false
  child : ∀ d i s, dirs d → v.link d i = some s → v.isdir s = true → dirs s ∧ parent s = d
  unique : ∀ d i d' i' s, dirs d → dirs d' → v.link d i = some s →
    v.link d' i' = some s → d = d' ∧ i = i'
  linked : ∀ d, dirs d → d ≠ rootDirSector → ∃ i, v.link (parent d) i = some d
  live : ∀ s, Live v dirs s → v.used s = true ∧ v.owner s = none ∧ ∃ n, v.node s = some n
  file : ∀ s, Live v dirs s → s ≠ freeMapSector → v.isdir s = false →
    ∀ e ∈ v.entries s, e.inUse = false
  openDir : ∀ s, v.opened s ≠ none → v.isdir s = true → dirs s ∨ v.isRemoved s = true
  owned : ∀ b t, v.owner b = some t → v.used b = true

namespace Tree

variable (h : Tree v dirs parent)

include h

theorem isdir (hd : dirs d) : v.isdir d = true := by
  obtain ⟨es, hn⟩ := h.dots d hd
  exact isdir_eq hn

/-- A sector that is free is no inode of the tree and is not open. -/
theorem not_live (hs : v.used s = false) : ¬ Live v dirs s := by
  intro hl
  simp [(h.live s hl).1] at hs

-- ==== references

/-- The live inodes are as they were: what the tree says of them holds. -/
theorem congr (hnode : ∀ t, Live v dirs t → v'.node t = v.node t)
    (hopen : ∀ t, v'.opened t ≠ none → Live v dirs t)
    (hclear : ∀ t, Live v dirs t → v.isRemoved t = false → v'.isRemoved t = false)
    (hmark : ∀ t, v'.opened t ≠ none → v.isRemoved t = true → v'.isRemoved t = true)
    (hsector : ∀ t, Live v dirs t → Live v' dirs t → v'.used t = true ∧ v'.owner t = none)
    (howned : ∀ b t, v'.owner b = some t → v'.used b = true) : Tree v' dirs parent := by
  have hlink {d : Nat} (hd : dirs d) (i : Nat) :
      v'.link d i = v.link d i := link_congr (hnode d (.dir hd)) i
  have hisdir {t : Nat} (ht : Live v dirs t) : v'.isdir t = v.isdir t := isdir_congr (hnode t ht)
  have hnamed {t : Nat} (ht : Named v' dirs t) : Named v dirs t := by
    obtain ⟨d, i, hd, hl⟩ := ht
    exact ⟨d, i, hd, hlink hd i ▸ hl⟩
  have hlive {t : Nat} (ht : Live v' dirs t) : Live v dirs t := by
    cases ht with
    | map hm => exact .map hm
    | dir hd => exact .dir hd
    | named hn => exact .named (hnamed hn)
    | opened ho => exact hopen t ho
  exact
    { root := h.root, top := h.top, up := h.up
      dots := fun d hd => by
        rw [hnode d (.dir hd)]
        exact h.dots d hd
      kept := fun d hd => hclear d (.dir hd) (h.kept d hd)
      named := fun t ht => by
        obtain ⟨hr, hm, hk⟩ := h.named t (hnamed ht)
        exact ⟨hr, hm, hclear t (.named (hnamed ht)) hk⟩
      map := ⟨(hisdir (.map rfl)).trans h.map.1, hclear _ (.map rfl) h.map.2⟩
      child := fun d i t hd hl ht => by
        rw [hlink hd] at hl
        rw [hisdir (.named ⟨d, i, hd, hl⟩)] at ht
        exact h.child d i t hd hl ht
      unique := fun d i d' i' t hd hd' hl hl' =>
        h.unique d i d' i' t hd hd' (hlink hd i ▸ hl) (hlink hd' i' ▸ hl')
      linked := fun d hd hne => by
        obtain ⟨i, hi⟩ := h.linked d hd hne
        exact ⟨i, (hlink (h.up d hd) i).trans hi⟩
      live := fun t ht => by
        obtain ⟨hu, hw⟩ := hsector t (hlive ht) ht
        rw [hnode t (hlive ht)]
        exact ⟨hu, hw, (h.live t (hlive ht)).2.2⟩
      file := fun t ht hm hf => by
        rw [hisdir (hlive ht)] at hf
        rw [entries_congr (hnode t (hlive ht))]
        exact h.file t (hlive ht) hm hf
      openDir := fun t ho ht => by
        have hl := hopen t ho
        rw [hisdir hl] at ht
        cases hl with
        | map hm => simp [hm, h.map.1] at ht
        | dir hd => exact .inl hd
        | named hn =>
          obtain ⟨d, i, hd, hi⟩ := hn
          exact .inl (h.child d i t hd hi ht).1
        | opened ho' => exact (h.openDir t ho' ht).imp_right (hmark t ho)
      owned := howned }

/-- An inode is opened again or closed, and its flag stays. -/
theorem setOpened {o : Option Opened} (hlive : o ≠ none → Live v dirs s)
    (hflag : o ≠ none → (v.setOpened s o).isRemoved s = v.isRemoved s) :
    Tree (v.setOpened s o) dirs parent := by
  have hopen (t : Nat) (ht : (v.setOpened s o).opened t ≠ none) :
      Live v dirs t ∧ (v.setOpened s o).isRemoved t = v.isRemoved t := by
    by_cases hts : t = s
    · subst hts
      rw [setOpened_self] at ht
      exact ⟨hlive ht, hflag ht⟩
    · rw [setOpened_other _ hts] at ht
      unfold isRemoved
      rw [setOpened_other _ hts]
      exact ⟨.opened ht, rfl⟩
  refine h.congr (fun _ _ => rfl) (fun t ht => (hopen t ht).1) (fun t _ hr => ?_)
    (fun t ht hr => (hopen t ht).2.trans hr) (fun t hl _ => (h.live t hl).imp_right And.left)
    h.owned
  -- A flag that was clear is clear: a closed inode has none.
  by_cases ht : (v.setOpened s o).opened t = none
  · unfold isRemoved
    rw [ht]
  · exact (hopen t ht).2.trans hr

theorem bump (hs : Live v dirs s) : Tree (v.bump s) dirs parent :=
  h.setOpened (fun _ => hs) fun _ => isRemoved_bump s

/-- The last user of a removed inode leaves. -/
theorem release {r : Bool} (ho : v.opened s = some ⟨1, r⟩) (hr : r = true) :
    Tree ((v.setOpened s none).release s) dirs parent := by
  have hrem : v.isRemoved s = true := by
    unfold isRemoved
    rw [ho]
    exact hr
  have howner : v.owner s = none := (h.live s (.opened (by simp [ho]))).2.1
  have hclosed := h.setOpened (s := s) (absurd rfl) (absurd rfl)
  -- The tree did not name `s`, and now it is not open either.
  have hgone {t : Nat} (ht : Live (v.setOpened s none) dirs t) : t ≠ s := by
    rintro rfl
    cases ht with
    | map hm => simp [hm, h.map.2] at hrem
    | dir hd => simp [h.kept t hd] at hrem
    | named hn => simp [(h.named t hn).2.2] at hrem
    | opened ho' => exact ho' (setOpened_self none)
  refine hclosed.congr (fun _ _ => rfl) (fun t ht => .opened ht)
    (fun _ _ hr => hr) (fun _ _ hr => hr) ?_ ?_
  · intro t hl _
    obtain ⟨hu, hw, -⟩ := hclosed.live t hl
    change v.owner t = none at hw
    show (if t = s ∨ v.owner t = some s then false else v.used t) = true ∧
      (if v.owner t = some s then none else v.owner t) = none
    simp [hw, hgone hl]
    exact hu
  · intro b t hb
    change (if v.owner b = some s then none else v.owner b) = some t at hb
    split at hb
    · cases hb
    next hne =>
      have hbs : b ≠ s := by
        rintro rfl
        simp [howner] at hb
      exact (if_neg (not_or.mpr ⟨hbs, hne⟩)).trans (h.owned b t hb)

theorem drop {n : Nat} {r : Bool}
    (ho : v.opened s = some ⟨n + 1, r⟩) : Tree (v.drop s) dirs parent := by
  have hlive : Live v dirs s := .opened (by simp [ho])
  unfold Vol.drop
  rw [ho]
  cases n with
  | zero =>
    show Tree (if r = true then _ else _) dirs parent
    split
    next hr => exact h.release ho hr
    next => exact h.setOpened (fun _ => hlive) (absurd rfl)
  | succ n =>
    refine h.setOpened (fun _ => hlive) fun _ => ?_
    unfold isRemoved
    rw [setOpened_self, ho]

-- ==== the disk

/-- Files grew into sectors that were free. -/
theorem fresh (hf : Fresh v v') (ho : v'.opened = v.opened) : Tree v' dirs parent := by
  refine h.congr (fun t ht => (hf.kept t (h.live t ht).1).2.1) (fun t ht => .opened (ho ▸ ht))
    (fun t _ hr => (isRemoved_congr ho).trans hr) (fun t _ hr => (isRemoved_congr ho).trans hr) ?_
    ?_
  · intro t hl _
    obtain ⟨hu, hw, -⟩ := h.live t hl
    obtain ⟨hu', -, hw'⟩ := hf.kept t hu
    exact ⟨hu', hw'.elim (·.trans hw) id⟩
  · intro b t hb
    exact (hf.owned b t hb).elim (fun hw => (hf.kept b (h.owned b t hw)).1) id

end Tree

/-- The inode `n` was made at the free sector `s`, and the directory `d`
has an entry for it. -/
structure Linked (d : Nat) (name : Name) (s : Nat) (n : Node) (v v' : Vol) : Prop where
  free : v.used s = false
  used : v'.used s = true
  owner : v'.owner s = v.owner s ∨ v'.owner s = none
  node : v'.node s = some n
  dir : ∃ es, v.node d = some ⟨true, es⟩
    ∧ v'.node d = some ⟨true, writeSlot es (freeSlot es) ⟨s, name, true⟩⟩
  kept : ∀ b, v.used b = true → v'.used b = true
    ∧ (b ≠ d → v'.node b = v.node b)
    ∧ (v'.owner b = v.owner b ∨ v'.owner b = none)
  owned : ∀ b t, v'.owner b = some t → v.owner b = some t ∨ v'.used b = true

/-- A new inode: an empty file, or a directory of `d` without entries but
the first two. -/
def NewNode (d s : Nat) (n : Node) : Prop :=
  (n.isdir = false ∧ ∀ e ∈ n.entries, e.inUse = false)
  ∨ ∃ es, n = ⟨true, dotEntry s :: dotDotEntry d :: es⟩ ∧ ∀ e ∈ es, e.inUse = false

theorem linkAt_unused (h : ∀ e ∈ es, e.inUse = false) (i : Nat) : linkAt es i = none :=
  linkAt_none fun e he => h e (mem_of_getElem? he)

namespace Tree

variable {name : Name} {n : Node}

/-- What `dir_add` does to the links. -/
theorem link_slot (h : Tree v dirs parent) (hd : dirs d) (hl : Linked d name s n v v') :
    ∃ j es, v'.node d
        = some ⟨true, dotEntry d :: dotDotEntry (parent d) :: es⟩
      ∧ v.link d j = none
      ∧ ∀ i, v'.link d i = if i = j then some s else v.link d i := by
  obtain ⟨rest, hrest⟩ := h.dots d hd
  obtain ⟨es, hn, hn'⟩ := hl.dir
  have hes : es = dotEntry d :: dotDotEntry (parent d) :: rest := by
    rw [hrest] at hn
    cases hn
    rfl
  subst hes
  have hslot : freeSlot (dotEntry d :: dotDotEntry (parent d) :: rest)
      = freeSlot rest + 2 := freeSlot_dots rfl rfl rest
  refine ⟨freeSlot rest, writeSlot rest (freeSlot rest) ⟨s, name, true⟩, ?_, ?_, fun i => ?_⟩
  · rw [hn', hslot, writeSlot_dots]
  · rw [Vol.link, entries_eq hn, ← hslot, linkAt_none fun _ => freeSlot_unused]
  · rw [Vol.link, entries_eq hn', linkAt_writeSlot (freeSlot_le _), hslot, Vol.link, entries_eq hn]
    by_cases hi : i = freeSlot rest
    · rw [if_pos (congrArg (· + 2) hi), if_pos hi]
      rfl
    · rw [if_neg (fun he => hi (Nat.add_right_cancel he)), if_neg hi]

/-- `dir_add` makes one link more. -/
theorem link (h : Tree v dirs parent) (hd : dirs d) (hl : Linked d name s n v v')
    (hn : NewNode d s n) (ho : v'.opened = v.opened) :
    Tree v' (fun t => dirs t ∨ (n.isdir = true ∧ t = s))
      (fun t => if t = s then d else parent t) := by
  have hne {t : Nat} (ht : Live v dirs t) : t ≠ s := by
    rintro rfl
    exact h.not_live hl.free ht
  obtain ⟨j, es, hd', hfree, hslot⟩ := h.link_slot hd hl
  have hnode {t : Nat} (ht : Live v dirs t) (htd : t ≠ d) :
      v'.node t = v.node t := (hl.kept t (h.live t ht).1).2.1 htd
  have hisdir {t : Nat} (ht : Live v dirs t) : v'.isdir t = v.isdir t := by
    by_cases htd : t = d
    · subst htd
      rw [isdir_eq hd', h.isdir hd]
    · exact isdir_congr (hnode ht htd)
  have hisdirs : v'.isdir s = n.isdir := by
    unfold Vol.isdir
    rw [hl.node]
  -- The new inode has no links of its own.
  have hbare (hdir : n.isdir = true) (i : Nat) : v'.link s i = none := by
    rcases hn with ⟨hf, -⟩ | ⟨rest, rfl, hrest⟩
    · simp [hdir] at hf
    · rw [Vol.link, entries_eq hl.node]
      exact linkAt_unused hrest i
  have hkeep {b i : Nat} (hb : dirs b) {t : Nat}
      (ht : v.link b i = some t) : v'.link b i = some t := by
    by_cases hbd : b = d
    · subst hbd
      rw [hslot, if_neg, ht]
      rintro rfl
      simp [hfree] at ht
    · rw [link_congr (hnode (.dir hb) hbd), ht]
  have hcases {b i t : Nat} (hb : dirs b ∨ (n.isdir = true ∧ b = s)) (ht : v'.link b i = some t) :
      (dirs b ∧ v.link b i = some t) ∨ (b = d ∧ i = j ∧ t = s) := by
    rcases hb with hb | ⟨hdir, rfl⟩
    · by_cases hbd : b = d
      · subst hbd
        rw [hslot] at ht
        split at ht
        next hij =>
          cases ht
          exact .inr ⟨rfl, hij, rfl⟩
        next => exact .inl ⟨hb, ht⟩
      · rw [link_congr (hnode (.dir hb) hbd)] at ht
        exact .inl ⟨hb, ht⟩
    · simp [hbare hdir] at ht
  have hrem (t : Nat) : v'.isRemoved t = v.isRemoved t := isRemoved_congr ho
  have hclosed : v.isRemoved s = false := by
    have hop : v.opened s = none := by
      by_contra hop
      exact h.not_live hl.free (.opened hop)
    unfold isRemoved
    rw [hop]
  have hlive {t : Nat} (ht : Live v' (fun t => dirs t ∨ (n.isdir = true ∧ t = s)) t) :
      Live v dirs t ∨ t = s := by
    cases ht with
    | map hm => exact .inl (.map hm)
    | dir hd => exact hd.imp .dir And.right
    | named hn =>
      obtain ⟨b, i, hb, hi⟩ := hn
      rcases hcases hb hi with ⟨hb, hi⟩ | ⟨-, -, ht⟩
      · exact .inl (.named ⟨b, i, hb, hi⟩)
      · exact .inr ht
    | opened hop => exact .inl (.opened (ho ▸ hop))
  have howner : v'.owner s = none := by
    have hold : v.owner s = none := by
      cases hw : v.owner s with
      | none => rfl
      | some t =>
        have hu := h.owned s t hw
        simp [hl.free] at hu
    exact hl.owner.elim (·.trans hold) id
  exact
    { root := .inl h.root
      top := (if_neg (hne (.dir h.root))).trans h.top
      up := fun t ht => by
        rcases ht with ht | ⟨-, rfl⟩
        · rw [if_neg (hne (.dir ht))]
          exact .inl (h.up t ht)
        · rw [if_pos rfl]
          exact .inl hd
      dots := fun t ht => by
        rcases ht with ht | ⟨hdir, rfl⟩
        · rw [if_neg (hne (.dir ht))]
          by_cases htd : t = d
          · subst htd
            exact ⟨es, hd'⟩
          · rw [hnode (.dir ht) htd]
            exact h.dots t ht
        · rw [if_pos rfl]
          rcases hn with ⟨hf, -⟩ | ⟨rest, rfl, -⟩
          · simp [hdir] at hf
          · exact ⟨rest, hl.node⟩
      kept := fun t ht => by
        rw [hrem]
        rcases ht with ht | ⟨-, rfl⟩
        · exact h.kept t ht
        · exact hclosed
      named := fun t ht => by
        obtain ⟨b, i, hb, hi⟩ := ht
        rw [hrem]
        rcases hcases hb hi with ⟨hb, hi⟩ | ⟨-, -, rfl⟩
        · exact h.named t ⟨b, i, hb, hi⟩
        · exact ⟨(hne (.dir h.root)).symm, (hne (.map rfl)).symm, hclosed⟩
      map := ⟨(hisdir (.map rfl)).trans h.map.1, (hrem _).trans h.map.2⟩
      child := fun b i t hb hi ht => by
        rcases hcases hb hi with ⟨hb, hi⟩ | ⟨rfl, -, rfl⟩
        · have hlt : Live v dirs t := .named ⟨b, i, hb, hi⟩
          rw [hisdir hlt] at ht
          obtain ⟨htd, hp⟩ := h.child b i t hb hi ht
          exact ⟨.inl htd, (if_neg (hne hlt)).trans hp⟩
        · exact ⟨.inr ⟨hisdirs ▸ ht, rfl⟩, if_pos rfl⟩
      unique := fun b i b' i' t hb hb' hi hi' => by
        rcases hcases hb hi with ⟨hb, hi⟩ | ⟨rfl, rfl, rfl⟩
        · have hts := hne (.named ⟨b, i, hb, hi⟩)
          rcases hcases hb' hi' with ⟨hb', hi'⟩ | ⟨-, -, he⟩
          · exact h.unique b i b' i' t hb hb' hi hi'
          · exact absurd he hts
        · rcases hcases hb' hi' with ⟨hb', hi'⟩ | ⟨he, he', -⟩
          · exact absurd rfl (hne (.named ⟨b', i', hb', hi'⟩))
          · exact ⟨he.symm, he'.symm⟩
      linked := fun t ht htr => by
        rcases ht with ht | ⟨-, rfl⟩
        · rw [if_neg (hne (.dir ht))]
          obtain ⟨i, hi⟩ := h.linked t ht htr
          exact ⟨i, hkeep (h.up t ht) hi⟩
        · rw [if_pos rfl]
          exact ⟨j, (hslot j).trans (if_pos rfl)⟩
      live := fun t ht => by
        rcases hlive ht with ht | rfl
        · obtain ⟨hu, hw, m, hm⟩ := h.live t ht
          obtain ⟨hu', -, hw'⟩ := hl.kept t hu
          refine ⟨hu', hw'.elim (·.trans hw) id, ?_⟩
          by_cases htd : t = d
          · exact ⟨_, htd ▸ hd'⟩
          · exact ⟨m, (hnode ht htd).trans hm⟩
        · exact ⟨hl.used, howner, n, hl.node⟩
      file := fun t ht hm hf => by
        rcases hlive ht with ht | rfl
        · rw [hisdir ht] at hf
          have htd : t ≠ d := by
            rintro rfl
            simp [h.isdir hd] at hf
          rw [entries_congr (hnode ht htd)]
          exact h.file t ht hm hf
        · rw [hisdirs] at hf
          rcases hn with ⟨-, hu⟩ | ⟨rest, rfl, -⟩
          · obtain ⟨b, es'⟩ := n
            rw [entries_eq hl.node]
            exact hu
          · cases hf
      openDir := fun t hop ht => by
        rw [ho] at hop
        have hlt : Live v dirs t := .opened hop
        rw [hisdir hlt] at ht
        rw [hrem]
        exact (h.openDir t hop ht).imp_left .inl
      owned := fun b t hb => (hl.owned b t hb).elim (fun hw => (hl.kept b (h.owned b t hw)).1) id }

/-- A link is taken away and its inode is marked removed; a directory has
no links of its own. -/
theorem erase (h : Tree v dirs parent) (hd : dirs d) {es : List Entry} {j : Nat} {e e' : Entry}
    (hn : v.node d = some ⟨true, es⟩) (he : es[j + 2]? = some e) (hu : e.inUse = true)
    (hs : e.inodeSector = s) (hclear : e'.inUse = false) (ho : v.opened s ≠ none)
    (hdir : v.isdir s = true → ∀ i, v.link s i = none) :
    Tree ((v.setNode d (some ⟨true, es.set (j + 2) e'⟩)).markRemoved s)
      (fun t => dirs t ∧ t ≠ s) parent := by
  obtain ⟨i₀, hop⟩ := ne_none_iff_exists'.mp ho
  have hlt : j + 2 < es.length := (List.getElem?_eq_some_iff.mp he).1
  have hj : v.link d j = some s := by
    rw [Vol.link, entries_eq hn, ← hs]
    exact linkAt_of_getElem he hu
  have hnamed : Named v dirs s := ⟨d, j, hd, hj⟩
  generalize hw : (v.setNode d (some ⟨true, es.set (j + 2) e'⟩)).markRemoved s = w
  have hwo : w.opened = (v.setOpened s (some { i₀ with removed := true })).opened ∧ w.node =
      (v.setNode d (some ⟨true, es.set (j + 2) e'⟩)).node ∧ w.used = v.used ∧ w.owner = v.owner
      := by
    have hop' : (v.setNode d (some ⟨true, es.set (j + 2) e'⟩)).opened s = some i₀ := hop
    unfold markRemoved at hw
    rw [hop'] at hw
    subst hw
    exact ⟨rfl, rfl, rfl, rfl⟩
  obtain ⟨hopened, hnodes, hused, howner⟩ := hwo
  have hnd : w.node d = some ⟨true, es.set (j + 2) e'⟩ := by
    rw [hnodes]
    exact if_pos rfl
  have hnode {t : Nat} (ht : t ≠ d) : w.node t = v.node t := by
    rw [hnodes]
    exact if_neg ht
  have hisdir (t : Nat) : w.isdir t = v.isdir t := by
    by_cases ht : t = d
    · rw [ht, isdir_eq hnd, isdir_eq hn]
    · exact isdir_congr (hnode ht)
  have hlink (t i : Nat) : w.link t i = if t = d ∧ i = j then none else v.link t i := by
    by_cases ht : t = d
    · subst ht
      rw [Vol.link, entries_eq hnd, linkAt_set hlt, Vol.link, entries_eq hn]
      by_cases hi : i = j
      · simp [hi, hclear]
      · rw [if_neg (fun h => hi (Nat.add_right_cancel h)), if_neg (fun h => hi h.2)]
    · rw [link_congr (hnode ht), if_neg (fun h => ht h.1)]
  have hsome {t i u : Nat} (ht : dirs t) (hi : w.link t i = some u) :
      v.link t i = some u ∧ u ≠ s := by
    rw [hlink] at hi
    split at hi
    next => cases hi
    next hne =>
      refine ⟨hi, ?_⟩
      rintro rfl
      exact hne (h.unique t i d j u ht hd hi hj)
  have hrem {t : Nat} (ht : t ≠ s) : w.isRemoved t = v.isRemoved t := by
    unfold isRemoved
    rw [hopened, setOpened_other _ ht]
  have hopn {t : Nat} (ht : w.opened t ≠ none) : v.opened t ≠ none := by
    by_cases hts : t = s
    · exact hts ▸ ho
    · rwa [hopened, setOpened_other _ hts] at ht
  have hlive {t : Nat} (ht : Live w (fun t => dirs t ∧ t ≠ s) t) :
      Live v dirs t := by
    cases ht with
    | map hm => exact .map hm
    | dir hd => exact .dir hd.1
    | named hn =>
      obtain ⟨b, i, hb, hi⟩ := hn
      exact .named ⟨b, i, hb.1, (hsome hb.1 hi).1⟩
    | opened hop => exact .opened (hopn hop)
  exact
    { root := ⟨h.root, (h.named s hnamed).1.symm⟩, top := h.top
      up := fun t ht => by
        refine ⟨h.up t ht.1, fun hp => ?_⟩
        -- The removed directory would have the link to `t`.
        by_cases htr : t = rootDirSector
        · rw [htr, h.top] at hp
          exact (h.named s hnamed).1 hp.symm
        · obtain ⟨i, hi⟩ := h.linked t ht.1 htr
          have hps : dirs s := hp ▸ h.up t ht.1
          simp [hp, hdir (h.isdir hps) i] at hi
      dots := fun t ht => by
        obtain ⟨rest, hrest⟩ := h.dots t ht.1
        by_cases htd : t = d
        · subst htd
          rw [hn] at hrest
          cases hrest
          exact ⟨_, hnd⟩
        · exact ⟨rest, (hnode htd).trans hrest⟩
      kept := fun t ht => (hrem ht.2).trans (h.kept t ht.1)
      named := fun t ht => by
        obtain ⟨b, i, hb, hi⟩ := ht
        obtain ⟨hi, hts⟩ := hsome hb.1 hi
        rw [hrem hts]
        exact h.named t ⟨b, i, hb.1, hi⟩
      map := ⟨(hisdir _).trans h.map.1, (hrem (h.named s hnamed).2.1.symm).trans h.map.2⟩
      child := fun b i t hb hi ht => by
        obtain ⟨hi, hts⟩ := hsome hb.1 hi
        rw [hisdir] at ht
        obtain ⟨htd, hp⟩ := h.child b i t hb.1 hi ht
        exact ⟨⟨htd, hts⟩, hp⟩
      unique := fun b i b' i' t hb hb' hi hi' =>
        h.unique b i b' i' t hb.1 hb'.1 (hsome hb.1 hi).1 (hsome hb'.1 hi').1
      linked := fun t ht htr => by
        obtain ⟨i, hi⟩ := h.linked t ht.1 htr
        refine ⟨i, ?_⟩
        rw [hlink, if_neg, hi]
        rintro ⟨hp, rfl⟩
        rw [hp, hj] at hi
        cases hi
        exact ht.2 rfl
      live := fun t ht => by
        obtain ⟨hu, hw, n, hn'⟩ := h.live t (hlive ht)
        rw [hused, howner]
        refine ⟨hu, hw, ?_⟩
        by_cases htd : t = d
        · exact ⟨_, htd ▸ hnd⟩
        · exact ⟨n, (hnode htd).trans hn'⟩
      file := fun t ht hm hf => by
        rw [hisdir] at hf
        have htd : t ≠ d := by
          rintro rfl
          simp [h.isdir hd] at hf
        rw [entries_congr (hnode htd)]
        exact h.file t (hlive ht) hm hf
      openDir := fun t ht htd => by
        rw [hisdir] at htd
        by_cases hts : t = s
        · right
          unfold isRemoved
          rw [hopened, hts, setOpened_self]
        · rw [hrem hts]
          exact (h.openDir t (hopn ht) htd).imp_left fun hd => ⟨hd, hts⟩
      owned := by
        rw [howner, hused]
        exact h.owned }

end Tree

end Pintos.Directory
