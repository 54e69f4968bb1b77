/-
What the operations of the directory layer do to the volume.

Every specification is exact up to the sectors a growing file takes:

- an inode opened and closed again leaves the volume as it was
  (`bump_drop`), so `get_dir` adds one reference to the directory it
  returns and nothing else (`getDir_spec`);
- growing a file only touches sectors that were free (`Grown`, `Fresh`);
- `dir_add` writes one slot (`Added`), `dir_remove` clears one (`Erased`).

`low` is the assumption on memory: when it is false, every `malloc`
succeeds. `B` is what is known of the ghost: it is kept whatever is read
(`Loose`), or no regular file is read (`Unread`).
-/
import Pintos.Filesys.Directory

namespace Pintos.Directory

open Oracle Oracle.Prog List Option Vol

variable {v v' w : Vol} {low : Prop} {B : Bool → Prop} {s d : Nat}
variable {t i : Nat} {es : List Entry} {name : Name} {e : Entry}

-- ==== references to inodes

/-- Every allocated inode has a user. -/
def Vol.Valid (v : Vol) : Prop := ∀ s i, v.opened s = some i → 0 < i.openCnt

theorem setOpened_self (o : Option Opened) : (v.setOpened s o).opened s = o := if_pos rfl

theorem setOpened_other (o : Option Opened) (h : t ≠ s) :
    (v.setOpened s o).opened t = v.opened t := if_neg h

theorem bump_self (v : Vol) (s : Nat) :
    (v.bump s).opened s = some ⟨v.openCnt s + 1, v.isRemoved s⟩ := by
  rw [Vol.bump, setOpened_self, openCnt, isRemoved]
  cases v.opened s <;> rfl

theorem bump_other (h : t ≠ s) : (v.bump s).opened t = v.opened t := setOpened_other _ h

theorem drop_node (v : Vol) (s : Nat) : (v.drop s).node = v.node := by
  unfold Vol.drop
  split
  any_goals rfl
  split <;> rfl

theorem Vol.Valid.bump (hv : v.Valid) (s : Nat) : (v.bump s).Valid := by
  intro t i ht
  by_cases h : t = s
  · rw [h, bump_self] at ht
    cases ht
    exact Nat.succ_pos _
  · rw [bump_other h] at ht
    exact hv t i ht

/-- Closing the last reference that was opened undoes the opening,
whatever happened to the disk in between. -/
theorem drop_bumped (hv : v.Valid) (s : Nat) (hw : w.opened = (v.bump s).opened) :
    w.drop s = { w with opened := v.opened } := by
  have hback (o : Option Opened) (ho : v.opened s = o) :
      w.setOpened s o = { w with opened := v.opened } := by
    refine Vol.ext rfl rfl rfl (funext fun t => ?_) rfl rfl
    by_cases ht : t = s
    · rw [ht, setOpened_self, ho]
    · rw [setOpened_other _ ht, hw, bump_other ht]
  have hs : w.opened s = (v.bump s).opened s := congrFun hw s
  rw [bump_self, openCnt, isRemoved] at hs
  cases ho : v.opened s with
  | none =>
    rw [ho] at hs
    rw [Vol.drop, hs]
    exact hback none ho
  | some i =>
    obtain ⟨_ | n, r⟩ := i
    · exact absurd (hv s _ ho) (Nat.lt_irrefl 0)
    · rw [ho] at hs
      rw [Vol.drop, hs]
      exact hback _ ho

/-- An inode opened and closed again: nothing happened. -/
theorem bump_drop (hv : v.Valid) (s : Nat) : (v.bump s).drop s = v := drop_bumped hv s rfl

theorem bump_comm (s t : Nat) : (v.bump s).bump t = (v.bump t).bump s := by
  by_cases h : t = s
  · rw [h]
  · refine Vol.ext rfl rfl rfl (funext fun u => ?_) rfl rfl
    unfold Vol.bump Vol.setOpened
    by_cases hs : u = s
    · simp [hs, Ne.symm h]
    · by_cases ht : u = t <;> simp [hs, ht, h]

/-- Closing the directory that was left for another one. -/
theorem bump_bump_drop (hv : v.Valid) (d s : Nat) : ((v.bump d).bump s).drop d = v.bump s := by
  rw [bump_comm, bump_drop (hv.bump s)]

-- ==== memory

/-- All outcomes of `malloc` are good, or memory may be low; and the ghost
is in `B`. -/
structure Memory (low : Prop) (B : Bool → Prop) (o : Outside) : Prop where
  mem : low ∨ ∀ b ∈ o.mem, b = true
  ghost : B o.misread

theorem malloc_spec : Wlp (Memory low B) malloc v fun b v' => v' = v ∧ (b = true ∨ low) := by
  refine wlp_draw fun o b o' ho hd => ?_
  split at hd
  next =>
    cases hd
    exact ⟨ho, rfl, .inl rfl⟩
  next c rest hm =>
    cases hd
    rcases ho.mem with hl | hg
    · exact ⟨⟨.inl hl, ho.ghost⟩, rfl, .inr hl⟩
    · rw [hm] at hg
      exact ⟨⟨.inr fun b hb => hg b (mem_cons_of_mem _ hb), ho.ghost⟩, rfl,
        .inl (hg _ mem_cons_self)⟩

theorem mallocUnchecked_spec : Wlp (Memory low B) mallocUnchecked v fun _ v' => v' = v := by
  refine malloc_spec.bind ?_
  rintro b _ ⟨rfl, -⟩
  cases b with
  | false => exact wlp_stop
  | true => exact wlp_pure rfl

theorem splitPath_spec (path : Path) : Wlp (Memory low B) (splitPath path) v fun r v' =>
      r = (getName path, dirPath path) ∧ v' = v := by
  refine mallocUnchecked_spec.bind ?_
  rintro - _ rfl
  refine mallocUnchecked_spec.bind ?_
  rintro - _ rfl
  refine mallocUnchecked_spec.bind ?_
  rintro - _ rfl
  exact wlp_pure ⟨rfl, rfl⟩

-- ==== path resolution

/-- A reference to `s` was added, or there was no memory for it. -/
def OpenedAt (low : Prop) (v : Vol) (s : Nat) (r : Option Nat) (v' : Vol) : Prop :=
  (r = some s ∧ v' = v.bump s) ∨ (r = none ∧ v' = v ∧ low)

/-- `inode_open`. -/
theorem inodeOpen_spec (s : Nat) : Wlp (Memory low B) (inodeOpen s) v (OpenedAt low v s) := by
  refine wlp_bind (wlp_get ?_)
  split
  next => exact wlp_bind (wlp_modify (wlp_pure (.inl ⟨rfl, rfl⟩)))
  next =>
    refine malloc_spec.bind ?_
    rintro b _ ⟨rfl, hb⟩
    cases b with
    | true => exact wlp_bind (wlp_modify (wlp_pure (.inl ⟨rfl, rfl⟩)))
    | false => exact wlp_pure (.inr ⟨rfl, rfl, hb.resolve_left Bool.noConfusion⟩)

theorem dirOpen_spec (s : Nat) : Wlp (Memory low B) (dirOpen (some s)) v fun r v' =>
      (r = some s ∧ v' = v) ∨ (r = none ∧ v' = v.drop s ∧ low) := by
  refine malloc_spec.bind ?_
  rintro b _ ⟨rfl, hb⟩
  cases b with
  | true => exact wlp_pure (.inl ⟨rfl, rfl⟩)
  | false =>
    exact wlp_bind (wlp_modify (wlp_pure (.inr ⟨rfl, rfl, hb.resolve_left Bool.noConfusion⟩)))

theorem dirOpen_none_spec : Wlp (Memory low B) (dirOpen none) v fun r v' => r = none ∧ v' = v := by
  refine malloc_spec.bind ?_
  rintro b _ ⟨rfl, -⟩
  exact wlp_pure ⟨rfl, rfl⟩

/-- `dir_open` on an inode that was just opened. -/
theorem dirOpen_bump_spec (hv : v.Valid) (s : Nat) :
    Wlp (Memory low B) (dirOpen (some s)) (v.bump s) (OpenedAt low v s) := by
  refine (dirOpen_spec s).conseq ?_
  rintro r v' (⟨hr, hv'⟩ | ⟨hr, hv', hl⟩)
  · exact .inl ⟨hr, hv'⟩
  · exact .inr ⟨hr, hv'.trans (bump_drop hv s), hl⟩

theorem dirOpenRoot_spec (hv : v.Valid) :
    Wlp (Memory low B) dirOpenRoot v (OpenedAt low v rootDirSector) := by
  refine (inodeOpen_spec rootDirSector).bind ?_
  rintro r v' (⟨rfl, rfl⟩ | ⟨rfl, rfl, hl⟩)
  · exact dirOpen_bump_spec hv rootDirSector
  · exact dirOpen_none_spec.conseq fun _ _ h => .inr ⟨h.1, h.2, hl⟩

theorem dirReopen_spec (hv : v.Valid) (d : Nat) :
    Wlp (Memory low B) (dirReopen d) v (OpenedAt low v d) :=
  wlp_bind (wlp_modify (dirOpen_bump_spec hv d))

/-- The inode a list of names leads to. -/
def follow (v : Vol) : List Name → Nat → Option Nat
  | [], d => some d
  | token :: rest, d =>
    match lookup (v.entries d) token with
    | some (_, e) => follow v rest e.inodeSector
    | none => none

theorem follow_cons {v : Vol} {token : Name} {rest : List Name} {d s : Nat}
    (h : follow v (token :: rest) d = some s) :
    ∃ i e, lookup (v.entries d) token = some (i, e) ∧ follow v rest e.inodeSector = some s := by
  unfold follow at h
  split at h
  next i e hl => exact ⟨i, e, hl, h⟩
  next => cases h

/-- Where `get_dir` starts. -/
def start (cwd : Option Nat) (path : Path) : Nat :=
  if path.head? = some '/' then rootDirSector else cwd.getD rootDirSector

/-- The inode a path leads to. -/
def resolve (v : Vol) (cwd : Option Nat) (path : Path) : Option Nat :=
  follow v (tokens path) (start cwd path)

/-- Nothing that is read changes what is known of the ghost. -/
def Loose (B : Bool → Prop) : Prop := ∀ b c, B b → B (b || c)

/-- No name is looked up in a regular file on the way. -/
def Unread (v : Vol) : List Name → Nat → Prop
  | [], _ => True
  | token :: rest, d => v.isRegular d = false ∧ ∀ i e,
      lookup (v.entries d) token = some (i, e) → Unread v rest e.inodeSector

/-- No name is looked up in a regular file on the way to the parent of a
path or in the parent, if `get_dir` will have it. -/
structure ParentUnread (v : Vol) (cwd : Option Nat) (path : Path) : Prop where
  way : Unread v (tokens (dirPath path)) (start cwd (dirPath path))
  parent : ∀ d, resolve v cwd (dirPath path) = some d → v.isRemoved d = false →
    v.isRegular d = false

theorem getDirStart_spec (hv : v.Valid) (cwd : Option Nat) (path : Path) :
    Wlp (Memory low B) (getDirStart cwd path) v (OpenedAt low v (start cwd path)) := by
  unfold getDirStart start
  split
  · exact dirOpenRoot_spec hv
  · cases cwd with
    | none => exact dirOpenRoot_spec hv
    | some d => exact dirReopen_spec hv d

theorem isRegular_congr (h : w.node d = v.node d) : w.isRegular d = v.isRegular d := by
  unfold isRegular
  rw [h]

theorem isRegular_of_isdir (h : v.isdir d = true) : v.isRegular d = false := by
  unfold isdir at h
  unfold isRegular
  cases hn : v.node d with
  | none => rfl
  | some n =>
    rw [hn] at h
    simpa using h

/-- Entries are read in what is not a regular file, unless that does not
matter. -/
theorem readEntries_spec (hB : Loose B ∨ v.isRegular d = false) :
    Wlp (Memory low B) (readEntries d) v fun es v' => es = v.entries d ∧ v' = v := by
  refine wlp_draw fun o es o' ho hr => ?_
  cases hr
  refine ⟨⟨ho.mem, ?_⟩, rfl, rfl⟩
  show B (o.misread || v.isRegular d)
  rcases hB with hB | hd
  · exact hB _ _ ho.ghost
  · rw [hd, Bool.or_false]
    exact ho.ghost

theorem dirLookup_spec (name : Name) (hB : Loose B ∨ v.isRegular d = false) :
    Wlp (Memory low B) (dirLookup d name) v fun r v' =>
      (∃ i e, lookup (v.entries d) name = some (i, e) ∧ OpenedAt low v e.inodeSector r v')
      ∨ (lookup (v.entries d) name = none ∧ r = none ∧ v' = v) := by
  refine (readEntries_spec hB).bind ?_
  rintro _ _ ⟨rfl, rfl⟩
  split
  next i e hl => exact (inodeOpen_spec e.inodeSector).conseq fun _ _ h => .inl ⟨i, e, hl, h⟩
  next hl => exact wlp_pure (.inr ⟨hl, rfl, rfl⟩)

/-- A new reference to `t`, or everything as it was. -/
def Resolved (v : Vol) (t r : Option Nat) (v' : Vol) : Prop :=
  (∃ d, r = some d ∧ v' = v.bump d ∧ t = some d) ∨ (r = none ∧ v' = v)

/-- The loop moves one reference along the path; it never frees an inode
that was open before. -/
theorem getDirLoop_spec (hv : v.Valid) (names : List Name) (d : Nat)
    (hB : Loose B ∨ Unread v names d) :
    Wlp (Memory low B) (getDirLoop names d) (v.bump d) (Resolved v (follow v names d)) := by
  induction names generalizing d with
  | nil => exact wlp_pure (.inl ⟨d, rfl, rfl, rfl⟩)
  | cons token rest ih =>
    have hclose : Wlp (Memory low B) (do dirClose (some d); pure none : M (Option Nat)) (v.bump d)
        (Resolved v (follow v (token :: rest) d)) :=
      wlp_bind (wlp_modify (wlp_pure (.inr ⟨rfl, bump_drop hv d⟩)))
    refine (dirLookup_spec (v := v.bump d) token (hB.imp_right (·.1))).bind ?_
    rintro r v₁ (⟨i, e, hl, ⟨rfl, rfl⟩ | ⟨rfl, rfl, -⟩⟩ | ⟨-, rfl, rfl⟩)
    · refine (dirOpen_bump_spec (hv.bump d) e.inodeSector).bind ?_
      rintro r v₂ (⟨rfl, rfl⟩ | ⟨rfl, rfl, -⟩)
      · refine wlp_bind (wlp_modify ?_)
        have hl' : lookup (v.entries d) token = some (i, e) := hl
        rw [bump_bump_drop hv, follow, hl']
        exact ih e.inodeSector (hB.imp_right fun h => h.2 i e hl')
      · exact hclose
    · exact hclose
    · exact hclose

theorem isRemoved_bump (d : Nat) : (v.bump d).isRemoved d = v.isRemoved d := by
  rw [isRemoved, bump_self]

/-- `get_dir` returns a new reference to the directory of the path, or
leaves everything as it was. -/
theorem getDir_spec (hv : v.Valid) (cwd : Option Nat) (path : Path)
    (hB : Loose B ∨ Unread v (tokens path) (start cwd path)) :
    Wlp (Memory low B) (getDir cwd path) v fun r v' =>
      (∃ d, r = some d ∧ v' = v.bump d ∧ resolve v cwd path = some d ∧ v.isRemoved d = false)
      ∨ (r = none ∧ v' = v) := by
  refine (getDirStart_spec hv cwd path).bind ?_
  rintro r v₁ (⟨rfl, rfl⟩ | ⟨rfl, -, -⟩)
  · refine (getDirLoop_spec hv (tokens path) (start cwd path) hB).bind ?_
    rintro r v₂ (⟨d, rfl, rfl, hf⟩ | ⟨rfl, rfl⟩)
    · refine wlp_bind (wlp_get ?_)
      split
      next => exact wlp_bind (wlp_modify (wlp_pure (.inr ⟨rfl, bump_drop hv d⟩)))
      next hr =>
        rw [isRemoved_bump] at hr
        exact wlp_pure (.inl ⟨d, rfl, rfl, hf, by simpa using hr⟩)
    · exact wlp_pure (.inr ⟨rfl, rfl⟩)
  · exact wlp_stop

-- ==== growth

/-- `s` took sectors that were free, and nothing else changed. -/
structure Grown (s : Nat) (v v' : Vol) : Prop where
  opened : v'.opened = v.opened
  dangling : v'.dangling = v.dangling
  sector : ∀ b,
    (v'.used b = v.used b ∧ v'.owner b = v.owner b ∧ v'.node b = v.node b)
    ∨ (v.used b = false ∧ v'.used b = true ∧ v'.owner b = some s ∧ v'.node b = none)

theorem Grown.refl (s : Nat) (v : Vol) : Grown s v v := ⟨rfl, rfl, fun _ => .inl ⟨rfl, rfl, rfl⟩⟩

theorem Grown.trans (h : Grown s v w) (h' : Grown s w v') : Grown s v v' := by
  refine ⟨h'.opened.trans h.opened, h'.dangling.trans h.dangling, fun b => ?_⟩
  rcases h.sector b with ⟨hu, ho, hn⟩ | ⟨hf, hu, ho, hn⟩
  · rcases h'.sector b with ⟨hu', ho', hn'⟩ | ⟨hf', hu', ho', hn'⟩
    · exact .inl ⟨hu'.trans hu, ho'.trans ho, hn'.trans hn⟩
    · exact .inr ⟨hu ▸ hf', hu', ho', hn'⟩
  · rcases h'.sector b with ⟨hu', ho', hn'⟩ | ⟨hf', -, -, -⟩
    · exact .inr ⟨hf, hu'.trans hu, ho'.trans ho, hn'.trans hn⟩
    · simp [hu] at hf'

variable {b : Nat} {cwd : Option Nat} {path : Path}

theorem Grown.take (hb : v.used b = false) : Grown s v ((v.setUsed b true).own b s) := by
  refine ⟨rfl, rfl, fun t => ?_⟩
  by_cases h : t = b
  · subst h
    exact .inr ⟨hb, if_pos rfl, if_pos rfl, if_pos rfl⟩
  · exact .inl ⟨if_neg h, if_neg h, if_neg h⟩

theorem Grown.kept (h : Grown s v v') (hb : v.used b = true) :
    v'.used b = true ∧ v'.owner b = v.owner b ∧ v'.node b = v.node b := by
  rcases h.sector b with ⟨hu, ho, hn⟩ | ⟨hf, -⟩
  · exact ⟨hu.trans hb, ho, hn⟩
  · simp [hb] at hf

theorem freeMapAllocate_spec : Wlp (Memory low B) freeMapAllocate v fun r v' =>
      (r = none ∧ v' = v)
      ∨ ∃ s, r = some s ∧ v.used s = false ∧ v' = v.setUsed s true := by
  have hnext : Wlp (Memory low B) nextSector v fun r v' =>
      v' = v ∧ ∀ s, r = some s → v.used s = false := by
    refine wlp_draw fun o r o' ho hd => ?_
    split at hd
    next =>
      cases hd
      exact ⟨ho, rfl, nofun⟩
    next t rest _ =>
      obtain ⟨hu, ⟨⟩⟩ := ite_none_left_eq_some.mp hd
      refine ⟨⟨ho.mem, ho.ghost⟩, rfl, fun s hs => ?_⟩
      cases hs
      simpa using hu
  refine hnext.bind ?_
  rintro r _ ⟨rfl, hfree⟩
  cases r with
  | none => exact wlp_pure (.inl ⟨rfl, rfl⟩)
  | some s => exact wlp_bind (wlp_modify (wlp_pure (.inr ⟨s, rfl, hfree s rfl, rfl⟩)))

theorem grow_spec (s : Nat) (n : Nat) (v : Vol) :
    Wlp (Memory low B) (grow s n) v fun _ v' => Grown s v v' := by
  induction n generalizing v with
  | zero => exact wlp_pure (Grown.refl s v)
  | succ n ih =>
    refine freeMapAllocate_spec.bind ?_
    rintro r v₁ (⟨rfl, rfl⟩ | ⟨b, rfl, hb, rfl⟩)
    · exact wlp_pure (Grown.refl s _)
    · refine wlp_bind (wlp_modify ?_)
      exact (ih _).conseq fun _ _ h => (Grown.take hb).trans h

/-- The open inodes are as they were. -/
def Quiet (v v' : Vol) : Prop := v'.opened = v.opened ∧ v'.dangling = v.dangling

theorem Quiet.trans (h : Quiet v w) (h' : Quiet w v') : Quiet v v' :=
  ⟨h'.1.trans h.1, h'.2.trans h.2⟩

theorem Grown.quiet (h : Grown s v v') : Quiet v v' := ⟨h.opened, h.dangling⟩

/-- Sectors in use kept their bits and inodes; new data sectors are in
use. -/
structure Fresh (v v' : Vol) : Prop where
  kept : ∀ b, v.used b = true → v'.used b = true
    ∧ v'.node b = v.node b ∧ (v'.owner b = v.owner b ∨ v'.owner b = none)
  owned : ∀ b t, v'.owner b = some t → v.owner b = some t ∨ v'.used b = true

theorem Fresh.trans (h : Fresh v w) (h' : Fresh w v') : Fresh v v' := by
  refine ⟨fun b hb => ?_, fun b t ht => ?_⟩
  · obtain ⟨hu, hn, ho⟩ := h.kept b hb
    obtain ⟨hu', hn', ho'⟩ := h'.kept b hu
    exact ⟨hu', hn'.trans hn, ho'.elim (fun h => ho.imp h.trans h.trans) .inr⟩
  · rcases h'.owned b t ht with hw | hw
    · exact (h.owned b t hw).imp_right fun hu => (h'.kept b hu).1
    · exact .inr hw

theorem Grown.fresh (h : Grown s v v') : Fresh v v' := by
  refine ⟨fun b hb => ?_, fun b t ht => ?_⟩
  · obtain ⟨hu, ho, hn⟩ := h.kept hb
    exact ⟨hu, hn, .inl ho⟩
  · rcases h.sector b with ⟨-, ho, -⟩ | ⟨-, hu, -⟩
    · exact .inl (ho ▸ ht)
    · exact .inr hu

theorem ne_of_used (hs : v.used s = false) (hb : v.used b = true) : b ≠ s := by
  rintro rfl
  simp [hs] at hb

/-- A sector that was free is marked used. -/
theorem Fresh.allocate (hs : v.used s = false) : Fresh v (v.setUsed s true) :=
  ⟨fun _ hb => ⟨(if_neg (ne_of_used hs hb)).trans hb, rfl, .inl rfl⟩, fun _ _ ht => .inl ht⟩

theorem Fresh.disown (v : Vol) (s : Nat) : Fresh v (v.disown s) := by
  refine ⟨fun b hb => ⟨hb, rfl, ?_⟩, fun b t ht => .inl ?_⟩
  · by_cases h : v.owner b = some s
    · exact .inr (if_pos h)
    · exact .inl (if_neg h)
  · have ht' : (if v.owner b = some s then none else v.owner b) = some t := ht
    split at ht'
    · cases ht'
    · exact ht'

/-- An inode is written to a sector that was free at first. -/
theorem Fresh.setNode (h : Fresh v w) (hs : v.used s = false)
    (n : Option Node) : Fresh v (w.setNode s n) := by
  refine ⟨fun b hb => ?_, h.owned⟩
  obtain ⟨hu, hn, ho⟩ := h.kept b hb
  exact ⟨hu, (if_neg (ne_of_used hs hb)).trans hn, ho⟩

/-- A sector that was free at first is given back. -/
theorem Fresh.giveBack (h : Fresh v w) (hs : v.used s = false)
    (ho : w.owner s = v.owner s ∨ w.owner s = none) : Fresh v (w.setUsed s false) := by
  refine ⟨fun b hb => ?_, fun b t ht => ?_⟩
  · obtain ⟨hu, hn, hob⟩ := h.kept b hb
    exact ⟨(if_neg (ne_of_used hs hb)).trans hu, hn, hob⟩
  · by_cases hb : b = s
    · subst hb
      have ht' : w.owner b = some t := ht
      rcases ho with ho | ho
      · exact .inl (ho ▸ ht')
      · simp [ho] at ht'
    · exact (h.owned b t ht).imp_right (if_neg hb).trans

/-- A sector taken for a new inode. -/
structure Taken (s : Nat) (v w : Vol) : Prop where
  quiet : Quiet v w
  fresh : Fresh v w
  free : v.used s = false
  used : w.used s = true
  owner : w.owner s = v.owner s ∨ w.owner s = none

theorem Taken.then (h : Taken s v w) (hq : Quiet w v') (hf : Fresh w v') : Taken s v v' := by
  obtain ⟨hu, -, ho⟩ := hf.kept s h.used
  exact ⟨h.quiet.trans hq, h.fresh.trans hf, h.free, hu,
    ho.elim (fun ho => h.owner.imp ho.trans ho.trans) .inr⟩

theorem Taken.setNode (h : Taken s v w) (n : Option Node) : Taken s v (w.setNode s n) :=
  ⟨h.quiet, h.fresh.setNode h.free n, h.free, h.used, h.owner⟩

theorem Taken.disown (h : Taken s v w) : Taken s v (w.disown s) := by
  have hq : Quiet w (w.disown s) := ⟨rfl, rfl⟩
  exact h.then hq (Fresh.disown w s)

/-- The contents of a file that was created and not written. -/
def zeroed (isdir : Bool) (size : Nat) : Node :=
  ⟨isdir, List.replicate (size / entrySize) Entry.zero⟩

theorem inodeCreate_spec (h : Taken s v w) (size : Nat) (isdir : Bool) :
    Wlp (Memory low B) (inodeCreate s size isdir) w fun r v' =>
      Taken s v v' ∧ (r = true → v'.node s = some (zeroed isdir size)) := by
  refine malloc_spec.bind ?_
  rintro b _ ⟨rfl, -⟩
  cases b with
  | false => exact wlp_pure ⟨h, Bool.noConfusion⟩
  | true =>
    refine wlp_bind (wlp_modify ?_)
    refine (grow_spec s _ _).bind ?_
    intro r w₁ hg
    have h1 := (h.disown).then hg.quiet hg.fresh
    cases r with
    | false => exact wlp_pure ⟨h1, Bool.noConfusion⟩
    | true => exact wlp_bind (wlp_modify (wlp_pure ⟨h1.setNode _, fun _ => if_pos rfl⟩))

-- ==== entries

/-- A slot that `lookup` finds. -/
theorem lookup_some (h : lookup es name = some (i, e)) :
    es[i]? = some e ∧ e.inUse = true ∧ e.name = name := by
  unfold lookup at h
  split at h
  next j hj =>
    obtain ⟨e', he', hje⟩ := map_eq_some_iff.mp h
    cases hje
    obtain ⟨hlt, hp, -⟩ := findIdx?_eq_some_iff_getElem.mp hj
    have hget : es[i]? = some es[i] := getElem?_eq_getElem hlt
    rw [hget] at he'
    cases he'
    refine ⟨hget, ?_⟩
    simpa [Entry.holds] using hp
  next => cases h

theorem lookup_none (h : lookup es name = none) : ∀ e ∈ es, e.inUse = true → e.name ≠ name := by
  intro e he hu hn
  unfold lookup at h
  split at h
  next j hj =>
    obtain ⟨hlt, -⟩ := findIdx?_eq_some_iff_getElem.mp hj
    simp [getElem?_eq_getElem hlt] at h
  next hj =>
    have hall := findIdx?_eq_none_iff.mp hj e he
    simp [Entry.holds, hu, hn] at hall

/-- One slot is written. -/
theorem getElem?_writeSlot {k : Nat} (hk : k ≤ es.length) (e : Entry) (i : Nat) :
    (writeSlot es k e)[i]? = if i = k then some e else es[i]? := by
  unfold writeSlot
  split
  next hlt =>
    by_cases h : k = i
    · simp [← h, hlt]
    · simp [h, Ne.symm h]
  next hlt =>
    have hlen : k = es.length := by omega
    rw [hlen]
    by_cases h : i = es.length
    · simp [h]
    · rw [if_neg h, getElem?_append]
      split
      · rfl
      · rw [getElem?_eq_none (by simp; omega), getElem?_eq_none (by omega)]

theorem freeSlot_le (es : List Entry) : freeSlot es ≤ es.length := findIdx_le_length

/-- The free slot is free, or there is none. -/
theorem freeSlot_unused (h : es[freeSlot es]? = some e) : e.inUse = false := by
  obtain ⟨hlt, rfl⟩ := List.getElem?_eq_some_iff.mp h
  have hfree : (!es[freeSlot es].inUse) = true := findIdx_getElem (w := hlt)
  rwa [Bool.not_eq_true'] at hfree

/-- The entry `e` was written to the slot `i` of the directory `d`. -/
def Wrote (d i : Nat) (e : Entry) (v v' : Vol) : Prop :=
  ∃ es w, v.node d = some ⟨true, es⟩ ∧ Grown d v w
    ∧ v' = w.setNode d (some ⟨true, writeSlot es i e⟩)

theorem writeEntry_spec (d i : Nat) (e : Entry) :
    Wlp (Memory low B) (writeEntry d i e) v fun r v' => r = true ∧ Wrote d i e v v' := by
  refine wlp_bind (wlp_get ?_)
  split
  next es hn =>
    have hset (w : Vol) (hg : Grown d v w) : Wlp (Memory low B)
        (do modify (·.setNode d (some ⟨true, writeSlot es i e⟩)); pure true : M Bool) w
        fun r v' => r = true ∧ Wrote d i e v v' :=
      wlp_bind (wlp_modify (wlp_pure ⟨rfl, es, w, hn, hg, rfl⟩))
    refine (grow_spec d _ _).bind ?_
    intro r w hg
    cases r with
    | true => exact hset w hg
    | false => exact wlp_bind (wlp_modify (hset w.spill ⟨hg.opened, hg.dangling, hg.sector⟩))
  next => exact wlp_stop

/-- A slot that exists is written without growth. -/
theorem writeEntry_in_place (hn : v.node d = some ⟨true, es⟩) (hi : i < es.length) (e : Entry) :
    Wlp (Memory low B) (writeEntry d i e) v fun r v' =>
      r = true ∧ v' = v.setNode d (some ⟨true, es.set i e⟩) := by
  refine wlp_bind (wlp_get ?_)
  rw [hn]
  have hmore : bytesToSectors (entrySize * (i + 1))
      - bytesToSectors (entrySize * es.length) = 0 := by
    have hle : entrySize * (i + 1) ≤ entrySize * es.length := Nat.mul_le_mul_left _ hi
    unfold bytesToSectors
    omega
  simp only [hmore]
  refine wlp_bind (wlp_pure ?_)
  have hw : writeSlot es i e = es.set i e := if_pos hi
  exact wlp_bind (wlp_modify (wlp_pure ⟨rfl, by rw [hw]⟩))

/-- `dir_add` added the entry of a name that had none. -/
structure Added (d : Nat) (name : Name) (s : Nat) (v v' : Vol) : Prop where
  valid : validName name = true
  unused : lookup (v.entries d) name = none
  wrote : Wrote d (freeSlot (v.entries d)) ⟨s, name, true⟩ v v'

/-- `dir_add` adds the entry, or only grows the directory. -/
theorem dirAdd_spec (name : Name) (s : Nat) (hB : Loose B ∨ v.isRegular d = false) :
    Wlp (Memory low B) (dirAdd d name s) v fun r v' =>
      (r = true ∧ Added d name s v v') ∨ (r = false ∧ Grown d v v') := by
  unfold dirAdd
  split
  next hvalid =>
    refine (readEntries_spec hB).bind ?_
    rintro _ w ⟨rfl, rfl⟩
    split
    next => exact wlp_pure (.inr ⟨rfl, Grown.refl d w⟩)
    next hl =>
      exact (writeEntry_spec d _ _).conseq fun r v' h => .inl ⟨h.1, hvalid, hl, h.2⟩
  next => exact wlp_pure (.inr ⟨rfl, Grown.refl d v⟩)

theorem Wrote.quiet (h : Wrote d i e v v') : Quiet v v' := by
  obtain ⟨es, w, -, hg, rfl⟩ := h
  exact hg.quiet

theorem Taken.allocate (hs : v.used s = false) : Taken s v (v.setUsed s true) :=
  ⟨⟨rfl, rfl⟩, Fresh.allocate hs, hs, if_pos rfl, .inl rfl⟩

-- ==== creations

/-- The outcomes of the conjunction in `filesys_create`. -/
def EntryMade (d : Nat) (name : Name) (size : Nat) (isdir : Bool)
    (v : Vol) (r : Option Nat × Bool) (v' : Vol) : Prop :=
  (r = (none, false) ∧ v' = v)
  ∨ (∃ s, r = (some s, false) ∧ Taken s v v')
  ∨ ∃ s w, r = (some s, true) ∧ Taken s v w
      ∧ w.node s = some (zeroed isdir size) ∧ Added d name s w v'

/-- The parent's sector is in use, so it is not the one of the new inode. -/
theorem createEntry_spec (name : Name) (size : Nat) (isdir : Bool)
    (hB : Loose B ∨ v.used d = true ∧ v.isRegular d = false) :
    Wlp (Memory low B) (createEntry (some d) name size isdir) v
      (EntryMade d name size isdir v) := by
  refine freeMapAllocate_spec.bind ?_
  rintro r v₁ (⟨rfl, rfl⟩ | ⟨s, rfl, hs, rfl⟩)
  · exact wlp_pure (.inl ⟨rfl, rfl⟩)
  · refine (inodeCreate_spec (Taken.allocate hs) size isdir).bind ?_
    rintro r v₂ ⟨h2, hn⟩
    cases r with
    | false => exact wlp_pure (.inr (.inl ⟨s, rfl, h2⟩))
    | true =>
      have hd := hB.imp_right fun h => (isRegular_congr (h2.fresh.kept d h.1).2.1).trans h.2
      refine (dirAdd_spec name s hd).bind ?_
      rintro r v₃ (⟨rfl, ha⟩ | ⟨rfl, hg⟩)
      · exact wlp_pure (.inr (.inr ⟨s, v₂, rfl, h2, hn rfl, ha⟩))
      · exact wlp_pure (.inr (.inl ⟨s, rfl, h2.then hg.quiet hg.fresh⟩))

/-- The path has no parent, or its name has an entry already, or the name
cannot have one. -/
def refused (v : Vol) (cwd : Option Nat) (path : Path) : Bool :=
  (resolve v cwd (dirPath path)).all fun d =>
    !validName (getName path)
      || (v.used d && (lookup (v.entries d) (getName path)).isSome)

theorem entries_eq {b : Bool} (h : v.node d = some ⟨b, es⟩) : v.entries d = es := by
  unfold entries
  rw [h]

theorem isdir_congr (h : v'.node t = v.node t) : v'.isdir t = v.isdir t := by
  unfold isdir
  rw [h]

theorem entries_congr (h : v'.node t = v.node t) : v'.entries t = v.entries t := by
  unfold entries
  rw [h]

theorem refused_not_added (hr : refused v cwd path = true)
    (hd : resolve v cwd (dirPath path) = some d) (ht : Fresh v w)
    (ha : Added d (getName path) s w v') : False := by
  unfold refused at hr
  rw [hd, all_some, ha.valid, Bool.not_true, Bool.false_or, Bool.and_eq_true] at hr
  have hun := ha.unused
  rw [entries_congr (ht.kept d hr.1).2.1] at hun
  rw [hun] at hr
  cases hr.2

theorem Added.quiet (h : Added d name s v v') : Quiet v v' := h.wrote.quiet

theorem isRemoved_congr (h : v'.opened = v.opened) : v'.isRemoved t = v.isRemoved t := by
  unfold isRemoved
  rw [h]

/-- The operation left the open inodes alone. -/
theorem filesysCreate_quiet (hv : v.Valid) (cwd : Option Nat) (path : Path)
    (size : Nat) (isdir : Bool) (hr : isdir = false ∨ refused v cwd path = true)
    (hB : Loose B) :
    Wlp (Memory low B) (filesysCreate cwd path size isdir) v fun _ v' => Quiet v v' := by
  refine (splitPath_spec path).bind ?_
  rintro _ u ⟨rfl, rfl⟩
  refine (getDir_spec hv cwd _ (.inl hB)).bind ?_
  rintro r v₁ (⟨d, rfl, rfl, hd, -⟩ | ⟨rfl, rfl⟩)
  · -- The reference to the parent is closed last.
    have hclose {w : Vol} (hw : Quiet (u.bump d) w) (b : Bool) :
        Wlp (Memory low B) (do dirClose (some d); pure b : M Bool) w fun _ v' => Quiet u v' := by
      refine wlp_bind (wlp_modify (wlp_pure ?_))
      rw [drop_bumped hv d hw.1]
      exact ⟨rfl, hw.2⟩
    refine (createEntry_spec _ size isdir (.inl hB)).bind ?_
    rintro r v₂ (⟨rfl, rfl⟩ | ⟨s, rfl, ht⟩ | ⟨s, w, rfl, ht, -, ha⟩)
    · exact wlp_bind (wlp_pure (hclose ⟨rfl, rfl⟩ false))
    · have hq : Quiet (u.bump d) (v₂.setUsed s false) := ht.quiet
      exact wlp_bind (wlp_modify (hclose hq false))
    · cases isdir with
      | false => exact wlp_bind (wlp_pure (hclose (ht.quiet.trans ha.quiet) true))
      | true =>
        have hf : Fresh u w := ⟨ht.fresh.kept, ht.fresh.owned⟩
        exact (refused_not_added (hr.resolve_left Bool.noConfusion) hd hf ha).elim
  · exact wlp_bind (wlp_pure (wlp_bind (wlp_pure (wlp_bind (wlp_pure (wlp_pure ⟨rfl, rfl⟩))))))

-- ==== removals

theorem openCnt_bump (t : Nat) : (v.bump s).openCnt t = v.openCnt t + if t = s then 1 else 0 := by
  by_cases h : t = s
  · rw [h, if_pos rfl, openCnt, bump_self]
  · rw [openCnt, bump_other h, if_neg h, Nat.add_zero, openCnt]

theorem Vol.Valid.unopened (hv : v.Valid) (h : v.openCnt s = 0) : v.opened s = none := by
  cases ho : v.opened s with
  | none => rfl
  | some i =>
    have hpos := hv s i ho
    rw [openCnt, ho] at h
    exact absurd h (Nat.ne_of_gt hpos)

/-- `dir_remove` cleared the entry of a file, or of a directory that was
neither open nor had an entry from the third slot on. -/
def Erased (d : Nat) (name : Name) (v v' : Vol) : Prop :=
  ∃ es i e, v.node d = some ⟨true, es⟩ ∧ lookup es name = some (i, e)
    ∧ (v.isdir e.inodeSector = true → v.opened e.inodeSector = none
      ∧ isEmpty (v.entries e.inodeSector) = true)
    ∧ v' = (((v.bump e.inodeSector).setNode d
        (some ⟨true, es.set i { e with inUse := false }⟩)).markRemoved
          e.inodeSector).drop e.inodeSector

theorem eraseEntry_spec (hl : lookup (v.entries d) name = some (i, e))
    (s : Nat) : Wlp (Memory low B) (eraseEntry d i e s) v fun r v' =>
      ∃ es, v.node d = some ⟨true, es⟩ ∧ r = true
        ∧ v' = ((v.setNode d
          (some ⟨true, es.set i { e with inUse := false }⟩)).markRemoved s).drop s := by
  cases hn : v.node d with
  | none =>
    unfold entries at hl
    rw [hn] at hl
    cases hl
  | some n =>
    obtain ⟨isdir, es⟩ := n
    cases isdir with
    | false =>
      refine wlp_bind (wlp_bind (wlp_get ?_))
      rw [hn]
      exact wlp_stop
    | true =>
      rw [entries_eq hn] at hl
      have hi : i < es.length := (List.getElem?_eq_some_iff.mp (lookup_some hl).1).1
      refine (writeEntry_in_place hn hi _).bind ?_
      rintro r v₁ ⟨rfl, rfl⟩
      exact wlp_bind (wlp_modify (wlp_bind (wlp_modify (wlp_pure ⟨es, rfl, rfl, rfl⟩))))

/-- Clearing the entry of an inode that is not allocated. -/
theorem drop_unopened (h : v.opened s = none) (n : Option Node) :
    ((v.setNode d n).markRemoved s).drop s = { v.setNode d n with dangling := true } := by
  have ho : (v.setNode d n).opened s = none := h
  have hm : (v.setNode d n).markRemoved s = v.setNode d n := by
    unfold markRemoved
    rw [ho]
  rw [hm, Vol.drop, ho]

/-- The outcomes of `dir_remove`. -/
def RemoveOutcome (low : Prop) (d : Nat) (name : Name) (v : Vol) (r : Bool) (v' : Vol) : Prop :=
  (r = false ∧ v' = v) ∨ (r = true ∧ Erased d name v v') ∨ (low ∧ v'.opened = v.opened)

theorem dirRemove_spec (hv : v.Valid) (name : Name) (hB : Loose B ∨ v.isRegular d = false) :
    Wlp (Memory low B) (dirRemove d name) v (RemoveOutcome low d name v) := by
  refine (readEntries_spec hB).bind ?_
  rintro _ v ⟨rfl, rfl⟩
  split
  next => exact wlp_pure (.inl ⟨rfl, rfl⟩)
  next i e hl =>
    refine (inodeOpen_spec e.inodeSector).bind ?_
    rintro r v₁ (⟨rfl, rfl⟩ | ⟨rfl, rfl, -⟩)
    · have hclose : Wlp (Memory low B) (do inodeClose e.inodeSector; pure false : M Bool)
          (v.bump e.inodeSector) (RemoveOutcome low d name v) :=
        wlp_bind (wlp_modify (wlp_pure (.inl ⟨rfl, bump_drop hv e.inodeSector⟩)))
      have herase (hdir : v.isdir e.inodeSector = true →
          v.opened e.inodeSector = none ∧ isEmpty (v.entries e.inodeSector) = true) :
          Wlp (Memory low B) (eraseEntry d i e e.inodeSector) (v.bump e.inodeSector)
            (RemoveOutcome low d name v) := by
        have hl' : lookup ((v.bump e.inodeSector).entries d) name = some (i, e) := hl
        refine (eraseEntry_spec hl' e.inodeSector).conseq ?_
        rintro r v' ⟨es, hn, hr, hv'⟩
        have hn' : v.node d = some ⟨true, es⟩ := hn
        exact .inr (.inl ⟨hr, es, i, e, hn', entries_eq hn' ▸ hl, hdir, hv'⟩)
      refine wlp_bind (wlp_get ?_)
      split
      next hisdir =>
        split
        next => exact hclose
        next hone =>
          have hun : v.opened e.inodeSector = none := by
            rw [openCnt_bump, if_pos rfl] at hone
            exact hv.unopened (by omega)
          refine (dirOpen_bump_spec hv e.inodeSector).bind ?_
          rintro r v₂ (⟨rfl, rfl⟩ | ⟨rfl, rfl, hlow⟩)
          · refine (readEntries_spec (.inr (isRegular_of_isdir hisdir))).bind ?_
            rintro _ _ ⟨rfl, rfl⟩
            split
            next hempty => exact herase fun _ => ⟨hun, hempty⟩
            next => exact hclose
          · refine (eraseEntry_spec hl e.inodeSector).conseq ?_
            rintro r v' ⟨es, -, -, hv'⟩
            refine .inr (.inr ⟨hlow, ?_⟩)
            rw [hv', drop_unopened hun]
            rfl
      next hfile => exact herase fun h => absurd h hfile
    · exact wlp_pure (.inl ⟨rfl, rfl⟩)

/-- The outcomes of `filesys_remove`. -/
def Removal (low : Prop) (cwd : Option Nat) (path : Path) (v v' : Vol) : Prop :=
  v' = v ∨ ∃ d w, resolve v cwd (dirPath path) = some d ∧ v' = w.drop d
    ∧ (Erased d (getName path) (v.bump d) w ∨ (low ∧ w.opened = (v.bump d).opened))

/-- `filesys_remove`. -/
theorem filesysRemove_spec (hv : v.Valid) (cwd : Option Nat) (path : Path)
    (hB : Loose B ∨ ParentUnread v cwd path) :
    Wlp (Memory low B) (filesysRemove cwd path) v fun _ v' => Removal low cwd path v v' := by
  refine (splitPath_spec path).bind ?_
  rintro _ u ⟨rfl, rfl⟩
  refine (getDir_spec hv cwd _ (hB.imp_right (·.way))).bind ?_
  rintro r v₁ (⟨d, rfl, rfl, hd, hr⟩ | ⟨rfl, rfl⟩)
  · refine (dirRemove_spec (hv.bump d) _ (hB.imp_right fun h => h.parent d hd hr)).bind ?_
    intro r w ho
    refine wlp_bind (wlp_modify (wlp_pure ?_))
    rcases ho with ⟨-, rfl⟩ | ⟨-, he⟩ | hlow
    · exact .inl (bump_drop hv d)
    · exact .inr ⟨d, w, hd, rfl, .inl he⟩
    · exact .inr ⟨d, w, hd, rfl, .inr hlow⟩
  · exact wlp_pure (.inl rfl)

-- ==== opens and chdir

/-- The inode `filesys_open` arrives at. -/
def openTarget (v : Vol) (cwd : Option Nat) (path : Path) : Option Nat :=
  match resolve v cwd (dirPath path) with
  | none => none
  | some d =>
    if getName path = [] then some d
    else
      match lookup (v.entries d) (getName path) with
      | some (_, e) => some e.inodeSector
      | none => none

/-- The outcomes of `filesys_open`. -/
def OpenOutcome (cwd : Option Nat) (path : Path) (v : Vol) : Opening → Vol → Prop
  | .file s, v' => v' = v.bump s ∧ openTarget v cwd path = some s ∧ v.isRemoved s = false
  | .failed, v' => v' = v
  | .failedHolding s, v' => v' = v.bump s ∧ openTarget v cwd path = some s ∧ v.isRemoved s = true

theorem fileOpen_spec (hv : v.Valid) (ht : openTarget v cwd path = some s) :
    Wlp (Memory low B) (fileOpen (some s)) (v.bump s) (OpenOutcome cwd path v) := by
  refine wlp_bind (wlp_get ?_)
  rw [isRemoved_bump]
  split
  next hr => exact wlp_pure ⟨rfl, ht, hr⟩
  next hr =>
    refine malloc_spec.bind ?_
    rintro b _ ⟨rfl, -⟩
    cases b with
    | true => exact wlp_pure ⟨rfl, ht, by simpa using hr⟩
    | false => exact wlp_bind (wlp_modify (wlp_pure (bump_drop hv s)))

/-- `filesys_open`. -/
theorem filesysOpen_spec (hv : v.Valid) (cwd : Option Nat) (path : Path)
    (hB : Loose B ∨ ParentUnread v cwd path) :
    Wlp (Memory low B) (filesysOpen cwd path) v (OpenOutcome cwd path v) := by
  refine (splitPath_spec path).bind ?_
  rintro _ u ⟨rfl, rfl⟩
  refine (getDir_spec hv cwd _ (hB.imp_right (·.way))).bind ?_
  rintro r v₁ (⟨d, rfl, rfl, hd, hr⟩ | ⟨rfl, rfl⟩)
  · simp only
    split
    next hname =>
      refine fileOpen_spec hv ?_
      rw [openTarget, hd]
      exact if_pos hname
    next hname =>
      have hB' : Loose B ∨ (u.bump d).isRegular d = false := hB.imp_right fun h => h.parent d hd hr
      refine (dirLookup_spec _ hB').bind ?_
      rintro r v₂ (⟨i, e, hl, ⟨rfl, rfl⟩ | ⟨rfl, rfl, -⟩⟩ | ⟨-, rfl, rfl⟩)
      · refine wlp_bind (wlp_modify ?_)
        rw [bump_bump_drop hv]
        refine fileOpen_spec hv ?_
        have hl' : lookup (u.entries d) (getName path) = some (i, e) := hl
        rw [openTarget, hd]
        simp only [hl']
        exact if_neg hname
      · exact wlp_bind (wlp_modify (wlp_pure (bump_drop hv d)))
      · exact wlp_bind (wlp_modify (wlp_pure (bump_drop hv d)))
  · exact wlp_pure rfl

/-- The volume after `dir_close` of an old working directory. -/
def Vol.dropOpt (v : Vol) : Option Nat → Vol
  | some d => v.drop d
  | none => v

/-- `filesys_chdir` moves the reference of the process. -/
theorem filesysChdir_spec (hv : v.Valid) (cwd : Option Nat) (path : Path)
    (hB : Loose B ∨ Unread v (tokens path) (start cwd path)) :
    Wlp (Memory low B) (filesysChdir cwd path) v fun r v' =>
      (∃ d, r = some d ∧ v' = (v.bump d).dropOpt cwd
        ∧ resolve v cwd path = some d ∧ v.isRemoved d = false)
      ∨ (r = none ∧ v' = v) := by
  refine (getDir_spec hv cwd path hB).bind ?_
  rintro r v₁ (⟨d, rfl, rfl, hd, hr⟩ | ⟨rfl, rfl⟩)
  · cases cwd with
    | none => exact wlp_bind (wlp_pure (wlp_pure (.inl ⟨d, rfl, rfl, hd, hr⟩)))
    | some c => exact wlp_bind (wlp_modify (wlp_pure (.inl ⟨d, rfl, rfl, hd, hr⟩)))
  · exact wlp_pure (.inr ⟨rfl, rfl⟩)

end Pintos.Directory
