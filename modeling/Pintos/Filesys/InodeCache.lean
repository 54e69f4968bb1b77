/-
`inode_open` and `inode_close` by any number of threads, over the list
`open_inodes` that nothing locks.

# Grain

`inode_open` is three steps, cut where it may lose the processor: the
search of the list (with the reopen of what it finds), the allocation
with the push on the list and the initialisation, and the `block_read`
at the end. The pointer is returned by the first step or by the last.

# What is kept of `inode_close`

The count and the `list_remove`. Giving back the sectors of a removed
inode comes after the `list_remove` and touches neither the list nor the
loaded data.

# Ghosts

`refs` are the pointers returned and not closed yet: `inode_close` is
called on one of them. `returned` is every pointer ever returned.
-/
import Pintos.Lib.Transition
import Mathlib.Data.List.Nodup

namespace Pintos.InodeCache

open Transition List Option

-- ==== model

/-- A `struct inode`, named by its number in order of allocation. -/
abbrev Ref := Nat

/-- `body` is what the users of the list see of the lock and the data. -/
structure Inode (α : Type) where
  sector : Nat
  openCnt : Int
  removed : Bool
  body : α

structure OpenInodes (α : Type) where
  inode : Ref → Inode α
  count : Nat
  openInodes : List Ref

namespace OpenInodes

variable {α : Type}

def modInode (l : OpenInodes α) (i : Ref) (f : Inode α → Inode α) : OpenInodes α :=
  { l with inode := fun j => if j = i then f (l.inode i) else l.inode j }

/-- The loop of `inode_open` over `open_inodes`. -/
def find (l : OpenInodes α) (sector : Nat) : Option Ref :=
  l.openInodes.find? fun i => (l.inode i).sector = sector

def inodeReopen (l : OpenInodes α) (i : Ref) : OpenInodes α :=
  l.modInode i fun v => { v with openCnt := v.openCnt + 1 }

/-- Publication and initialisation in `inode_open`, after its `malloc`. -/
def publish (l : OpenInodes α) (sector : Nat) (body : α) : OpenInodes α :=
  { l with
    count := l.count + 1
    openInodes := l.count :: l.openInodes }.modInode l.count fun _ =>
      { sector := sector, openCnt := 1, removed := false, body := body }

def inodeClose (l : OpenInodes α) (i : Ref) : OpenInodes α :=
  { l with openInodes :=
      if (l.inode i).openCnt - 1 = 0 then l.openInodes.erase i
      else l.openInodes }.modInode i fun v =>
    { v with openCnt := v.openCnt - 1 }

/-- What an update of a struct does not touch. -/
theorem modInode_same {β : Type} (g : Inode α → β) (l : OpenInodes α) (i : Ref)
    (f : Inode α → Inode α) (hf : g (f (l.inode i)) = g (l.inode i)) (n : Ref) :
    g ((l.modInode i f).inode n) = g (l.inode n) := by
  show g (if n = i then _ else _ : Inode α) = _
  split
  case isTrue h => rw [h, hf]
  case isFalse => rfl

theorem inodeReopen_same {β : Type} (g : Inode α → β) (hg : ∀ v c, g { v with openCnt := c } = g v)
    (l : OpenInodes α) (i n : Ref) : g ((l.inodeReopen i).inode n) = g (l.inode n) :=
  modInode_same g l i _ (hg _ _) n

theorem inodeClose_same {β : Type} (g : Inode α → β) (hg : ∀ v c, g { v with openCnt := c } = g v)
    (l : OpenInodes α) (i n : Ref) : g ((l.inodeClose i).inode n) = g (l.inode n) :=
  modInode_same g { l with openInodes := _ } i _ (hg _ _) n

theorem inodeClose_sublist (l : OpenInodes α) (i : Ref) :
    (l.inodeClose i).openInodes.Sublist l.openInodes := by
  show (if _ then _ else _ : List Ref).Sublist _
  split
  · exact erase_sublist
  · exact List.Sublist.refl _

theorem find_none {l : OpenInodes α} {sector : Nat} (h : l.find sector = none) :
    ∀ i ∈ l.openInodes, (l.inode i).sector ≠ sector := by
  simpa [find] using h

theorem find_some {l : OpenInodes α} {sector : Nat} {i : Ref} (h : l.find sector = some i) :
    i ∈ l.openInodes ∧ (l.inode i).sector = sector :=
  ⟨mem_of_find?_eq_some h, by simpa using find?_some h⟩

end OpenInodes

inductive Point where
  | idle
  /-- The search for this sector found nothing. -/
  | missed (sector : Nat)
  /-- Published, in `block_read`. -/
  | loading (i : Ref)
  deriving DecidableEq, Repr

/-- The `block_read` into the inode is done. -/
abbrev Inode.loaded (v : Inode Bool) : Bool := v.body

structure State extends OpenInodes Bool where
  point : Nat → Point
  refs : List Ref
  returned : List Ref

inductive Act where
  | search (t sector : Nat)
  | alloc (t : Nat) (ok : Bool)
  | load (t : Nat)
  | close (i : Ref)

namespace State

def goto (k : State) (t : Nat) (pt : Point) : State :=
  { k with point := fun u => if u = t then pt else k.point u }

/-- `inode_open` returns `i`. -/
def give (k : State) (i : Ref) : State :=
  { k with refs := i :: k.refs, returned := i :: k.returned }

def search (t sector : Nat) (k : State) : State :=
  match k.find sector with
  | some i => { k with toOpenInodes := k.inodeReopen i }.give i
  | none => k.goto t (.missed sector)

/-- Without memory `inode_open` returns a null pointer. -/
def alloc (t sector : Nat) (ok : Bool) (k : State) : State :=
  if ok then { k with toOpenInodes := k.publish sector false }.goto t (.loading k.count)
  else k.goto t .idle

/-- `block_read` returns. -/
def load (t : Nat) (i : Ref) (k : State) : State :=
  ({ k with toOpenInodes := k.modInode i fun x => { x with body := true } }.give i).goto t .idle

/-- `inode_close`. -/
def close (i : Ref) (k : State) : State :=
  { k with toOpenInodes := k.inodeClose i, refs := k.refs.erase i }

def step (a : Act) (k : State) : Option State :=
  match a with
  | .search t sector =>
    if k.point t = .idle then some (k.search t sector) else none
  | .alloc t ok =>
    match k.point t with
    | .missed sector => some (k.alloc t sector ok)
    | _ => none
  | .load t =>
    match k.point t with
    | .loading i => some (k.load t i)
    | _ => none
  | .close i => if i ∈ k.refs then some (k.close i) else none

/-- After `inode_init`: no inode is open and nobody is opening one. -/
structure Start (k : State) : Prop where
  empty : k.openInodes = []
  idle : ∀ t, k.point t = .idle
  fresh : k.refs = [] ∧ k.returned = []

-- ==== the invariant

/-- Past a search for this sector that failed, and not done yet. -/
def Opens (k : State) (t sector : Nat) : Prop :=
  match k.point t with
  | .idle => False
  | .missed s => s = sector
  | .loading i => (k.inode i).sector = sector

structure Inv (k : State) : Prop where
  nodup : k.openInodes.Nodup
  born : ∀ i ∈ k.openInodes, i < k.count
  one : ∀ i ∈ k.openInodes, ∀ j ∈ k.openInodes, (k.inode i).sector = (k.inode j).sector → i = j
  missed : ∀ t s, k.point t = .missed s → ∀ i ∈ k.openInodes, (k.inode i).sector ≠ s
  loading : ∀ t i, k.point t = .loading i → i < k.count
  alone : ∀ t u s, k.Opens t s → k.Opens u s → t = u
  ready : ∀ i ∈ k.openInodes, (k.inode i).loaded = true ∨ ∃ t, k.point t = .loading i
  returned : ∀ i ∈ k.returned, i < k.count ∧ (k.inode i).loaded = true
  refs : ∀ i ∈ k.refs, i ∈ k.returned

/-- The runs in which nobody searches the list for a sector while another
opener of it is past its own failed search and not done. -/
def openGuard (a : Act) (k : State) : Prop :=
  match a with
  | .search _ sector => ∀ u, ¬k.Opens u sector
  | _ => True

variable {k k' : State} {t s : Nat} {i : Ref}

theorem opens_missed (h : k.point t = .missed s) : k.Opens t s := by
  unfold Opens
  rw [h]

/-- A step that publishes nothing and starts no search. -/
theorem Inv.shrink (hi : Inv k) (hcount : k'.count = k.count)
    (hsec : ∀ j, (k'.inode j).sector = (k.inode j).sector)
    (hload : ∀ j, (k.inode j).loaded = true → (k'.inode j).loaded = true)
    (hlist : k'.openInodes.Sublist k.openInodes)
    (hpt : ∀ u, k'.point u = k.point u ∨ k'.point u = .idle)
    (hready : ∀ u j, k.point u = .loading j → k'.point u = .loading j ∨ (k'.inode j).loaded = true)
    (hret : ∀ j ∈ k'.returned, j ∈ k.returned ∨ j < k.count ∧ (k'.inode j).loaded = true)
    (hrefs : ∀ j ∈ k'.refs, j ∈ k'.returned) : Inv k' := by
  have hopens (u s : Nat) (h : k'.Opens u s) : k.Opens u s := by
    unfold Opens at h ⊢
    rcases hpt u with he | he <;> rw [he] at h
    · simpa only [hsec] using h
    · exact absurd h id
  have hold (u : Nat) (pt : Point) (h : k'.point u = pt) (hne : pt ≠ .idle) : k.point u = pt := by
    rcases hpt u with he | he
    · rw [← he, h]
    · exact absurd (h.symm.trans he) hne
  refine ⟨hi.nodup.sublist hlist, ?_, ?_, ?_, ?_, ?_, ?_, ?_, hrefs⟩
  · exact fun j hj => hcount ▸ hi.born j (hlist.subset hj)
  · intro a ha b hb h
    rw [hsec, hsec] at h
    exact hi.one a (hlist.subset ha) b (hlist.subset hb) h
  · intro u s hu j hj
    rw [hsec]
    exact hi.missed u s (hold u _ hu (by simp)) j (hlist.subset hj)
  · exact fun u j hu => hcount ▸ hi.loading u j (hold u _ hu (by simp))
  · exact fun u v s hu hv => hi.alone u v s (hopens u s hu) (hopens v s hv)
  · intro j hj
    rcases hi.ready j (hlist.subset hj) with h | ⟨u, hu⟩
    · exact .inl (hload j h)
    · exact (hready u j hu).symm.imp_right fun h => ⟨u, h⟩
  · intro j hj
    rw [hcount]
    rcases hret j hj with h | h
    · exact ⟨(hi.returned j h).1, hload j (hi.returned j h).2⟩
    · exact h

/-- A load undoes no other. -/
theorem load_loaded (j : Ref) (hj : (k.inode j).loaded = true) :
    ((k.load t i).inode j).loaded = true := by
  show (if j = i then _ else _ : Inode Bool).loaded = true
  split
  case isTrue => rfl
  case isFalse => exact hj

theorem goto_keeps (k : State) (t : Nat) (pt : Point) (u : Nat) :
    (k.goto t pt).point u = k.point u ∨ (k.goto t pt).point u = pt :=
  (ite_eq_or_eq (u = t) pt (k.point u)).symm

/-- The search found `i`, and nobody is opening its sector: it is loaded. -/
theorem Inv.found (hi : Inv k) (hfree : ∀ u, ¬k.Opens u s) (hmem : i ∈ k.openInodes)
    (hsec : (k.inode i).sector = s) : Inv ({ k with toOpenInodes := k.inodeReopen i }.give i) := by
  have hloaded : (k.inode i).loaded = true :=
    (hi.ready i hmem).resolve_right fun ⟨u, hu⟩ => hfree u (by
      unfold Opens
      rw [hu]
      exact hsec)
  have hkeep (j : Ref) : ((k.inodeReopen i).inode j).loaded = (k.inode j).loaded :=
    k.inodeReopen_same Inode.loaded (fun _ _ => rfl) i j
  refine hi.shrink rfl (k.inodeReopen_same Inode.sector (fun _ _ => rfl) i)
    (fun j => (hkeep j).trans) (List.Sublist.refl _) (fun _ => .inl rfl) (fun _ _ h => .inl h) ?_ ?_
  · intro j hj
    rcases mem_cons.mp hj with rfl | hj
    · exact .inr ⟨hi.born _ hmem, (hkeep _).trans hloaded⟩
    · exact .inl hj
  · exact cons_subset_cons i hi.refs

/-- The search found nothing, and nobody else is opening the sector. -/
theorem Inv.miss (hi : Inv k) (hfree : ∀ u, ¬k.Opens u s) (hpt : k.point t = .idle)
    (hnone : ∀ j ∈ k.openInodes, (k.inode j).sector ≠ s) : Inv (k.goto t (.missed s)) := by
  have hopens (u s' : Nat) (h : (k.goto t (.missed s)).Opens u s') :
      u = t ∧ s' = s ∨ k.Opens u s' := by
    unfold Opens goto at h
    dsimp only at h
    by_cases hu : u = t
    · rw [if_pos hu] at h
      exact .inl ⟨hu, h.symm⟩
    · rw [if_neg hu] at h
      exact .inr h
  have hpoint (u : Nat) (pt : Point) (h : (k.goto t (.missed s)).point u = pt) :
      pt = .missed s ∨ k.point u = pt :=
    (goto_keeps k t _ u).symm.imp h.symm.trans fun he => he.symm.trans h
  refine ⟨hi.nodup, hi.born, hi.one, ?_, ?_, ?_, ?_, hi.returned, hi.refs⟩
  · intro u s' hu j hj
    rcases hpoint u _ hu with h | h
    · cases h
      exact hnone j hj
    · exact hi.missed u s' h j hj
  · intro u j hu
    rcases hpoint u _ hu with h | h
    · cases h
    · exact hi.loading u j h
  · intro u v s' hu hv
    rcases hopens u s' hu with ⟨hu', hs⟩ | hu' <;> rcases hopens v s' hv with ⟨hv', hs'⟩ | hv'
    · rw [hu', hv']
    · exact absurd (hs ▸ hv') (hfree v)
    · exact absurd (hs' ▸ hu') (hfree u)
    · exact hi.alone u v s' hu' hv'
  · intro j hj
    refine (hi.ready j hj).imp_right fun ⟨u, hu⟩ => ⟨u, ?_⟩
    have : u ≠ t := fun h => by rw [h, hpt] at hu; cases hu
    exact (if_neg this).trans hu

/-- The new inode is published by the only opener of its sector. -/
theorem Inv.publish (hi : Inv k) (hpt : k.point t = .missed s) : Inv (k.alloc t s true) := by
  have hnew : (k.alloc t s true).inode k.count =
      { sector := s, openCnt := 1, removed := false, body := false } := if_pos rfl
  have hold : ∀ j, j ≠ k.count → (k.alloc t s true).inode j = k.inode j := fun j hj => if_neg hj
  have hself : (k.alloc t s true).point t = .loading k.count := if_pos rfl
  have hother : ∀ u, u ≠ t → (k.alloc t s true).point u = k.point u := fun u hu => if_neg hu
  have hne : ∀ j, j < k.count → j ≠ k.count := fun j hj => Nat.ne_of_lt hj
  have hopens (u s' : Nat) (h : (k.alloc t s true).Opens u s') : k.Opens u s' := by
    unfold Opens at h
    by_cases hu : u = t
    · rw [hu, hself] at h
      simp only [hnew] at h
      rw [hu, ← h]
      exact opens_missed hpt
    · rw [hother u hu] at h
      unfold Opens
      split at h
      case h_1 => exact absurd h id
      case h_2 s₁ he => exact h
      case h_3 j he => rwa [hold j (hne j (hi.loading u j he))] at h
  have hmem (j : Ref) (hj : j ∈ (k.alloc t s true).openInodes) :
      j = k.count ∨ j ∈ k.openInodes ∧ j ≠ k.count :=
    (mem_cons.mp hj).imp_right fun h => ⟨h, hne j (hi.born j h)⟩
  refine ⟨?_, ?_, ?_, ?_, ?_, ?_, ?_, ?_, hi.refs⟩
  · exact nodup_cons.mpr ⟨fun h => hne _ (hi.born _ h) rfl, hi.nodup⟩
  · intro j hj
    rcases hmem j hj with rfl | ⟨h, -⟩
    · exact Nat.lt_succ_self _
    · exact Nat.lt_succ_of_lt (hi.born j h)
  · intro a ha b hb h
    rcases hmem a ha with rfl | ⟨ha, hac⟩ <;> rcases hmem b hb with rfl | ⟨hb, hbc⟩
    · rfl
    · rw [hnew, hold b hbc] at h
      exact absurd h.symm (hi.missed t s hpt b hb)
    · rw [hnew, hold a hac] at h
      exact absurd h (hi.missed t s hpt a ha)
    · rw [hold a hac, hold b hbc] at h
      exact hi.one a ha b hb h
  · intro u s' hu j hj
    have hut : u ≠ t := fun h => by rw [h, hself] at hu; cases hu
    rw [hother u hut] at hu
    rcases hmem j hj with rfl | ⟨h, hjc⟩
    · rw [hnew]
      rintro rfl
      exact hut (hi.alone u t s (opens_missed hu) (opens_missed hpt))
    · rw [hold j hjc]
      exact hi.missed u s' hu j h
  · intro u j hu
    by_cases hut : u = t
    · rw [hut, hself] at hu
      cases hu
      exact Nat.lt_succ_self _
    · rw [hother u hut] at hu
      exact Nat.lt_succ_of_lt (hi.loading u j hu)
  · exact fun u v s' hu hv => hi.alone u v s' (hopens u s' hu) (hopens v s' hv)
  · intro j hj
    rcases hmem j hj with rfl | ⟨h, hjc⟩
    · exact .inr ⟨t, hself⟩
    · rw [hold j hjc]
      refine (hi.ready j h).imp_right fun ⟨u, hu⟩ => ⟨u, ?_⟩
      have hut : u ≠ t := fun h => by rw [h, hpt] at hu; cases hu
      rw [hother u hut, hu]
  · intro j hj
    obtain ⟨hlt, hl⟩ := hi.returned j hj
    rw [hold j (hne j hlt)]
    exact ⟨Nat.lt_succ_of_lt hlt, hl⟩

/-- `block_read` returned: the inode is loaded before the pointer is out. -/
theorem Inv.load (hi : Inv k) (hpt : k.point t = .loading i) : Inv (k.load t i) := by
  have hself : ((k.load t i).inode i).loaded = true := by
    show (if i = i then _ else _ : Inode Bool).loaded = true
    rw [if_pos rfl]
  refine hi.shrink rfl (k.modInode_same Inode.sector i (fun x => { x with body := true }) rfl)
    load_loaded (List.Sublist.refl _) (goto_keeps k t .idle) ?_ ?_ ?_
  · intro u j hu
    by_cases hut : u = t
    · rw [hut, hpt] at hu
      injection hu with hu
      exact .inr (hu ▸ hself)
    · exact .inl ((if_neg hut).trans hu)
  · intro j hj
    rcases mem_cons.mp hj with rfl | hj
    · exact .inr ⟨hi.loading t _ hpt, hself⟩
    · exact .inl hj
  · exact cons_subset_cons i hi.refs

theorem Inv.close (hi : Inv k) : Inv (k.close i) := by
  refine hi.shrink rfl (k.inodeClose_same Inode.sector (fun _ _ => rfl) i)
    (fun j => (k.inodeClose_same Inode.loaded (fun _ _ => rfl) i j).trans) ?_ (fun _ => .inl rfl)
    (fun _ _ h => .inl h) (fun _ h => .inl h) ?_
  · exact k.inodeClose_sublist i
  · exact fun j hj => hi.refs j (mem_of_mem_erase hj)

theorem Inv.step {k k' : State} {a : Act} (hi : Inv k)
    (hok : openGuard a k) (hs : k.step a = some k') : Inv k' := by
  cases a with
  | search t s =>
    obtain ⟨hpt, ⟨⟩⟩ := ite_none_right_eq_some.mp hs
    unfold search
    split
    case h_1 i hf => exact hi.found hok (OpenInodes.find_some hf).1 (OpenInodes.find_some hf).2
    case h_2 hf => exact hi.miss hok hpt (OpenInodes.find_none hf)
  | alloc t ok =>
    simp only [State.step] at hs
    split at hs
    case h_2 => cases hs
    case h_1 s hpt =>
      cases hs
      cases ok with
      | true => exact hi.publish hpt
      | false =>
        refine hi.shrink rfl (fun _ => rfl) (fun _ => id)
          (List.Sublist.refl _) (goto_keeps k t .idle) (fun u j hu => ?_) (fun _ h => .inl h)
          hi.refs
        have hut : u ≠ t := fun h => by rw [h, hpt] at hu; cases hu
        exact .inl ((if_neg hut).trans hu)
  | load t =>
    simp only [State.step] at hs
    split at hs
    case h_1 i hpt => exact some.inj hs ▸ hi.load hpt
    case h_2 => cases hs
  | close i =>
    simp only [State.step] at hs
    split at hs
    case isTrue => exact some.inj hs ▸ hi.close
    case isFalse => cases hs

/-- Nobody is opening anything in a state where every thread is idle. -/
theorem not_opens_of_idle (h : ∀ u, k.point u = .idle) (u s : Nat) : ¬k.Opens u s := by
  unfold Opens
  rw [h]
  exact id

theorem Start.inv (h : Start k) : Inv k := by
  refine ⟨?_, ?_, ?_, ?_, ?_, fun t u s ht => absurd ht (not_opens_of_idle h.idle t s), ?_, ?_, ?_⟩
  all_goals simp [h.empty, h.idle, h.fresh]

/-- One struct inode per sector, and every pointer given out is loaded. -/
structure Coherent (k : State) : Prop where
  nodup : k.openInodes.Nodup
  one : ∀ i ∈ k.openInodes, ∀ j ∈ k.openInodes, (k.inode i).sector = (k.inode j).sector → i = j
  loaded : ∀ i ∈ k.returned, (k.inode i).loaded = true

/-- In every run in which nobody searches for a sector that another thread
is in the middle of opening, the inode cache is coherent. -/
theorem inode_cache_coherent {k : State} (hr : Reach Start step openGuard k) : Coherent k := by
  have hi : Inv k := Reach.induct (P := Inv) (fun k h => h.inv)
    (fun a k k' _ hi hok hs => hi.step hok hs) k hr
  exact ⟨hi.nodup, hi.one, fun i h => (hi.returned i h).2⟩

/-- After `inode_init`. -/
def empty : State where
  inode _ := { sector := 0, openCnt := 0, removed := false, body := false }
  count := 0
  openInodes := []
  point _ := .idle
  refs := []
  returned := []

theorem empty_start : Start empty := ⟨rfl, fun _ => rfl, rfl, rfl⟩

/-- Two threads open sector 5 one after the other and share one inode. -/
theorem inode_cache_shared :
    ∃ k, Reach Start step openGuard k ∧ k.openInodes = [0] ∧ k.returned = [0, 0] ∧ Coherent k := by
  have h0 : Reach Start step openGuard empty := .init empty_start
  have hg1 : openGuard (.search 0 5) empty := fun u => not_opens_of_idle (fun _ => rfl) u 5
  have h1 := Reach.step (.search 0 5) h0 hg1 rfl
  have h2 := Reach.step (Act.alloc 0 true) h1 trivial rfl
  have h3 := Reach.step (Act.load 0) h2 trivial rfl
  have hg4 : openGuard (.search 1 5) _ := fun u =>
    not_opens_of_idle (k := ((empty.search 0 5).alloc 0 5 true).load 0 0) (fun v => by
        by_cases hv : v = 0
        · rw [hv]
          rfl
        · exact (if_neg hv).trans ((if_neg hv).trans (if_neg hv))) u 5
  have h4 := Reach.step (.search 1 5) h3 hg4 rfl
  exact ⟨_, h4, rfl, rfl, inode_cache_coherent h4⟩

/-- Two searches for sector 5 before either allocation: two inodes for one
sector. A search between another opener's publication and its
`block_read`: a pointer to an inode that is not loaded. -/
theorem inode_cache_races : (∃ k, Reach Start step anyStep k ∧ ∃ i ∈ k.openInodes,
      ∃ j ∈ k.openInodes, i ≠ j ∧ (k.inode i).sector = (k.inode j).sector) ∧
    ∃ k, Reach Start step anyStep k ∧ ∃ i ∈ k.returned, (k.inode i).loaded = false := by
  have h0 : Reach Start step anyStep empty := .init empty_start
  constructor
  · obtain ⟨k, hr, hm0, hm1, hs⟩ := h0.of_runAll
      [.search 0 5, .search 1 5, .alloc 0 true, .alloc 1 true]
      (fun k => 0 ∈ k.openInodes ∧ 1 ∈ k.openInodes ∧ (k.inode 0).sector = (k.inode 1).sector)
      (by decide)
    exact ⟨k, hr, 0, hm0, 1, hm1, by decide, hs⟩
  · obtain ⟨k, hr, hm, hl⟩ := h0.of_runAll [.search 0 5, .alloc 0 true, .search 1 5]
      (fun k => 0 ∈ k.returned ∧ (k.inode 0).loaded = false) (by decide)
    exact ⟨k, hr, 0, hm, hl⟩

end State

end Pintos.InodeCache
