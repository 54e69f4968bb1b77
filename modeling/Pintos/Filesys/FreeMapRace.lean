/-
`free_map_allocate (1, &s)` and `free_map_release` by any number of
threads at once.

# Grain

The passes over the bitmap and the write of the free map file are
separate steps, as nothing locks `free_map`: `bitmap_scan`, then
`bitmap_set_multiple`, then `bitmap_write`, whose outcome is arbitrary.

# Who releases

`owned` is the ghost list of sectors that somebody has and has not given
back; a thread releases a sector out of it, as `inode_close` and the
failure path of `filesys_create` do. `log` is newest first.

# The result

`Exclusive` relates two successful allocations of one sector by a
release between them. It holds in every run in which a scan's sector is
still free when its bit is set.
-/
import Pintos.Lib.Transition
import Pintos.Data.Bitmap

namespace Pintos.FreeMap

open Transition List Option

abbrev Sector := Nat

-- ==== model

inductive Point where
  | idle
  /-- `bitmap_scan` has returned. -/
  | scanned (s : Sector)
  /-- `bitmap_set_multiple` is done, `bitmap_write` is not. -/
  | flipped (s : Sector)
  /-- `bitmap_write` returned false. -/
  | writeFailed (s : Sector)
  /-- `free_map_release`, past its assertion. -/
  | releasing (s : Sector)
  /-- `free_map_release`, in `bitmap_write`. -/
  | syncing
  deriving DecidableEq, Repr

/-- The sector a thread has taken out of the map or out of `owned`. -/
def Point.busy : Point → Option Sector
  | .flipped s | .writeFailed s | .releasing s => some s
  | .idle | .scanned _ | .syncing => none

/-- The sector a scan has found. -/
def Point.found : Point → Option Sector
  | .scanned s => some s
  | .idle | .flipped _ | .writeFailed _ | .releasing _ | .syncing => none

inductive Event where
  | allocated (t : Nat) (s : Sector)
  | refused (t : Nat)
  | released (t : Nat) (s : Sector)
  deriving DecidableEq, Repr

structure State where
  map : Bitmap
  fileOpen : Bool
  point : Nat → Point
  owned : List Sector
  log : List Event

inductive Act where
  | scan (t : Nat)
  | flip (t : Nat)
  | write (t : Nat) (ok : Bool)
  | undo (t : Nat)
  | release (t : Nat) (s : Sector)
  | clear (t : Nat)
  | sync (t : Nat)

namespace State

def goto (k : State) (t : Nat) (pt : Point) : State :=
  { k with point := fun u => if u = t then pt else k.point u }

/-- `free_map_allocate` returns true. -/
def succeed (t : Nat) (s : Sector) (k : State) : State :=
  { k with
    point := fun u => if u = t then .idle else k.point u
    owned := s :: k.owned, log := .allocated t s :: k.log }

/-- `free_map_allocate` returns false. -/
def refuse (t : Nat) (k : State) : State :=
  { k with
    point := fun u => if u = t then .idle else k.point u
    log := .refused t :: k.log }

def scan (t : Nat) (k : State) : State :=
  match k.map.scan 0 1 false with
  | none => k.refuse t
  | some s => k.goto t (.scanned s)

/-- `bitmap_set_multiple` of the allocation. Without an open free map
file there is nothing left to do. -/
def flip (t : Nat) (s : Sector) (k : State) : State :=
  let k' := { k with map := k.map.setMultiple s 1 true }
  if k.fileOpen then k'.goto t (.flipped s) else k'.succeed t s

def undo (t : Nat) (s : Sector) (k : State) : State :=
  { k with map := k.map.setMultiple s 1 false }.refuse t

/-- Entry of `free_map_release`; its assertion is the guard. -/
def release (t : Nat) (s : Sector) (k : State) : Option State :=
  if s ∈ k.owned ∧ k.map.all s 1 = true then
    some ({ k with owned := k.owned.erase s }.goto t (.releasing s))
  else none

def clear (t : Nat) (s : Sector) (k : State) : State :=
  { k with map := k.map.setMultiple s 1 false,
           log := .released t s :: k.log }.goto t .syncing

def step (a : Act) (k : State) : Option State :=
  match a with
  | .scan t => if k.point t = .idle then some (k.scan t) else none
  | .flip t =>
    match k.point t with
    | .scanned s => some (k.flip t s)
    | _ => none
  | .write t ok =>
    match k.point t with
    | .flipped s => some (if ok then k.succeed t s else k.goto t (.writeFailed s))
    | _ => none
  | .undo t =>
    match k.point t with
    | .writeFailed s => some (k.undo t s)
    | _ => none
  | .release t s => if k.point t = .idle then k.release t s else none
  | .clear t =>
    match k.point t with
    | .releasing s => some (k.clear t s)
    | _ => none
  | .sync t =>
    if k.point t = .syncing then some (k.goto t .idle) else none

/-- Nobody in the free map, and the owned sectors are the used ones. -/
structure Start (k : State) : Prop where
  idle : ∀ t, k.point t = .idle
  nodup : k.owned.Nodup
  used : ∀ s, k.map.test s = true ↔ s ∈ k.owned
  fresh : k.log = []

-- ==== the history

/-- Two allocations of one sector have a release of it between them. -/
def Exclusive (log : List Event) : Prop :=
  ∀ s t u newer mid older,
    log = newer ++ .allocated t s :: (mid ++ .allocated u s :: older) → ∃ v, .released v s ∈ mid

/-- `s` was allocated and not released since. -/
def Unreleased (s : Sector) (log : List Event) : Prop :=
  ∃ u newer older, log = newer ++ .allocated u s :: older ∧ ∀ v, .released v s ∉ newer

variable {e : Event} {log : List Event} {k : State}

theorem Exclusive.cons (h : Exclusive log) (he : ∀ t s, e = .allocated t s → ¬Unreleased s log) :
    Exclusive (e :: log) := by
  intro s t u newer mid older heq
  cases newer with
  | nil =>
    injection heq with h1 h2
    by_contra hno
    exact he t s h1 ⟨u, mid, older, h2, fun v hv => hno ⟨v, hv⟩⟩
  | cons x rest =>
    injection heq with _ h2
    exact h s t u rest mid older h2

/-- What one more event does to the unreleased sectors. -/
theorem Unreleased.of_cons {s : Sector} (h : Unreleased s (e :: log)) : (∃ t, e = .allocated t s) ∨
    (Unreleased s log ∧ ∀ v, e ≠ .released v s) := by
  obtain ⟨u, newer, older, heq, hno⟩ := h
  cases newer with
  | nil =>
    injection heq with h1 _
    exact .inl ⟨u, h1⟩
  | cons x rest =>
    injection heq with h1 h2
    refine .inr ⟨⟨u, rest, older, h2, fun v hv => hno v (mem_cons_of_mem _ hv)⟩, fun v hv => ?_⟩
    exact hno v (by rw [← h1, hv]; exact mem_cons_self ..)

-- ==== the invariant

/-- A set bit has one holder: an owner, or a thread on its way. -/
structure Inv (k : State) : Prop where
  nodup : k.owned.Nodup
  used : ∀ s, k.map.test s = true ↔ s ∈ k.owned ∨ ∃ t, (k.point t).busy = some s
  apart : ∀ t s, (k.point t).busy = some s → s ∉ k.owned ∧ ∀ u, (k.point u).busy = some s → u = t
  unreleased : ∀ s, Unreleased s k.log → s ∈ k.owned ∨ ∃ t, k.point t = .releasing s
  exclusive : Exclusive k.log

section Steps

variable {k k' : State} {t : Nat} {s : Sector}

variable (hi : Inv k)

include hi

/-- The thread is not busy with `s` after the step, and no other was. -/
theorem Inv.quiet (hmap : k'.map = k.map) (howned : k'.owned = k.owned)
    (hbusy : ∀ u, (k'.point u).busy = (k.point u).busy)
    (hrel : ∀ u s, k.point u = .releasing s → k'.point u = .releasing s)
    (hlog : k'.log = k.log ∨ ∃ v, k'.log = .refused v :: k.log) : Inv k' := by
  refine ⟨howned ▸ hi.nodup, ?_, ?_, ?_, ?_⟩
  · intro s
    simp only [hmap, howned, hbusy]
    exact hi.used s
  · intro u s
    simp only [howned, hbusy]
    exact hi.apart u s
  · intro s hs
    have hold : Unreleased s k.log := by
      rcases hlog with h | ⟨v, h⟩ <;> rw [h] at hs
      · exact hs
      · rcases hs.of_cons with ⟨u, h'⟩ | h'
        · cases h'
        · exact h'.1
    rw [howned]
    exact (hi.unreleased s hold).imp_right fun ⟨u, hu⟩ => ⟨u, hrel u s hu⟩
  · rcases hlog with h | ⟨v, h⟩ <;> rw [h]
    · exact hi.exclusive
    · exact hi.exclusive.cons nofun

/-- A free sector has no holder. -/
theorem Inv.free (hfree : k.map.test s = false) : s ∉ k.owned ∧ ∀ u, (k.point u).busy ≠ some s := by
  have := hi.used s
  rw [hfree] at this
  simpa using this

/-- A busy sector is allocated to nobody, unless it is being released. -/
theorem Inv.not_unreleased (hpt : k.point t = .flipped s ∨ k.point t = .writeFailed s) :
    ¬Unreleased s k.log := by
  have hbusy : (k.point t).busy = some s := by rcases hpt with h | h <;> rw [h] <;> rfl
  obtain ⟨hno, hone⟩ := hi.apart t s hbusy
  intro hs
  rcases hi.unreleased s hs with h | ⟨u, hu⟩
  · exact hno h
  · have := hone u (hu ▸ rfl)
    subst this
    rcases hpt with h | h <;> rw [h] at hu <;> cases hu

/-- `free_map_allocate` returns its sector. -/
theorem Inv.succeed (hpt : k.point t = .flipped s) : Inv (k.succeed t s) := by
  have hbusy : (k.point t).busy = some s := hpt ▸ rfl
  obtain ⟨hno, hone⟩ := hi.apart t s hbusy
  refine ⟨nodup_cons.mpr ⟨hno, hi.nodup⟩, ?_, ?_, ?_, ?_⟩
  · intro j
    have := hi.used j
    simp only [State.succeed]
    grind [Point.busy]
  · intro u j
    have := hi.apart u j
    simp only [State.succeed]
    grind [Point.busy]
  · intro j hj
    have := hi.unreleased j
    have := hj.of_cons
    simp only [State.succeed]
    grind
  · refine hi.exclusive.cons fun u j h => ?_
    injection h with _ hj
    exact hj ▸ hi.not_unreleased (.inl hpt)

/-- `bitmap_set_multiple` on a sector that is still free. -/
theorem Inv.flip (hpt : k.point t = .scanned s)
    (hfree : k.map.test s = false) : Inv (k.flip t s) := by
  obtain ⟨hno, hbusy⟩ := hi.free hfree
  have hset : Inv ({ k with map := k.map.setMultiple s 1 true }.goto t (.flipped s)) := by
    refine ⟨hi.nodup, ?_, ?_, ?_, hi.exclusive⟩
    · intro j
      have := hi.used j
      simp only [goto, Bitmap.test_setMultiple_one]
      grind [Point.busy]
    · intro u j
      have := hi.apart u j
      simp only [goto]
      grind [Point.busy]
    · intro j hj
      have := hi.unreleased j hj
      simp only [goto]
      grind
  unfold State.flip
  split
  case isTrue => exact hset
  case isFalse =>
    -- as if the write had gone well
    convert hset.succeed (t := t) (if_pos rfl) using 1
    unfold State.succeed goto
    grind

/-- The bit of a failed allocation goes back. -/
theorem Inv.undo (hpt : k.point t = .writeFailed s) : Inv (k.undo t s) := by
  have hbusy : (k.point t).busy = some s := hpt ▸ rfl
  obtain ⟨hno, hone⟩ := hi.apart t s hbusy
  refine ⟨hi.nodup, ?_, ?_, ?_, hi.exclusive.cons nofun⟩
  · intro j
    have := hi.used j
    simp only [State.undo, refuse, Bitmap.test_setMultiple_one]
    grind [Point.busy]
  · intro u j
    have := hi.apart u j
    simp only [State.undo, refuse]
    grind [Point.busy]
  · intro j hj
    have := hi.unreleased j
    have := hj.of_cons
    simp only [State.undo, refuse]
    grind

theorem Inv.release (hpt : k.point t = .idle) (hs : k.release t s = some k') : Inv k' := by
  obtain ⟨hguard, ⟨⟩⟩ := ite_none_right_eq_some.mp hs
  have hmem := hguard.1
  have herase : ∀ j, j ∈ k.owned.erase s ↔ j ≠ s ∧ j ∈ k.owned := fun j => hi.nodup.mem_erase_iff
  have hfree : ∀ u, (k.point u).busy ≠ some s := fun u hu => (hi.apart u s hu).1 hmem
  refine ⟨hi.nodup.erase s, ?_, ?_, ?_, hi.exclusive⟩
  · intro j
    have := hi.used j
    simp only [goto, herase]
    grind [Point.busy]
  · intro u j
    have := hi.apart u j
    simp only [goto, herase]
    grind [Point.busy]
  · intro j hj
    have := hi.unreleased j hj
    simp only [goto, herase]
    grind

/-- `free_map_release` clears the bit. -/
theorem Inv.clear (hpt : k.point t = .releasing s) : Inv (k.clear t s) := by
  have hbusy : (k.point t).busy = some s := hpt ▸ rfl
  obtain ⟨hno, hone⟩ := hi.apart t s hbusy
  refine ⟨hi.nodup, ?_, ?_, ?_, hi.exclusive.cons nofun⟩
  · intro j
    have := hi.used j
    simp only [State.clear, goto, Bitmap.test_setMultiple_one]
    grind [Point.busy]
  · intro u j
    have := hi.apart u j
    simp only [State.clear, goto]
    grind [Point.busy]
  · intro j hj
    rcases hj.of_cons with ⟨u, h⟩ | ⟨hold, hne⟩
    · cases h
    · have hjs : j ≠ s := by
        rintro rfl
        exact hne t rfl
      have := hi.unreleased j hold
      simp only [State.clear, goto]
      grind

end Steps

/-- The runs in which the sector a scan found is still free when its bit
is set. -/
def freshGuard (a : Act) (k : State) : Prop :=
  match a with
  | .flip t => ∀ s ∈ (k.point t).found, k.map.test s = false
  | _ => True

theorem Inv.step {k' : State} {a : Act} (hi : Inv k)
    (hok : freshGuard a k) (hs : k.step a = some k') : Inv k' := by
  have hmove t pt (hb : (k.point t).busy = pt.busy) (hr : (∀ s, k.point t ≠ .releasing s)) :
      Inv (k.goto t pt) := by
    refine hi.quiet rfl rfl (fun u => ?_) (fun u s hu => ?_) (.inl rfl) <;>
      simp only [goto] <;> grind
  cases a with
  | scan t =>
    obtain ⟨hpt, ⟨⟩⟩ := ite_none_right_eq_some.mp hs
    unfold scan
    split
    · refine hi.quiet rfl rfl (fun u => ?_) (fun u s hu => ?_)
        (.inr ⟨t, rfl⟩) <;> simp only [refuse] <;> grind
    · exact hmove t _ (hpt ▸ rfl) (by rw [hpt]; simp)
  | flip t =>
    simp only [State.step] at hs
    split at hs
    case h_1 s hpt => exact some.inj hs ▸ hi.flip hpt (hok s (hpt ▸ rfl))
    case h_2 => cases hs
  | write t ok =>
    simp only [State.step] at hs
    split at hs
    case h_2 => cases hs
    case h_1 s hpt =>
      cases hs
      split
      · exact hi.succeed hpt
      · exact hmove t _ (hpt ▸ rfl) (by rw [hpt]; simp)
  | undo t =>
    simp only [State.step] at hs
    split at hs
    case h_1 s hpt => exact some.inj hs ▸ hi.undo hpt
    case h_2 => cases hs
  | release t s =>
    simp only [State.step] at hs
    split at hs
    case isTrue hpt => exact hi.release hpt hs
    case isFalse => cases hs
  | clear t =>
    simp only [State.step] at hs
    split at hs
    case h_1 s hpt => exact some.inj hs ▸ hi.clear hpt
    case h_2 => cases hs
  | sync t =>
    obtain ⟨hpt, hs⟩ := ite_none_right_eq_some.mp hs
    exact some.inj hs ▸ hmove t _ (hpt ▸ rfl) (by rw [hpt]; simp)

theorem Start.inv (h : Start k) : Inv k := by
  have hbusy : ∀ t, (k.point t).busy = none := fun t => by rw [h.idle]; rfl
  refine ⟨h.nodup, ?_, ?_, ?_, ?_⟩
  · intro s
    simp [h.used, hbusy]
  · intro t s hs
    simp [hbusy] at hs
  · rintro s ⟨u, newer, older, heq, -⟩
    rw [h.fresh] at heq
    simp at heq
  · intro s t u newer mid older heq
    rw [h.fresh] at heq
    simp at heq

/-- In every run in which a scan's sector is still free when its bit is
set, two allocations of one sector have a release of it between them. -/
theorem allocation_exclusive {k : State} (hr : Reach Start step freshGuard k) :
    Exclusive k.log := by
  refine (Reach.induct (P := Inv) (fun k h => h.inv) ?_ k hr).exclusive
  exact fun a k k' _ hi hok hs => hi.step hok hs

instance (a : Act) (k : State) : Decidable (freshGuard a k) :=
  match a with
  | .flip t => inferInstanceAs (Decidable (∀ s ∈ (k.point t).found, k.map.test s = false))
  | .scan _ | .write _ _ | .undo _ | .release _ _ | .clear _ | .sync _ => .isTrue trivial

/-- A disk of 64 sectors with the two system sectors in use. -/
def formatted : State where
  map := { bitCnt := 64, bits := fun e => if e = 0 then 3#32 else 0#32 }
  fileOpen := true
  point _ := .idle
  owned := [0, 1]
  log := []

theorem formatted_start : Start formatted := by
  refine ⟨fun _ => rfl, by decide, fun s => ?_, rfl⟩
  rw [Bitmap.test_eq]
  by_cases he : Bitmap.elemIdx s = 0
  · have hlt : s < 32 := by
      unfold Bitmap.elemIdx at he
      omega
    clear he
    revert s
    decide
  · have hge : 32 ≤ s := by
      unfold Bitmap.elemIdx at he
      omega
    simp only [formatted, if_neg he, BitVec.getLsbD_zero, Bool.false_eq_true, false_iff]
    simp
    omega

/-- Sector 2 allocated, released and allocated again. -/
theorem allocation_exclusive_reused :
    ∃ k, Reach Start step freshGuard k ∧
      k.log = [.allocated 1 2, .released 0 2, .allocated 0 2] ∧
      Exclusive k.log := by
  have h0 : Reach Start step freshGuard formatted := .init formatted_start
  obtain ⟨k, hr, hk⟩ := h0.of_runAll
    [.scan 0, .flip 0, .write 0 true, .release 0 2, .clear 0, .scan 1, .flip 1, .write 1 true]
    (fun k => k.log = [.allocated 1 2, .released 0 2, .allocated 0 2]) (by decide)
  exact ⟨k, hr, hk, allocation_exclusive hr⟩

/-- No sector is lost on these runs: a bit is set exactly if its sector is
owned or in the hands of a thread, of one thread and not owned then. -/
theorem sectors_accounted {k : State} (hr : Reach Start step freshGuard k) (s : Sector) :
    (k.map.test s = true ↔ s ∈ k.owned ∨ ∃ t, (k.point t).busy = some s) ∧
      ∀ t, (k.point t).busy = some s → s ∉ k.owned ∧ ∀ u, (k.point u).busy = some s → u = t := by
  have hi : Inv k := Reach.induct (P := Inv) (fun k h => h.inv)
    (fun a k k' _ hi hok hs => hi.step hok hs) k hr
  exact ⟨hi.used s, fun t => hi.apart t s⟩

theorem sectors_accounted_released : ∃ k, Reach Start step freshGuard k ∧
    k.point 0 = .releasing 2 ∧ k.map.test 2 = true ∧ 2 ∉ k.owned := by
  have h0 : Reach Start step freshGuard formatted := .init formatted_start
  obtain ⟨k, hr, hk⟩ := h0.of_runAll [.scan 0, .flip 0, .write 0 true, .release 0 2]
    (fun k => k.point 0 = .releasing 2) (by decide)
  have hbusy : (k.point 0).busy = some 2 := hk ▸ rfl
  obtain ⟨hset, hone⟩ := sectors_accounted hr 2
  exact ⟨k, hr, hk, hset.mpr (.inr ⟨0, hbusy⟩), (hone 0 hbusy).1⟩

/-- Two threads scan before either sets its bit, and both get sector 2. -/
theorem allocation_race :
    ∃ k, Reach Start step anyStep k ∧
      k.log = [.allocated 1 2, .allocated 0 2] ∧ ¬Exclusive k.log := by
  have h0 : Reach Start step anyStep formatted := .init formatted_start
  obtain ⟨k, hr, hlog⟩ := h0.of_runAll [.scan 0, .scan 1, .flip 0, .flip 1, .write 0 true,
    .write 1 true] (fun k => k.log = [.allocated 1 2, .allocated 0 2]) (by decide)
  refine ⟨k, hr, hlog, fun hex => ?_⟩
  obtain ⟨v, hv⟩ := hex 2 1 0 [] [] [] hlog
  cases hv

end State

end Pintos.FreeMap
