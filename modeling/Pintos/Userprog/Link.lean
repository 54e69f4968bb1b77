/-
One child and its creator: the relation the wait/exit protocol keeps
between the two.

# The token

A child's `exit_mutex` is a token that its creator hands over exactly
once. `Link` relates, for one child, what its creator still holds of it
(membership in `child_list`, the `Stage` of the creator's code) with the
child's own record and the number of raises of `exit_mutex` so far.
Nothing in it speaks about a third thread.

# The lemmas

- `Link.congr` is the frame rule: a link does not see the moves of the
  child inside one phase.
- One lemma for every move of the child (`early`, `fail`, `notify`,
  `down`) and for every move of the creator on it.
-/
import Pintos.Userprog.Process

namespace Pintos.Process

-- ==== the phases

/-- The coarse life of a thread, as its creator sees it. -/
inductive Phase where
  | loading
  | live
  | exiting
  | notified
  | gone
  deriving DecidableEq, Repr

def Point.phase : Point → Phase
  | .unborn | .running | .creating | .onChild _ _ | .loadReported => .live
  | .loading | .loadFailed => .loading
  | .exitKids | .exitNotify => .exiting
  | .exitWait => .notified
  | .dying | .freed => .gone

/-- Past its `sema_up (&wait_mutex)`. -/
def Phase.past (ph : Phase) : Prop := ph = .notified ∨ ph = .gone

instance (ph : Phase) : Decidable ph.past := inferInstanceAs (Decidable (_ ∨ _))

/-- What the code at a point is doing with `c`. -/
def Point.stage (pt : Point) (c : ThreadId) : Option Stage :=
  match pt with
  | .onChild d st => if d = c then some st else none
  | _ => none

/-- The stages at which `c` stands in `child_list`. -/
def Stage.listed : Stage → Bool
  | .created | .createReturn => false
  | .loadWait | .loaded | .waitDown _ | .waitRead _ | .waitReap _ _ => true

/-- The stages of `process_wait (pid)`. -/
def Stage.waitsFor : Stage → Option Int
  | .waitDown pid | .waitRead pid | .waitReap pid _ => some pid
  | _ => none

/-- What the creator of `c` holds of it against the record `y` of `c`;
`n` counts the raises of the `exit_mutex` of `c`. -/
structure Link (c : ThreadId) (listed : Prop) (st : Option Stage) (y : Proc) (n : Nat) : Prop where
  mutex : y.exitMutex + (if y.point.phase = .gone then 1 else 0) = n
  once : n ≤ 1
  held : listed ∨ st ≠ none → n = 0
  exec : listed → y.byExec = true
  created : st = some .created → ¬listed
  mem : ∀ g, st = some g → g.listed = true → listed
  loading : y.point.phase = .loading → y.loadMutex = 0 ∧ (st = some .created ∨ st = some .loadWait)
  starts : y.point.phase = .loading → y.byExec = true
  tid : y.tid = tidError ∨ y.tid = (c : Int) + 1
  failed : listed → y.tid = tidError → st = some .loadWait ∨ st = some .loaded
  kept : y.byExec = true → y.tid ≠ tidError → st ≠ some .created → listed ∨ n = 1
  notified : 0 < y.waitMutex → y.point.phase.past
  fresh : y.waitedOnce = false → y.point.phase.past → 0 < y.waitMutex
  wakes : ∀ pid, st = some (.waitDown pid) → y.point.phase.past → 0 < y.waitMutex
  waits : ∀ g pid, st = some g → g.waitsFor = some pid →
    y.waitedOnce = true ∧ y.tid = pid ∧ pid ≠ tidError
  waited : y.waitedOnce = true → n = 1 ∨ ∃ g pid, st = some g ∧ g.waitsFor = some pid
  read : ∀ pid, st = some (.waitRead pid) → y.point.phase.past
  result : ∀ pid r, st = some (.waitReap pid r) → y.point.phase.past ∧ r = y.exitStatus

/-- A link sees of the child its phase and its protocol fields only. -/
theorem Link.congr {c : ThreadId} {listed : Prop} {st : Option Stage} {y y' : Proc} {n : Nat}
    (h : Link c listed st y n) (hphase : y'.point.phase = y.point.phase) (htid : y'.tid = y.tid)
    (hwaited : y'.waitedOnce = y.waitedOnce) (hload : y'.loadMutex = y.loadMutex)
    (hwait : y'.waitMutex = y.waitMutex) (hexit : y'.exitMutex = y.exitMutex)
    (hstatus : y'.exitStatus = y.exitStatus) (hexec : y'.byExec = y.byExec) : Link c listed st y' n
    := by
  constructor
  · rw [hphase, hexit]; exact h.mutex
  · exact h.once
  · exact h.held
  · rw [hexec]; exact h.exec
  · exact h.created
  · exact h.mem
  · rw [hphase, hload]; exact h.loading
  · rw [hphase, hexec]; exact h.starts
  · rw [htid]; exact h.tid
  · rw [htid]; exact h.failed
  · rw [hexec, htid]; exact h.kept
  · rw [hwait, hphase]; exact h.notified
  · rw [hwaited, hwait, hphase]; exact h.fresh
  · rw [hwait, hphase]; exact h.wakes
  · rw [hwaited, htid]; exact h.waits
  · rw [hwaited]; exact h.waited
  · rw [hphase]; exact h.read
  · rw [hphase, hstatus]; exact h.result

-- ==== moves of the child itself

section ChildMoves

variable {c : ThreadId} {listed : Prop} {st : Option Stage} {y : Proc} {n : Nat}

variable (h : Link c listed st y n)

include h

theorem Link.not_gone (hg : y.point.phase ≠ .gone) : y.exitMutex = n := by
  have := h.mutex
  rwa [if_neg hg] at this

/-- A move of a child that has not notified its creator and does not do so
now; its load may end, never begin. -/
theorem Link.early {y' : Proc} (hold : ¬y.point.phase.past) (hnew : ¬y'.point.phase.past)
    (hload : y'.point.phase = .loading → y.point.phase = .loading ∧ y'.loadMutex = y.loadMutex)
    (htid : y'.tid = y.tid) (hwaited : y'.waitedOnce = y.waitedOnce)
    (hwait : y'.waitMutex = y.waitMutex) (hexit : y'.exitMutex = y.exitMutex)
    (hexec : y'.byExec = y.byExec) : Link c listed st y' n := by
  have hg : ∀ {z : Proc}, ¬z.point.phase.past → z.point.phase ≠ .gone := fun hz he => hz (.inr he)
  exact { h with
    mutex := by rw [if_neg (hg hnew), hexit]; exact h.not_gone (hg hold)
    exec := hexec ▸ h.exec
    loading := fun hl => by
      rw [(hload hl).2]
      exact h.loading (hload hl).1
    starts := fun hl => by rw [hexec]; exact h.starts (hload hl).1
    tid := htid ▸ h.tid
    failed := htid ▸ h.failed
    kept := by rw [hexec, htid]; exact h.kept
    notified := fun h0 => absurd (h.notified (hwait ▸ h0)) hold
    fresh := fun _ hx => absurd hx hnew
    wakes := fun _ _ hx => absurd hx hnew
    waits := by rw [hwaited, htid]; exact h.waits
    waited := by rw [hwaited]; exact h.waited
    read := fun pid hr => absurd (h.read pid hr) hold
    result := fun pid r hr => absurd (h.result pid r hr).1 hold }

/-- A failed load overwrites the `tid`: the creator is still in
`thread_create`, in front of the test that looks at it. -/
theorem Link.fail (hl : y.point.phase = .loading) :
    Link c listed st { y with tid := tidError } n := by
  have hst := (h.loading hl).2
  exact { h with
    tid := .inl rfl
    failed := fun hli _ => by
      rcases hst with hst | hst
      · exact absurd hli (h.created hst)
      · exact .inl hst
    kept := fun _ hne => absurd rfl hne
    waits := fun g pid hg hw => by
      rcases hst with hst | hst <;> rw [hst] at hg <;> cases hg <;> cases hw }

/-- `sema_up (&wait_mutex)` in `thread_exit`. -/
theorem Link.notify (hp : y.point.phase = .exiting) :
    Link c listed st { y with waitMutex := y.waitMutex + 1, point := .exitWait } n := by
  have hpast : ¬y.point.phase.past := by rw [hp]; unfold Phase.past; simp
  exact { h with
    mutex := h.not_gone (by rw [hp]; simp)
    loading := nofun
    starts := nofun
    notified := fun _ => .inl rfl
    fresh := fun _ _ => Nat.succ_pos _
    wakes := fun _ _ _ => Nat.succ_pos _
    read := fun _ _ => .inl rfl
    result := fun pid r hr => absurd (h.result pid r hr).1 hpast }

/-- `sema_down (&exit_mutex)` in `thread_exit`. -/
theorem Link.down (hp : y.point.phase = .notified) (hpos : 0 < y.exitMutex) :
    Link c listed st { y with exitMutex := y.exitMutex - 1, point := .dying } n := by
  have hpast : y.point.phase.past := .inl hp
  have hn := h.not_gone (by rw [hp]; simp)
  exact { h with
    mutex := by
      show y.exitMutex - 1 + 1 = n
      omega
    loading := nofun
    starts := nofun
    notified := fun _ => .inr rfl
    fresh := fun hw _ => h.fresh hw hpast
    wakes := fun pid hs _ => h.wakes pid hs hpast
    read := fun _ _ => .inr rfl
    result := fun pid r hr => ⟨.inr rfl, (h.result pid r hr).2⟩ }

end ChildMoves

-- ==== moves of the creator on it

variable {c : ThreadId} {listed listed' : Prop} {st : Option Stage} {y : Proc} {n : Nat}

/-- The link of a thread just created. -/
theorem Link.born {p : ThreadId} (exec : Bool) (hl : ¬listed) :
    Link c listed (some .created)
      { tid := (c : Int) + 1
        point := if exec then .loading else .running
        childList := [], callingExec := false, waitedOnce := false
        loadMutex := 0, waitMutex := 0, exitMutex := 0, exitStatus := 0
        creator := p, byExec := exec } 0 where
  mutex := by cases exec <;> rfl
  once := Nat.zero_le 1
  held := fun _ => rfl
  exec := fun h => absurd h hl
  created := fun _ => hl
  mem := nofun
  loading := fun _ => ⟨rfl, .inl rfl⟩
  starts := fun hl => by cases exec <;> [cases hl; rfl]
  tid := .inr rfl
  failed := fun h => absurd h hl
  kept := fun _ _ hne => absurd rfl hne
  notified := fun h => absurd h (Nat.lt_irrefl 0)
  fresh := fun _ hx => by cases exec <;> rcases hx with hx | hx <;> cases hx
  wakes := nofun
  waits := nofun
  waited := nofun
  read := nofun
  result := nofun

/-- A child is marked as waited for only once `process_wait` has it. -/
theorem Link.unwaited {g : Stage} (h : Link c listed (some g) y n) (hg : g.waitsFor = none) :
    ¬y.waitedOnce = true := by
  intro hw
  rcases h.waited hw with hn | ⟨g', pid, ⟨⟩, hpid⟩
  · have := h.held (.inr (by simp))
    omega
  · rw [hg] at hpid
    cases hpid

/-- Of a listed child that its creator is not waiting for, nobody has. -/
theorem Link.unwaited_of_listed (h : Link c listed none y n) (hl : listed) :
    y.waitedOnce = false := by
  by_contra hw
  rcases h.waited (Bool.of_not_eq_false hw) with hn | ⟨g, pid, ⟨⟩, -⟩
  have := h.held (.inl hl)
  omega

/-- `list_push_back`. -/
theorem Link.push (h : Link c listed (some .created) y n) (hexec : y.byExec = true) (hl : listed') :
    Link c listed' (some .loadWait) y n :=
  { h with
    held := fun _ => h.held (.inr (by simp))
    exec := fun _ => hexec
    created := nofun
    mem := fun _ _ _ => hl
    loading := fun hp => ⟨(h.loading hp).1, .inr rfl⟩
    failed := fun _ _ => .inl rfl
    kept := fun _ _ _ => .inl hl
    wakes := nofun
    waits := nofun
    waited := fun hw => absurd hw (h.unwaited rfl)
    read := nofun
    result := nofun }

/-- `thread_create` by the kernel goes straight to its return. -/
theorem Link.skip (h : Link c listed (some .created) y n) (hexec : y.byExec = false) :
    Link c listed (some .createReturn) y n :=
  { h with
    held := fun _ => h.held (.inr (by simp))
    created := nofun
    mem := nofun
    loading := fun hp => by
      have := h.starts hp
      simp [hexec] at this
    failed := fun hl => absurd hl (h.created rfl)
    kept := fun he => by rw [hexec] at he; cases he
    wakes := nofun
    waits := nofun
    waited := fun hw => absurd hw (h.unwaited rfl)
    read := nofun
    result := nofun }

/-- `sema_down (&t->load_mutex)`: the load is over. -/
theorem Link.loadDown (h : Link c listed (some .loadWait) y n) (hpos : 0 < y.loadMutex) :
    Link c listed (some .loaded) { y with loadMutex := y.loadMutex - 1 } n :=
  { h with
    held := fun _ => h.held (.inr (by simp))
    created := nofun
    mem := fun _ _ _ => h.mem _ rfl rfl
    loading := fun hp => by
      have := (h.loading hp).1
      omega
    failed := fun _ _ => .inr rfl
    kept := fun he ht _ => h.kept he ht (by simp)
    wakes := nofun
    waits := nofun
    waited := fun hw => absurd hw (h.unwaited rfl)
    read := nofun
    result := nofun }

/-- The test of the `tid` after the load: out of the list exactly when the
load failed. -/
theorem Link.checkLoad (h : Link c listed (some .loaded) y n)
    (hl : listed' ↔ listed ∧ y.tid ≠ tidError) : Link c listed' (some .createReturn) y n :=
  { h with
    held := fun _ => h.held (.inr (by simp))
    exec := fun hx => h.exec (hl.mp hx).1
    created := nofun
    mem := nofun
    loading := fun hp => by rcases (h.loading hp).2 with hs | hs <;> cases hs
    failed := fun hx ht => absurd ht (hl.mp hx).2
    kept := fun _ ht _ => .inl (hl.mpr ⟨h.mem _ rfl rfl, ht⟩)
    wakes := nofun
    waits := nofun
    waited := fun hw => absurd hw (h.unwaited rfl)
    read := nofun
    result := nofun }

/-- `thread_create` returns. -/
theorem Link.createReturn (h : Link c listed (some .createReturn) y n) : Link c listed none y n :=
  { h with
    held := fun _ => h.held (.inr (by simp))
    created := nofun
    mem := nofun
    loading := fun hp => by rcases (h.loading hp).2 with hs | hs <;> cases hs
    failed := fun hx ht => by rcases h.failed hx ht with hs | hs <;> cases hs
    kept := fun he ht _ => h.kept he ht (by simp)
    wakes := nofun
    waits := nofun
    waited := fun hw => absurd hw (h.unwaited rfl)
    read := nofun
    result := nofun }

/-- `process_wait` found the child, not waited for before. -/
theorem Link.wait (h : Link c listed none y n) (hl : listed) (hfresh : y.waitedOnce = false) :
    Link c listed (some (.waitDown y.tid)) { y with waitedOnce := true } n :=
  { h with
    held := fun _ => h.held (.inl hl)
    created := nofun
    mem := fun _ _ _ => hl
    loading := fun hp => by rcases (h.loading hp).2 with hs | hs <;> cases hs
    failed := fun hx ht => by rcases h.failed hx ht with hs | hs <;> cases hs
    kept := fun _ _ _ => .inl hl
    fresh := nofun
    wakes := fun _ _ hx => h.fresh hfresh hx
    waits := fun g pid hg hw => by
      cases hg
      cases hw
      refine ⟨rfl, rfl, fun ht => ?_⟩
      rcases h.failed hl ht with hs | hs <;> cases hs
    waited := fun _ => .inr ⟨_, _, rfl, rfl⟩
    read := nofun
    result := nofun }

/-- `sema_down (&child->wait_mutex)`. -/
theorem Link.waitDown {pid : Int} (h : Link c listed (some (.waitDown pid)) y n)
    (hpos : 0 < y.waitMutex) :
    Link c listed (some (.waitRead pid)) { y with waitMutex := y.waitMutex - 1 } n :=
  { h with
    held := fun _ => h.held (.inr (by simp))
    created := nofun
    mem := fun _ _ _ => h.mem _ rfl rfl
    loading := fun hp => by rcases (h.loading hp).2 with hs | hs <;> cases hs
    failed := fun hx ht => by rcases h.failed hx ht with hs | hs <;> cases hs
    kept := fun he ht _ => h.kept he ht (by simp)
    notified := fun _ => h.notified hpos
    fresh := fun hf => by simp [show y.waitedOnce = true from (h.waits _ pid rfl rfl).1] at hf
    wakes := nofun
    waits := fun g q hg hw => by
      cases hg
      exact h.waits _ q rfl hw
    waited := fun _ => .inr ⟨_, _, rfl, rfl⟩
    read := fun _ _ => h.notified hpos
    result := nofun }

/-- The read of `exit_status`. -/
theorem Link.waitRead {pid : Int} (h : Link c listed (some (.waitRead pid)) y n) :
    Link c listed (some (.waitReap pid y.exitStatus)) y n :=
  { h with
    held := fun _ => h.held (.inr (by simp))
    created := nofun
    mem := fun _ _ _ => h.mem _ rfl rfl
    loading := fun hp => by rcases (h.loading hp).2 with hs | hs <;> cases hs
    failed := fun hx ht => by rcases h.failed hx ht with hs | hs <;> cases hs
    kept := fun he ht _ => h.kept he ht (by simp)
    wakes := nofun
    waits := fun g q hg hw => by
      cases hg
      exact h.waits _ q rfl hw
    waited := fun _ => .inr ⟨_, _, rfl, rfl⟩
    read := nofun
    result := fun _ r hs => by
      cases hs
      exact ⟨h.read pid rfl, rfl⟩ }

/-- `list_remove` and `sema_up (&child->exit_mutex)`: the creator lets go. -/
theorem Link.raise (h : Link c listed st y n) (hl : listed) (hst : st ≠ some .loadWait)
    (hl' : ¬listed') : Link c listed' none { y with exitMutex := y.exitMutex + 1 } (n + 1) := by
  have hn : n = 0 := h.held (.inl hl)
  exact { h with
    mutex := by
      have := h.mutex
      show y.exitMutex + 1 + (if y.point.phase = .gone then 1 else 0) = n + 1
      omega
    once := by omega
    held := fun hx => by
      rcases hx with hx | hx
      · exact absurd hx hl'
      · exact absurd rfl hx
    exec := fun hx => absurd hx hl'
    created := nofun
    mem := nofun
    loading := fun hp => by
      rcases (h.loading hp).2 with hs | hs
      · exact absurd hl (h.created hs)
      · exact absurd hs hst
    failed := fun hx => absurd hx hl'
    kept := fun _ _ _ => .inr (by omega)
    wakes := nofun
    waits := nofun
    waited := fun _ => .inl (by omega)
    read := nofun
    result := nofun }

end Pintos.Process
