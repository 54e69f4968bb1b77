/-
The lock-release loop of `thread_exit`.

# The loop

`thread_exit` walks `lock_holding` and calls `lock_release` on every lock
of it. `lock_release` takes the element the loop stands on out of the
list, and `list_remove` leaves the links of that element as they were; the
loop then reads `next` from it. Between the two comes the preemption check
of `lock_release`: the waiter it has just woken up may run, take the lock
and link that same element into a list of its own.

# The model

The thread system, with the `next` a removed element is left with and, for
each thread in the loop, where it stands. An element that is linked has
the `next` its list gives it. The tail of another thread's list is no
lock: what `lock_release` reads there as `holder` is the null link of
`sleep_mutex.waiters`, so its assertion fails, as it does for a lock of
another thread.

# The result

Unless another thread takes the lock just released before the loop has
moved on from its element, the loop ends, with one call for each lock the
thread held (`exit_loop_releases`). Otherwise it follows the list of that
thread (`exit_loop_astray`).
-/
import Pintos.Threads.Locks
import Pintos.Threads.Loops

namespace Pintos

open Transition Kernel Function List Option

namespace ExitLoop

-- ==== the loop

/-- Where `e` may point: the `holding_elem` of a lock, or the end of
`lock_holding` of a thread. -/
inductive Node where
  | elem (l : LockId)
  | tail (t : Tid)
  deriving DecidableEq

/-- `list_begin` of the list of `t`. -/
def listBegin (t : Tid) : List LockId → Node
  | [] => .tail t
  | l :: _ => .elem l

/-- What `next` of the element of `l` points to in the list of `t`. -/
def linked (t : Tid) (l : LockId) : List LockId → Node
  | [] => .tail t
  | m :: rest => if m = l then listBegin t rest else linked t l rest

inductive Point where
  | test (e : Node)
  | advance (l : LockId)
  | left
  deriving DecidableEq

/-- The loop of one thread, with what it held when it came to the loop and
the calls of `lock_release` it has made. -/
structure Loop where
  point : Point
  held : List LockId
  called : List LockId

/-- `unlinked` is the `next` an element was left with by `list_remove`. -/
structure State where
  kernel : Kernel
  unlinked : LockId → Node
  loop : Tid → Option Loop
  panicked : Bool

namespace State

/-- `list_next` of the element of `l`. -/
def listNext (x : State) (l : LockId) : Node :=
  match (x.kernel.lock l).holder with
  | some t => linked t l (x.kernel.thread t).lockHolding
  | none => x.unlinked l

/-- `list_remove` keeps the `next` of what it takes out. -/
def unlink (x : State) : Kernel.Act → LockId → Node
  | .lockRelease l => update x.unlinked l (x.listNext l)
  | _ => x.unlinked

/-- A step of the thread system. -/
def run (a : Kernel.Act) (x : State) : Option State :=
  (x.kernel.step a).map fun k => { x with kernel := k, unlinked := x.unlink a }

def goto (x : State) (t : Tid) (c : Loop) : State :=
  { x with loop := update x.loop t (some c) }

/-- The running thread comes to the loop. -/
def enter (x : State) : State :=
  let t := x.kernel.current
  let held := (x.kernel.thread t).lockHolding
  x.goto t ⟨.test (listBegin t held), held, []⟩

/-- Thread `t` goes one point further in its loop. -/
def turnAt (x : State) (t : Tid) (held called : List LockId) : Point → Option State
  | .test (.elem l) =>
    match x.run (.lockRelease l) with
    | some x' => some (x'.goto t ⟨.advance l, held, called ++ [l]⟩)
    | none => some { x with panicked := true }
  | .test (.tail u) =>
    if u = t then some (x.goto t ⟨.left, held, called⟩)
    else some { x with panicked := true }
  | .advance l => some (x.goto t ⟨.test (x.listNext l), held, called⟩)
  | .left => none

def turn (x : State) : Option State :=
  (x.loop x.kernel.current).bind fun c => x.turnAt x.kernel.current c.held c.called c.point

end State

inductive Act where
  | kernel (a : Kernel.Act)
  | exit
  | loop

/-- In the loop a thread is only ever interrupted, and after it, it takes
no more locks. -/
def permits : Option Loop → Kernel.Act → Bool
  | none, _ => true
  | some ⟨.left, _, _⟩, .lockAcquire _ => false
  | some ⟨.left, _, _⟩, _ => true
  | some _, .interrupt _ _ => true
  | some _, _ => false

def step (a : Act) (x : State) : Option State :=
  if x.panicked then none
  else
    match a with
    | .kernel a =>
      if permits (x.loop x.kernel.current) a then x.run a else none
    | .exit =>
      if (x.loop x.kernel.current).isNone
          ∧ (x.kernel.thread x.kernel.current).resume = .none
          ∧ x.kernel.current ≠ x.kernel.idle then some x.enter
      else none
    | .loop => x.turn

/-- Nobody exits yet; the links of a lock that was never held are
anything. -/
def Init (x : State) : Prop := Booted x.kernel ∧ x.loop = (fun _ => none) ∧ x.panicked = false

/-- Thread `t` has just released `l`. -/
def State.advancing (x : State) (l : LockId) (t : Tid) : Bool :=
  (x.loop t).any fun c => decide (c.point = .advance l)

/-- The locks' semaphores are the locks'. -/
def owned (a : Act) (x : State) : Prop :=
  match a with
  | .kernel a => ownSemas a x.kernel
  | .exit | .loop => True

/-- Besides, nobody takes a lock whose element the loop of an exiting
thread still stands on. -/
def untaken (a : Act) (x : State) : Prop :=
  match a with
  | .kernel b => owned a x ∧ ∀ l ∈ (x.kernel.event b).record,
      ∀ t < x.kernel.count, x.advancing l t = false
  | .exit | .loop => True

instance (a : Act) (x : State) : Decidable (owned a x) :=
  match a with
  | .kernel b => inferInstanceAs (Decidable (ownSemas b x.kernel))
  | .exit | .loop => .isTrue trivial

instance (a : Act) (x : State) : Decidable (untaken a x) :=
  match a with
  | .kernel _ => inferInstanceAs (Decidable (_ ∧ _))
  | .exit | .loop => .isTrue trivial

-- ==== what a step does to a list

variable {k k' : Kernel} {a : Kernel.Act} {l : LockId} {t : Tid} {x x' : State} {c : Loop}

/-- A thread that is in no `lock_acquire` and does not release keeps its
list. -/
theorem lockHolding_kept (hm : LockMove k a k') (hlt : t < k.count)
    (hout : ∀ l, k.waitsOn t ≠ some (.ofLock l)) (hrel : ∀ l, a = .lockRelease l → t ≠ k.current) :
    (k'.thread t).lockHolding = (k.thread t).lockHolding := by
  have hquiet {k₁ k₂ : Kernel} (hq : Quiet k₁ k₂) (h : t < k₁.count) :
      (k₂.thread t).lockHolding = (k₁.thread t).lockHolding := by
    rcases hq.thread t with ha | ⟨hge, -⟩
    · exact ha.lockHolding
    · exact absurd h (not_lt.mpr hge)
  have hpre : ∀ k₁ : Kernel,
      (k₁.checkPreemption.thread t).lockHolding = (k₁.thread t).lockHolding :=
    fun k₁ => ((Switched.checkPreemption k₁).alike t).lockHolding
  cases hm with
  | quiet _ hq => exact hquiet hq hlt
  | @enter l _ _ => exact (entered_entered l k).lockHolding t
  | @donate l u _ _ _ => exact (donated_entered l u k).lockHolding t
  | @sleep l _ _ =>
    have h := hquiet (semaWait_quiet k (.ofLock l)) hlt
    exact h
  | @take l hr _ =>
    have hne : t ≠ k.current := by
      intro h
      apply hout l
      rw [h, waitsOn, hr]
      rfl
    rw [granted_thread, if_neg hne]
  | release _ _ hpost =>
    rw [hpre, ((semaPost_upped hpost).thread t).lockHolding, released_thread, if_neg (hrel _ rfl)]
  | rebase _ =>
    rw [hpre, rebased_thread]
    split <;> simp [*]

/-- A lock that nobody holds and nobody takes stays free. -/
theorem free_kept (hm : LockMove k a k') (hfree : (k.lock l).holder = none)
    (htake : (k.event a).record ≠ some l) : (k'.lock l).holder = none := by
  cases hm with
  | quiet _ hq => rw [hq.lock, hfree]
  | @enter m _ _ => rw [(entered_entered m k).holder, hfree]
  | @donate m u _ _ _ => rw [(donated_entered m u k).holder, hfree]
  | sleep _ _ =>
    rw [(semaWait_quiet k _).lock]
    exact hfree
  | @take m hr hv =>
    have hne : l ≠ m := by
      intro h
      apply htake
      simp [event, hr, testEvent, hv, h]
    rw [granted_lock, if_neg hne, hfree]
  | @release m _ _ _ hpost =>
    rw [(Switched.checkPreemption _).lock, (semaPost_upped hpost).lock, released_lock]
    split
    · rfl
    · exact hfree
  | rebase _ =>
    rw [(Switched.checkPreemption _).lock]
    exact hfree

-- ==== the invariant

/-- Where the loop of `t` stands: `next` of the element it has just
removed leads to what is left of its list. -/
def Stands (k : Kernel) (u : LockId → Node) (t : Tid) : Point → Prop
  | .test e => e = listBegin t (k.thread t).lockHolding
  | .advance l => (k.lock l).holder = none ∧ u l = listBegin t (k.thread t).lockHolding
  | .left => (k.thread t).lockHolding = []

/-- The loop of `t` is in order. -/
structure Looping (k : Kernel) (u : LockId → Node) (t : Tid) (c : Loop) : Prop where
  lt : t < k.count
  ne_idle : t ≠ k.idle
  outside : ∀ l, k.waitsOn t ≠ some (.ofLock l)
  running : c.point ≠ .left → k.waitsOn t = none
  held : c.held = c.called ++ (k.thread t).lockHolding
  nodup : c.held.Nodup
  stands : Stands k u t c.point

structure Inv (x : State) : Prop where
  lists : ListInv x.kernel (some x.kernel.current)
  locks : LockInv x.kernel
  alive : x.panicked = false
  loops : ∀ t c, x.loop t = some c → Looping x.kernel x.unlinked t c

/-- Loop and list of `t` are as they were. -/
def Stays (t : Tid) (x x' : State) : Prop :=
  x'.loop t = x.loop t ∧ (x'.kernel.thread t).lockHolding = (x.kernel.thread t).lockHolding

/-- Points still to come, with the locks of the list ahead. -/
def ahead (x : State) (t : Tid) (c : Loop) : Nat :=
  let n := (x.kernel.thread t).lockHolding.length
  match c.point with
  | .test _ => 2 * n + 1
  | .advance _ => 2 * n + 2
  | .left => 0

theorem run_cases (hs : x.run a = some x') :
    ∃ k, x.kernel.step a = some k ∧ x'.kernel = k ∧ x'.loop = x.loop ∧
      x'.unlinked = x.unlink a := by
  obtain ⟨k, hk, rfl⟩ := map_eq_some_iff.mp hs
  exact ⟨k, hk, rfl, rfl, rfl⟩

/-- What a thread may be waiting for after a step. -/
theorem waitsOn_after {k k' : Kernel} {p : Option SemaRef → Prop} (hs : k.step a = some k')
    (hlt : t < k.count) (h0 : p none) (h : p (k.waitsOn t)) (henter : t = k.current → p a.enter) :
    p (k'.waitsOn t) := by
  cases (step_loops hs).waits t with
  | same he => exact he ▸ h
  | born _ ht => exact absurd hlt (not_lt.mpr ht)
  | left he _ _ _ => exact he ▸ h0
  | entered _ ht he => exact he ▸ henter ht

/-- An exiting thread goes into no lock, and in its loop nowhere at all. -/
theorem permits_enter {k : Kernel} (hok : ownSemas a k) (hper : permits (some c) a = true) :
    (∀ l, a.enter ≠ some (.ofLock l)) ∧ (c.point ≠ .left → a.enter = none) := by
  obtain ⟨p, held, called⟩ := c
  cases a with
  | semaDown s => cases s <;> cases p <;> simp_all [permits, Act.enter, ownSemas, SemaRef.own]
  | _ => cases p <;> simp_all [permits, Act.enter]

/-- The thread system moves, and not as the loop of `t`. -/
theorem Inv.run (hx : Inv x) (hs : x.run a = some x') (hok : ownSemas a x.kernel) :
    ListInv x'.kernel (some x'.kernel.current) ∧ LockInv x'.kernel ∧
      ∀ t c, x.loop t = some c →
        (∀ l, c.point = .advance l → (x.kernel.event a).record ≠ some l) →
        (t = x.kernel.current → permits (some c) a = true) →
        Looping x'.kernel x'.unlinked t c ∧ Stays t x x' := by
  obtain ⟨k', hk, hkernel, hloop, hun⟩ := run_cases hs
  obtain ⟨-, -, -, hcur⟩ := hx.lists.current_facts
  have hm := lockMove_step hx.locks.raw hok hk
  rw [hkernel]
  refine ⟨hx.lists.step hk, hx.locks.move hcur hm, ?_⟩
  intro t c hc htake hper
  have hl := hx.loops t c hc
  have hrel : ∀ l, a = .lockRelease l → t ≠ x.kernel.current := by
    intro l ha ht
    subst ha
    obtain ⟨-, hh, -⟩ := step_lockRelease hk
    have hmem := (hx.locks.holding t l).mpr (ht ▸ hh)
    obtain ⟨p, held, called⟩ := c
    cases p with
    | left =>
      have hnil : (x.kernel.thread t).lockHolding = [] := hl.stands
      simp [hnil] at hmem
    | test e | advance m => cases hper ht
  have hkeep := lockHolding_kept hm hl.lt hl.outside hrel
  refine ⟨⟨?_, ?_, ?_, ?_, ?_, hl.nodup, ?_⟩, ?_⟩
  · exact lt_of_lt_of_le hl.lt (step_loops hk).count
  · exact hm.idle ▸ hl.ne_idle
  · intro m
    refine waitsOn_after (p := fun w => w ≠ some (.ofLock m)) hk hl.lt
      nofun (hl.outside m) fun ht => ?_
    exact (permits_enter hok (hper ht)).1 m
  · intro hp
    exact waitsOn_after (p := fun w => w = none) hk hl.lt rfl (hl.running hp)
      fun ht => (permits_enter hok (hper ht)).2 hp
  · rw [hkeep, hl.held]
  · have hst := hl.stands
    revert htake hst
    cases c.point with
    | test e =>
      intro _ hst
      exact hst.trans (congrArg (listBegin t) hkeep.symm)
    | advance l =>
      intro htake hst
      refine ⟨free_kept hm hst.1 (htake l rfl), ?_⟩
      have hsame : x'.unlinked l = x.unlinked l := by
        rw [hun]
        unfold State.unlink
        split
        case h_1 m =>
          -- the lock that is released here was held
          obtain ⟨-, hh, -⟩ := step_lockRelease hk
          refine update_of_ne ?_ _ _
          intro h
          simp [← h, hst.1] at hh
        case h_2 => rfl
      rw [hsame, hkeep]
      exact hst.2
    | left =>
      intro _ hst
      exact hkeep.trans hst
  · exact ⟨congrFun hloop t, hkernel ▸ hkeep⟩

/-- One thread goes to another point, the others' loops being in order. -/
theorem inv_goto (hl : ListInv x.kernel (some x.kernel.current))
    (hk : LockInv x.kernel) (ha : x.panicked = false)
    (hother : ∀ u d, u ≠ t → x.loop u = some d → Looping x.kernel x.unlinked u d)
    (hc : Looping x.kernel x.unlinked t c) : Inv (x.goto t c) := by
  refine ⟨hl, hk, ha, ?_⟩
  intro u d hd
  by_cases hu : u = t
  · subst hu
    have h : (x.goto u c).loop u = some c := update_self ..
    cases h.symm.trans hd
    exact hc
  · exact hother u d hu ((update_of_ne hu _ _).symm.trans hd)

theorem stays_goto (ht : t ≠ x.kernel.current) (h : Stays t x x') :
    Stays t x (x'.goto x.kernel.current c) :=
  ⟨(update_of_ne ht _ _).trans h.1, h.2⟩

/-- The call of `lock_release` on the first lock of the list. -/
theorem release_first {held called rest : List LockId} {p : Point} (hx : Inv x) (hp : p ≠ .left)
    (hl : Looping x.kernel x.unlinked x.kernel.current ⟨p, held, called⟩)
    (hlist : (x.kernel.thread x.kernel.current).lockHolding = l :: rest) :
    ∃ x', x.run (.lockRelease l) = some x' ∧ x'.panicked = false ∧
      x'.loop = x.loop ∧
      (x'.kernel.thread x.kernel.current).lockHolding = rest ∧
      Looping x'.kernel x'.unlinked x.kernel.current ⟨.advance l, held, called ++ [l]⟩ := by
  have hh := (hx.locks.holding _ l).mp (hlist ▸ mem_cons_self)
  have hw := hl.running hp
  obtain ⟨k₁, hpost, hk⟩ := hx.lists.lockRelease_enabled (resume_eq_none hw) hl.ne_idle hh
  have hm := lockMove_step (a := .lockRelease l) hx.locks.raw trivial hk
  have hup := semaPost_upped hpost
  have hsw := Switched.checkPreemption k₁
  have hrest : (k₁.checkPreemption.thread x.kernel.current).lockHolding = rest := by
    rw [(hsw.alike _).lockHolding, (hup.thread _).lockHolding, released_thread, if_pos rfl]
    rw [hlist, erase_cons_head]
  have hwait : k₁.checkPreemption.waitsOn x.kernel.current = none :=
    waitsOn_after (p := fun w => w = none) hk hl.lt rfl hw fun _ => rfl
  have hnext : x.listNext l = listBegin x.kernel.current rest := by
    unfold State.listNext
    rw [hh]
    show linked _ l (x.kernel.thread x.kernel.current).lockHolding = _
    rw [hlist]
    exact if_pos rfl
  refine ⟨⟨k₁.checkPreemption, x.unlink (.lockRelease l), x.loop, x.panicked⟩,
    congrArg (Option.map _) hk, hx.alive, rfl, hrest,
    ⟨?_, ?_, ?_, fun _ => hwait, ?_, hl.nodup, ?_, ?_⟩⟩
  · exact lt_of_lt_of_le hl.lt (step_loops hk).count
  · exact hm.idle ▸ hl.ne_idle
  · intro m h
    simp [hwait] at h
  · have hheld : held = called ++ l :: rest := hlist ▸ hl.held
    rw [hrest, hheld, append_assoc]
    rfl
  · rw [hsw.lock, hup.lock, released_lock, if_pos rfl]
  · rw [hrest, ← hnext]
    exact update_self ..

/-- The loop goes on from every point but the last, one point further. -/
theorem turn_spec (hx : Inv x) (hc : x.loop x.kernel.current = some c) (hp : c.point ≠ .left) :
    ∃ x' c', x.turn = some x' ∧ Inv x' ∧
      x'.loop x.kernel.current = some c' ∧ c'.held = c.held ∧
      ahead x' x.kernel.current c' < ahead x x.kernel.current c ∧
      ∀ t d, t ≠ x.kernel.current → x.loop t = some d → Stays t x x' := by
  have hl := hx.loops _ c hc
  have hstay : ∀ t d, t ≠ x.kernel.current → x.loop t = some d →
      ∀ c', Stays t x (x.goto x.kernel.current c') :=
    fun t d ht _ c' => stays_goto ht ⟨rfl, rfl⟩
  have hgoto := fun c' => inv_goto (c := c') hx.lists hx.locks hx.alive
    fun u d (_ : u ≠ x.kernel.current) => hx.loops u d
  have hturn : x.turn = x.turnAt x.kernel.current c.held c.called c.point := by
    unfold State.turn
    rw [hc]
    rfl
  rw [hturn]
  obtain ⟨p, held, called⟩ := c
  cases p with
  | left => exact absurd rfl hp
  | advance l =>
    obtain ⟨hfree, hnext⟩ := hl.stands
    have hn : x.listNext l = listBegin x.kernel.current
        (x.kernel.thread x.kernel.current).lockHolding := by
      unfold State.listNext
      rw [hfree, hnext]
    exact ⟨_, ⟨.test (x.listNext l), held, called⟩, rfl,
      hgoto _ { hl with running := fun _ => hl.running hp, stands := hn }, update_self .., rfl,
      Nat.lt_succ_self _, fun t d ht hd => hstay t d ht hd _⟩
  | test e =>
    have he : e = listBegin x.kernel.current
      (x.kernel.thread x.kernel.current).lockHolding := hl.stands
    cases hlist : (x.kernel.thread x.kernel.current).lockHolding with
    | nil =>
      rw [hlist] at he
      subst he
      refine ⟨_, ⟨.left, held, called⟩, if_pos rfl,
        hgoto _ { hl with running := fun h => absurd rfl h, stands := hlist }, update_self .., rfl,
        Nat.succ_pos _, fun t d ht hd => hstay t d ht hd _⟩
    | cons l rest =>
      rw [hlist] at he
      subst he
      obtain ⟨x₁, hrun, halive, hloop, hrest, hnew⟩ := release_first hx hp hl hlist
      obtain ⟨hlists, hlocks, hother⟩ := hx.run hrun trivial
      have hoth := fun t d (ht : t ≠ x.kernel.current) hd =>
        hother t d hd nofun fun h => absurd h ht
      have hat : x.turnAt x.kernel.current held called (.test (.elem l))
          = some (x₁.goto x.kernel.current ⟨.advance l, held, called ++ [l]⟩) := by
        simp only [State.turnAt, hrun]
      refine ⟨_, ⟨.advance l, held, called ++ [l]⟩, hat,
        inv_goto hlists hlocks halive (fun u d hu hd => (hoth u d hu (hloop ▸ hd)).1) hnew,
        update_self .., rfl, ?_, fun t d ht hd => stays_goto ht (hoth t d ht hd).2⟩
      show 2 * (x₁.kernel.thread x.kernel.current).lockHolding.length + 2
        < 2 * (x.kernel.thread x.kernel.current).lockHolding.length + 1
      rw [hrest, hlist, length_cons]
      omega

/-- Every step keeps the loops in order, and the loop of a thread that it
is not a turn of. -/
theorem Inv.step {a : Act} (hx : Inv x) (hok : untaken a x) (hs : step a x = some x') :
    Inv x' ∧ ∀ t c, x.loop t = some c → (a = .loop → t ≠ x.kernel.current) → Stays t x x' := by
  unfold ExitLoop.step at hs
  rw [if_neg (by simp [hx.alive])] at hs
  cases a with
  | kernel b =>
    obtain ⟨hown, htake⟩ := hok
    obtain ⟨hper, hrun⟩ := ite_none_right_eq_some.mp hs
    obtain ⟨hlists, hlocks, hother⟩ := hx.run hrun hown
    obtain ⟨k', -, -, hloop, -⟩ := run_cases hrun
    have hall t c (hc : x.loop t = some c) : Looping x'.kernel x'.unlinked t c ∧ Stays t x x' := by
      refine hother t c hc (fun l hp hrec => ?_) fun ht => ?_
      · have := htake l hrec t (hx.loops t c hc).lt
        simp [State.advancing, hc, hp] at this
      · rw [← hc, ht]
        exact hper
    refine ⟨⟨hlists, hlocks, ?_, ?_⟩, fun t c hc _ => (hall t c hc).2⟩
    · obtain ⟨k, -, rfl⟩ := map_eq_some_iff.mp hrun
      exact hx.alive
    · intro t c hc
      exact (hall t c (hloop ▸ hc)).1
  | exit =>
    obtain ⟨⟨hnone, hr, hidle⟩, h⟩ := ite_none_right_eq_some.mp hs
    cases h
    obtain ⟨-, -, -, hcur⟩ := hx.lists.current_facts
    have hw : x.kernel.waitsOn x.kernel.current = none := by
      rw [waitsOn, hr]
      rfl
    refine ⟨inv_goto hx.lists hx.locks hx.alive (fun u d _ => hx.loops u d) ?_, ?_⟩
    · exact ⟨hcur, hidle, fun l h => by simp [hw] at h, fun _ => hw, rfl, hx.locks.nodup _, rfl⟩
    · intro t c hc _
      refine stays_goto (fun ht => ?_) ⟨rfl, rfl⟩
      simp [← ht, hc] at hnone
  | loop =>
    obtain ⟨c, hc, hturn⟩ := bind_eq_some_iff.mp hs
    have hp : c.point ≠ .left := by
      intro h
      rw [h] at hturn
      cases hturn
    obtain ⟨x₁, c', h1, hinv, -, -, -, hstay⟩ := turn_spec hx hc hp
    cases h1.symm.trans hs
    exact ⟨hinv, fun t d hd ht => hstay t d (ht rfl) hd⟩

theorem inv_reachable (hr : Reach Init ExitLoop.step untaken x) : Inv x := by
  refine Reach.induct ?_ ?_ x hr
  · intro x hi
    obtain ⟨⟨v, hk⟩, hloop, ha⟩ := hi
    refine ⟨hk ▸ listInv_boot v, hk ▸ lockInv_boot v, ha, ?_⟩
    intro t c hc
    simp [hloop] at hc
  · intro a x x' _ hx hok hs
    exact (hx.step hok hs).1

-- ==== the locks of an exiting thread

/-- As long as nobody takes the lock whose element the loop stands on, in
every state reached: each lock that an exiting thread held is one it has
called `lock_release` on, once, or is still in its list; after the loop
there are none of these. Up to there it can go on whenever it runs, and
comes closer to the end, and no other step sets it back. -/
theorem exit_loop_releases {x : State} (hr : Reach Init step untaken x) :
    x.panicked = false ∧ ∀ t c, x.loop t = some c →
      c.held.Nodup ∧ c.held = c.called ++ (x.kernel.thread t).lockHolding ∧
      (c.point = .left → c.called = c.held ∧ (x.kernel.thread t).lockHolding = []) ∧
      (c.point ≠ .left → t = x.kernel.current →
        ∃ x' c', step .loop x = some x' ∧ x'.loop t = some c' ∧
          c'.held = c.held ∧ ahead x' t c' < ahead x t c) ∧
      ∀ a x', untaken a x → step a x = some x' →
        (a = .loop → t ≠ x.kernel.current) →
        x'.loop t = some c ∧ ahead x' t c = ahead x t c := by
  have hx := inv_reachable hr
  refine ⟨hx.alive, fun t c hc => ?_⟩
  have hl := hx.loops t c hc
  refine ⟨hl.nodup, hl.held, ?_, ?_, ?_⟩
  · intro hp
    have hnil : (x.kernel.thread t).lockHolding = [] := by
      have := hl.stands
      rwa [hp] at this
    exact ⟨by rw [hl.held, hnil, append_nil], hnil⟩
  · intro hp ht
    subst ht
    obtain ⟨x', c', hturn, -, hc', hheld, hlt, -⟩ := turn_spec hx hc hp
    refine ⟨x', c', ?_, hc', hheld, hlt⟩
    unfold step
    rw [if_neg (by simp [hx.alive])]
    exact hturn
  · intro a x' hok hs ha
    obtain ⟨hloop, hlist⟩ := (hx.step hok hs).2 t c hc ha
    refine ⟨hloop.trans hc, ?_⟩
    unfold ahead
    rw [hlist]

def booted : State := ⟨boot fun _ => 0, fun _ => .tail 0, fun _ => none, false⟩

theorem booted_reachable (ok : Act → State → Prop) :
    Reach Init step ok booted := .init ⟨⟨_, rfl⟩, rfl, rfl⟩

/-- Thread 0 exits with locks 0 and 1; thread 2, of the lower priority 10,
waits for lock 0 and is made ready by the loop. -/
theorem exit_loop_releases_two :
    ∃ x c, Reach Init step untaken x ∧ x.kernel.ready = [2] ∧
      x.loop 0 = some c ∧ c.held.length = 2 ∧ c.called = c.held ∧
      (x.kernel.thread 0).lockHolding = [] := by
  obtain ⟨x, hr, hready, c, hc, hleft, hlen⟩ := (booted_reachable untaken).of_runAll
    [.kernel (.spawn 10), .kernel (.lockAcquire 0), .kernel .resume,
      .kernel (.lockAcquire 1), .kernel .resume,
      .kernel (.semaDown (.plain 0)), .kernel .resume,
      .kernel (.lockAcquire 0), .kernel .resume,
      .kernel (.interrupt [.plain 0] true), .kernel .resume,
      .exit, .loop, .loop, .loop, .loop, .loop]
    (fun x => x.kernel.ready = [2] ∧ ∃ c ∈ x.loop 0, c.point = .left ∧ c.held.length = 2)
    (by decide +kernel)
  obtain ⟨-, -, hend, -⟩ := (exit_loop_releases hr).2 0 c hc
  obtain ⟨hall, hnil⟩ := hend hleft
  exact ⟨x, c, hr, hready, hc, hlen, hall, hnil⟩

/-- Thread 0 exits with lock 0, and thread 2 of priority 40, which waits
for it, runs as soon as it is released, takes it and goes to sleep. The
loop of thread 0 goes on in the list of thread 2 and calls `lock_release`
on the end of it. -/
theorem exit_loop_astray :
    ∃ x, Reach Init step owned x ∧ x.panicked = true ∧ (x.kernel.lock 0).holder = some 2 := by
  obtain ⟨x, hr, hp⟩ := (booted_reachable owned).of_runAll
    [.kernel (.lockAcquire 0), .kernel .resume, .kernel (.spawn 40),
      .kernel .checkPreemption, .kernel (.lockAcquire 0), .kernel .resume,
      .exit, .loop, .kernel .resume, .kernel .block, .loop, .loop]
    (fun x => x.panicked = true ∧ (x.kernel.lock 0).holder = some 2) (by decide +kernel)
  exact ⟨x, hr, hp⟩

end ExitLoop

end Pintos
