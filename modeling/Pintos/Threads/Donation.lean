/-
Priority donation: `lock_acquire` along a chain of waiting threads, and
`thread_set_priority` under a donation.

# What a donation is for

A thread's donors are the threads blocked on the locks it holds; its
priority should be the highest of theirs and its own base. The wait-for
chain of a lock is its holder, the holder of the lock that thread is
blocked on, and so on; a thread that joins the waiters of the first lock
should lift everyone on it.

# What the loop follows

`lock_acquire` does not walk that chain. From a thread it goes on to the
front of the thread's `lock_waiting`, a list that is only ever pushed to:
the front is the first lock the thread ever had to wait for. The two
agree in the runs in which no thread waits for a second lock
(`FrontInv`). And the loop stops at the first thread that is not below
the donor, so whoever comes after it must not be below either
(`Rising`).

The loop's own bound is of no consequence: each turn leaves one thread
fewer below the donor, so `count` turns are enough (`donate_ends`).
-/
import Pintos.Threads.Locks
import Mathlib.Order.Bounds.Basic

namespace Pintos

open Transition List Option

namespace Kernel

-- ==== donors

/-- The threads asleep in `lock_acquire (l)`. -/
def blockedOn (k : Kernel) (l : LockId) : List Tid := (k.sema (.ofLock l)).waiters

/-- The threads blocked on the locks `t` holds. -/
def donors (k : Kernel) (t : Tid) : Set Tid :=
  { u | ∃ l, (k.lock l).holder = some t ∧ u ∈ k.blockedOn l }

/-- `p` is the highest of a base priority and the donors' priorities. -/
def Effective (k : Kernel) (t : Tid) (base p : Int) : Prop :=
  IsGreatest (insert base (k.prio '' k.donors t)) p

variable {k k' : Kernel} {t u : Tid} {l : LockId}

variable {base p : Int} {r h : Option Tid} {a : Act}
  {raised : List Tid}

theorem effective_iff : Effective k t base p ↔
      (p = base ∨ ∃ u ∈ k.donors t, k.prio u = p) ∧ base ≤ p ∧ ∀ u ∈ k.donors t, k.prio u ≤ p := by
  unfold Effective IsGreatest
  rw [mem_upperBounds, Set.forall_mem_insert, Set.forall_mem_image]
  rfl

/-- The held locks are on the thread's own list. -/
theorem LockInv.mem_donors (hi : LockInv k) : u ∈ k.donors t ↔
      ∃ l ∈ (k.thread t).lockHolding, u ∈ k.blockedOn l := by
  simp only [donors, Set.mem_ofPred_eq, hi.holding]

/-- A thread blocked on a lock. -/
theorem ListInv.blocked (hi : ListInv k r) (hu : u ∈ k.blockedOn l) :
    u < k.count ∧ r ≠ some u ∧ k.waitsOn u = some (.ofLock l) := by
  obtain ⟨hst, -, hw⟩ := hi.waiter _ u hu
  refine ⟨?_, ?_, hw⟩
  · by_contra hge
    simp [hi.unborn u (not_lt.mp hge)] at hst
  · intro hr
    simp [(hi.running_iff u).mpr hr] at hst

theorem Quiet.alike (hq : Quiet k k') (ht : t < k.count) :
    Thread.Alike (k.thread t) (k'.thread t) := by
  rcases hq.thread t with ha | ⟨hge, -⟩
  · exact ha
  · exact absurd ht (not_lt.mpr hge)

/-- A quiet step changes no priority. -/
theorem Quiet.prio (hq : Quiet k k') (ht : t < k.count) : k'.prio t = k.prio t :=
  (hq.alike ht).priority

theorem Quiet.blockedOn (hq : Quiet k k') (l : LockId) : k'.blockedOn l = k.blockedOn l := by
  unfold Kernel.blockedOn
  rw [hq.sema]

theorem Quiet.donors (hq : Quiet k k') (t : Tid) : k'.donors t = k.donors t := by
  unfold Kernel.donors
  simp only [hq.lock, hq.blockedOn]

/-- Only the donors and their priorities matter. -/
theorem Effective.congr (hd : k'.donors t = k.donors t)
    (hp : ∀ u ∈ k.donors t, k'.prio u = k.prio u) :
    Effective k' t base p ↔ Effective k t base p := by
  unfold Effective
  rw [hd, Set.image_congr hp]

-- ==== thread_set_priority

/-- The states and arguments for which `thread_set_priority` is right.
With priority and base equal the new value replaces both, so no donor may
be above it; otherwise the priority stays, so it has to be the new base
or the highest donor's, and neither the new base nor any donor above. -/
def RebaseOk (new : Int) (k : Kernel) : Prop :=
  if k.prio k.current = (k.thread k.current).oldPriority then
    ∀ u ∈ k.donors k.current, k.prio u ≤ new
  else
    (k.prio k.current = new ∨ ∃ u ∈ k.donors k.current, k.prio u = k.prio k.current) ∧
    new ≤ k.prio k.current ∧
    ∀ u ∈ k.donors k.current, k.prio u ≤ k.prio k.current

theorem ListInv.blocked_ne (hi : ListInv k (some k.current)) (hb : u ∈ k.blockedOn l) :
    u ≠ k.current :=
  fun h => (hi.blocked hb).2.1 (congrArg some h.symm)

theorem lists_reachable (hr : Reach Booted step anyStep k) : ListInv k (some k.current) := by
  refine Reach.induct (P := fun k => ListInv k (some k.current)) ?_ ?_ k hr
  · intro k hb
    obtain ⟨v, rfl⟩ := hb
    exact listInv_boot v
  · intro a k k' _ hi _ hs
    exact hi.step hs

/-- In every reachable state and for every new priority in range,
`thread_set_priority` leaves the running thread with the new base and
with the highest of it and the donors' priorities exactly when the state
and the new value fit. -/
theorem set_priority_effective_iff {k k' : Kernel} {new : Int} (hr : Reach Booted step anyStep k)
    (_hrange : priMin ≤ new ∧ new ≤ priMax) (hs : k.step (.setPriority new) = some k') :
    ((k'.thread k.current).oldPriority = new ∧
        Effective k' k.current new (k'.prio k.current))
      ↔ RebaseOk new k := by
  have hi := lists_reachable hr
  obtain ⟨-, -, -, hlt⟩ := hi.current_facts
  rw [step_setPriority hs]
  have hq := (Switched.checkPreemption (k.rebased new)).quiet
  have hself := rebased_thread k k.current new
  rw [if_pos rfl] at hself
  have hbase : ((k.rebased new).checkPreemption.thread k.current).oldPriority = new := by
    rw [(hq.alike hlt).oldPriority, hself]
  have hprio : (k.rebased new).checkPreemption.prio k.current
      = if k.prio k.current = (k.thread k.current).oldPriority then new
        else k.prio k.current := by
    rw [hq.prio hlt]
    exact congrArg Thread.priority hself
  have hother u (hu : u ∈ k.donors k.current) :
      (k.rebased new).checkPreemption.prio u = k.prio u := by
    obtain ⟨l, -, hb⟩ := hu
    rw [hq.prio (hi.blocked hb).1]
    unfold Kernel.prio
    rw [rebased_thread, if_neg (hi.blocked_ne hb)]
  have heff : ∀ p, Effective (k.rebased new).checkPreemption k.current
      new p ↔ Effective k k.current new p :=
    fun _ => Effective.congr (hq.donors k.current) hother
  rw [and_iff_right hbase, heff, hprio, effective_iff]
  unfold RebaseOk
  split
  · simp
  · rfl

/-- Lowering the base under a donation: the lock's holder runs at the 40
of the thread it blocks and keeps it with a base of 35. -/
theorem set_priority_keeps_donation :
    ∃ k k', Reach Booted step anyStep k ∧
      k.step (.setPriority 35) = some k' ∧ k'.prio k.current = 40 ∧
      (k'.thread k.current).oldPriority = 35 ∧
      Effective k' k.current 35 (k'.prio k.current) := by
  have hb : Reach Booted step ownSemas (boot fun _ => 0) := .init ⟨_, rfl⟩
  obtain ⟨k, hr, hcur, hold, h0, hlocks, hwait, h2, k', hs, hprio⟩ := hb.of_runAll
    [.lockAcquire 0, .resume, .spawn 40, .checkPreemption, .lockAcquire 0, .resume]
    (fun k => k.current = 0 ∧ (k.thread 0).oldPriority = 31 ∧ k.prio 0 = 40 ∧
      (k.thread 0).lockHolding = [0] ∧ k.blockedOn 0 = [2] ∧ k.prio 2 = 40 ∧
      ∃ k' ∈ k.step (.setPriority 35), k'.prio 0 = 40) (by decide +kernel)
  obtain ⟨-, hlock⟩ := lists_and_locks (fun _ _ h => h) hr
  have hdonors u : u ∈ k.donors 0 ↔ u = 2 := by
    rw [hlock.mem_donors, hlocks]
    simp [hwait]
  have hany : Reach Booted step anyStep k := hr.weaken fun _ _ _ => trivial
  refine ⟨k, k', hany, hs, hcur.symm ▸ hprio,
    (set_priority_effective_iff hany (by decide) hs).mpr ?_⟩
  unfold RebaseOk
  simp [hcur, hold, h0, hdonors, h2]

/-- Raising the base above a donation has no effect: the same holder asks
for 50 and stays at 40. -/
theorem set_priority_ignores_raise :
    ∃ k k', Reach Booted step anyStep k ∧
      k.step (.setPriority 50) = some k' ∧
      ¬((k'.thread k.current).oldPriority = 50 ∧
        Effective k' k.current 50 (k'.prio k.current)) := by
  have hb : Reach Booted step anyStep (boot fun _ => 0) := .init ⟨_, rfl⟩
  obtain ⟨k, hr, k', hs, hprio⟩ := hb.of_runAll
    [.lockAcquire 0, .resume, .spawn 40, .checkPreemption, .lockAcquire 0, .resume]
    (fun k => ∃ k' ∈ k.step (.setPriority 50), k'.prio k.current = 40) (by decide +kernel)
  refine ⟨k, k', hr, hs, ?_⟩
  intro h
  have hle := (effective_iff.mp h.2).2.1
  rw [hprio] at hle
  exact absurd hle (by decide)

-- ==== the wait-for chain

/-- The wait-for chain of `l`: its holder, the holder of the lock that
thread is blocked on, and so on. -/
inductive OnChain (k : Kernel) (l : LockId) : Tid → Prop
  | holder {t : Tid} (hh : (k.lock l).holder = some t) : OnChain k l t
  | next {t u : Tid} {m : LockId} (ht : OnChain k l t)
      (hb : t ∈ k.blockedOn m) (hh : (k.lock m).holder = some u) :
      OnChain k l u

theorem OnChain.lt (hi : LockInv k) (h : OnChain k l t) : t < k.count := by
  cases h with
  | holder hh | next _ _ hh => exact hi.holder_lt _ _ hh

/-- Going along the chain, a thread at or above the running one does not
wait for one below it. -/
def Rising (l : LockId) (k : Kernel) : Prop :=
  ∀ t m u, OnChain k l t → t ∈ k.blockedOn m →
    (k.lock m).holder = some u →
    k.prio k.current ≤ k.prio t → k.prio k.current ≤ k.prio u

/-- The running thread never had to wait for another lock than `l`. -/
def FirstWait (l : LockId) (k : Kernel) : Prop :=
  ∀ m ∈ (k.thread k.current).lockWaiting.head?, m = l

/-- The guard of the runs in which donation works: whoever has to wait
for a lock had to wait for no other before, and the chain rises. -/
def chainGuard (a : Act) (k : Kernel) : Prop :=
  ownSemas a k ∧
    match a with
    | .lockAcquire l => (k.lock l).holder ≠ none → FirstWait l k ∧ Rising l k
    | _ => True

/-- A thread inside `lock_acquire` has that lock at the front of its
`lock_waiting`, unless it is about to take it. -/
def FrontInv (k : Kernel) : Prop :=
  ∀ t m, k.waitsOn t = some (.ofLock m) →
    (k.thread t).lockWaiting.head? = some m ∨ t = k.current ∧ (k.lock m).holder = none

namespace FrontInv

variable {k k' : Kernel}

/-- With the running thread outside `lock_acquire` there is no
exception. -/
theorem strict (hf : FrontInv k) (hp : (k.thread k.current).resume.Plain) {t : Tid} {m : LockId}
    (hw : k.waitsOn t = some (.ofLock m)) : (k.thread t).lockWaiting.head? = some m := by
  rcases hf t m hw with h | ⟨rfl, -⟩
  · exact h
  · exact absurd hw (hp m)

/-- Threads alike but for their priorities. -/
theorem of_strict
    (hf : ∀ t m, k.waitsOn t = some (.ofLock m) → (k.thread t).lockWaiting.head? = some m)
    (hw : ∀ t m, k'.waitsOn t = some (.ofLock m) →
      k.waitsOn t = some (.ofLock m) ∧ (k'.thread t).lockWaiting = (k.thread t).lockWaiting) :
    FrontInv k' := by
  intro t m h
  obtain ⟨h1, h2⟩ := hw t m h
  rw [h2]
  exact .inl (hf t m h1)

theorem quiet (hf : ∀ t m, k.waitsOn t = some (.ofLock m) → (k.thread t).lockWaiting.head? = some m)
    (hq : Quiet k k') : FrontInv k' := by
  refine of_strict hf fun t m hw => ?_
  rcases hq.thread t with ha | ⟨-, hn⟩
  · exact ⟨(ha.inLock m).mp hw, ha.lockWaiting⟩
  · exact absurd hw (hn.resume m)

section

variable (hf : FrontInv k)

include hf

theorem entered (hp : (k.thread k.current).resume.Plain) (he : Entered l k k')
    (hown : (k'.thread k.current).lockWaiting.head? = some l ∨ (k.lock l).holder = none)
    : FrontInv k' := by
  intro t m hw
  unfold waitsOn at hw
  rw [he.resume] at hw
  split at hw
  next ht =>
    subst ht
    cases hw
    rcases hown with h | h
    · exact .inl h
    · refine .inr ⟨he.current.symm, ?_⟩
      rw [he.holder]
      exact h
  next ht =>
    rw [he.lockWaiting t ht]
    exact .inl (hf.strict hp hw)

theorem sleep (hi : LockInv k) (hr : (k.thread k.current).resume = .lockAcquire l)
    (hv : (k.sema (.ofLock l)).value = 0) : FrontInv (k.semaWait (.ofLock l)) := by
  refine quiet ?_ (semaWait_quiet k (.ofLock l))
  intro t m hw
  rcases hf t m hw with h | ⟨rfl, hnone⟩
  · exact h
  · have hml : m = l := by
      have := hi.inside hw
      rw [hr] at this
      cases this
      rfl
    exact absurd (hml ▸ hnone) (hi.held hv)

theorem take : FrontInv (k.granted l) := by
  intro t m hw
  unfold waitsOn at hw
  rw [granted_thread] at hw ⊢
  split at hw
  next => cases hw
  next ht =>
    rw [if_neg ht]
    rcases hf t m hw with h | ⟨h, -⟩
    · exact .inl h
    · exact absurd h ht

theorem release (hr : (k.thread k.current).resume = .none)
    (hp : Upped (.ofLock l) (k.released l) k') : FrontInv k'.checkPreemption := by
  have hplain : (k.thread k.current).resume.Plain := hr ▸ Resume.plain_none
  refine quiet (fun t m hw => ?_) (Switched.checkPreemption k').quiet
  have hw1 := ((hp.thread t).inLock m).mp hw
  rw [(hp.thread t).lockWaiting, released_thread]
  rw [released_thread] at hw1
  split at hw1
  next ht => exact absurd hw1 (hplain m)
  next ht =>
    rw [if_neg ht]
    exact hf.strict hplain hw1

theorem rebase (hr : (k.thread k.current).resume = .none) (new : Int) :
    FrontInv (k.rebased new).checkPreemption := by
  have hplain : (k.thread k.current).resume.Plain := hr ▸ Resume.plain_none
  refine quiet (fun t m hw => ?_) (Switched.checkPreemption _).quiet
  unfold waitsOn at hw
  rw [rebased_thread] at hw ⊢
  split at hw
  next ht => exact absurd hw (hplain m)
  next ht =>
    rw [if_neg ht]
    exact hf.strict hplain hw

end

end FrontInv

/-- The caller's `lock_waiting` after the donation. -/
theorem donated_lockWaiting (k : Kernel) (l : LockId) (t : Tid) :
    ((k.donated l t).thread k.current).lockWaiting = (k.thread k.current).lockWaiting ++ [l] := by
  have hcur : (donate k.count l (some t) (k.queued l)).current
      = k.current := (donate_effect _ _ _ _).current
  unfold donated Kernel.entered
  rw [modThread_thread, hcur, if_pos rfl, donate_thread]
  unfold queued
  rw [modThread_thread, if_pos rfl]

theorem FirstWait.front (h : FirstWait l k) :
    ((k.thread k.current).lockWaiting ++ [l]).head? = some l := by
  unfold FirstWait at h
  cases hw : (k.thread k.current).lockWaiting with
  | nil => rfl
  | cons m rest =>
    rw [hw] at h
    exact congrArg some (h m rfl)

theorem FrontInv.move (hf : FrontInv k) (hi : LockInv k)
    (hok : chainGuard a k) (hm : LockMove k a k') : FrontInv k' := by
  cases hm with
  | quiet hp hq => exact quiet (fun _ _ => hf.strict hp) hq
  | @enter l hr hh => exact hf.entered (hr ▸ Resume.plain_none) (entered_entered l k) (.inr hh)
  | @donate l t hr hh _ =>
    have hfirst := (hok.2 (by rw [hh]; simp)).1
    refine hf.entered (hr ▸ Resume.plain_none) (donated_entered l t k) (.inl ?_)
    rw [donated_lockWaiting]
    exact hfirst.front
  | sleep hr hv => exact hf.sleep hi hr hv
  | take _ _ => exact hf.take
  | release hr _ hpost => exact hf.release hr (semaPost_upped hpost)
  | rebase hr => exact hf.rebase hr _

theorem frontInv_reachable (hr : Reach Booted step chainGuard k) : FrontInv k := by
  refine Reach.induct (P := FrontInv) ?_ ?_ k hr
  · intro k hb t m hw
    obtain ⟨v, rfl⟩ := hb
    cases hw
  · intro a k k' hr hf hok hs
    obtain ⟨-, hlock⟩ := lists_and_locks (fun _ _ h => h.1) hr
    exact hf.move hlock hok (lockMove_step hlock.raw hok.1 hs)

-- ==== the donation

/-- How many threads are below the running one: what is left for the
loop to raise. -/
def below (k : Kernel) : Nat :=
  ((Finset.range k.count).filter fun t => k.prio t < k.prio k.current).card

theorem below_le (k : Kernel) : k.below ≤ k.count := by
  refine (Finset.card_filter_le _ _).trans ?_
  rw [Finset.card_range]

theorem below_raise (l : LockId) (hlt : t < k.count)
    (ht : k.prio t < k.prio k.current) : (k.raise l t).below < k.below := by
  refine Finset.card_lt_card (Finset.ssubset_iff_of_subset ?_ |>.mpr ?_)
  · intro u hu
    rw [Finset.mem_filter, raise_donor, raise_prio] at hu
    refine Finset.mem_filter.mpr ⟨hu.1, ?_⟩
    split at hu
    next => exact absurd hu.2 (lt_irrefl _)
    next => exact hu.2
  · refine ⟨t, Finset.mem_filter.mpr ⟨Finset.mem_range.mpr hlt, ht⟩, ?_⟩
    rw [Finset.mem_filter, raise_donor, raise_prio, if_pos rfl]
    exact fun h => lt_irrefl _ h.2

/-- With fuel for every thread below the donor the loop ends by itself. -/
theorem donate_ends (fuel : Nat) (l : LockId) (h : Option Tid) (k : Kernel)
    (hlt : ∀ m t, (k.lock m).holder = some t → t < k.count) (hh : ∀ t, h = some t → t < k.count)
    (hfuel : k.below ≤ fuel) : Donates l h k (donate fuel l h k) (donees fuel l h k) := by
  induction fuel generalizing l h k with
  | zero =>
    cases h with
    | none => exact .free
    | some t =>
      refine .above fun ht => ?_
      have hless := below_raise l (hh t rfl) ht
      omega
  | succ fuel ih =>
    cases h with
    | none => exact .free
    | some t =>
      unfold donate donees
      by_cases ht : k.prio t < k.prio k.current
      case neg =>
        rw [if_neg ht, if_neg ht]
        exact .above ht
      case pos =>
        rw [if_pos ht, if_pos ht]
        cases hw : (k.thread t).lockWaiting with
        | nil => exact .last ht hw
        | cons l' rest =>
          have hholder := (raise_reprioritised k l t).holder
          have hless := below_raise l (hh t rfl) ht
          exact .next ht hw (ih l' _ (k.raise l t) (fun m u hu => hlt m u (hholder m ▸ hu))
            (hlt l') (by omega))

theorem donate_maxPriority (fuel : Nat) (l : LockId) (h : Option Tid) (k : Kernel) :
    ∀ m, (k.lock m).maxPriority ≤ ((donate fuel l h k).lock m).maxPriority := by
  refine donate_turns (R := fun k k' => ∀ m, (k.lock m).maxPriority ≤ (k'.lock m).maxPriority)
    (fun k m => le_refl _) (fun {k k'} l t h m => le_trans ?_ (h m)) fuel l h k
  unfold raise modLock
  dsimp only
  split
  next hm => exact hm ▸ le_max_left _ _
  next => exact le_refl _

/-- The loop ends whatever the locks' holders and the threads'
`lock_waiting` are, cycles among them included. It writes priorities
only, lowers none, and lifts to the donor's those it changes. -/
theorem donation_loop_ends {k : Kernel}
    (hfin : ∀ m t, (k.lock m).holder = some t → t < k.count) (l : LockId) :
    ∃ k' raised, Donates l (k.lock l).holder k k' raised ∧
      k' = donate k.count l (k.lock l).holder k ∧
      (∀ t, k'.thread t = { k.thread t with priority := k'.prio t } ∧ k.prio t ≤ k'.prio t ∧
        (k'.prio t ≠ k.prio t → k.prio t < k.prio k.current ∧ k'.prio t = k.prio k.current)) ∧
      ∀ m, (k'.lock m).holder = (k.lock m).holder ∧
        (k.lock m).maxPriority ≤ (k'.lock m).maxPriority := by
  refine ⟨_, _, donate_ends k.count l _ k hfin (hfin l) k.below_le, rfl, fun t => ?_, fun m => ?_⟩
  · have hd := donate_effect k.count l (k.lock l).holder k
    refine ⟨donate_thread .., ?_⟩
    rw [hd.prio]
    split
    next hin => exact ⟨le_of_lt (hd.below t hin), fun _ => ⟨hd.below t hin, rfl⟩⟩
    next => exact ⟨le_refl _, fun hne => absurd rfl hne⟩
  · exact ⟨(donate_reprioritised ..).holder m, donate_maxPriority ..⟩

/-- Three threads in a circle: the caller 0 asks for a lock of 1, which
waits for one of 2, which waits for one of the caller. -/
def circle : Kernel :=
  { boot fun _ => 0 with
    count := 3, lock := fun m => ⟨some (m % 3), 0⟩
    thread := fun t =>
      { (boot fun _ => 0).thread t with priority := 20 - t, lockWaiting := [t + 1] } }

theorem donation_loop_ends_on_circle : ∃ k' raised, Donates 1 (some 1) circle k' raised ∧
    ∀ t, circle.prio t ≤ k'.prio t := by
  obtain ⟨k', raised, hd, -, hp, -⟩ := donation_loop_ends (k := circle)
    (fun m t h => some.inj h ▸ Nat.mod_lt m (by decide)) 1
  exact ⟨k', raised, hd, fun t => (hp t).2.1⟩

/-- `t` is among the raised or was not below the donor. -/
def Lifted (k : Kernel) (raised : List Tid) (t : Tid) : Prop :=
  t ∈ raised ∨ k.prio k.current ≤ k.prio t

/-- Whoever is lifted after one turn was lifted by it or before it. -/
theorem Lifted.of_raise (h : Lifted (k.raise l t) raised u) : Lifted k (t :: raised) u := by
  rcases h with hu | hu
  · exact .inl (mem_cons_of_mem _ hu)
  · rw [raise_donor, raise_prio] at hu
    split at hu
    next hut => exact .inl (hut ▸ mem_cons_self ..)
    next => exact .inr hu

/-- What the loop raises is closed under going on to the front of
`lock_waiting`, up to threads that are not below. -/
theorem Donates.closed (hd : Donates l h k k' raised) : (∀ t, h = some t → Lifted k raised t) ∧
      ∀ t ∈ raised, ∀ m, (k.thread t).lockWaiting.head? = some m →
        ∀ u, (k.lock m).holder = some u → Lifted k raised u := by
  induction hd with
  | free => exact ⟨fun t ht => (by cases ht), fun t ht => by cases ht⟩
  | above hge =>
    refine ⟨fun u hu => .inr ?_, fun u hu => by cases hu⟩
    cases hu
    exact not_lt.mp hge
  | last _ hw =>
    refine ⟨fun u hu => ?_, fun u hu m hm => ?_⟩
    · cases hu
      exact .inl (mem_singleton_self _)
    · simp [mem_singleton.mp hu, hw] at hm
  | @next l' rest k' raised l t k _ hw _ ih =>
    obtain ⟨hfirst, hrest⟩ := ih
    simp only [(raise_reprioritised k l t).holder, raise_thread] at hrest
    refine ⟨fun u hu => ?_, fun u hu m hm v hv => ?_⟩
    · cases hu
      exact .inl (mem_cons_self ..)
    · rcases mem_cons.mp hu with rfl | hu
      · rw [hw] at hm
        cases hm
        exact .of_raise (hfirst v hv)
      · exact .of_raise (hrest u hu m hm v hv)

theorem queued_prio (k : Kernel) (l : LockId) (t : Tid) : (k.queued l).prio t = k.prio t :=
  kept_at Thread.priority rfl

/-- The priorities after the donation. -/
theorem donated_prio (k : Kernel) (l : LockId) (t u : Tid) : (k.donated l t).prio u
      = if u ∈ donees k.count l (some t) (k.queued l)
        then k.prio k.current else k.prio u := by
  have hd := donate_effect k.count l (some t) (k.queued l)
  have he : (k.donated l t).prio u = (donate k.count l (some t) (k.queued l)).prio u :=
    kept_at Thread.priority rfl
  rw [he, hd.prio, queued_prio, queued_prio]
  rfl

/-- Lifting the chain: in a state whose sleepers have their lock in
front and whose chain rises, every thread on it is raised or was not
below. -/
theorem OnChain.lifted (hlist : ListInv k (some k.current)) (hi : LockInv k)
    (hfront : ∀ t m, k.waitsOn t = some (.ofLock m) → (k.thread t).lockWaiting.head? = some m)
    (hrise : Rising l k) (hu : OnChain k l u) :
    Lifted k (donees k.count l (k.lock l).holder (k.queued l)) u := by
  obtain ⟨hfirst, hrest⟩ := (donate_ends k.count l _ (k.queued l) hi.holder_lt
    (hi.holder_lt l) (below_le _)).closed
  have hsame raised t : Lifted (k.queued l) raised t ↔ Lifted k raised t := by
    unfold Lifted
    rw [queued_prio, queued_prio]
    rfl
  induction hu with
  | holder hh => exact (hsame _ _).mp (hfirst _ hh)
  | @next t u m ht hb hh ih =>
    rcases ih with hin | hge
    · refine (hsame _ _).mp (hrest t hin m ?_ u hh)
      obtain ⟨-, hne, hw⟩ := hlist.blocked hb
      unfold queued
      rw [modThread_thread, if_neg (Ne.symm (by simpa using hne))]
      exact hfront t m hw
    · exact .inr (hrise t m u ht hb hh hge)

/-- What going to sleep in `lock_acquire (l)` adds to the chains leads
back to the holder of `l`. -/
theorem OnChain.of_sleep {k₁ : Kernel} (he : Entered l k k₁)
    (h : OnChain (k₁.semaWait (.ofLock l)) l u) : OnChain k l u := by
  have hq := semaWait_quiet k₁ (.ofLock l)
  have hholder m : ((k₁.semaWait (.ofLock l)).lock m).holder = (k.lock m).holder := by
    rw [hq.lock]
    exact he.holder m
  induction h with
  | holder hh =>
    rw [hholder] at hh
    exact .holder hh
  | @next t u m _ hb hh ih =>
    rw [hholder] at hh
    rw [hq.blockedOn] at hb
    unfold Kernel.blockedOn modSema at hb
    by_cases hm : m = l
    · subst hm
      simp only [he.sema, if_true] at hb
      rcases mem_listInsertOrdered.mp hb with _ | hb
      · exact .holder hh
      · exact .next ih hb hh
    · simp only [SemaRef.ofLock.injEq, hm, if_false, he.sema] at hb
      exact .next ih hb hh

/-- In every run in which whoever has to wait for a lock had to wait for
no other before and the chain rises, a thread that calls `lock_acquire`
on a held lock blocks, and when it does every thread on the wait-for
chain from that lock has at least its priority. -/
theorem donation_reaches_chain {k k₁ k₂ : Kernel} {l : LockId} (hr : Reach Booted step chainGuard k)
    (hok : chainGuard (.lockAcquire l) k) (hheld : (k.lock l).holder ≠ none)
    (h1 : k.step (.lockAcquire l) = some k₁) (h2 : k₁.step .resume = some k₂) :
    k₂.status k.current = .blocked ∧ ∀ u, OnChain k₂ l u → k₂.prio k.current ≤ k₂.prio u := by
  obtain ⟨hlist, hi⟩ := lists_and_locks (fun _ _ h => h.1) hr
  obtain ⟨-, -, -, hlt⟩ := hlist.current_facts
  obtain ⟨hnone, hreq⟩ := step_lockAcquire h1
  have hplain : (k.thread k.current).resume.Plain := hnone ▸ Resume.plain_none
  rcases lockRequest_cases hreq with ⟨hfree, -⟩ | ⟨t, hh, -, rfl⟩
  · exact absurd hfree hheld
  have he := donated_entered l t k
  have hres := he.resume k.current
  rw [if_pos rfl, ← he.current] at hres
  have hv : ((k.donated l t).sema (.ofLock l)).value = 0 := by rw [he.sema, hi.value, if_neg hheld]
  have hk2 := step_resume_sleep hres hv h2
  have hq := semaWait_quiet (k.donated l t) (.ofLock l)
  rw [← hk2] at hq
  constructor
  · -- it is on the lock's waiters, and those are all blocked
    refine (((hlist.step h1).step h2).waiter (.ofLock l) k.current ?_).1
    rw [hq.sema]
    simp [modSema, he.current]
  · have hprio u (hu : u < k.count) :
        k₂.prio u = if u ∈ donees k.count l (some t) (k.queued l) then k.prio k.current else k.prio
        u := by
      rw [hq.prio (show u < (k.donated l t).count from he.count ▸ hu)]
      exact donated_prio k l t u
    have hself : k₂.prio k.current = k.prio k.current := by
      rw [hprio _ hlt]
      split <;> rfl
    intro u hu
    rw [hk2] at hu
    have hchain := hu.of_sleep he
    have hlift := hchain.lifted hlist hi (fun t m hw => (frontInv_reachable hr).strict hplain hw)
      (hok.2 hheld).2
    rw [hh] at hlift
    rw [hself, hprio u (hchain.lt hi)]
    split
    next => exact le_refl _
    next hnot => exact hlift.resolve_left hnot

/-- A simpler guard: whoever has to wait never had to before and is above
every thread that sleeps. -/
def topGuard (a : Act) (k : Kernel) : Prop :=
  ownSemas a k ∧
    match a with
    | .lockAcquire l => (k.lock l).holder ≠ none →
        (k.thread k.current).lockWaiting = [] ∧
        ∀ t ∈ List.range k.count, (k.thread t).resume = .none ∨ k.prio t < k.prio k.current
    | _ => True

instance (a : Act) (k : Kernel) : Decidable (topGuard a k) :=
  match a with
  | .lockAcquire l => inferInstanceAs (Decidable
      (ownSemas (.lockAcquire l) k ∧ ((k.lock l).holder ≠ none →
        (k.thread k.current).lockWaiting = [] ∧
        ∀ t ∈ List.range k.count, (k.thread t).resume = .none ∨ k.prio t < k.prio k.current)))
  | .spawn _ | .unblock _ | .checkPreemption | .yield | .block
  | .setPriority _ | .semaDown _ | .semaUp _ | .lockRelease _ | .resume
  | .interrupt _ _ => inferInstanceAs (Decidable (ownSemas _ k ∧ True))

theorem topGuard.chain (hr : Reach Booted step topGuard k) (h : topGuard a k) : chainGuard a k := by
  refine ⟨h.1, ?_⟩
  cases a with
  | lockAcquire l =>
    intro hheld
    obtain ⟨hnil, htop⟩ := h.2 hheld
    constructor
    · intro m hm
      simp [hnil] at hm
    · intro t m u _ hb _ hge
      obtain ⟨hlist, -⟩ := lists_and_locks (fun _ _ h => h.1) hr
      obtain ⟨hlt, -, hw⟩ := hlist.blocked hb
      rcases htop t (mem_range.mpr hlt) with hres | hlow
      · unfold waitsOn at hw
        rw [hres] at hw
        cases hw
      · omega
  | _ => trivial

/-- A chain of two: thread 3 (priority 40) waits for a lock of thread 2,
which waits for a lock of the initial thread, and both are raised. -/
theorem donation_reaches_two :
    ∃ k k₁ k₂, Reach Booted step chainGuard k ∧
      k.step (.lockAcquire 1) = some k₁ ∧ k₁.step .resume = some k₂ ∧
      k₂.prio k.current = 40 ∧ OnChain k₂ 1 2 ∧ OnChain k₂ 1 0 ∧
      k₂.status k.current = .blocked ∧
      ∀ u, OnChain k₂ 1 u → k₂.prio k.current ≤ k₂.prio u := by
  have hb : Reach Booted step topGuard (boot fun _ => 0) := .init ⟨_, rfl⟩
  obtain ⟨k, hr, hheld, htop, k₁, h1, k₂, h₂, hp, h2, hb, h0⟩ := hb.of_runAll
    [.lockAcquire 0, .resume, .spawn 32, .checkPreemption,
      .lockAcquire 1, .resume, .lockAcquire 0, .resume, .spawn 40,
      .checkPreemption]
    (fun k => (k.lock 1).holder ≠ none ∧ topGuard (.lockAcquire 1) k ∧
      ∃ k₁ ∈ k.step (.lockAcquire 1), ∃ k₂ ∈ k₁.step .resume,
        k₂.prio k.current = 40 ∧ (k₂.lock 1).holder = some 2 ∧ 2 ∈ k₂.blockedOn 0 ∧
          (k₂.lock 0).holder = some 0) (by decide +kernel)
  have hchain : Reach Booted step chainGuard k := hr.relax fun _ _ => topGuard.chain
  exact ⟨k, k₁, k₂, hchain, h1, h₂, hp, .holder h2, .next (.holder h2) hb h0,
    donation_reaches_chain hchain (htop.chain hr) hheld h1 h₂⟩

/-- The chain is lost at a thread's second wait: thread 2 waited for
lock 0 and got it, then holds locks 0 and 1 and waits for lock 2 of the
initial thread. Thread 3 (priority 40) asks for lock 1; thread 2 is
raised, its `lock_waiting` leads back to itself, and the initial thread
stays at 32. -/
theorem second_wait_breaks_chain :
    ∃ k k₁ k₂, Reach Booted step ownSemas k ∧
      (k.lock 1).holder ≠ none ∧
      k.step (.lockAcquire 1) = some k₁ ∧ k₁.step .resume = some k₂ ∧
      k₂.status k.current = .blocked ∧
      ∃ u, OnChain k₂ 1 u ∧ k₂.prio u < k₂.prio k.current := by
  have hb : Reach Booted step ownSemas (boot fun _ => 0) := .init ⟨_, rfl⟩
  obtain ⟨k, hr, hheld, k₁, h1, k₂, h₂, hp, hlow, hst, h2, hb, h0⟩ := hb.of_runAll
    [.lockAcquire 0, .resume, .lockAcquire 2, .resume, .spawn 32,
      .checkPreemption, .lockAcquire 1, .resume, .lockAcquire 0, .resume,
      .lockRelease 0, .resume, .lockAcquire 2, .resume, .spawn 40,
      .checkPreemption]
    (fun k => (k.lock 1).holder ≠ none ∧
      ∃ k₁ ∈ k.step (.lockAcquire 1), ∃ k₂ ∈ k₁.step .resume,
        k₂.prio k.current = 40 ∧ k₂.prio 0 = 32 ∧ k₂.status k.current = .blocked ∧
          (k₂.lock 1).holder = some 2 ∧ 2 ∈ k₂.blockedOn 2 ∧ (k₂.lock 2).holder = some 0)
    (by decide +kernel)
  refine ⟨k, k₁, k₂, hr, hheld, h1, h₂, hst, 0, .next (.holder h2) hb h0, ?_⟩
  rw [hp, hlow]
  decide

end Kernel

end Pintos
