/-
The order of the ready queue.

# The invariant

`QueueInv k r` adds two things to `ListInv k r`: the queue is sorted by
current priority and the idle thread is not on it (`Ordered`). Every
operation but one keeps them, because an operation either inserts in
order a thread other than idle, pops the front, or changes the priority
of the running thread, which is on no list.

# The exception

The donation of `lock_acquire` raises the priority of threads wherever
they are. `donees` is the list of threads it raises; `DonationOk` says
that in the ready queue no thread that stays below the donor's priority
stands in front of one that is raised to it. The donation keeps the
queue sorted exactly then (`donate_sorted_iff`), and the runs all of
whose donations are of that kind keep it sorted throughout
(`ready_list_sorted_by_priority`).
-/
import Pintos.Threads.Membership
import Pintos.Lib.Transition
import Mathlib.Data.List.Pairwise

namespace Pintos

open Transition List Option

namespace Kernel

-- ==== the invariant

/-- The queue invariant, `r` being the running thread. -/
structure QueueInv (k : Kernel) (r : Option Tid) : Prop where
  sorted : k.ready.Pairwise fun a b => k.prio b ≤ k.prio a
  nodup : k.ready.Nodup
  ready_iff : ∀ t, t ∈ k.ready ↔ t ≠ k.idle ∧ k.status t = .ready
  running_iff : ∀ t, k.status t = .running ↔ r = some t
  waiter : ∀ s t, t ∈ (k.sema s).waiters → k.status t = .blocked ∧ t ≠ k.idle ∧ k.waitsOn t = some s
  waiters_nodup : ∀ s, (k.sema s).waiters.Nodup
  unborn : ∀ t, k.count ≤ t → k.status t = .dying
  idle_lt : k.idle < k.count
  idle_awake : k.waitsOn k.idle = none

/-- What the queue invariant adds to the membership of the lists. -/
structure Ordered (k : Kernel) : Prop where
  sorted : k.ready.Pairwise fun a b => k.prio b ≤ k.prio a
  idle_off : k.idle ∉ k.ready

variable {k k' : Kernel} {r : Option Tid} {t : Tid}

theorem Ordered.queueInv (ho : Ordered k) (hi : ListInv k r) : QueueInv k r := by
  refine ⟨ho.sorted, hi.nodup, ?_, hi.running_iff, hi.waiter,
    hi.waiters_nodup, hi.unborn, hi.idle_lt, hi.idle_awake⟩
  intro t
  constructor
  · exact fun ht => ⟨fun h => ho.idle_off (h ▸ ht), hi.ready_status t ht⟩
  · exact fun ⟨hne, hst⟩ => hi.ready_mem t hne hst

/-- The order depends on the queue and on the priorities in it. -/
theorem Ordered.congr (ho : Ordered k) (hready : k'.ready = k.ready) (hidle : k'.idle = k.idle)
    (hprio : ∀ t ∈ k.ready, k'.prio t = k.prio t) : Ordered k' := by
  constructor
  · rw [hready]
    refine ho.sorted.imp_of_mem fun ha hb hab => ?_
    rw [hprio _ ha, hprio _ hb]
    exact hab
  · rw [hready, hidle]
    exact ho.idle_off

-- ==== insertion and the scheduler

/-- Inserting by priority keeps the queue sorted. -/
theorem insert_sorted (t : Tid) {l : List Tid} (hl : l.Pairwise fun a b => k.prio b ≤ k.prio a) :
    (listInsertOrdered k.comparePriorities t l).Pairwise fun a b => k.prio b ≤ k.prio a := by
  have hless a b : k.comparePriorities a b = true ↔ -k.prio a < -k.prio b := by
    unfold comparePriorities
    rw [decide_eq_true_iff]
    omega
  have hl' : l.Pairwise fun a b => -k.prio a ≤ -k.prio b := hl.imp fun hab => by omega
  exact (listInsertOrdered_sorted_key hless t hl').imp fun hab => by omega

section

variable (ho : Ordered k)

include ho

/-- The common half of `thread_unblock` and `thread_yield`. -/
theorem Ordered.enqueue (hne : t ≠ k.idle) : Ordered ({ k with
      ready := listInsertOrdered k.comparePriorities t k.ready }.setStatus t .ready) := by
  constructor
  · refine (insert_sorted t ho.sorted).imp fun hab => ?_
    rw [prio_setStatus, prio_setStatus]
    exact hab
  · intro hm
    rcases (mem_listInsertOrdered ..).mp hm with h | h
    · exact hne h.symm
    · exact ho.idle_off h

theorem Ordered.setStatus (t : Tid) (st : Status) : Ordered (k.setStatus t st) :=
  ho.congr rfl rfl fun u _ => prio_setStatus k t u st

theorem Ordered.threadUnblock (hne : t ≠ k.idle)
    (hs : k.threadUnblock t = some k') : Ordered k' := by
  obtain ⟨-, ⟨⟩⟩ := ite_none_right_eq_some.mp hs
  exact ho.enqueue hne

/-- `schedule` takes the front off a sorted queue, or leaves it empty. -/
theorem Ordered.schedule : Ordered k.schedule := by
  unfold Kernel.schedule nextThreadToRun
  cases hr : k.ready with
  | nil =>
    have hi : Ordered { k with current := k.idle } := ho.congr rfl rfl fun _ _ => rfl
    exact hi.setStatus _ _
  | cons t rest =>
    refine .setStatus ⟨?_, ?_⟩ t .running
    · exact (pairwise_cons.mp (hr ▸ ho.sorted)).2
    · exact fun hm => ho.idle_off (hr ▸ mem_cons_of_mem t hm)

theorem Ordered.threadBlock : Ordered k.threadBlock := (ho.setStatus k.current .blocked).schedule

theorem Ordered.requeueCurrent : Ordered k.requeueCurrent := by
  unfold Kernel.requeueCurrent
  split
  next => exact ho.setStatus _ _
  next hid => exact ho.enqueue hid

theorem Ordered.threadYield : Ordered k.threadYield := ho.requeueCurrent.schedule

theorem Ordered.checkPreemption : Ordered k.checkPreemption := by
  unfold Kernel.checkPreemption
  split
  · exact ho.threadYield
  · exact ho

/-- The running thread may change its priority: it is not queued. -/
theorem Ordered.modThread (ht : t ∉ k.ready) (f : Thread → Thread) : Ordered (k.modThread t f) := by
  refine ho.congr rfl rfl fun u hu => ?_
  have hut : u ≠ t := fun h => ht (h ▸ hu)
  unfold prio
  rw [modThread_thread, if_neg hut]

theorem Ordered.modSema (s : SemaRef) (f : Semaphore → Semaphore) : Ordered (k.modSema s f) :=
  ho.congr rfl rfl fun _ _ => rfl

theorem Ordered.modLock (l : LockId) (f : Lock → Lock) : Ordered (k.modLock l f) :=
  ho.congr rfl rfl fun _ _ => rfl

end

-- ==== semaphores

variable {s : SemaRef} {raised : List Tid} {l : LockId}

/-- `sema_up` up to its preemption check: idle is on no waiters list. -/
theorem Ordered.semaPost (ho : Ordered k) (hi : ListInv k r)
    (hs : k.semaPost s = some k') : Ordered k' := by
  rcases semaPost_cases hs with ⟨-, rfl⟩ | ⟨t, rest, k₂, -, hperm, hun, rfl⟩
  · exact ho.modSema s _
  · have ht := hi.waiter s t (hperm.mem_iff.mp (mem_cons_self ..))
    have ho2 := (ho.modSema s fun m => { m with waiters := rest }).threadUnblock ht.2.1 hun
    exact ho2.modSema s _

theorem Ordered.semaUp (ho : Ordered k) (hi : ListInv k r)
    (hs : k.semaUp s = some k') : Ordered k' := by
  obtain ⟨k₁, hpost, rfl⟩ := semaUp_cases hs
  exact (ho.semaPost hi hpost).checkPreemption

theorem Ordered.interrupt {ups : List SemaRef} {slice : Bool} (ho : Ordered k)
    (hi : ListInv k (some k.current)) (hs : k.interrupt ups slice = some k') : Ordered k' := by
  refine interrupt_induct (P := fun _ k => Ordered k ∧ ListInv k (some k.current)) ?_
    (fun _ h => ⟨h.1, h.1.threadYield⟩) hs ⟨ho, hi⟩
  intro s _ k k' h hpost
  obtain ⟨hi', hcur⟩ := h.2.semaPost hpost
  rw [← hcur] at hi'
  exact ⟨h.1.semaPost h.2 hpost, hi'⟩

-- ==== donation

/-- The threads the loop of `lock_acquire` raises, in the order in which
it meets them. -/
def donees : Nat → LockId → Option Tid → Kernel → List Tid
  | 0, _, _, _ => []
  | _, _, none, _ => []
  | fuel + 1, l, some t, k =>
    if k.prio t < k.prio k.current then
      match (k.thread t).lockWaiting with
      | [] => [t]
      | l' :: _ => t :: donees fuel l' (k.lock l').holder (k.raise l t)
    else []

/-- The state in which the donation of `lock_acquire` runs: the lock is
already on the caller's `lock_waiting`. -/
def queued (l : LockId) (k : Kernel) : Kernel :=
  k.modThread k.current fun th => { th with lockWaiting := th.lockWaiting ++ [l] }

/-- The threads `lock_acquire (l)` would raise. -/
def donationOf (l : LockId) (k : Kernel) : List Tid :=
  match (k.lock l).holder with
  | none => []
  | some t => donees k.count l (some t) (k.queued l)

/-- In the ready queue, no thread that stays below the donor's priority
stands in front of a thread that is raised to it. -/
def DonationOk (l : LockId) (k : Kernel) : Prop :=
  k.ready.Pairwise fun a b => b ∈ k.donationOf l → a ∈ k.donationOf l ∨ k.prio k.current ≤ k.prio a

instance (l : LockId) (k : Kernel) : Decidable (DonationOk l k) :=
  inferInstanceAs (Decidable (List.Pairwise _ _))

/-- The queue that the donation leaves alone, and what it makes of the
priorities. -/
structure Donated (k k' : Kernel) (raised : List Tid) : Prop where
  ready : k'.ready = k.ready
  idle : k'.idle = k.idle
  current : k'.current = k.current
  prio : ∀ t, k'.prio t = if t ∈ raised then k.prio k.current else k.prio t
  below : ∀ t ∈ raised, k.prio t < k.prio k.current

theorem Donated.refl (k : Kernel) : Donated k k [] :=
  ⟨rfl, rfl, rfl, fun t => by simp, fun t ht => by simp at ht⟩

theorem raise_prio (k : Kernel) (l : LockId) (t u : Tid) :
    (k.raise l t).prio u = if u = t then k.prio k.current else k.prio u := by
  unfold Kernel.prio raise
  rw [modLock_thread, modThread_thread]
  split <;> rfl

/-- The donor keeps its priority, even if it is the one that is raised. -/
theorem raise_donor (k : Kernel) (l : LockId) (t : Tid) :
    (k.raise l t).prio (k.raise l t).current = k.prio k.current := by
  rw [raise_prio]
  split <;> rfl

/-- One turn of the loop raises one thread. -/
theorem raise_effect (l : LockId) (hlt : k.prio t < k.prio k.current) :
    Donated k (k.raise l t) [t] := by
  have hr := raise_reprioritised k l t
  refine ⟨hr.ready, hr.idle, hr.current, ?_, ?_⟩
  · intro u
    simp only [mem_singleton]
    exact raise_prio k l t u
  · intro u hu
    rw [mem_singleton.mp hu]
    exact hlt

/-- Two donations at the same priority, the donor itself not raised. -/
theorem Donated.trans {k₁ k₂ : Kernel} {as bs : List Tid} (h1 : Donated k k₁ as)
    (h2 : Donated k₁ k₂ bs) : Donated k k₂ (as ++ bs) := by
  have hself : k.current ∉ as := fun hm => by
    have := h1.below _ hm
    omega
  have hp : k₁.prio k₁.current = k.prio k.current := by rw [h1.current, h1.prio, if_neg hself]
  refine ⟨h2.ready.trans h1.ready, h2.idle.trans h1.idle, h2.current.trans h1.current, ?_, ?_⟩
  · intro t
    rw [h2.prio, hp, h1.prio]
    by_cases ha : t ∈ as <;> by_cases hb : t ∈ bs <;> simp [ha, hb]
  · intro t ht
    rcases mem_append.mp ht with ha | hb
    · exact h1.below t ha
    · have hlt := h2.below t hb
      rw [hp, h1.prio] at hlt
      by_cases ha : t ∈ as
      · exact h1.below t ha
      · rwa [if_neg ha] at hlt

/-- The effect of the donation loop, for any fuel. -/
theorem donate_effect (fuel : Nat) (l : LockId) (h : Option Tid) (k : Kernel) :
    Donated k (donate fuel l h k) (donees fuel l h k) := by
  induction fuel generalizing l h k with
  | zero => exact Donated.refl k
  | succ fuel ih =>
    cases h with
    | none => exact Donated.refl k
    | some t =>
      unfold donate donees
      split
      next hlt =>
        cases (k.thread t).lockWaiting with
        | nil => exact raise_effect l hlt
        | cons l' rest => exact (raise_effect l hlt).trans (ih l' (k.lock l').holder (k.raise l t))
      · exact Donated.refl k

/-- A donation keeps a sorted queue sorted exactly when no thread that
stays below the donor stands in front of a raised one. -/
theorem donate_sorted_iff (hd : Donated k k' raised)
    (hsorted : k.ready.Pairwise fun a b => k.prio b ≤ k.prio a) :
    (k'.ready.Pairwise fun a b => k'.prio b ≤ k'.prio a)
      ↔ k.ready.Pairwise fun a b => b ∈ raised → a ∈ raised ∨ k.prio k.current ≤ k.prio a := by
  rw [hd.ready]
  have hstep a b (hab : k.prio b ≤ k.prio a) :
      (k'.prio b ≤ k'.prio a ↔ (b ∈ raised → a ∈ raised ∨ k.prio k.current ≤ k.prio a)) := by
    rw [hd.prio, hd.prio]
    by_cases hb : b ∈ raised
    · by_cases ha : a ∈ raised <;> simp [ha, hb]
    · by_cases ha : a ∈ raised
      · have := hd.below a ha
        simp only [ha, hb, if_true, if_false, true_or, imp_true_iff, iff_true]
        omega
      · simp [ha, hb, hab]
  constructor
  · intro h
    exact (hsorted.and h).imp fun ⟨h1, h2⟩ => (hstep _ _ h1).mp h2
  · intro h
    exact (hsorted.and h).imp fun ⟨h1, h2⟩ => (hstep _ _ h1).mpr h2

section

variable (ho : Ordered k)

include ho

/-- A donation of the harmless kind keeps the order. -/
theorem Ordered.donated (hd : Donated k k' raised)
    (hok : k.ready.Pairwise fun a b => b ∈ raised → a ∈ raised ∨ k.prio k.current ≤ k.prio a)
    : Ordered k' := by
  refine ⟨(donate_sorted_iff hd ho.sorted).mpr hok, ?_⟩
  rw [hd.ready, hd.idle]
  exact ho.idle_off

-- ==== the step, arm by arm

theorem Ordered.lockRequest (hnr : k.current ∉ k.ready) (hok : DonationOk l k)
    (hs : k.lockRequest l = some k') : Ordered k' := by
  obtain ⟨-, ⟨⟩⟩ := ite_none_left_eq_some.mp hs
  unfold DonationOk donationOf at hok
  cases hh : (k.lock l).holder with
  | none => exact ho.modThread hnr _
  | some t =>
    rw [hh] at hok
    have hq : Ordered (k.queued l) := ho.modThread hnr _
    have hp u : (k.queued l).prio u = k.prio u := by
      unfold queued prio
      rw [modThread_thread]
      split
      next h => rw [h]
      next => rfl
    have hd := donate_effect k.count l (some t) (k.queued l)
    refine .modThread (hq.donated hd ?_) ?_ _
    · refine hok.imp fun h hb => ?_
      rw [hp, hp]
      exact h hb
    · rw [hd.ready]
      exact hnr

theorem Ordered.lockRelease (hi : ListInv k (some k.current)) (hs : k.lockRelease l = some k') :
    Ordered k' := by
  obtain ⟨-, hs⟩ := ite_none_right_eq_some.mp hs
  refine .semaUp (r := some k.current) ?_ ?_ hs
  · exact ((ho.modLock l _).modThread hi.current_facts.1 _).modLock l _
  · refine .modLock (ListInv.modCurrent (hi.modLock l _) ?_ ?_) l _
    · exact fun _ => rfl
    · exact fun _ _ => rfl

theorem Ordered.spawn {p : Int} (hi : ListInv k (some k.current)) (hs : k.spawn p = some k') :
    Ordered k' := by
  obtain ⟨-, hs⟩ := ite_none_right_eq_some.mp hs
  have hnot : k.count ∉ k.ready := fun hm => by
    have := hi.ready_status _ hm
    rw [hi.unborn k.count (Nat.le_refl _)] at this
    cases this
  have ho1 : Ordered { k with count := k.count + 1 } := ho.congr rfl rfl fun _ _ => rfl
  exact (ho1.modThread hnot _).threadUnblock (Nat.ne_of_gt hi.idle_lt) hs

theorem Ordered.resume (hnr : k.current ∉ k.ready) (hs : k.resume = some k') : Ordered k' := by
  cases resume_cases hs with
  | sleep _ _ => exact (ho.modSema _ _).threadBlock
  | down _ _ => exact (ho.modSema _ _).modThread hnr _
  | take _ _ => exact (((ho.modSema _ _).modThread hnr _).modLock _ _).modThread hnr _

end

/-- The guard of the runs in which no donation disorders the queue. -/
def donationGuard (a : Act) (k : Kernel) : Prop :=
  match a with
  | .lockAcquire l => DonationOk l k
  | _ => True

theorem Ordered.step {a : Act} (ho : Ordered k) (hi : ListInv k (some k.current))
    (hok : donationGuard a k) (hs : k.step a = some k') : Ordered k' := by
  have hnr := hi.current_facts.1
  rcases step_cases hs with ⟨-, h⟩ | ⟨-, hc⟩
  · exact ho.resume hnr h
  · cases hc with
    | spawn h => exact ho.spawn hi h
    | unblock _ hid h => exact ho.threadUnblock hid h
    | checkPreemption => exact ho.checkPreemption
    | yield => exact ho.threadYield
    | block => exact ho.threadBlock
    | setPriority => exact (ho.modThread hnr _).checkPreemption
    | semaDown _ => exact ho.modThread hnr _
    | semaUp h => exact ho.semaUp hi h
    | lockAcquire _ h => exact ho.lockRequest hnr hok h
    | lockRelease h => exact ho.lockRelease hi h
    | interrupt h => exact ho.interrupt hi h

/-- The booted systems, for any initial semaphore values. -/
def Booted (k : Kernel) : Prop := ∃ v, k = boot v

/-- The reachable states of the thread system whose donations were all
harmless to the queue. -/
theorem queueInv_reachable (hr : Reach Booted step donationGuard k) :
    QueueInv k (some k.current) := by
  have h : Ordered k ∧ ListInv k (some k.current) := by
    refine Reach.induct (P := fun k => Ordered k ∧ ListInv k (some k.current)) ?_ ?_ k hr
    · rintro k ⟨v, rfl⟩
      exact ⟨⟨List.Pairwise.nil, not_mem_nil⟩, listInv_boot v⟩
    · rintro a k k' - ⟨ho, hi⟩ hok hs
      exact ⟨ho.step hi hok hs, hi.step hs⟩
  exact h.1.queueInv h.2

-- ==== what it is for

/-- A READY thread: on the ready queue, so never the idle thread. -/
def IsReady (k : Kernel) (t : Tid) : Prop := t ≠ k.idle ∧ k.status t = .ready

/-- Sorted by non-increasing current priority. -/
def ReadySorted (k : Kernel) : Prop := k.ready.Pairwise fun a b => k.prio b ≤ k.prio a

/-- `next_thread_to_run` returns a READY thread of maximal priority
whenever there is a READY thread. -/
def PicksMaximal (k : Kernel) : Prop :=
  k.ready ≠ [] → k.IsReady k.nextThreadToRun.1 ∧
    ∀ t, k.IsReady t → k.prio t ≤ k.prio k.nextThreadToRun.1

/-- `check_preemption` yields exactly when some READY thread has a
higher priority than the running one. -/
def PreemptsExactly (k : Kernel) : Prop :=
  k.preempts = true ↔ ∃ t, k.IsReady t ∧ k.prio k.current < k.prio t

theorem QueueInv.picksMaximal (hi : QueueInv k r) : PicksMaximal k := by
  intro hne
  cases hr : k.ready with
  | nil => exact absurd hr hne
  | cons t rest =>
    have hnext : k.nextThreadToRun.1 = t := by simp only [nextThreadToRun, hr]
    rw [hnext]
    refine ⟨(hi.ready_iff t).mp (hr ▸ mem_cons_self ..), ?_⟩
    intro u hu
    have hmem : u ∈ t :: rest := hr ▸ (hi.ready_iff u).mpr hu
    rcases mem_cons.mp hmem with rfl | hmem
    · exact Int.le_refl _
    · exact (pairwise_cons.mp (hr ▸ hi.sorted)).1 u hmem

theorem QueueInv.preemptsExactly (hi : QueueInv k r) : PreemptsExactly k := by
  unfold PreemptsExactly preempts
  cases hr : k.ready with
  | nil =>
    simp only [Bool.false_eq_true, false_iff]
    rintro ⟨t, ht, -⟩
    have := (hi.ready_iff t).mpr ht
    simp [hr] at this
  | cons t rest =>
    rw [decide_eq_true_eq]
    constructor
    · exact fun h => ⟨t, (hi.ready_iff t).mp (hr ▸ mem_cons_self ..), h⟩
    · rintro ⟨u, hu, hlt⟩
      have hmem : u ∈ t :: rest := hr ▸ (hi.ready_iff u).mpr hu
      rcases mem_cons.mp hmem with rfl | hmem
      · exact hlt
      · have := (pairwise_cons.mp (hr ▸ hi.sorted)).1 u hmem
        omega

/-- In every run whose donations never lift a READY thread over one that
stands in front of it, the ready queue stays sorted by current priority,
the scheduler picks a READY thread of maximal priority, and the
preemption check is exact. -/
theorem ready_list_sorted_by_priority {k : Kernel} (hr : Reach Booted step donationGuard k) :
    ReadySorted k ∧ PicksMaximal k ∧ PreemptsExactly k := by
  have hi := queueInv_reachable hr
  exact ⟨hi.sorted, hi.picksMaximal, hi.preemptsExactly⟩

instance (a : Act) (k : Kernel) : Decidable (donationGuard a k) :=
  match a with
  | .lockAcquire l => inferInstanceAs (Decidable (DonationOk l k))
  | .spawn _ | .unblock _ | .checkPreemption | .yield | .block
  | .setPriority _ | .semaDown _ | .semaUp _ | .lockRelease _ | .resume
  | .interrupt _ _ => .isTrue trivial

/-- A run with a donation to a READY thread: the initial thread holds a
lock, is preempted by a thread of priority 40, and stands in front of two
more threads on the queue when that thread asks for the lock. -/
theorem ready_list_sorted_after_donation :
    ∃ k, Reach Booted step donationGuard k ∧
      k.ready = [0, 3, 4] ∧ k.ready.map k.prio = [40, 25, 20] ∧
      ReadySorted k ∧ PicksMaximal k ∧ PreemptsExactly k := by
  have h0 : Reach Booted step donationGuard (boot fun _ => 0) := .init ⟨_, rfl⟩
  obtain ⟨k, hr, hready, hprio⟩ := h0.of_runAll [.lockAcquire 0, .resume, .spawn 40,
    .checkPreemption, .spawn 25, .spawn 20, .lockAcquire 0]
    (fun k => k.ready = [0, 3, 4] ∧ k.ready.map k.prio = [40, 25, 20]) (by decide)
  exact ⟨k, hr, hready, hprio, ready_list_sorted_by_priority hr⟩

/-- With two more threads on the queue in front of the lock's holder, the
donation leaves it behind them: thread 3 (priority 35) runs, the queue
holds thread 4 (33) in front of the donee (40), the scheduler would pick
thread 4, and the preemption check sees nothing. -/
theorem donation_unsorts_ready_list :
    ∃ k, Reach Booted step anyStep k ∧ ¬ReadySorted k ∧ ¬PicksMaximal k ∧ ¬PreemptsExactly k := by
  have hb : Reach Booted step anyStep (boot fun _ => 0) := .init ⟨_, rfl⟩
  obtain ⟨k, hr, hready, hcur, hidle, hst, h0, h3, h4⟩ := hb.of_runAll
    [.lockAcquire 0, .resume, .spawn 40, .checkPreemption, .spawn 35,
      .spawn 33, .lockAcquire 0, .resume]
    (fun k => k.ready = [4, 0] ∧ k.current = 3 ∧ k.idle = 1 ∧ k.status 0 = .ready ∧
      k.prio 0 = 40 ∧ k.prio 3 = 35 ∧ k.prio 4 = 33) (by decide)
  have hdonee : k.IsReady 0 := ⟨by rw [hidle]; decide, hst⟩
  refine ⟨k, hr, ?_, ?_, ?_⟩
  · intro hsorted
    unfold ReadySorted at hsorted
    rw [hready] at hsorted
    have := (pairwise_cons.mp hsorted).1 0 (mem_singleton_self 0)
    omega
  · intro hmax
    have hle := (hmax (by rw [hready]; simp)).2 0 hdonee
    simp only [nextThreadToRun, hready] at hle
    omega
  · intro hexact
    have hyes := hexact.mpr ⟨0, hdonee, by rw [hcur]; omega⟩
    simp only [preempts, hready, hcur, decide_eq_true_eq] at hyes
    omega

end Kernel

end Pintos
