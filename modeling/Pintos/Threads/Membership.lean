/-
Which threads are on which list.

`ListInv k r` says that the ready queue holds exactly the READY threads
other than idle, each once, that `r` is the one running thread (none, in
the middle of a switch), and that the waiters of a semaphore are the
blocked threads, each once, whose continuation is that semaphore's loop.
Every
operation keeps it: a thread is put on a list only by an operation of its
own, when it runs and is on none, or when it is taken off another.

The order of the lists plays no part here; it is the subject of the ready
queue.
-/
import Pintos.Threads.Kernel
import Mathlib.Data.List.Nodup

namespace Pintos.Kernel

open List Option

-- ==== field projections

section Projections

variable (k : Kernel) (t u : Tid) (st : Status) (s : SemaRef) (l : LockId)
  (f : Thread → Thread) (g : Semaphore → Semaphore) (h : Lock → Lock)

@[simp] theorem modThread_current : (k.modThread t f).current = k.current := rfl
@[simp] theorem modThread_sema : (k.modThread t f).sema = k.sema := rfl
@[simp] theorem modThread_lock : (k.modThread t f).lock = k.lock := rfl
@[simp] theorem setStatus_ready : (k.setStatus t st).ready = k.ready := rfl
@[simp] theorem setStatus_current : (k.setStatus t st).current = k.current := rfl
@[simp] theorem setStatus_idle : (k.setStatus t st).idle = k.idle := rfl
@[simp] theorem setStatus_count : (k.setStatus t st).count = k.count := rfl
@[simp] theorem setStatus_sema : (k.setStatus t st).sema = k.sema := rfl
@[simp] theorem modSema_thread : (k.modSema s g).thread = k.thread := rfl
@[simp] theorem modSema_current : (k.modSema s g).current = k.current := rfl
@[simp] theorem modLock_thread : (k.modLock l h).thread = k.thread := rfl
@[simp] theorem modLock_sema : (k.modLock l h).sema = k.sema := rfl

theorem modThread_thread : (k.modThread t f).thread u
    = if u = t then f (k.thread t) else k.thread u := rfl

@[simp] theorem status_setStatus : (k.setStatus t st).status u
    = if u = t then st else k.status u := by
  unfold setStatus status
  rw [modThread_thread]
  split <;> rfl

/-- What a change at one point leaves alone. -/
theorem kept_at {ι α β : Type} [DecidableEq ι] (g : α → β) {f : ι → α} {i j : ι} {x : α}
    (h : g x = g (f i)) : g (if j = i then x else f j) = g (f j) := by
  split
  next hj => rw [h, hj]
  next => rfl

@[simp] theorem prio_setStatus : (k.setStatus t st).prio u = k.prio u := kept_at Thread.priority rfl

@[simp] theorem waitsOn_setStatus : (k.setStatus t st).waitsOn u = k.waitsOn u :=
  kept_at (fun th : Thread => th.resume.sema) rfl

end Projections

variable {k k' : Kernel} {r : Option Tid} {t : Tid} {s : SemaRef}

-- ==== what a step consists of

/-- The calls of the running thread, function by function. -/
inductive Called (k : Kernel) : Act → Kernel → Prop
  | spawn {p : Int} {k' : Kernel} (h : k.spawn p = some k') : Called k (.spawn p) k'
  | unblock {t : Tid} {k' : Kernel} (hr : (k.thread t).resume = .none)
      (hid : t ≠ k.idle) (h : k.threadUnblock t = some k') :
      Called k (.unblock t) k'
  | checkPreemption : Called k .checkPreemption k.checkPreemption
  | yield : Called k .yield k.threadYield
  | block : Called k .block k.threadBlock
  | setPriority {p : Int} : Called k (.setPriority p) (k.threadSetPriority p)
  | semaDown {s : SemaRef} (hid : k.current ≠ k.idle) :
      Called k (.semaDown s) (k.modThread k.current fun th => { th with resume := .semaDown s })
  | semaUp {s : SemaRef} {k' : Kernel} (h : k.semaUp s = some k') : Called k (.semaUp s) k'
  | lockAcquire {l : LockId} {k' : Kernel} (hid : k.current ≠ k.idle)
      (h : k.lockRequest l = some k') : Called k (.lockAcquire l) k'
  | lockRelease {l : LockId} {k' : Kernel} (h : k.lockRelease l = some k') :
      Called k (.lockRelease l) k'
  | interrupt {ups : List SemaRef} {slice : Bool} {k' : Kernel}
      (h : k.interrupt ups slice = some k') :
      Called k (.interrupt ups slice) k'

variable {a : Act} {ups : List SemaRef} {slice : Bool} {r' : Option Tid} {st : Status} {l : LockId}

/-- A turn of the loop of `sema_down`: it goes to sleep or takes a unit,
in `lock_acquire` the lock's. -/
inductive Resumed (k : Kernel) : Kernel → Prop
  | sleep {s : SemaRef} (hw : k.waitsOn k.current = some s) (hz : (k.sema s).value = 0) :
      Resumed k (k.semaWait s)
  | down {s : SemaRef} (hr : (k.thread k.current).resume = .semaDown s)
      (hv : (k.sema s).value ≠ 0) :
      Resumed k ((k.modSema s fun m => { m with value := m.value - 1 }).modThread k.current
        fun th => { th with resume := .none })
  | take {l : LockId} (hr : (k.thread k.current).resume = .lockAcquire l)
      (hv : (k.sema (.ofLock l)).value ≠ 0) :
      Resumed k (((k.modSema (.ofLock l) fun m =>
        { m with value := m.value - 1 }).lockTaken l).modThread k.current
          fun th => { th with resume := .none })

/-- What the running thread does when it goes on. -/
theorem resume_cases (hs : k.resume = some k') : Resumed k k' := by
  unfold Kernel.resume at hs
  split at hs
  next => cases hs
  next s hr =>
    split at hs <;> cases hs
    next hz => exact .sleep (congrArg Resume.sema hr) hz
    next hv => exact .down hr hv
  next l hr =>
    split at hs <;> cases hs
    next hz => exact .sleep (congrArg Resume.sema hr) hz
    next hv => exact .take hr hv

/-- A step is a turn of a `sema_down` loop or a call outside of one. -/
theorem step_cases (hs : k.step a = some k') :
    (a = .resume ∧ k.resume = some k') ∨ ((k.thread k.current).resume = .none ∧ Called k a k') := by
  unfold Kernel.step at hs
  split at hs
  case isFalse =>
    split at hs
    · exact .inl ⟨rfl, hs⟩
    · cases hs
  case isTrue hnone =>
    refine .inr ⟨hnone, ?_⟩
    split at hs
    case isTrue =>
      split at hs
      · cases hs
        exact .block
      · exact .interrupt hs
      · cases hs
    case isFalse hid =>
      cases a with
      | spawn p => exact .spawn hs
      | unblock t =>
        simp only [call] at hs
        split at hs
        next hg => exact .unblock hg.1 hg.2 hs
        next => cases hs
      | checkPreemption => cases hs; exact .checkPreemption
      | yield => cases hs; exact .yield
      | block => cases hs; exact .block
      | setPriority p => cases hs; exact .setPriority
      | semaDown s => cases hs; exact .semaDown hid
      | semaUp s => exact .semaUp hs
      | lockAcquire l => exact .lockAcquire hid hs
      | lockRelease l => exact .lockRelease hs
      | resume => cases hs
      | interrupt ups slice => exact .interrupt hs

/-- `sema_up` up to its preemption check, with and without a waiter. -/
theorem semaPost_cases (hs : k.semaPost s = some k') :
    ((k.sema s).waiters = [] ∧ k' = k.modSema s fun m => { m with value := m.value + 1 }) ∨
    ∃ t rest k₁, listSort k.comparePriorities (k.sema s).waiters = t :: rest ∧
      (t :: rest).Perm (k.sema s).waiters ∧
      threadUnblock t (k.modSema s fun m => { m with waiters := rest }) = some k₁ ∧
      k' = k₁.modSema s fun m => { m with value := m.value + 1 } := by
  have hperm := listSort_perm k.comparePriorities (k.sema s).waiters
  unfold Kernel.semaPost at hs
  split at hs
  next h =>
    rw [h] at hperm
    exact .inl ⟨hperm.symm.eq_nil, (some.inj hs).symm⟩
  next t rest h =>
    rw [h] at hperm
    obtain ⟨k₁, hun, rfl⟩ := map_eq_some_iff.mp hs
    exact .inr ⟨t, rest, k₁, h, hperm, hun, rfl⟩

/-- `sema_up` ends with the check for preemption. -/
theorem semaUp_cases (hs : k.semaUp s = some k') :
    ∃ k₁, k.semaPost s = some k₁ ∧ k' = k₁.checkPreemption := by
  obtain ⟨k₁, hpost, rfl⟩ := map_eq_some_iff.mp hs
  exact ⟨k₁, hpost, rfl⟩

/-- An external interrupt is its ups, one after the other, and perhaps a
yield. `P` is kept by the ups, its list being what is still to come. -/
theorem interrupt_induct {P : List SemaRef → Kernel → Prop} {Q : Kernel → Prop}
    (hpost : ∀ s rest k k', P (s :: rest) k → k.semaPost s = some k' → P rest k')
    (hend : ∀ k, P [] k → Q k ∧ Q k.threadYield) (hs : k.interrupt ups slice = some k')
    (h0 : P ups k) : Q k' := by
  obtain ⟨⟨flag, k₁⟩, hups, rfl⟩ := map_eq_some_iff.mp hs
  have key : ∀ (us : List SemaRef) (b : Bool) (k : Kernel), P us k →
      interruptUps us b k = some (flag, k₁) → P [] k₁ := by
    intro us
    induction us with
    | nil =>
      intro b k h0 h
      simp only [interruptUps, Option.some.injEq, Prod.mk.injEq] at h
      exact h.2 ▸ h0
    | cons s rest ih =>
      intro b k h0 h
      unfold interruptUps at h
      split at h
      next k₂ h2 => exact ih _ k₂ (hpost s rest k k₂ h0 h2) h
      next => cases h
  have h1 := key ups slice k h0 hups
  cases flag with
  | true => exact (hend k₁ h1).2
  | false => exact (hend k₁ h1).1

-- ==== switching

/-- Only statuses, the ready queue and the running thread change. -/
structure Switched (k k' : Kernel) : Prop where
  sema : k'.sema = k.sema
  lock : k'.lock = k.lock
  count : k'.count = k.count
  idle : k'.idle = k.idle
  thread : ∀ t, ∃ st, k'.thread t = { k.thread t with status := st }

namespace Switched

theorem refl (k : Kernel) : Switched k k := ⟨rfl, rfl, rfl, rfl, fun _ => ⟨_, rfl⟩⟩

theorem trans {k₁ k₂ : Kernel} (h1 : Switched k k₁) (h2 : Switched k₁ k₂) : Switched k k₂ := by
  refine ⟨h2.sema.trans h1.sema, h2.lock.trans h1.lock,
    h2.count.trans h1.count, h2.idle.trans h1.idle, fun t => ?_⟩
  obtain ⟨st₁, e₁⟩ := h1.thread t
  obtain ⟨st₂, e₂⟩ := h2.thread t
  exact ⟨st₂, by rw [e₂, e₁]⟩

theorem waitsOn (h : Switched k k') (t : Tid) : k'.waitsOn t = k.waitsOn t := by
  obtain ⟨st, e⟩ := h.thread t
  unfold Kernel.waitsOn
  rw [e]

/-- A status, after a change of the queue and of the running thread. -/
theorem setStatus (k : Kernel) (q : List Tid) (c t : Tid) (st : Status) :
    Switched k ({ k with ready := q, current := c }.setStatus t st) := by
  refine ⟨rfl, rfl, rfl, rfl, fun u => ?_⟩
  unfold Kernel.setStatus
  rw [modThread_thread]
  split
  next h => exact ⟨st, h ▸ rfl⟩
  next => exact ⟨_, rfl⟩

theorem schedule (k : Kernel) : Switched k k.schedule := by
  unfold Kernel.schedule nextThreadToRun
  cases k.ready with
  | nil => exact setStatus k k.ready ..
  | cons t rest => exact setStatus ..

/-- `thread_block` only switches. -/
theorem threadBlock (k : Kernel) : Switched k k.threadBlock :=
  (setStatus k k.ready k.current ..).trans (schedule _)

theorem requeueCurrent (k : Kernel) : Switched k k.requeueCurrent := by
  unfold Kernel.requeueCurrent
  split
  · exact setStatus k k.ready k.current ..
  · exact setStatus k _ k.current ..

/-- `thread_yield` only switches. -/
theorem threadYield (k : Kernel) : Switched k k.threadYield := (requeueCurrent k).trans (schedule _)

/-- The check for preemption at most yields. -/
theorem checkPreemption (k : Kernel) : Switched k k.checkPreemption := by
  unfold Kernel.checkPreemption
  split
  · exact threadYield k
  · exact refl k

/-- `thread_unblock` readies a thread. -/
theorem threadUnblock (hs : k.threadUnblock t = some k') : Switched k k' := by
  obtain ⟨-, ⟨⟩⟩ := ite_none_right_eq_some.mp hs
  exact setStatus k _ k.current ..

end Switched

-- ==== the invariant

/-- Which threads may be on which list, `r` being the running thread. -/
structure OnLists (k : Kernel) (r : Option Tid) : Prop where
  nodup : k.ready.Nodup
  ready_status : ∀ t ∈ k.ready, k.status t = .ready
  ready_mem : ∀ t, t ≠ k.idle → k.status t = .ready → t ∈ k.ready
  running_iff : ∀ t, k.status t = .running ↔ r = some t
  waiter : ∀ s t, t ∈ (k.sema s).waiters → k.status t = .blocked ∧ t ≠ k.idle ∧ k.waitsOn t = some s
  waiters_nodup : ∀ s, (k.sema s).waiters.Nodup
  unborn : ∀ t, k.count ≤ t → k.status t = .dying
  idle_lt : k.idle < k.count
  idle_awake : k.waitsOn k.idle = none

/-- Which threads are on which list: those that sleep in `sema_down` are
all queued. -/
structure ListInv (k : Kernel) (r : Option Tid) : Prop extends OnLists k r where
  asleep : ∀ t s, k.status t = .blocked → k.waitsOn t = some s → t ∈ (k.sema s).waiters

/-- The running thread is on no list. -/
theorem ListInv.running_not_ready (hi : ListInv k r) (ht : r = some t) : t ∉ k.ready := by
  intro hmem
  have hst := hi.ready_status t hmem
  simp [(hi.running_iff t).mpr ht] at hst

/-- What the invariant says of one thread. -/
structure Listed (k : Kernel) (r : Option Tid) (t : Tid) : Prop where
  ready_status : t ∈ k.ready → k.status t = .ready
  ready_mem : t ≠ k.idle → k.status t = .ready → t ∈ k.ready
  running_iff : k.status t = .running ↔ r = some t
  waiter : ∀ s, t ∈ (k.sema s).waiters → k.status t = .blocked ∧ t ≠ k.idle ∧ k.waitsOn t = some s
  unborn : k.count ≤ t → k.status t = .dying
  asleep : ∀ s, k.status t = .blocked → k.waitsOn t = some s → t ∈ (k.sema s).waiters

/-- Nothing has changed about the threads outside `P`. -/
structure But (P : Tid → Prop) (k k' : Kernel) (r r' : Option Tid) : Prop where
  idle : k'.idle = k.idle
  count : k.count ≤ k'.count
  status : ∀ u, ¬P u → k'.status u = k.status u
  waitsOn : ∀ u, ¬P u → k'.waitsOn u = k.waitsOn u
  ready : ∀ u, ¬P u → (u ∈ k'.ready ↔ u ∈ k.ready)
  waiters : ∀ s u, ¬P u → (u ∈ (k'.sema s).waiters ↔ u ∈ (k.sema s).waiters)
  running : ∀ u, ¬P u → (r' = some u ↔ r = some u)

/-- The invariant reads threads one by one: it is left to show it of those
that have changed. -/
theorem ListInv.but {P : Tid → Prop} (hi : ListInv k r) (hb : But P k k' r r')
    (hready : k'.ready.Nodup) (hwaiters : ∀ s, (k'.sema s).waiters.Nodup)
    (hP : ∀ t, P t → Listed k' r' t ∧ (t = k.idle → k'.waitsOn t = none)) : ListInv k' r' := by
  have hall t : Listed k' r' t := by
    by_cases ht : P t
    · exact (hP t ht).1
    constructor <;> simp only [hb.status t ht, hb.waitsOn t ht, hb.ready t ht, hb.waiters _ t ht,
      hb.running t ht, hb.idle]
    · exact hi.ready_status t
    · exact hi.ready_mem t
    · exact hi.running_iff t
    · exact fun s => hi.waiter s t
    · exact fun h => hi.unborn t (Nat.le_trans hb.count h)
    · exact hi.asleep t
  refine ⟨⟨hready, fun t => (hall t).ready_status, fun t => (hall t).ready_mem,
    fun t => (hall t).running_iff, fun s t => (hall t).waiter s, hwaiters,
    fun t => (hall t).unborn, ?_, ?_⟩, fun t => (hall t).asleep⟩
  · rw [hb.idle]
    exact Nat.lt_of_lt_of_le hi.idle_lt hb.count
  · rw [hb.idle]
    by_cases hP' : P k.idle
    · exact (hP _ hP').2 rfl
    · rw [hb.waitsOn _ hP']
      exact hi.idle_awake

/-- A step no thread is changed by. -/
theorem ListInv.unchanged (hi : ListInv k r) (hidle : k'.idle = k.idle)
    (hcount : k'.count = k.count) (hready : k'.ready = k.ready)
    (hwaiters : ∀ s, (k'.sema s).waiters = (k.sema s).waiters)
    (hstatus : ∀ t, k'.status t = k.status t) (hwaits : ∀ t, k'.waitsOn t = k.waitsOn t) :
    ListInv k' r := by
  refine hi.but (P := fun _ => False) ⟨hidle, Nat.le_of_eq hcount.symm, fun u _ => hstatus u,
    fun u _ => hwaits u, ?_, ?_, fun _ _ => Iff.rfl⟩ ?_ ?_ nofun
  · simp [hready]
  · simp [hwaiters]
  · rw [hready]
    exact hi.nodup
  · simpa [hwaiters] using hi.waiters_nodup

-- ==== insertion and the scheduler

theorem insert_nodup {l : List Tid} (ht : t ∉ l) (hl : l.Nodup) :
    (listInsertOrdered k.comparePriorities t l).Nodup :=
  (listInsertOrdered_perm _ t l).nodup_iff.mpr (nodup_cons.mpr ⟨ht, hl⟩)

/-- A new status for `t`, after a change of the lists that other threads
do not see. -/
theorem ListInv.restatus {j : Kernel} (hi : ListInv k r) (st : Status)
    (hthread : j.thread = k.thread) (hidle : j.idle = k.idle) (hcount : j.count = k.count)
    (hready : ∀ u, u ≠ t → (u ∈ j.ready ↔ u ∈ k.ready))
    (hwaiters : ∀ s u, u ≠ t → (u ∈ (j.sema s).waiters ↔ u ∈ (k.sema s).waiters))
    (hr : ∀ u, u ≠ t → (r' = some u ↔ r = some u)) (hnodup : j.ready.Nodup)
    (hwaiters_nodup : ∀ s, (j.sema s).waiters.Nodup)
    (ht : Listed (j.setStatus t st) r' t) : ListInv (j.setStatus t st) r' := by
  have hwaits u : (j.setStatus t st).waitsOn u = k.waitsOn u := by
    rw [waitsOn_setStatus]
    unfold waitsOn
    rw [hthread]
  refine hi.but (P := (· = t)) ⟨hidle, Nat.le_of_eq hcount.symm, ?_, fun u _ => hwaits u, hready,
    hwaiters, hr⟩ hnodup hwaiters_nodup ?_
  · intro u hu
    rw [status_setStatus, if_neg hu]
    unfold status
    rw [hthread]
  · intro u hu
    subst hu
    refine ⟨ht, fun h => ?_⟩
    rw [hwaits, h]
    exact hi.idle_awake

/-- Putting a thread that is not READY into the queue: the common half of
`thread_unblock` and `thread_yield`. -/
theorem ListInv.enqueue (hi : ListInv k r) (hnr : k.status t ≠ .ready) (hlt : t < k.count)
    (hw : ∀ s, t ∉ (k.sema s).waiters)
    (hr : ∀ u, u ≠ t → (r' = some u ↔ r = some u)) (hrt : r' ≠ some t) :
    ListInv ({ k with
      ready := listInsertOrdered k.comparePriorities t k.ready }.setStatus t .ready) r' := by
  have hnot : t ∉ k.ready := fun hm => hnr (hi.ready_status t hm)
  refine hi.restatus _ rfl rfl rfl ?_ (fun _ _ _ => Iff.rfl) hr (insert_nodup hnot hi.nodup)
    hi.waiters_nodup ⟨?_, ?_, ?_, fun s h => absurd h (hw s), ?_, ?_⟩
  · exact fun u hu => (mem_listInsertOrdered ..).trans (or_iff_right hu)
  · simp
  · exact fun _ _ => (mem_listInsertOrdered ..).mpr (.inl rfl)
  · simp [hrt]
  · exact fun h => absurd hlt (Nat.not_lt.mpr h)
  · simp

/-- `thread_unblock` of a thread on no waiters list. -/
theorem ListInv.threadUnblock (hi : ListInv k r) (hw : ∀ s, t ∉ (k.sema s).waiters)
    (hs : k.threadUnblock t = some k') : ListInv k' r := by
  obtain ⟨hb, ⟨⟩⟩ := ite_none_right_eq_some.mp hs
  refine hi.enqueue (by rw [hb]; decide) ?_ hw (fun _ _ => Iff.rfl) ?_
  · by_contra hge
    have := hi.unborn t (Nat.not_lt.mp hge)
    rw [hb] at this
    cases this
  · intro hrt
    have := (hi.running_iff t).mpr hrt
    rw [hb] at this
    cases this

/-- Unblocking does not switch threads. -/
theorem threadUnblock_current (hs : k.threadUnblock t = some k') : k'.current = k.current := by
  obtain ⟨-, ⟨⟩⟩ := ite_none_right_eq_some.mp hs
  rfl

/-- Changing the status of a thread off every list, to something other
than READY, or to blocked when it waits for no semaphore. -/
theorem ListInv.offList (hi : ListInv k r) (hready : t ∉ k.ready) (hst : t = k.idle ∨ st ≠ .ready)
    (hw : ∀ s, t ∉ (k.sema s).waiters) (hlt : t < k.count)
    (hnone : st = .blocked → k.waitsOn t = none) (hr : ∀ u, u ≠ t → (r' = some u ↔ r = some u))
    (hrt : st = .running ↔ r' = some t) : ListInv (k.setStatus t st) r' := by
  refine hi.restatus _ rfl rfl rfl (fun _ _ => Iff.rfl) (fun _ _ _ => Iff.rfl) hr hi.nodup
    hi.waiters_nodup ⟨fun h => absurd h hready, ?_, ?_, fun s h => absurd h (hw s),
      fun h => absurd hlt (Nat.not_lt.mpr h), ?_⟩
  · intro hne h
    rw [status_setStatus, if_pos rfl] at h
    exact absurd h (hst.resolve_left hne)
  · simpa using hrt
  · intro s h hws
    rw [status_setStatus, if_pos rfl] at h
    rw [waitsOn_setStatus, hnone h] at hws
    cases hws

/-- Entered with no thread running, the switch to a thread of the ready
queue. -/
theorem ListInv.switch (hi : ListInv k none) (ht : t ∈ k.ready) :
    ListInv ({ k with ready := k.ready.erase t, current := t }.setStatus t .running) (some t) := by
  have hst := hi.ready_status t ht
  refine hi.restatus _ rfl rfl rfl ?_ (fun _ _ _ => Iff.rfl) ?_ (hi.nodup.erase t) hi.waiters_nodup
    ⟨fun h => absurd h hi.nodup.not_mem_erase, ?_, ?_, fun s h => ?_, fun h => ?_, ?_⟩
  · exact fun u hu => hi.nodup.mem_erase_iff.trans (and_iff_right hu)
  · intro u hu
    simp [Ne.symm hu]
  · simp
  · simp
  · cases hst.symm.trans (hi.waiter s t h).1
  · cases hst.symm.trans (hi.unborn t h)
  · simp

/-- `schedule`, entered with no thread running. -/
theorem ListInv.schedule (hi : ListInv k none) : ListInv k.schedule (some k.schedule.current) := by
  cases hr : k.ready with
  | nil =>
    have hsch : k.schedule = { k with current := k.idle }.setStatus k.idle .running := by
      simp only [Kernel.schedule, nextThreadToRun, hr]
    have hi' : ListInv { k with current := k.idle } none :=
      hi.unchanged rfl rfl rfl (fun _ => rfl) (fun _ => rfl) fun _ => rfl
    rw [hsch]
    refine hi'.offList ?_ (.inr (by decide)) ?_ hi.idle_lt nofun ?_ (by simp)
    · show k.idle ∉ k.ready
      rw [hr]
      exact not_mem_nil
    · exact fun s hs => (hi.waiter s _ hs).2.1 rfl
    · intro u hu
      simp [Ne.symm hu]
  | cons t rest =>
    have hsch : k.schedule =
        { k with ready := k.ready.erase t, current := t }.setStatus t .running := by
      simp only [Kernel.schedule, nextThreadToRun, hr, erase_cons_head]
    rw [hsch]
    exact hi.switch (hr ▸ mem_cons_self ..)

/-- When the running thread stops, none is running. -/
theorem none_running (u : Tid) (hu : u ≠ k.current) : none = some u ↔ some k.current = some u := by
  simp [Ne.symm hu]

section

variable (hi : ListInv k (some k.current))

include hi

/-- The facts about the running thread that the updates below consume. -/
theorem ListInv.current_facts :
    k.current ∉ k.ready ∧ k.status k.current = .running
      ∧ (∀ s, k.current ∉ (k.sema s).waiters) ∧ k.current < k.count := by
  have hrun : k.status k.current = .running := (hi.running_iff _).mpr rfl
  refine ⟨hi.running_not_ready rfl, hrun, ?_, ?_⟩
  · intro s hs
    have := (hi.waiter s _ hs).1
    simp [hrun] at this
  · by_contra hge
    have := hi.unborn _ (Nat.not_lt.mp hge)
    simp [hrun] at this

theorem ListInv.threadBlock (hnone : (k.thread k.current).resume = .none) :
    ListInv k.threadBlock (some k.threadBlock.current) := by
  obtain ⟨hnr, -, hw, hlt⟩ := hi.current_facts
  refine (hi.offList hnr (.inr (by decide)) hw hlt (fun _ => ?_) none_running (by simp)).schedule
  unfold waitsOn
  rw [hnone]
  rfl

theorem ListInv.requeueCurrent : ListInv k.requeueCurrent none := by
  obtain ⟨hnr, hrun, hw, hlt⟩ := hi.current_facts
  unfold Kernel.requeueCurrent
  split
  next hid => exact hi.offList hnr (.inl hid) hw hlt nofun none_running (by simp)
  next hid => exact hi.enqueue (by rw [hrun]; decide) hlt hw none_running nofun

theorem ListInv.threadYield : ListInv k.threadYield (some k.threadYield.current) :=
  hi.requeueCurrent.schedule

theorem ListInv.checkPreemption : ListInv k.checkPreemption (some k.checkPreemption.current) := by
  unfold Kernel.checkPreemption
  split
  · exact hi.threadYield
  · exact hi

/-- Changing the running thread's record, but for its status, is
invisible to the queue: it is on no list. -/
theorem ListInv.modCurrent {f : Thread → Thread} (hst : ∀ th, (f th).status = th.status)
    (hid : k.current = k.idle → ∀ th, (f th).resume = th.resume) :
    ListInv (k.modThread k.current f) (some k.current) := by
  obtain ⟨hnr, hrun, hw, hlt⟩ := hi.current_facts
  have hother : ∀ u, u ≠ k.current → (k.modThread k.current f).thread u = k.thread u :=
    fun u hu => if_neg hu
  have hself : (k.modThread k.current f).thread k.current = f (k.thread k.current) := if_pos rfl
  have hrun' : (k.modThread k.current f).status k.current = .running := by
    unfold status
    rw [hself, hst]
    exact hrun
  refine hi.but (P := (· = k.current)) ⟨rfl, Nat.le_refl _, ?_, ?_, fun _ _ => Iff.rfl,
    fun _ _ _ => Iff.rfl, fun _ _ => Iff.rfl⟩ hi.nodup hi.waiters_nodup ?_
  · intro u hu
    unfold status
    rw [hother u hu]
  · intro u hu
    unfold waitsOn
    rw [hother u hu]
  · rintro _ rfl
    refine ⟨⟨fun h => absurd h hnr, ?_, iff_of_true hrun' rfl, fun s h => absurd h (hw s),
      fun h => absurd hlt (Nat.not_lt.mpr h), ?_⟩, fun h => ?_⟩
    · simp [hrun']
    · simp [hrun']
    · unfold waitsOn
      rw [hself, hid h]
      exact h ▸ hi.idle_awake

end

theorem ListInv.modLock (hi : ListInv k r) (l : LockId) (f : Lock → Lock) :
    ListInv (k.modLock l f) r :=
  hi.unchanged rfl rfl rfl (fun _ => rfl) (fun _ => rfl) fun _ => rfl

/-- Changing a semaphore's value is invisible to the queue. -/
theorem ListInv.modValue (hi : ListInv k r) (s : SemaRef) (f : Nat → Nat) :
    ListInv (k.modSema s fun m => { m with value := f m.value }) r := by
  refine hi.unchanged rfl rfl rfl ?_ (fun _ => rfl) fun _ => rfl
  intro r'
  simp only [modSema]
  split
  next h => rw [h]
  next => rfl

-- ==== semaphores

/-- Going to sleep on the semaphore whose loop the thread is in. -/
theorem ListInv.semaWait (hi : ListInv k (some k.current))
    (hid : k.current ≠ k.idle) (hws : k.waitsOn k.current = some s) :
    ListInv (k.semaWait s) (some (k.semaWait s).current) := by
  obtain ⟨hnr, hrun, hw, hlt⟩ := hi.current_facts
  refine (hi.restatus (j := k.modSema s fun m => { m with
    waiters := listInsertOrdered k.comparePriorities k.current m.waiters }) .blocked
    rfl rfl rfl (fun _ _ => Iff.rfl) ?_ none_running hi.nodup ?_ ⟨fun h => absurd h hnr, ?_, ?_, ?_,
      fun h => absurd hlt (Nat.not_lt.mpr h), ?_⟩).schedule
  · intro s' u hu
    by_cases hs : s' = s <;> simp [modSema, hs, hu]
  · intro s'
    by_cases hs : s' = s
    · subst hs
      simpa [modSema] using insert_nodup (hw s') (hi.waiters_nodup s')
    · simpa [modSema, hs] using hi.waiters_nodup s'
  · simp
  · simp
  · -- the thread is on the waiters it has just joined and no other
    intro s' h
    rw [waitsOn_setStatus]
    refine ⟨by simp, hid, ?_⟩
    by_cases hs : s' = s
    · rw [hs]
      exact hws
    · refine absurd ?_ (hw s')
      simpa [modSema, hs] using h
  · -- and it joins those of its loop
    intro s' _ h
    rw [waitsOn_setStatus] at h
    have hs : s' = s := some.inj (h.symm.trans hws)
    subst hs
    simp [modSema]

/-- `sema_up` up to its preemption check. -/
theorem ListInv.semaPost (hi : ListInv k r) (hs : k.semaPost s = some k') :
    ListInv k' r ∧ k'.current = k.current := by
  rcases semaPost_cases hs with ⟨-, rfl⟩ | ⟨t, rest, k₂, -, hperm, hun, rfl⟩
  · exact ⟨hi.modValue s (· + 1), rfl⟩
  · have hnd : t ∉ rest ∧ rest.Nodup := nodup_cons.mp (hperm.nodup_iff.mpr (hi.waiters_nodup s))
    obtain ⟨htb, -, htw⟩ := hi.waiter s t (hperm.mem_iff.mp (mem_cons_self ..))
    have hnot : t ∉ k.ready := fun h => by cases htb.symm.trans (hi.ready_status t h)
    obtain ⟨-, ⟨⟩⟩ := ite_none_right_eq_some.mp hun
    refine ⟨.modValue (hi.restatus (j := { k.modSema s _ with
      ready := listInsertOrdered _ t k.ready }) .ready rfl rfl rfl ?_ ?_ (fun _ _ => Iff.rfl)
      (insert_nodup hnot hi.nodup) ?_ ⟨?_, ?_, ?_, ?_, ?_, ?_⟩) s (· + 1), rfl⟩
    · exact fun u hu => (mem_listInsertOrdered ..).trans (or_iff_right hu)
    · intro s' u hu
      by_cases hss : s' = s
      · simp [modSema, hss, ← hperm.mem_iff, hu]
      · simp [modSema, hss]
    · intro s'
      by_cases hss : s' = s
      · simpa [modSema, hss] using hnd.2
      · simpa [modSema, hss] using hi.waiters_nodup s'
    · simp
    · exact fun _ _ => (mem_listInsertOrdered ..).mpr (.inl rfl)
    · have hrt : r ≠ some t := fun h => by cases htb.symm.trans ((hi.running_iff t).mpr h)
      simp [hrt]
    · intro s' hs'
      by_cases hss : s' = s
      · exact absurd (by simpa [modSema, hss] using hs') hnd.1
      · have := (hi.waiter s' t (by simpa [modSema, hss] using hs')).2.2
        rw [htw, Option.some.injEq] at this
        exact absurd this.symm hss
    · exact fun h => by cases htb.symm.trans (hi.unborn t h)
    · simp

theorem ListInv.semaUp (hi : ListInv k (some k.current))
    (hs : k.semaUp s = some k') : ListInv k' (some k'.current) := by
  obtain ⟨k₁, hpost, rfl⟩ := semaUp_cases hs
  obtain ⟨hi1, hcur⟩ := hi.semaPost hpost
  rw [← hcur] at hi1
  exact hi1.checkPreemption

theorem ListInv.interrupt (hi : ListInv k (some k.current)) (hs : k.interrupt ups slice = some k') :
    ListInv k' (some k'.current) := by
  refine interrupt_induct (P := fun _ k => ListInv k (some k.current))
    ?_ (fun _ h => ⟨h, h.threadYield⟩) hs hi
  intro s _ k k' h hpost
  obtain ⟨h', hcur⟩ := h.semaPost hpost
  rwa [← hcur] at h'

-- ==== donation

/-- What the donation of `lock_acquire` leaves alone: everything but the
priorities of threads and locks. -/
structure Reprioritised (k k' : Kernel) : Prop where
  ready : k'.ready = k.ready
  idle : k'.idle = k.idle
  count : k'.count = k.count
  current : k'.current = k.current
  sema : k'.sema = k.sema
  status : ∀ t, k'.status t = k.status t
  resume : ∀ t, (k'.thread t).resume = (k.thread t).resume
  holder : ∀ l, (k'.lock l).holder = (k.lock l).holder

theorem Reprioritised.refl (k : Kernel) : Reprioritised k k :=
  ⟨rfl, rfl, rfl, rfl, rfl, fun _ => rfl, fun _ => rfl, fun _ => rfl⟩

theorem Reprioritised.trans {k₁ k₂ : Kernel} (h1 : Reprioritised k k₁)
    (h2 : Reprioritised k₁ k₂) : Reprioritised k k₂ :=
  ⟨h2.ready.trans h1.ready, h2.idle.trans h1.idle,
    h2.count.trans h1.count, h2.current.trans h1.current,
    h2.sema.trans h1.sema, fun t => (h2.status t).trans (h1.status t),
    fun t => (h2.resume t).trans (h1.resume t),
    fun l => (h2.holder l).trans (h1.holder l)⟩

theorem raise_reprioritised (k : Kernel) (l : LockId) (t : Tid) :
    Reprioritised k (k.raise l t) := by
  refine ⟨rfl, rfl, rfl, rfl, rfl, ?_, ?_, ?_⟩
  · exact fun u => kept_at Thread.status rfl
  · exact fun u => kept_at Thread.resume rfl
  · exact fun m => kept_at Lock.holder rfl

/-- What every turn of the donation loop keeps, the loop keeps, for any
fuel. -/
theorem donate_turns {R : Kernel → Kernel → Prop} (hrefl : ∀ k, R k k)
    (hturn : ∀ {k k'} l t, R (k.raise l t) k' → R k k')
    (fuel : Nat) (l : LockId) (h : Option Tid) (k : Kernel) : R k (donate fuel l h k) := by
  induction fuel generalizing l h k with
  | zero => exact hrefl k
  | succ fuel ih =>
    cases h with
    | none => exact hrefl k
    | some t =>
      unfold donate
      split
      case isFalse => exact hrefl k
      case isTrue =>
        split
        · exact hturn l t (hrefl _)
        · exact hturn l t (ih _ _ _)

/-- A donation changes no list. -/
theorem donate_reprioritised :
    ∀ (fuel : Nat) (l : LockId) (h : Option Tid) (k : Kernel),
      Reprioritised k (donate fuel l h k) :=
  donate_turns Reprioritised.refl fun l t h => (raise_reprioritised _ l t).trans h

theorem Reprioritised.waitsOn (h : Reprioritised k k') (t : Tid) : k'.waitsOn t = k.waitsOn t := by
  unfold Kernel.waitsOn
  rw [h.resume]

theorem ListInv.reprioritised (hi : ListInv k r) (h : Reprioritised k k') : ListInv k' r :=
  hi.unchanged h.idle h.count h.ready (fun s => by rw [h.sema]) h.status h.waitsOn

-- ==== the step, arm by arm

section

variable (hi : ListInv k (some k.current))

include hi

/-- The running thread's record in the middle of `lock_acquire`. -/
theorem ListInv.lockRequest (hid : k.current ≠ k.idle) (hs : k.lockRequest l = some k') :
    ListInv k' (some k'.current) := by
  obtain ⟨-, ⟨⟩⟩ := ite_none_left_eq_some.mp hs
  cases hh : (k.lock l).holder with
  | none => exact hi.modCurrent (fun _ => rfl) (fun h => absurd h hid)
  | some t =>
    have hq := hi.modCurrent (f := fun th =>
      { th with lockWaiting := th.lockWaiting ++ [l] })
      (fun _ => rfl) (fun _ _ => rfl)
    have hd := donate_reprioritised k.count l (some t) (k.modThread k.current fun th =>
        { th with lockWaiting := th.lockWaiting ++ [l] })
    have hi1 := hq.reprioritised hd
    show ListInv ((donate k.count l (some t) _).modThread k.current _)
      (some (donate k.count l (some t) _).current)
    generalize donate k.count l (some t) _ = k₁ at hd hi1 ⊢
    have hcur : k₁.current = k.current := hd.current
    rw [← hcur] at hi1 ⊢
    refine hi1.modCurrent (fun _ => rfl) fun h => absurd ?_ hid
    rw [← hcur, h, hd.idle]
    rfl

theorem ListInv.lockRelease (hs : k.lockRelease l = some k') : ListInv k' (some k'.current) := by
  obtain ⟨-, hs⟩ := ite_none_right_eq_some.mp hs
  refine .semaUp ?_ hs
  refine .modLock (ListInv.modCurrent (hi.modLock l _) ?_ ?_) l _
  · exact fun _ => rfl
  · exact fun _ _ => rfl

theorem ListInv.spawn {p : Int} (hs : k.spawn p = some k') : ListInv k' (some k'.current) := by
  obtain ⟨-, hs⟩ := ite_none_right_eq_some.mp hs
  obtain ⟨hnr, hrun, hw, hlt⟩ := hi.current_facts
  have hdead := hi.unborn k.count (Nat.le_refl _)
  have hnot : k.count ∉ k.ready := fun hm => by
    have := hi.ready_status _ hm
    rw [hdead] at this
    cases this
  have hnw : ∀ s, k.count ∉ (k.sema s).waiters := fun s hm => by
    have := (hi.waiter s _ hm).1
    rw [hdead] at this
    cases this
  let new : Thread :=
    { status := .blocked, priority := p, oldPriority := p,
      lockHolding := [], lockWaiting := [], resume := .none }
  let k₁ := { k with count := k.count + 1 }.modThread k.count fun _ => new
  have hth : ∀ u, u ≠ k.count → k₁.thread u = k.thread u := fun u hu => by
    simp only [k₁, modThread_thread, if_neg hu]
  have hnew : k₁.status k.count = .blocked := by
    unfold Kernel.status
    simp only [k₁, modThread_thread, if_pos]
    rfl
  have hst : ∀ u, u ≠ k.count → k₁.status u = k.status u := fun u hu => by
    unfold Kernel.status
    rw [hth u hu]
  have hi1 : ListInv k₁ (some k.current) := by
    have hwaits : k₁.waitsOn k.count = none := by
      unfold waitsOn
      simp only [k₁, modThread_thread, if_pos]
      rfl
    refine hi.but (P := (· = k.count)) ⟨rfl, Nat.le_succ _, hst, ?_, fun _ _ => Iff.rfl,
      fun _ _ _ => Iff.rfl, fun _ _ => Iff.rfl⟩ hi.nodup hi.waiters_nodup ?_
    · intro u hu
      unfold waitsOn
      rw [hth u hu]
    · rintro _ rfl
      refine ⟨⟨fun h => absurd h hnot, ?_, ?_, fun s h => absurd h (hnw s),
        fun h => absurd h (Nat.not_succ_le_self _), ?_⟩, fun _ => hwaits⟩
      · simp [hnew]
      · simp [hnew, Nat.ne_of_lt hlt]
      · simp [hwaits]
  have hcur : k'.current = k.current := by
    rw [threadUnblock_current hs]
    rfl
  rw [hcur]
  exact hi1.threadUnblock hnw hs

theorem ListInv.resume (hs : k.resume = some k') : ListInv k' (some k'.current) := by
  have hne : ∀ {s}, k.waitsOn k.current = some s → k.current ≠ k.idle := by
    intro s hws hid
    simp [hid, hi.idle_awake] at hws
  cases resume_cases hs with
  | sleep hw _ => exact hi.semaWait (hne hw) hw
  | @down s hr _ =>
    exact (hi.modValue s (· - 1)).modCurrent (fun _ => rfl)
      fun h => absurd h (hne (congrArg Resume.sema hr))
  | @take l hr _ =>
    refine .modCurrent (ListInv.modLock (ListInv.modCurrent
      (hi.modValue (.ofLock l) (· - 1)) ?_ ?_) l _) ?_ ?_
    · exact fun _ => rfl
    · exact fun _ _ => rfl
    · exact fun _ => rfl
    · exact fun h => absurd h (hne (congrArg Resume.sema hr))

/-- Every step keeps the lists. -/
theorem ListInv.step (hs : k.step a = some k') : ListInv k' (some k'.current) := by
  rcases step_cases hs with ⟨-, h⟩ | ⟨hnone, hc⟩
  · exact hi.resume h
  · cases hc with
    | spawn h => exact hi.spawn h
    | @unblock t _ hr _ h =>
      rw [threadUnblock_current h]
      refine hi.threadUnblock (fun s hm => ?_) h
      have := (hi.waiter s t hm).2.2
      unfold waitsOn at this
      rw [hr] at this
      cases this
    | checkPreemption => exact hi.checkPreemption
    | yield => exact hi.threadYield
    | block => exact hi.threadBlock hnone
    | setPriority =>
      refine .checkPreemption (ListInv.modCurrent hi ?_ ?_)
      · exact fun _ => rfl
      · exact fun _ _ => rfl
    | semaDown hid => exact hi.modCurrent (fun _ => rfl) (fun h => absurd h hid)
    | semaUp h => exact hi.semaUp h
    | lockAcquire hid h => exact hi.lockRequest hid h
    | lockRelease h => exact hi.lockRelease h
    | interrupt h => exact hi.interrupt h

end

/-- The invariant holds at boot. -/
theorem listInv_boot (v : Nat → Nat) : ListInv (boot v) (some (boot v).current) := by
  have hst : ∀ t, (boot v).status t
      = if t = 0 then .running else if t = 1 then .blocked else .dying :=
    fun _ => rfl
  refine ⟨⟨nodup_nil, ?_, ?_, ?_, ?_, ?_, ?_, Nat.one_lt_two, rfl⟩, ?_⟩
  · nofun
  · intro t _ h
    rw [hst] at h
    split at h
    · cases h
    · split at h <;> cases h
  · intro t
    rw [hst]
    show _ ↔ some 0 = some t
    by_cases h0 : t = 0
    · simp [h0]
    · rw [if_neg h0]
      by_cases h1 : t = 1
      · simp [h1]
      · simp [h1, Ne.symm h0]
  · nofun
  · exact fun s => nodup_nil
  · intro t ht
    have ht' : 2 ≤ t := ht
    rw [hst, if_neg (show t ≠ 0 by omega), if_neg (show t ≠ 1 by omega)]
  · nofun

end Pintos.Kernel
