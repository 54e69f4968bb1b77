/-
What a step of the thread system does to the locks.

# Quiet steps

A lock is its semaphore, its `holder` and its `max_priority`; a thread
takes part in it through its priorities, its two lock lists and the
continuation it left behind in `lock_acquire`. Most steps touch none of
these: they move threads between lists and change their status. Such a
step is `Quiet`, whatever else it does, and an invariant of the locks
needs one lemma for all of them.

# The others

`LockMove` lists the steps that remain: `lock_acquire` up to its
semaphore, the two ways out of the semaphore's loop, `lock_release` and
`thread_set_priority`. It presumes that the semaphore inside a lock is
used by the lock only (`ownSemas`).
-/
import Pintos.Threads.ReadyQueue
import Pintos.Threads.Synch

namespace Pintos

open Transition List Option

/-- A semaphore that is not inside a lock. -/
def SemaRef.own : SemaRef → Bool
  | .plain _ => true
  | .ofLock _ => false

/-- A continuation outside `lock_acquire`. -/
def Resume.Plain (r : Resume) : Prop := ∀ l, r.sema ≠ some (.ofLock l)

/-- A thread outside every loop is in no lock's. -/
theorem Resume.plain_none : Resume.none.Plain := nofun

theorem Resume.plain_semaDown (n : Nat) : (Resume.semaDown (.plain n)).Plain := nofun

/-- Two records that differ, at most, in the status and in a continuation
that is no lock's. -/
structure Thread.Alike (th th' : Thread) : Prop where
  priority : th'.priority = th.priority
  oldPriority : th'.oldPriority = th.oldPriority
  lockHolding : th'.lockHolding = th.lockHolding
  lockWaiting : th'.lockWaiting = th.lockWaiting
  resume : th'.resume = th.resume ∨ th.resume.Plain ∧ th'.resume.Plain

/-- What the locks see of a thread that was just created. -/
structure Thread.Fresh (th : Thread) : Prop where
  base : priMin ≤ th.oldPriority
  lockHolding : th.lockHolding = []
  resume : th.resume.Plain

namespace Thread

theorem Alike.refl (th : Thread) : Alike th th := ⟨rfl, rfl, rfl, rfl, .inl rfl⟩

variable {th th' : Thread}

theorem Alike.trans {th₁ th₂ : Thread} (h1 : Alike th th₁) (h2 : Alike th₁ th₂) : Alike th th₂ := by
  refine ⟨h2.priority.trans h1.priority, h2.oldPriority.trans h1.oldPriority,
    h2.lockHolding.trans h1.lockHolding, h2.lockWaiting.trans h1.lockWaiting, ?_⟩
  rcases h2.resume with e₂ | ⟨p₁, p₂⟩
  · rw [e₂]
    exact h1.resume
  · rcases h1.resume with e₁ | ⟨p, -⟩
    · exact .inr ⟨e₁ ▸ p₁, p₂⟩
    · exact .inr ⟨p, p₂⟩

/-- The lock whose semaphore a thread is in, both ways. -/
theorem Alike.inLock (h : Alike th th') (l : LockId) :
    th'.resume.sema = some (.ofLock l) ↔ th.resume.sema = some (.ofLock l) := by
  rcases h.resume with e | ⟨p, p'⟩
  · rw [e]
  · exact ⟨fun h' => absurd h' (p' l), fun h' => absurd h' (p l)⟩

theorem Alike.plain (h : Alike th th') (hp : th.resume.Plain) : th'.resume.Plain :=
  fun l hl => hp l ((h.inLock l).mp hl)

theorem Fresh.alike (hf : Fresh th) (h : Alike th th') : Fresh th' := by
  refine ⟨?_, ?_, h.plain hf.resume⟩
  · rw [h.oldPriority]
    exact hf.base
  · rw [h.lockHolding]
    exact hf.lockHolding

end Thread

namespace Kernel

-- ==== quiet steps

/-- The locks see nothing of the step: their fields and semaphores are
kept, and so is every thread's part in them but for new threads. -/
structure Quiet (k k' : Kernel) : Prop where
  count : k.count ≤ k'.count
  idle : k'.idle = k.idle
  lock : k'.lock = k.lock
  sema : ∀ l, k'.sema (.ofLock l) = k.sema (.ofLock l)
  thread : ∀ t, Thread.Alike (k.thread t) (k'.thread t) ∨ k.count ≤ t ∧ Thread.Fresh (k'.thread t)

theorem Quiet.refl (k : Kernel) : Quiet k k :=
  ⟨le_refl _, rfl, rfl, fun _ => rfl, fun _ => .inl (.refl _)⟩

variable {k k' : Kernel} {l : LockId} {t : Tid} {s : SemaRef}

theorem Quiet.trans {k₁ k₂ : Kernel} (h1 : Quiet k k₁) (h2 : Quiet k₁ k₂) : Quiet k k₂ := by
  refine ⟨le_trans h1.count h2.count, h2.idle.trans h1.idle,
    h2.lock.trans h1.lock, fun l => (h2.sema l).trans (h1.sema l), ?_⟩
  intro t
  rcases h2.thread t with a₂ | ⟨c₂, f₂⟩
  · rcases h1.thread t with a₁ | ⟨c₁, f₁⟩
    · exact .inl (a₁.trans a₂)
    · exact .inr ⟨c₁, f₁.alike a₂⟩
  · exact .inr ⟨le_trans h1.count c₂, f₂⟩

/-- Threads alike, locks and their semaphores kept. -/
theorem Quiet.of_alike (hcount : k'.count = k.count) (hidle : k'.idle = k.idle)
    (hlock : k'.lock = k.lock) (hsema : ∀ l, k'.sema (.ofLock l) = k.sema (.ofLock l))
    (hthread : ∀ t, Thread.Alike (k.thread t) (k'.thread t)) : Quiet k k' :=
  ⟨le_of_eq hcount.symm, hidle, hlock, hsema, fun t => .inl (hthread t)⟩

theorem alike_modThread {f : Thread → Thread} (hf : Thread.Alike (k.thread t) (f (k.thread t)))
    (u : Tid) : Thread.Alike (k.thread u) ((k.modThread t f).thread u) := by
  rw [modThread_thread]
  split
  next hu => exact hu ▸ hf
  next => exact .refl _

/-- A switch changes statuses only. -/
theorem Switched.alike (h : Switched k k') (t : Tid) : Thread.Alike (k.thread t) (k'.thread t) := by
  obtain ⟨st, e⟩ := h.thread t
  rw [e]
  exact ⟨rfl, rfl, rfl, rfl, .inl rfl⟩

/-- A switch does nothing to the locks. -/
theorem Switched.quiet (h : Switched k k') : Quiet k k' :=
  .of_alike h.count h.idle h.lock (fun l => by rw [h.sema]) h.alike

/-- Nor does a change to a semaphore of no lock. -/
theorem quiet_modPlain (k : Kernel) (n : Nat)
    (g : Semaphore → Semaphore) : Quiet k (k.modSema (.plain n) g) := by
  refine .of_alike rfl rfl rfl (fun l => ?_) fun _ => .refl _
  simp [modSema]

/-- Nor does `thread_create`. -/
theorem quiet_spawn {p : Int} (hs : k.spawn p = some k') : Quiet k k' := by
  obtain ⟨hp, hs⟩ := ite_none_right_eq_some.mp hs
  refine Quiet.trans ?_ (Switched.threadUnblock hs).quiet
  refine ⟨Nat.le_succ _, rfl, rfl, fun _ => rfl, ?_⟩
  intro t
  rw [modThread_thread]
  split
  next ht =>
    refine Or.inr ⟨le_of_eq ht.symm, hp.1, rfl, ?_⟩
    exact Resume.plain_none
  next => exact Or.inl (.refl _)

-- ==== posting a semaphore

/-- `sema_up` up to its preemption check: the first thread of the sorted
waiters leaves them, and the value goes up. -/
structure Upped (s : SemaRef) (k k' : Kernel) : Prop where
  count : k'.count = k.count
  current : k'.current = k.current
  idle : k'.idle = k.idle
  lock : k'.lock = k.lock
  waiters : (k'.sema s).waiters = (listSort k.comparePriorities (k.sema s).waiters).tail
  value : (k'.sema s).value = (k.sema s).value + 1
  sema : ∀ r, r ≠ s → k'.sema r = k.sema r
  thread : ∀ t, Thread.Alike (k.thread t) (k'.thread t)

/-- `sema_up` up to its check has the shape `Upped`. -/
theorem semaPost_upped (hs : k.semaPost s = some k') : Upped s k k' := by
  rcases semaPost_cases hs with ⟨hw, rfl⟩ | ⟨t, rest, k₁, hcons, -, hun, rfl⟩
  · refine ⟨rfl, rfl, rfl, rfl, ?_, ?_, ?_, fun _ => .refl _⟩
    · simp [modSema, hw, listSort, listSortLoop]
    · simp [modSema]
    · intro r hr
      simp [modSema, hr]
  · have hsw := Switched.threadUnblock hun
    have hcur := threadUnblock_current hun
    refine ⟨hsw.count, hcur, hsw.idle, hsw.lock, ?_, ?_, ?_, hsw.alike⟩
    · simp [modSema, hsw.sema, hcons]
    · simp [modSema, hsw.sema]
    · intro r hr
      simp [modSema, hsw.sema, hr]

/-- `sema_up` makes nobody wait. -/
theorem Upped.mem_waiters {r : SemaRef} (h : Upped s k k')
    (ht : t ∈ (k'.sema r).waiters) : t ∈ (k.sema r).waiters := by
  by_cases hr : r = s
  · subst hr
    rw [h.waiters] at ht
    exact (listSort_perm _ _).mem_iff.mp (mem_of_mem_tail ht)
  · rw [h.sema r hr] at ht
    exact ht

theorem Upped.quiet {n : Nat} (h : Upped (.plain n) k k') : Quiet k k' :=
  .of_alike h.count h.idle h.lock (fun l => h.sema _ (by intro e; cases e)) h.thread

theorem quiet_semaPost (hown : s.own = true) (hs : k.semaPost s = some k') : Quiet k k' := by
  cases s with
  | plain n => exact (semaPost_upped hs).quiet
  | ofLock l => cases hown

theorem quiet_interrupt {ups : List SemaRef} {slice : Bool} (hown : ∀ s ∈ ups, s.own = true)
    (hs : k.interrupt ups slice = some k') : Quiet k k' := by
  refine interrupt_induct (P := fun rest k₁ => Quiet k k₁ ∧ ∀ s ∈ rest, s.own = true) ?_
    (fun k₁ h => ⟨h.1, h.1.trans (Switched.threadYield k₁).quiet⟩) hs ⟨.refl k, hown⟩
  intro s rest k₁ k₂ h hpost
  exact ⟨h.1.trans (quiet_semaPost (h.2 s (mem_cons_self ..)) hpost),
    fun r hr => h.2 r (mem_cons_of_mem _ hr)⟩

-- ==== the steps on locks

/-- The semaphore inside a lock is used by the lock only. -/
def ownSemas (a : Act) (_ : Kernel) : Prop :=
  match a with
  | .semaDown s => s.own = true
  | .semaUp s => s.own = true
  | .interrupt ups _ => ∀ s ∈ ups, s.own = true
  | _ => True

instance (a : Act) (k : Kernel) : Decidable (ownSemas a k) :=
  match a with
  | .semaDown s => inferInstanceAs (Decidable (s.own = true))
  | .semaUp s => inferInstanceAs (Decidable (s.own = true))
  | .interrupt ups _ => inferInstanceAs (Decidable (∀ s ∈ ups, s.own = true))
  | .spawn _ | .unblock _ | .checkPreemption | .yield | .block
  | .setPriority _ | .lockAcquire _ | .lockRelease _ | .resume => .isTrue trivial

/-- The running thread's record once it is in `lock_acquire`. -/
def entered (l : LockId) (k : Kernel) : Kernel :=
  k.modThread k.current fun th => { th with resume := .lockAcquire l }

/-- `lock_acquire` of a lock that `t` holds, up to its `sema_down`. -/
def donated (l : LockId) (t : Tid) (k : Kernel) : Kernel :=
  entered l (donate k.count l (some t) (k.queued l))

/-- `lock_acquire` from the end of the loop of its `sema_down` on. -/
def granted (l : LockId) (k : Kernel) : Kernel :=
  ((k.modSema (.ofLock l) fun m =>
    { m with value := m.value - 1 }).lockTaken l).modThread k.current
      fun th => { th with resume := .none }

/-- The priority of the second thread of a list of waiters. -/
def secondPriority (k : Kernel) : List Tid → Int
  | _ :: second :: _ => k.prio second
  | _ => 0

/-- The new `max_priority` of a released lock. -/
def cacheAfterRelease (l : LockId) (k : Kernel) : Int :=
  k.secondPriority (k.sema (.ofLock l)).waiters

/-- `lock_release` up to its `sema_up`. -/
def released (l : LockId) (k : Kernel) : Kernel :=
  let k₁ := k.modLock l fun m => { m with maxPriority := k.cacheAfterRelease l }
  let holding := (k.thread k.current).lockHolding.erase l
  (k₁.modThread k.current fun th => { th with
    lockHolding := holding
    priority := k₁.priorityAfterRelease holding }).modLock l fun m => { m with holder := none }

/-- `thread_set_priority` up to its preemption check. -/
def rebased (new : Int) (k : Kernel) : Kernel :=
  k.modThread k.current fun th => { th with
    priority := if th.priority = th.oldPriority then new else th.priority
    oldPriority := new }

/-- The steps of the system, as the locks see them. -/
inductive LockMove (k : Kernel) : Act → Kernel → Prop
  | quiet {a : Act} {k' : Kernel}
      (hp : (k.thread k.current).resume.Plain) (hq : Quiet k k') :
      LockMove k a k'
  | enter {l : LockId} (hr : (k.thread k.current).resume = .none)
      (hh : (k.lock l).holder = none) :
      LockMove k (.lockAcquire l) (k.entered l)
  | donate {l : LockId} {t : Tid}
      (hr : (k.thread k.current).resume = .none)
      (hh : (k.lock l).holder = some t) (ht : t ≠ k.current) :
      LockMove k (.lockAcquire l) (k.donated l t)
  | sleep {l : LockId}
      (hr : (k.thread k.current).resume = .lockAcquire l)
      (hv : (k.sema (.ofLock l)).value = 0) :
      LockMove k .resume (k.semaWait (.ofLock l))
  | take {l : LockId}
      (hr : (k.thread k.current).resume = .lockAcquire l)
      (hv : (k.sema (.ofLock l)).value ≠ 0) :
      LockMove k .resume (k.granted l)
  | release {l : LockId} {k₁ : Kernel}
      (hr : (k.thread k.current).resume = .none)
      (hh : (k.lock l).holder = some k.current)
      (hpost : (k.released l).semaPost (.ofLock l) = some k₁) :
      LockMove k (.lockRelease l) k₁.checkPreemption
  | rebase {new : Int} (hr : (k.thread k.current).resume = .none) :
      LockMove k (.setPriority new) (k.rebased new).checkPreemption

theorem lockMove_resume (hraw : ∀ t l, (k.thread t).resume ≠ .semaDown (.ofLock l))
    (hs : k.resume = some k') : LockMove k .resume k' := by
  unfold Kernel.resume at hs
  split at hs
  next => cases hs
  next s hr =>
    cases s with
    | ofLock l => exact absurd hr (hraw _ l)
    | plain n =>
      have hp : (k.thread k.current).resume.Plain := hr ▸ Resume.plain_semaDown n
      split at hs <;> injection hs with hs <;> subst hs
      · exact .quiet hp ((quiet_modPlain k n _).trans (Switched.threadBlock _).quiet)
      · refine .quiet hp ((quiet_modPlain k n fun m => { m with value := m.value - 1 }).trans ?_)
        refine .of_alike rfl rfl rfl (fun _ => rfl) (alike_modThread ?_)
        exact ⟨rfl, rfl, rfl, rfl, .inr ⟨hp, Resume.plain_none⟩⟩
  next l hr =>
    split at hs <;> injection hs with hs <;> subst hs
    next hv => exact .sleep hr hv
    next hv => exact .take hr hv

/-- Both ways through `lock_acquire` to its semaphore. -/
theorem lockRequest_cases (hs : k.lockRequest l = some k') :
    (k.lock l).holder = none ∧ k' = k.entered l ∨
      ∃ t, (k.lock l).holder = some t ∧ t ≠ k.current ∧ k' = k.donated l t := by
  obtain ⟨hne, ⟨⟩⟩ := ite_none_left_eq_some.mp hs
  cases hh : (k.lock l).holder with
  | none => exact Or.inl ⟨rfl, rfl⟩
  | some t =>
    refine Or.inr ⟨t, rfl, fun h => hne (h ▸ hh), ?_⟩
    have hcur : (donate k.count l (some t) (k.queued l)).current
        = k.current := (donate_effect _ _ _ _).current
    unfold donated entered
    rw [hcur]
    rfl

theorem lockMove_lockRequest (hr : (k.thread k.current).resume = .none)
    (hs : k.lockRequest l = some k') : LockMove k (.lockAcquire l) k' := by
  rcases lockRequest_cases hs with ⟨hh, rfl⟩ | ⟨t, hh, ht, rfl⟩
  · exact .enter hr hh
  · exact .donate hr hh ht

/-- `lock_release` is a move of the locks. -/
theorem lockMove_lockRelease (hr : (k.thread k.current).resume = .none)
    (hs : k.lockRelease l = some k') : LockMove k (.lockRelease l) k' := by
  obtain ⟨hh, hs⟩ := ite_none_right_eq_some.mp hs
  obtain ⟨k₁, hpost, rfl⟩ := semaUp_cases hs
  exact .release hr hh hpost

/-- Every step is one of these. -/
theorem lockMove_step {a : Act} (hraw : ∀ t l, (k.thread t).resume ≠ .semaDown (.ofLock l))
    (hok : ownSemas a k) (hs : k.step a = some k') : LockMove k a k' := by
  rcases step_cases hs with ⟨rfl, h⟩ | ⟨hnone, hc⟩
  · exact lockMove_resume hraw h
  · have hp : (k.thread k.current).resume.Plain := hnone ▸ Resume.plain_none
    cases hc with
    | spawn h => exact .quiet hp (quiet_spawn h)
    | unblock _ _ h => exact .quiet hp (Switched.threadUnblock h).quiet
    | checkPreemption => exact .quiet hp (Switched.checkPreemption k).quiet
    | yield => exact .quiet hp (Switched.threadYield k).quiet
    | block => exact .quiet hp (Switched.threadBlock k).quiet
    | setPriority => exact .rebase hnone
    | @semaDown s _ =>
      refine .quiet hp (.of_alike rfl rfl rfl (fun _ => rfl)
        (alike_modThread ⟨rfl, rfl, rfl, rfl, .inr ⟨hp, ?_⟩⟩))
      cases s with
      | plain n => exact Resume.plain_semaDown n
      | ofLock l => cases hok
    | semaUp h =>
      obtain ⟨k₁, hpost, rfl⟩ := semaUp_cases h
      exact .quiet hp ((quiet_semaPost hok hpost).trans (Switched.checkPreemption k₁).quiet)
    | lockAcquire _ h => exact lockMove_lockRequest hnone h
    | lockRelease h => exact lockMove_lockRelease hnone h
    | interrupt h => exact .quiet hp (quiet_interrupt hok h)

-- ==== single steps, inverted

/-- `lock_acquire` is called outside every loop. -/
theorem step_lockAcquire (hs : k.step (.lockAcquire l) = some k') :
    (k.thread k.current).resume = .none ∧ k.lockRequest l = some k' := by
  rcases step_cases hs with ⟨h, -⟩ | ⟨hnone, hc⟩
  · cases h
  · cases hc with
    | lockAcquire _ h => exact ⟨hnone, h⟩

/-- The turn of the `sema_down` loop that goes to sleep. -/
theorem step_resume_sleep (hr : (k.thread k.current).resume = .lockAcquire l)
    (hv : (k.sema (.ofLock l)).value = 0) (hs : k.step .resume = some k') :
    k' = k.semaWait (.ofLock l) := by
  unfold Kernel.step Kernel.resume at hs
  simp only [hr, hv, reduceCtorEq, if_false, if_true] at hs
  exact (some.inj hs).symm

/-- The turn of the `sema_down` loop that gets the lock. -/
theorem step_resume_take (hr : (k.thread k.current).resume = .lockAcquire l)
    (hv : (k.sema (.ofLock l)).value ≠ 0) (hs : k.step .resume = some k') : k' = k.granted l := by
  unfold Kernel.step Kernel.resume at hs
  simp only [hr, hv, reduceCtorEq, if_false] at hs
  exact (some.inj hs).symm

/-- `lock_release`, by the holder: the lock is given up, its semaphore
posted, and preemption checked. -/
theorem step_lockRelease (hs : k.step (.lockRelease l) = some k') :
    (k.thread k.current).resume = .none ∧
      (k.lock l).holder = some k.current ∧
      ∃ k₁, (k.released l).semaPost (.ofLock l) = some k₁ ∧ k' = k₁.checkPreemption := by
  rcases step_cases hs with ⟨h, -⟩ | ⟨hnone, hc⟩
  · cases h
  · cases hc with
    | lockRelease h =>
      obtain ⟨hh, h⟩ := ite_none_right_eq_some.mp h
      exact ⟨hnone, hh, semaUp_cases h⟩

/-- `thread_set_priority` ends with the check for preemption. -/
theorem step_setPriority {new : Int} (hs : k.step (.setPriority new) = some k') :
    k' = (k.rebased new).checkPreemption := by
  rcases step_cases hs with ⟨h, -⟩ | ⟨-, hc⟩
  · cases h
  · cases hc
    rfl

-- ==== what the moves change

/-- One turn of the donation loop writes priorities only. -/
theorem raise_thread (k : Kernel) (l : LockId) (t u : Tid) :
    (k.raise l t).thread u = { k.thread u with priority := (k.raise l t).prio u } := by
  unfold Kernel.prio raise
  rw [modLock_thread, modThread_thread]
  split
  next hu => rw [hu]
  next => rfl

/-- A donation changes priorities only. -/
theorem donate_thread :
    ∀ (fuel : Nat) (l : LockId) (h : Option Tid) (k : Kernel) (u : Tid),
      (donate fuel l h k).thread u
        = { k.thread u with priority := (donate fuel l h k).prio u } := by
  refine donate_turns
    (R := fun k k' => ∀ u, k'.thread u = { k.thread u with priority := k'.prio u })
    (fun k u => rfl) fun l t h u => ?_
  rw [h, raise_thread]

/-- `lock_acquire` up to its semaphore, less what the donation does to
the priorities. -/
structure Entered (l : LockId) (k k' : Kernel) : Prop where
  count : k'.count = k.count
  idle : k'.idle = k.idle
  current : k'.current = k.current
  sema : k'.sema = k.sema
  holder : ∀ m, (k'.lock m).holder = (k.lock m).holder
  resume : ∀ u, (k'.thread u).resume = if u = k.current then .lockAcquire l else (k.thread u).resume
  oldPriority : ∀ u, (k'.thread u).oldPriority = (k.thread u).oldPriority
  lockHolding : ∀ u, (k'.thread u).lockHolding = (k.thread u).lockHolding
  lockWaiting : ∀ u, u ≠ k.current → (k'.thread u).lockWaiting = (k.thread u).lockWaiting

/-- `lock_acquire` of a lock that nobody holds. -/
theorem entered_entered (l : LockId) (k : Kernel) : Entered l k (k.entered l) := by
  have hth : ∀ u, (k.entered l).thread u = if u = k.current
      then { k.thread k.current with resume := .lockAcquire l }
      else k.thread u := fun _ => rfl
  refine ⟨rfl, rfl, rfl, rfl, fun _ => rfl, ?_, ?_, ?_, ?_⟩
  · intro u
    rw [hth]
    split <;> rfl
  · exact fun u => kept_at Thread.oldPriority rfl
  · exact fun u => kept_at Thread.lockHolding rfl
  · intro u hu
    rw [hth, if_neg hu]

/-- `lock_acquire` with a donation to the holder. -/
theorem donated_entered (l : LockId) (t : Tid) (k : Kernel) : Entered l k (k.donated l t) := by
  have hd := donate_reprioritised k.count l (some t) (k.queued l)
  have hth := donate_thread k.count l (some t) (k.queued l)
  have he := entered_entered l (donate k.count l (some t) (k.queued l))
  have hq : ∀ u, (k.queued l).thread u = if u = k.current
      then { k.thread k.current with
        lockWaiting := (k.thread k.current).lockWaiting ++ [l] }
      else k.thread u := fun _ => rfl
  have hcur : (donate k.count l (some t) (k.queued l)).current = k.current := hd.current
  refine ⟨he.count.trans hd.count, he.idle.trans hd.idle, he.current.trans hd.current,
    he.sema.trans hd.sema, fun m => (he.holder m).trans (hd.holder m), ?_, ?_, ?_, ?_⟩
  · intro u
    refine (he.resume u).trans ?_
    rw [hcur, hd.resume, hq]
    split <;> rfl
  · intro u
    refine (he.oldPriority u).trans ?_
    rw [hth]
    exact kept_at Thread.oldPriority rfl
  · intro u
    refine (he.lockHolding u).trans ?_
    rw [hth]
    exact kept_at Thread.lockHolding rfl
  · intro u hu
    refine (he.lockWaiting u (hcur ▸ hu)).trans ?_
    rw [hth, hq, if_neg hu]

section Projections

variable (k : Kernel) (l m : LockId) (u : Tid) (new : Int)

/-- The switch of a thread that has queued up. -/
theorem semaWait_quiet (s : SemaRef) :
    Quiet (k.modSema s fun sm => { sm with
      waiters := listInsertOrdered k.comparePriorities k.current sm.waiters }) (k.semaWait s) :=
  (Switched.threadBlock _).quiet

@[simp] theorem granted_count : (k.granted l).count = k.count := rfl

/-- The running thread becomes the holder. -/
theorem granted_lock : (k.granted l).lock m = if m = l
    then { k.lock l with holder := some k.current } else k.lock m := rfl

/-- The semaphore of the lock goes down. -/
theorem granted_sema (r : SemaRef) : (k.granted l).sema r
    = if r = .ofLock l then { k.sema (.ofLock l) with
        value := (k.sema (.ofLock l)).value - 1 } else k.sema r := rfl

/-- The lock joins the list of its holder. -/
theorem granted_thread : (k.granted l).thread u = if u = k.current
    then { k.thread k.current with
      lockHolding := listInsertOrdered k.comparePrioritiesLock l (k.thread k.current).lockHolding
      resume := .none }
    else k.thread u := by
  unfold granted lockTaken
  rw [modThread_thread, modLock_thread, modThread_thread]
  simp only [modThread_thread, modSema_thread, modSema_current, if_pos]
  split <;> rfl

@[simp] theorem released_current : (k.released l).current = k.current := rfl
@[simp] theorem released_sema : (k.released l).sema = k.sema := rfl

/-- The lock has no holder any more. -/
theorem released_lock : (k.released l).lock m = if m = l
    then { holder := none, maxPriority := k.cacheAfterRelease l }
    else k.lock m := by
  unfold released
  simp only [modLock, modThread_lock]
  split <;> simp [*]

/-- The lock leaves the list of its holder. -/
theorem released_thread : (k.released l).thread u = if u = k.current
    then { k.thread k.current with
      lockHolding := (k.thread k.current).lockHolding.erase l
      priority := (k.modLock l fun m => { m with
        maxPriority := k.cacheAfterRelease l }).priorityAfterRelease
          ((k.thread k.current).lockHolding.erase l) }
    else k.thread u := rfl

@[simp] theorem rebased_current : (k.rebased new).current = k.current := rfl

/-- The new base priority. -/
theorem rebased_thread : (k.rebased new).thread u = if u = k.current
    then { k.thread k.current with
      priority := if (k.thread k.current).priority
          = (k.thread k.current).oldPriority then new
        else (k.thread k.current).priority
      oldPriority := new }
    else k.thread u := rfl

end Projections

/-- No step changes which thread is the idle one. -/
theorem LockMove.idle {a : Act} (hm : LockMove k a k') : k'.idle = k.idle := by
  cases hm with
  | quiet _ hq => exact hq.idle
  | @enter l _ _ => exact (entered_entered l k).idle
  | @donate l t _ _ _ => exact (donated_entered l t k).idle
  | @sleep l _ _ => exact (semaWait_quiet k (.ofLock l)).idle
  | take _ _ => rfl
  | release _ _ hpost =>
    exact (Switched.checkPreemption _).quiet.idle.trans (semaPost_upped hpost).idle
  | rebase _ => exact (Switched.checkPreemption _).quiet.idle

theorem ListInv.released (hi : ListInv k (some k.current)) :
    ListInv (k.released l) (some k.current) := by
  unfold Kernel.released
  refine .modLock (ListInv.modCurrent (hi.modLock l _) ?_ ?_) l _
  · exact fun _ => rfl
  · exact fun _ _ => rfl

/-- A thread in no loop has no continuation. -/
theorem resume_eq_none (h : k.waitsOn t = none) : (k.thread t).resume = .none := by
  unfold waitsOn at h
  cases hr : (k.thread t).resume with
  | none => rfl
  | semaDown s | lockAcquire l =>
    rw [hr] at h
    cases h

-- ==== who holds a lock

/-- A lock is free or held: its semaphore, its `holder` and the lists of
held locks agree, and only threads that exist take part. -/
structure LockInv (k : Kernel) : Prop where
  value : ∀ l, (k.sema (.ofLock l)).value = if (k.lock l).holder = none then 1 else 0
  holder_lt : ∀ l t, (k.lock l).holder = some t → t < k.count
  holding : ∀ t l, l ∈ (k.thread t).lockHolding ↔ (k.lock l).holder = some t
  nodup : ∀ t, (k.thread t).lockHolding.Nodup
  raw : ∀ t l, (k.thread t).resume ≠ .semaDown (.ofLock l)
  inside_lt : ∀ t l, k.waitsOn t = some (.ofLock l) → t < k.count

namespace LockInv

variable {k k' : Kernel}
variable {l : LockId}

variable (hi : LockInv k)

include hi

/-- A lock whose semaphore is down has a holder. -/
theorem held (hv : (k.sema (.ofLock l)).value = 0) : (k.lock l).holder ≠ none := by
  intro hnone
  have := hi.value l
  rw [if_pos hnone] at this
  omega

/-- A lock whose semaphore is up has none. -/
theorem free (hv : (k.sema (.ofLock l)).value ≠ 0) : (k.lock l).holder = none := by
  by_contra hne
  have := hi.value l
  rw [if_neg hne] at this
  exact hv this

/-- The only way to be in a lock's semaphore. -/
theorem inside {t : Tid} (h : k.waitsOn t = some (.ofLock l)) :
    (k.thread t).resume = .lockAcquire l := by
  unfold waitsOn at h
  cases hr : (k.thread t).resume with
  | none =>
    rw [hr] at h
    cases h
  | semaDown s =>
    rw [hr] at h
    cases h
    exact absurd hr (hi.raw t l)
  | lockAcquire m =>
    rw [hr] at h
    cases h
    rfl

/-- What leaves the locks alone keeps the invariant. -/
theorem quiet (hq : Quiet k k') : LockInv k' := by
  refine ⟨?_, ?_, ?_, ?_, ?_, ?_⟩
  · intro l
    rw [hq.sema, hq.lock]
    exact hi.value l
  · intro l t ht
    rw [hq.lock] at ht
    exact lt_of_lt_of_le (hi.holder_lt l t ht) hq.count
  · intro t l
    rw [hq.lock]
    rcases hq.thread t with ha | ⟨hge, hf⟩
    · rw [ha.lockHolding]
      exact hi.holding t l
    · rw [hf.lockHolding]
      refine ⟨nofun, fun h => ?_⟩
      exact absurd (hi.holder_lt l t h) (not_lt.mpr hge)
  · intro t
    rcases hq.thread t with ha | ⟨-, hf⟩
    · rw [ha.lockHolding]
      exact hi.nodup t
    · rw [hf.lockHolding]
      exact nodup_nil
  · intro t l hr
    rcases hq.thread t with ha | ⟨-, hf⟩
    · rcases ha.resume with e | ⟨-, p⟩
      · exact hi.raw t l (e ▸ hr)
      · exact p l (hr ▸ rfl)
    · exact hf.resume l (hr ▸ rfl)
  · intro t l hw
    rcases hq.thread t with ha | ⟨-, hf⟩
    · exact lt_of_lt_of_le (hi.inside_lt t l ((ha.inLock l).mp hw)) hq.count
    · exact absurd hw (hf.resume l)

/-- The begin of `lock_acquire` keeps it. -/
theorem entered (hcur : k.current < k.count) (he : Entered l k k') : LockInv k' := by
  refine ⟨?_, ?_, ?_, ?_, ?_, ?_⟩
  · intro m
    rw [he.sema, he.holder]
    exact hi.value m
  · intro m t
    rw [he.holder, he.count]
    exact hi.holder_lt m t
  · intro t m
    rw [he.lockHolding, he.holder]
    exact hi.holding t m
  · intro t
    rw [he.lockHolding]
    exact hi.nodup t
  · intro t m
    rw [he.resume]
    split
    · exact nofun
    · exact hi.raw t m
  · intro t m hw
    rw [he.count]
    unfold waitsOn at hw
    rw [he.resume] at hw
    split at hw
    next ht => exact ht ▸ hcur
    next => exact hi.inside_lt t m hw

theorem modWaiters (s : SemaRef) (g : List Tid → List Tid) :
    LockInv (k.modSema s fun m => { m with waiters := g m.waiters }) := by
  refine ⟨?_, hi.holder_lt, hi.holding, hi.nodup, hi.raw, hi.inside_lt⟩
  intro l
  refine Eq.trans ?_ (hi.value l)
  unfold modSema
  dsimp only
  split
  next h => rw [h]
  next => rfl

/-- The end of `lock_acquire` keeps it. -/
theorem granted (hcur : k.current < k.count)
    (hv : (k.sema (.ofLock l)).value ≠ 0) : LockInv (k.granted l) := by
  have hfree := hi.free hv
  have hnot : ∀ t, l ∉ (k.thread t).lockHolding := by
    intro t hm
    simp [hi.holding, hfree] at hm
  refine ⟨?_, ?_, ?_, ?_, ?_, ?_⟩
  · intro m
    rw [granted_sema, granted_lock]
    by_cases hm : m = l
    · have := hi.value l
      rw [if_pos hfree] at this
      simp [hm, this]
    · rw [if_neg hm, if_neg (fun h => hm (SemaRef.ofLock.inj h))]
      exact hi.value m
  · intro m t
    rw [granted_lock, granted_count]
    split
    · intro h
      exact some.inj h ▸ hcur
    · exact hi.holder_lt m t
  · intro t m
    rw [granted_thread, granted_lock]
    by_cases ht : t = k.current
    · subst ht
      by_cases hm : m = l
      · simp [hm]
      · simp [hm, hi.holding]
    · by_cases hm : m = l
      · simp [ht, hm, hnot, Ne.symm ht]
      · simp [ht, hm, hi.holding]
  · intro t
    rw [granted_thread]
    split
    · refine (listInsertOrdered_perm _ _ _).nodup_iff.mpr ?_
      exact nodup_cons.mpr ⟨hnot _, hi.nodup _⟩
    · exact hi.nodup t
  · intro t m
    rw [granted_thread]
    split
    · exact nofun
    · exact hi.raw t m
  · intro t m hw
    unfold waitsOn at hw
    rw [granted_thread] at hw
    split at hw
    · cases hw
    · exact hi.inside_lt t m hw

/-- The priority update of `lock_release` and the `sema_up` after it. -/
theorem posted (hh : (k.lock l).holder = some k.current)
    (hp : Upped (.ofLock l) (k.released l) k') : LockInv k' := by
  have hth : ∀ t, ((k.released l).thread t).resume = (k.thread t).resume :=
    fun t => kept_at Thread.resume rfl
  refine ⟨?_, ?_, ?_, ?_, ?_, ?_⟩
  · intro m
    rw [hp.lock, released_lock]
    by_cases hm : m = l
    · have := hi.value l
      rw [hh, if_neg (by simp)] at this
      rw [hm, hp.value, released_sema, this]
      simp
    · rw [hp.sema _ (fun h => hm (SemaRef.ofLock.inj h)), if_neg hm]
      exact hi.value m
  · intro m t
    rw [hp.lock, released_lock, hp.count]
    split
    · exact nofun
    · exact hi.holder_lt m t
  · intro t m
    rw [hp.lock, released_lock, (hp.thread t).lockHolding, released_thread]
    by_cases ht : t = k.current
    · subst ht
      rw [if_pos rfl, (hi.nodup _).mem_erase_iff, hi.holding]
      by_cases hm : m = l <;> simp [hm]
    · rw [if_neg ht, hi.holding]
      by_cases hm : m = l
      · subst hm
        simp [hh, Ne.symm ht]
      · simp [hm]
  · intro t
    rw [(hp.thread t).lockHolding, released_thread]
    split
    · exact (hi.nodup _).erase l
    · exact hi.nodup t
  · intro t m hr
    rcases (hp.thread t).resume with e | ⟨-, p⟩
    · exact hi.raw t m ((hth t).symm.trans (e.symm.trans hr))
    · exact p m (hr ▸ rfl)
  · intro t m hw
    rw [hp.count]
    refine hi.inside_lt t m ?_
    have := ((hp.thread t).inLock m).mp hw
    rwa [hth] at this

/-- A new base priority keeps it. -/
theorem rebased (new : Int) : LockInv (k.rebased new) := by
  have hres : ∀ t, ((k.rebased new).thread t).resume = (k.thread t).resume :=
    fun t => kept_at Thread.resume rfl
  have hhold : ∀ t, ((k.rebased new).thread t).lockHolding = (k.thread t).lockHolding :=
    fun t => kept_at Thread.lockHolding rfl
  refine ⟨hi.value, hi.holder_lt, ?_, ?_, ?_, ?_⟩
  · exact fun t l => hhold t ▸ hi.holding t l
  · exact fun t => hhold t ▸ hi.nodup t
  · exact fun t l => hres t ▸ hi.raw t l
  · intro t l hw
    unfold waitsOn at hw
    rw [hres] at hw
    exact hi.inside_lt t l hw

/-- Every move of the locks keeps it. -/
theorem move {a : Act} (hcur : k.current < k.count) (hm : LockMove k a k') : LockInv k' := by
  cases hm with
  | quiet _ hq => exact hi.quiet hq
  | enter _ _ => exact hi.entered hcur (entered_entered _ k)
  | @donate l t _ _ _ => exact hi.entered hcur (donated_entered l t k)
  | sleep _ _ => exact (hi.modWaiters _ _).quiet (semaWait_quiet k _)
  | take _ hv => exact hi.granted hcur hv
  | release _ hh hpost =>
    exact (hi.posted hh (semaPost_upped hpost)).quiet (Switched.checkPreemption _).quiet
  | rebase _ => exact (hi.rebased _).quiet (Switched.checkPreemption _).quiet

end LockInv

/-- At boot no lock is held. -/
theorem lockInv_boot (v : Nat → Nat) : LockInv (boot v) := by
  refine ⟨fun _ => rfl, ?_, ?_, fun _ => nodup_nil, ?_, ?_⟩
  · nofun
  · intro t l
    refine ⟨nofun, fun h => ?_⟩
    cases h
  · nofun
  · nofun

/-- Both invariants, and the step as a move, along any run that leaves
the locks' semaphores to the locks. -/
theorem lists_and_locks {ok : Act → Kernel → Prop} (hown : ∀ a k, ok a k → ownSemas a k)
    (hr : Reach Booted step ok k) : ListInv k (some k.current) ∧ LockInv k := by
  refine Reach.induct (P := fun k => ListInv k (some k.current) ∧ LockInv k) ?_ ?_ k hr
  · intro k hb
    obtain ⟨v, rfl⟩ := hb
    exact ⟨listInv_boot v, lockInv_boot v⟩
  · intro a k k' _ hi hok hs
    obtain ⟨hlist, hlock⟩ := hi
    obtain ⟨-, -, -, hlt⟩ := hlist.current_facts
    exact ⟨hlist.step hs, hlock.move hlt (lockMove_step hlock.raw (hown a k hok) hs)⟩

/-- In order, `lock_release` of a held lock gets through. -/
theorem ListInv.lockRelease_enabled (hl : ListInv k (some k.current))
    (hr : (k.thread k.current).resume = .none) (hidle : k.current ≠ k.idle)
    (hh : (k.lock l).holder = some k.current) :
    ∃ k₁, (k.released l).semaPost (.ofLock l) = some k₁ ∧
      k.step (.lockRelease l) = some k₁.checkPreemption := by
  obtain ⟨k₁, hpost, -⟩ := ListInv.semaPost_unblocks (hl.released (l := l)) (.ofLock l)
  refine ⟨k₁, hpost, ?_⟩
  unfold Kernel.step call
  rw [if_pos hr, if_neg hidle]
  show k.lockRelease l = _
  unfold Kernel.lockRelease
  rw [if_pos hh]
  exact congrArg (Option.map Kernel.checkPreemption) hpost

end Kernel

end Pintos
