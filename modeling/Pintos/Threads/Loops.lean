/-
Who is in which loop of `sema_down`.

`k.waitsOn t` is the semaphore whose `sema_down` thread `t` is in. Hardly
anything changes it: the running thread enters a loop by a call, leaves it
by the turn that takes a unit, and a new thread starts outside all loops
(`Sys.next_waits`). A client with semaphores of its own tracks its threads
by this and by the `Effect` of the step.
-/
import Pintos.Threads.Synch

namespace Pintos

namespace Kernel

-- ==== nobody moves

/-- No thread enters or leaves a loop, and none is created. -/
structure SameLoops (k k' : Kernel) : Prop where
  resume : ∀ t, (k'.thread t).resume = (k.thread t).resume
  count : k'.count = k.count

theorem SameLoops.refl (k : Kernel) : SameLoops k k := ⟨fun _ => rfl, rfl⟩

variable {k k' : Kernel} {s : SemaRef}

theorem SameLoops.trans {k₁ k₂ : Kernel} (h1 : SameLoops k k₁)
    (h2 : SameLoops k₁ k₂) : SameLoops k k₂ :=
  ⟨fun t => (h2.resume t).trans (h1.resume t), h2.count.trans h1.count⟩

/-- Every thread waits where it did. -/
theorem SameLoops.waitsOn (h : SameLoops k k') (t : Tid) : k'.waitsOn t = k.waitsOn t := by
  unfold Kernel.waitsOn
  rw [h.resume]

theorem modThread_sameLoops (k : Kernel) (t : Tid) {f : Thread → Thread}
    (hf : ∀ th, (f th).resume = th.resume) : SameLoops k (k.modThread t f) := by
  refine ⟨fun u => ?_, rfl⟩
  rw [modThread_thread]
  split
  next h => rw [hf, h]
  next => rfl

theorem modLock_sameLoops (k : Kernel) (l : LockId) (f : Lock → Lock) :
    SameLoops k (k.modLock l f) := ⟨fun _ => rfl, rfl⟩

theorem Switched.sameLoops (h : Switched k k') : SameLoops k k' := by
  refine ⟨fun t => ?_, h.count⟩
  obtain ⟨st, e⟩ := h.thread t
  rw [e]

/-- `sema_up` leaves the thread that it wakes in its loop. -/
theorem semaPost_sameLoops (hs : k.semaPost s = some k') : SameLoops k k' := by
  rcases semaPost_cases hs with ⟨-, rfl⟩ | ⟨t, rest, k₁, -, -, hun, rfl⟩
  · exact ⟨fun _ => rfl, rfl⟩
  · have h := (Switched.threadUnblock hun).sameLoops
    exact ⟨h.resume, h.count⟩

theorem semaUp_sameLoops (hs : k.semaUp s = some k') : SameLoops k k' := by
  obtain ⟨k₁, hpost, rfl⟩ := semaUp_cases hs
  exact (semaPost_sameLoops hpost).trans (Switched.checkPreemption _).sameLoops

/-- So does an interrupt. -/
theorem interrupt_sameLoops {us : List SemaRef} {slice : Bool}
    (hs : k.interrupt us slice = some k') : SameLoops k k' :=
  interrupt_induct (P := fun _ k₁ => SameLoops k k₁)
    (fun _ _ _ _ h hpost => h.trans (semaPost_sameLoops hpost))
    (fun k₁ h => ⟨h, h.trans (Switched.threadYield k₁).sameLoops⟩) hs
    (.refl k)

/-- A thread goes to sleep in the loop it is in. -/
theorem semaWait_sameLoops (s : SemaRef) (k : Kernel) : SameLoops k (k.semaWait s) :=
  (show SameLoops k (k.modSema s fun m => { m with
    waiters := listInsertOrdered k.comparePriorities k.current
      m.waiters }) from ⟨fun _ => rfl, rfl⟩).trans (Switched.threadBlock _).sameLoops

theorem lockRelease_sameLoops {l : LockId} (hs : k.lockRelease l = some k') : SameLoops k k' := by
  obtain ⟨-, hs⟩ := Option.ite_none_right_eq_some.mp hs
  refine SameLoops.trans ?_ (semaUp_sameLoops hs)
  refine SameLoops.trans ?_ (modLock_sameLoops _ l _)
  refine SameLoops.trans ?_ (modThread_sameLoops _ _ fun _ => rfl)
  exact modLock_sameLoops k l _

theorem semaTryDown_sameLoops (s : SemaRef) (k : Kernel) : SameLoops k (k.semaTryDown s).2 := by
  unfold semaTryDown
  split <;> exact ⟨fun _ => rfl, rfl⟩

-- ==== who does move

/-- What may happen to the loops in a step with event `e` whose call, if
any, enters the loop of `enter`. -/
inductive Waits (e : Event) (enter : Option SemaRef) (k k' : Kernel)
    (t : Tid) : Prop
  | same (h : k'.waitsOn t = k.waitsOn t)
  | born (h : k'.waitsOn t = none) (ht : k.count ≤ t)
  | left (h : k'.waitsOn t = none) (ht : t = k.current)
      (hd : e.down = k.waitsOn t) (hr : e.retest = k.waitsOn t)
  | entered (h : k.waitsOn t = none) (ht : t = k.current) (he : k'.waitsOn t = enter)

/-- The loops of all threads after a step. -/
structure Loops (e : Event) (enter : Option SemaRef) (k k' : Kernel) : Prop where
  waits : ∀ t, Waits e enter k k' t
  taken : ∀ s, e.retest = some s → e.down = some s → k'.waitsOn k.current = none
  count : k.count ≤ k'.count

theorem SameLoops.loops {e : Event} (h : SameLoops k k') (he : e.retest = none ∨ e.down = none)
    (enter : Option SemaRef) : Loops e enter k k' := by
  refine ⟨fun t => .same (h.waitsOn t), fun s hr hd => ?_, le_of_eq h.count.symm⟩
  rcases he with he | he
  · simp [he] at hr
  · simp [he] at hd

theorem spawn_loops {p : Int} (hs : k.spawn p = some k')
    (enter : Option SemaRef) : Loops .silent enter k k' := by
  obtain ⟨-, hs⟩ := Option.ite_none_right_eq_some.mp hs
  have h := (Switched.threadUnblock hs).sameLoops
  refine ⟨fun t => ?_, fun s hr => (by cases hr), ?_⟩
  · have hw := h.waitsOn t
    by_cases ht : t = k.count
    · refine .born (hw.trans ?_) (le_of_eq ht.symm)
      unfold waitsOn
      rw [modThread_thread, if_pos ht]
      rfl
    · refine .same (hw.trans ?_)
      unfold waitsOn
      rw [modThread_thread, if_neg ht]
  · rw [h.count]
    exact Nat.le_succ _

/-- The running thread's continuation set to `c`. -/
theorem waitsOn_setResume (k : Kernel) (c : Resume) (t : Tid) :
    (k.modThread k.current fun th => { th with resume := c }).waitsOn t
      = if t = k.current then c.sema else k.waitsOn t := by
  unfold waitsOn
  rw [modThread_thread]
  split <;> rfl

theorem enter_loops {c : Resume} (hnone : (k.thread k.current).resume = .none)
    (hk : ∀ t, k'.waitsOn t = if t = k.current then c.sema else k.waitsOn t)
    (hcount : k'.count = k.count) : Loops .silent c.sema k k' := by
  refine ⟨fun t => ?_, fun s hr => (by cases hr), le_of_eq hcount.symm⟩
  have h := hk t
  by_cases ht : t = k.current
  · rw [if_pos ht] at h
    refine .entered ?_ ht h
    unfold waitsOn
    rw [ht, hnone]
    rfl
  · rw [if_neg ht] at h
    exact .same h

/-- The caller of `lock_acquire` enters the loop of the lock's
semaphore. -/
theorem lockRequest_waitsOn {l : LockId} (hs : k.lockRequest l = some k') :
    (∀ t, k'.waitsOn t = if t = k.current then some (.ofLock l) else k.waitsOn t)
    ∧ k'.count = k.count := by
  obtain ⟨-, ⟨⟩⟩ := Option.ite_none_left_eq_some.mp hs
  cases (k.lock l).holder with
  | none => exact ⟨waitsOn_setResume k (.lockAcquire l), rfl⟩
  | some t =>
    have hm := modThread_sameLoops k k.current (f := fun th =>
      { th with lockWaiting := th.lockWaiting ++ [l] }) fun _ => rfl
    have hd := donate_reprioritised k.count l (some t) (k.modThread k.current fun th =>
        { th with lockWaiting := th.lockWaiting ++ [l] })
    refine ⟨fun u => ?_, hd.count.trans hm.count⟩
    have hw := waitsOn_setResume (donate k.count l (some t) (k.modThread k.current fun th =>
        { th with lockWaiting := th.lockWaiting ++ [l] }))
      (.lockAcquire l) u
    rw [hd.current, hd.waitsOn, hm.waitsOn] at hw
    exact hw

/-- The semaphore whose loop a call enters. -/
def Act.enter : Act → Option SemaRef
  | .semaDown s => some s
  | .lockAcquire l => some (.ofLock l)
  | _ => none

/-- Leaving the loop of `s` with one of its units. -/
theorem left_loops {r : Option LockId} (hws : k.waitsOn k.current = some s)
    (hk : ∀ t, k'.waitsOn t = if t = k.current then none else k.waitsOn t)
    (hcount : k'.count = k.count) (enter : Option SemaRef) :
    Loops ⟨[], some s, some s, r⟩ enter k k' := by
  refine ⟨fun t => ?_, fun _ _ _ => (hk _).trans (if_pos rfl), le_of_eq hcount.symm⟩
  have h := hk t
  by_cases ht : t = k.current
  · rw [if_pos ht] at h
    have hs : some s = k.waitsOn t := by rw [ht, hws]
    exact .left h ht hs hs
  · rw [if_neg ht] at h
    exact .same h

theorem resume_loops (hs : k.resume = some k') (enter : Option SemaRef) :
    Loops (k.event .resume) enter k k' := by
  cases resume_cases hs with
  | sleep hw hz =>
    rw [event_sleep hw hz]
    exact (semaWait_sameLoops _ k).loops (.inr rfl) _
  | @down s hr hv =>
    simp only [event, hr, testEvent, if_neg hv]
    exact left_loops (congrArg Resume.sema hr) (waitsOn_setResume (k.modSema s fun m =>
      { m with value := m.value - 1 }) .none) rfl enter
  | @take l hr hv =>
    simp only [event, hr, testEvent, if_neg hv]
    refine left_loops (congrArg Resume.sema hr) (fun t => ?_) (by rfl) enter
    have h := waitsOn_setResume ((k.modSema (.ofLock l) fun m =>
      { m with value := m.value - 1 }).lockTaken l) .none t
    refine h.trans ?_
    have hm := modThread_sameLoops (k.modSema (.ofLock l) fun m =>
      { m with value := m.value - 1 }) k.current (f := fun th => { th with
        lockHolding := listInsertOrdered (k.modSema (.ofLock l) fun m =>
          { m with value := m.value - 1 }).comparePrioritiesLock l th.lockHolding }) fun _ => rfl
    by_cases ht : t = k.current
    · rw [if_pos ht]
      exact if_pos ht
    · rw [if_neg ht]
      exact (if_neg ht).trans (hm.waitsOn t)

/-- The loops after a step of the kernel. -/
theorem step_loops {a : Act} (hs : k.step a = some k') : Loops (k.event a) a.enter k k' := by
  rcases step_cases hs with ⟨rfl, h⟩ | ⟨hnone, hc⟩
  · exact resume_loops h _
  · cases hc with
    | spawn h => exact spawn_loops h _
    | unblock _ _ h => exact (Switched.threadUnblock h).sameLoops.loops (.inl rfl) _
    | checkPreemption => exact (Switched.checkPreemption k).sameLoops.loops (.inl rfl) _
    | yield => exact (Switched.threadYield k).sameLoops.loops (.inl rfl) _
    | block => exact (Switched.threadBlock k).sameLoops.loops (.inl rfl) _
    | setPriority =>
      refine SameLoops.loops (SameLoops.trans ?_
        (Switched.checkPreemption _).sameLoops) (.inl rfl) _
      exact modThread_sameLoops k k.current fun _ => rfl
    | @semaDown s _ =>
      exact enter_loops (c := .semaDown s) hnone (waitsOn_setResume k (.semaDown s)) rfl
    | semaUp h => exact (semaUp_sameLoops h).loops (.inl rfl) _
    | @lockAcquire l _ _ h =>
      obtain ⟨hw, hc⟩ := lockRequest_waitsOn h
      exact enter_loops (c := .lockAcquire l) hnone hw hc
    | lockRelease h => exact (lockRelease_sameLoops h).loops (.inl rfl) _
    | interrupt h => exact (interrupt_sameLoops h).loops (.inl rfl) _

end Kernel

namespace Sys

open Kernel

/-- The semaphore whose loop an action enters. -/
def enter (a : Act) (x : Sys) : Option SemaRef :=
  match a with
  | .kernel b => b.enter
  | .proceed =>
    match x.todo x.kernel.current with
    | .semaDown s :: _ => some s
    | .lockAcquire l :: _ => some (.ofLock l)
    | _ => none
  | _ => none

/-- The loops after a step of the system. -/
theorem next_loops {a : Act} {x : Sys} {r : Kernel × (Tid → List Todo)} (hs : x.next a = some r) :
    Loops (x.event a) (x.enter a) x.kernel r.1 := by
  cases next_cases hs with
  | kernel _ _ h => exact step_loops h
  | tryDown | gained _ => exact (semaTryDown_sameLoops _ _).loops (.inl rfl) _
  | refused _ => exact (SameLoops.refl _).loops (.inl rfl) _
  | condWait _ _ h => exact (lockRelease_sameLoops h).loops (.inl rfl) _
  | @record l _ hrest =>
    simp only [event, enter, hrest]
    exact (modLock_sameLoops x.kernel l fun m =>
      { m with holder := some x.kernel.current }).loops (.inl rfl) _
  | @semaDown s _ _ hrest h =>
    simp only [event, enter, hrest]
    exact step_loops (a := .semaDown s) h
  | @lockAcquire l _ _ hrest h =>
    simp only [event, enter, hrest]
    exact step_loops (a := .lockAcquire l) h
  | exit => exact (Switched.threadExit _).sameLoops.loops (.inl rfl) _
  | dispatch h => exact (Switched.dispatch h).sameLoops.loops (.inl rfl) _
  | @relink holding =>
    exact (show SameLoops x.kernel (x.kernel.relink holding) from
      ⟨fun _ => rfl, rfl⟩).loops (.inl rfl) _

end Sys

end Pintos
