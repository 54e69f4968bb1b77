/-
Threads that blocked by themselves.

A thread that calls `thread_block` outside `sema_down` is on no list: only
a `thread_unblock` that names it makes it READY again. `Parked t k` is
such a thread, and every step that does not name it leaves it as it is.
-/
import Pintos.Threads.Locks

namespace Pintos.Kernel

/-- `t` is blocked, and the scheduler has no way to it. -/
structure Parked (t : Tid) (k : Kernel) : Prop where
  blocked : k.status t = .blocked
  off : t ∉ k.ready
  busy : t ≠ k.idle

namespace Parked

variable {t : Tid} {k k' : Kernel}

/-- What keeps the status, the queue and the idle thread. -/
theorem congr (hp : Parked t k) (hst : k'.status t = k.status t) (hready : k'.ready = k.ready)
    (hidle : k'.idle = k.idle) : Parked t k' :=
  ⟨hst.trans hp.blocked, hready ▸ hp.off, hidle ▸ hp.busy⟩

variable {u : Tid} {s : SemaRef}

variable (hp : Parked t k)

include hp

theorem setStatus (hu : t ≠ u) (st : Status) : Parked t (k.setStatus u st) := by
  refine hp.congr ?_ rfl rfl
  rw [status_setStatus, if_neg hu]

theorem modThread (hu : t ≠ u) (f : Thread → Thread) : Parked t (k.modThread u f) := by
  refine hp.congr ?_ rfl rfl
  unfold Kernel.status
  rw [modThread_thread, if_neg hu]

theorem modLock (l : LockId) (f : Lock → Lock) : Parked t (k.modLock l f) := hp.congr rfl rfl rfl

theorem schedule : Parked t k.schedule := by
  unfold Kernel.schedule nextThreadToRun
  cases hr : k.ready with
  | nil =>
    have hk : Parked t { k with current := k.idle } := hp.congr rfl rfl rfl
    exact hk.setStatus hp.busy _
  | cons u rest =>
    have hoff := hp.off
    rw [hr, List.mem_cons, not_or] at hoff
    have hk : Parked t { k with ready := rest, current := u } := ⟨hp.blocked, hoff.2, hp.busy⟩
    exact hk.setStatus hoff.1 _

theorem threadBlock (hne : t ≠ k.current) : Parked t k.threadBlock := (hp.setStatus hne _).schedule

theorem enqueue (hu : t ≠ u) :
    Parked t { k with ready := listInsertOrdered k.comparePriorities u k.ready } := by
  refine ⟨hp.blocked, fun hmem => ?_, hp.busy⟩
  rcases mem_listInsertOrdered.mp hmem with h | h
  · exact hu h
  · exact hp.off h

theorem threadYield (hne : t ≠ k.current) : Parked t k.threadYield := by
  refine Parked.schedule ?_
  unfold requeueCurrent
  split
  · exact hp.setStatus hne _
  · exact (hp.enqueue hne).setStatus hne _

theorem checkPreemption (hne : t ≠ k.current) : Parked t k.checkPreemption := by
  unfold Kernel.checkPreemption
  split
  · exact hp.threadYield hne
  · exact hp

theorem threadUnblock (hu : t ≠ u) (hs : k.threadUnblock u = some k') : Parked t k' := by
  obtain ⟨-, ⟨⟩⟩ := Option.ite_none_right_eq_some.mp hs
  exact (hp.enqueue hu).setStatus hu _

/-- `sema_up` wakes a waiter, and `t` is none. -/
theorem semaPost (hw : t ∉ (k.sema s).waiters) (hs : k.semaPost s = some k') : Parked t k' := by
  rcases semaPost_cases hs with ⟨-, rfl⟩ | ⟨u, rest, k₁, -, hperm, hun, rfl⟩
  · exact hp.congr rfl rfl rfl
  · have hu : t ≠ u := by
      intro e
      exact hw (hperm.mem_iff.mp (e ▸ List.mem_cons_self ..))
    have hk : Parked t (k.modSema s fun m => { m with waiters := rest }) := hp.congr rfl rfl rfl
    exact (hk.threadUnblock hu hun).congr rfl rfl rfl

theorem semaUp (hne : t ≠ k.current) (hw : t ∉ (k.sema s).waiters) (hs : k.semaUp s = some k') :
    Parked t k' := by
  obtain ⟨k₁, hpost, rfl⟩ := semaUp_cases hs
  have hcur := (semaPost_upped hpost).current
  exact (hp.semaPost hw hpost).checkPreemption (hcur ▸ hne)

theorem interrupt (hne : t ≠ k.current) (hw : ∀ s, t ∉ (k.sema s).waiters) {ups : List SemaRef}
    {slice : Bool} (hs : k.interrupt ups slice = some k') : Parked t k' := by
  refine interrupt_induct (P := fun _ k₁ => Parked t k₁ ∧ t ≠ k₁.current ∧ ∀ s,
    t ∉ (k₁.sema s).waiters) ?_ (fun _ h => ⟨h.1, h.1.threadYield h.2.1⟩) hs ⟨hp, hne, hw⟩
  intro s _ k₁ k₂ h hpost
  have hup := semaPost_upped hpost
  refine ⟨h.1.semaPost (h.2.2 s) hpost, hup.current ▸ h.2.1, ?_⟩
  exact fun r hr => h.2.2 r (hup.mem_waiters hr)

theorem spawn (hlt : t < k.count) {p : Int} (hs : k.spawn p = some k') : Parked t k' := by
  obtain ⟨-, hs⟩ := Option.ite_none_right_eq_some.mp hs
  have hne : t ≠ k.count := ne_of_lt hlt
  have hk : Parked t { k with count := k.count + 1 } := hp.congr rfl rfl rfl
  exact (hk.modThread hne _).threadUnblock hne hs

theorem lockRequest (hne : t ≠ k.current) {l : LockId}
    (hs : k.lockRequest l = some k') : Parked t k' := by
  rcases lockRequest_cases hs with ⟨-, rfl⟩ | ⟨u, -, -, rfl⟩
  · exact hp.modThread hne _
  · have hd := donate_reprioritised k.count l (some u) (k.queued l)
    have hk : Parked t (donate k.count l (some u) (k.queued l)) :=
      (hp.modThread hne _).congr (hd.status t) hd.ready hd.idle
    unfold donated entered
    exact hk.modThread (hd.current ▸ hne) _

theorem resume (hne : t ≠ k.current) (hs : k.resume = some k') : Parked t k' := by
  have hsema : ∀ s g, Parked t (k.modSema s g) := fun _ _ => hp.congr rfl rfl rfl
  cases resume_cases hs with
  | sleep _ _ => exact (hsema _ _).threadBlock hne
  | down _ _ => exact (hsema _ _).modThread hne _
  | @take l _ _ =>
    refine Parked.modThread ?_ hne _
    exact ((hsema (.ofLock l) _).modThread hne _).modLock l _

/-- A step leaves a parked thread parked unless it unblocks it by name. -/
theorem step (hi : ListInv k (some k.current)) (hw : k.waitsOn t = none) {a : Act}
    (ha : a ≠ .unblock t) (hs : k.step a = some k') : Parked t k' := by
  have hne : t ≠ k.current := by
    intro e
    have hrun := hi.current_facts.2.1
    simp [← e, hp.blocked] at hrun
  have hlt : t < k.count := by
    by_contra hge
    have := hi.unborn t (not_lt.mp hge)
    simp [hp.blocked] at this
  have hnw : ∀ s, t ∉ (k.sema s).waiters := by
    intro s hmem
    have := (hi.waiter s t hmem).2.2
    simp [hw] at this
  rcases step_cases hs with ⟨-, h⟩ | ⟨-, hc⟩
  · exact hp.resume hne h
  · cases hc with
    | spawn h => exact hp.spawn hlt h
    | unblock _ _ h => exact hp.threadUnblock (fun e => ha (e ▸ rfl)) h
    | checkPreemption => exact hp.checkPreemption hne
    | yield => exact hp.threadYield hne
    | block => exact hp.threadBlock hne
    | setPriority => exact (hp.modThread hne _).checkPreemption hne
    | semaDown _ => exact hp.modThread hne _
    | semaUp h => exact hp.semaUp hne (hnw _) h
    | lockAcquire _ h => exact hp.lockRequest hne h
    | @lockRelease l _ h =>
      obtain ⟨-, h⟩ := Option.ite_none_right_eq_some.mp h
      refine Parked.semaUp (k := k.released l) ?_ hne (hnw _) h
      refine hp.congr ?_ rfl rfl
      unfold Kernel.status
      rw [released_thread, if_neg hne]
    | interrupt h => exact hp.interrupt hne hnw h

end Parked

end Pintos.Kernel
