/-
Where a thread is.

One `elem` links a thread into the ready queue or into the waiters of a
semaphore, so a thread may be on one list at most. `Placed` says which,
by its status. All operations of the thread system keep it but one:
`thread_unblock` asks only that the thread is blocked, and a thread that is
blocked inside `sema_down` is on a waiters list, which `thread_unblock`
does not take it off. `Scheduler.step` has that call as the source has it;
in the runs that make it only on threads that blocked by themselves every
thread is where it should be.
-/
import Pintos.Threads.Synch

namespace Pintos

open Transition

namespace Kernel

/-- The lists a thread is on, by its status. -/
def Placed (k : Kernel) (t : Tid) : Prop :=
  match k.status t with
  | .running => t = k.current ∧ t ∉ k.ready ∧ ∀ s, t ∉ (k.sema s).waiters
  | .ready => k.ready.count t = 1 ∧ ∀ s, t ∉ (k.sema s).waiters
  | .blocked => t ∉ k.ready
      ∧ (∀ s, (k.sema s).waiters.count t ≤ 1)
      ∧ ∀ s s', t ∈ (k.sema s).waiters → t ∈ (k.sema s').waiters → s = s'
  | .dying => t ∉ k.ready ∧ ∀ s, t ∉ (k.sema s).waiters

variable {k : Kernel} {r : Option Tid} {t : Tid}

/-- A thread that is not blocked is on no waiters list, one that is not
READY is not queued. -/
theorem ListInv.not_waiter (hi : ListInv k r) (ht : k.status t ≠ .blocked) (s : SemaRef) : t ∉
    (k.sema s).waiters :=
  fun hm => ht (hi.waiter s t hm).1

theorem ListInv.not_ready (hi : ListInv k r) (ht : k.status t ≠ .ready) : t ∉ k.ready :=
  fun hm => ht (hi.ready_status t hm)

theorem ListInv.placed (hi : ListInv k (some k.current)) (ht : t ≠ k.idle) : Placed k t := by
  unfold Placed
  split
  next hst =>
    refine ⟨?_, hi.not_ready (by rw [hst]; decide), hi.not_waiter (by rw [hst]; decide)⟩
    exact (Option.some.inj ((hi.running_iff t).mp hst)).symm
  next hst =>
    refine ⟨?_, hi.not_waiter (by rw [hst]; decide)⟩
    exact List.count_eq_one_of_mem hi.nodup (hi.ready_mem t ht hst)
  next hst =>
    refine ⟨hi.not_ready (by rw [hst]; decide), ?_, ?_⟩
    · exact fun s => List.nodup_iff_count_le_one.mp (hi.waiters_nodup s) t
    · intro s s' hs hs'
      have h := (hi.waiter s t hs).2.2
      rw [(hi.waiter s' t hs').2.2, Option.some.injEq] at h
      exact h.symm
  next hst => exact ⟨hi.not_ready (by rw [hst]; decide), hi.not_waiter (by rw [hst]; decide)⟩

end Kernel

namespace Scheduler

/-- Any action of the system, and `thread_unblock` on any thread. -/
inductive Act where
  | sys (a : Sys.Act)
  | threadUnblock (t : Tid)

def step (a : Act) (x : Sys) : Option Sys :=
  match a with
  | .sys a => x.step a
  | .threadUnblock t =>
    if (x.kernel.thread x.kernel.current).resume = .none then
      (x.kernel.threadUnblock t).map fun k' => x.commit .silent (k', x.todo)
    else none

/-- The thread `thread_unblock` is called on did not block in
`sema_down`. -/
def unblockGuard (a : Act) (x : Sys) : Prop :=
  match a with
  | .sys _ => True
  | .threadUnblock t => (x.kernel.thread t).resume = .none

instance (a : Act) (x : Sys) : Decidable (unblockGuard a x) :=
  match a with
  | .sys _ => .isTrue trivial
  | .threadUnblock t => inferInstanceAs (Decidable ((x.kernel.thread t).resume = .none))

theorem step_lists {a : Act} {x x' : Sys} (hi : x.kernel.ListInv (some x.kernel.current))
    (hok : unblockGuard a x) (hs : step a x = some x') :
    x'.kernel.ListInv (some x'.kernel.current) := by
  cases a with
  | sys a => exact Sys.step_lists hi hs
  | threadUnblock t =>
    obtain ⟨-, hs⟩ := Option.ite_none_right_eq_some.mp hs
    obtain ⟨k', hk, rfl⟩ := Option.map_eq_some_iff.mp hs
    show k'.ListInv (some k'.current)
    rw [Kernel.threadUnblock_current hk]
    refine hi.threadUnblock (fun s hm => ?_) hk
    -- a waiter's continuation is the loop of its semaphore
    have hw := (hi.waiter s t hm).2.2
    unfold Kernel.waitsOn at hw
    rw [show (x.kernel.thread t).resume = .none from hok] at hw
    cases hw

theorem lists_reachable {v : Nat → Nat} {x : Sys} (hx : Reach (Sys.Booted v) step unblockGuard x) :
    x.kernel.ListInv (some x.kernel.current) := by
  refine Reach.induct (P := fun x : Sys => x.kernel.ListInv (some x.kernel.current)) ?_ ?_ x hx
  · rintro x rfl
    exact Kernel.listInv_boot v
  · exact fun a x x' _ hi hok hs => step_lists hi hok hs

/-- In every run that calls `thread_unblock` only on threads that did not
block in `sema_down`, there is one running thread, and every thread other
than idle is on the lists its status calls for and no other. -/
theorem threads_neither_lost_nor_duplicated {v : Nat → Nat} {x : Sys}
    (hx : Reach (Sys.Booted v) step unblockGuard x) :
    (∀ t, x.kernel.status t = .running ↔ t = x.kernel.current)
    ∧ ∀ t, t ≠ x.kernel.idle → x.kernel.Placed t := by
  have hi := lists_reachable hx
  refine ⟨fun t => ?_, fun t ht => hi.placed ht⟩
  rw [hi.running_iff t, Option.some.injEq]
  exact eq_comm

/-- Thread 2 blocks by itself and is unblocked, thread 3 sleeps on a
semaphore. -/
theorem threads_placed_after_unblock :
    ∃ x, Reach (Sys.Booted fun _ => 0) step unblockGuard x
      ∧ (x.kernel.ready = [2] ∧ x.kernel.idle = 1 ∧ (x.kernel.sema (.plain 0)).waiters = [3])
      ∧ x.kernel.Placed 2 ∧ x.kernel.Placed 3 := by
  have h0 : Reach (Sys.Booted fun _ => 0) step unblockGuard (Sys.boot fun _ => 0) := .init rfl
  obtain ⟨x, hx, hready, hidle, hw⟩ := h0.of_runAll
    [.sys (.kernel (.spawn 40)), .sys (.kernel (.spawn 40)),
      .sys (.kernel .yield), .sys (.kernel .block),
      .sys (.kernel (.semaDown (.plain 0))), .sys (.kernel .resume),
      .threadUnblock 2]
    (fun x => x.kernel.ready = [2] ∧ x.kernel.idle = 1
      ∧ (x.kernel.sema (.plain 0)).waiters = [3]) (by decide)
  have hp := (threads_neither_lost_nor_duplicated hx).2
  exact ⟨x, hx, ⟨hready, hidle, hw⟩, hp 2 (by rw [hidle]; decide), hp 3 (by rw [hidle]; decide)⟩

/-- Unblocked while it sleeps in `sema_down`, thread 2 is READY and still
on the waiters list. -/
theorem unblocked_waiter_on_two_lists :
    ∃ x, Reach (Sys.Booted fun _ => 0) step anyStep x
      ∧ 2 ≠ x.kernel.idle ∧ x.kernel.status 2 = .ready
      ∧ 2 ∈ x.kernel.ready ∧ 2 ∈ (x.kernel.sema (.plain 0)).waiters
      ∧ ¬x.kernel.Placed 2 := by
  have h0 : Reach (Sys.Booted fun _ => 0) step anyStep (Sys.boot fun _ => 0) := .init rfl
  obtain ⟨x, hx, hidle, hst, hready, hw⟩ := h0.of_runAll
    [.sys (.kernel (.spawn 40)), .sys (.kernel .yield),
      .sys (.kernel (.semaDown (.plain 0))), .sys (.kernel .resume),
      .threadUnblock 2]
    (fun x => 2 ≠ x.kernel.idle ∧ x.kernel.status 2 = .ready
      ∧ 2 ∈ x.kernel.ready ∧ 2 ∈ (x.kernel.sema (.plain 0)).waiters) (by decide)
  refine ⟨x, hx, hidle, hst, hready, hw, fun hp => ?_⟩
  unfold Kernel.Placed at hp
  rw [hst] at hp
  exact hp.2 _ hw

end Scheduler

end Pintos
