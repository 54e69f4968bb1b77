/-
The lists of held locks.

# Which locks are on them

`lock_acquire` links a lock into `lock_holding` of its new holder and
`lock_release` takes it out, so along runs in which every lock is taken by
`lock_acquire` a thread's list has exactly the locks it holds
(`LockInv`). `lock_try_acquire` records the holder and leaves the list
alone: after one that succeeds, a thread holds a lock that its list does
not have.
-/
import Pintos.Threads.Locks

namespace Pintos

open Transition

-- ==== lock_try_acquire

namespace Sys

open Kernel

/-- Without `relink`, which stands for what a release may do to the lists
after a `lock_try_acquire`. -/
def unrelinked (a : Act) (_ : Sys) : Prop :=
  match a with
  | .relink _ => False
  | _ => True

/-- Besides, no `lock_try_acquire` gets its lock. -/
def triesFail (a : Act) (x : Sys) : Prop :=
  match a with
  | .tryAcquire l => (x.kernel.sema (.ofLock l)).value = 0
  | _ => unrelinked a x

instance (a : Act) (x : Sys) : Decidable (unrelinked a x) :=
  match a with
  | .relink _ => .isFalse id
  | .kernel _ | .tryDown _ | .tryAcquire _ | .condWait _ _ | .proceed
  | .exit | .dispatch _ => .isTrue trivial

instance (a : Act) (x : Sys) : Decidable (triesFail a x) :=
  match a with
  | .tryAcquire _ => inferInstanceAs (Decidable (_ = _))
  | .relink _ => .isFalse id
  | .kernel _ | .tryDown _ | .condWait _ _ | .proceed | .exit
  | .dispatch _ => .isTrue trivial

/-- What is left to do of `cond_wait`. -/
def ofCondWait : Todo → Prop
  | .recordHolder _ => False
  | .semaDown s => s.isPlain
  | .lockAcquire _ => True

/-- Lists and locks in order, and no holder still to be recorded. -/
structure Held (x : Sys) : Prop where
  lists : ListInv x.kernel (some x.kernel.current)
  locks : LockInv x.kernel
  todo : ∀ t, ∀ w ∈ x.todo t, ofCondWait w

variable {x x' : Sys} {a : Act}

theorem ownSemas_of_direct {b : Kernel.Act} (hd : b.direct) (k : Kernel) : ownSemas b k := by
  cases b with
  | semaDown s | semaUp s => cases s <;> exact hd
  | interrupt ups _ =>
    intro s hs
    have := List.all_eq_true.mp hd s hs
    cases s <;> exact this
  | _ => trivial

theorem Held.locks_step {b : Kernel.Act} {k' : Kernel} (hx : x.Held)
    (hd : b.direct) (h : x.kernel.step b = some k') : LockInv k' :=
  hx.locks.move hx.lists.current_facts.2.2.2
    (lockMove_step hx.locks.raw (ownSemas_of_direct hd _) h)

theorem Held.next {r : Kernel × (Tid → List Todo)} (hx : x.Held) (hok : triesFail a x)
    (hs : x.next a = some r) : LockInv r.1 ∧ ∀ t, ∀ w ∈ r.2 t, ofCondWait w := by
  have hhead : ∀ {w : Todo} {more : List Todo},
      x.todo x.kernel.current = w :: more → ofCondWait w :=
    fun hrest => hx.todo _ _ (hrest ▸ List.mem_cons_self ..)
  have htail : ∀ {w : Todo} {more : List Todo}, x.todo x.kernel.current = w :: more → ∀ t, ∀ v ∈
      Function.update x.todo x.kernel.current more t, ofCondWait v :=
    fun hrest t v hv => hx.todo t v (mem_update_tail hrest t v hv)
  cases next_cases hs with
  | kernel _ hd h => exact ⟨hx.locks_step hd h, hx.todo⟩
  | @tryDown n =>
    have hq : Quiet x.kernel (x.kernel.semaTryDown (.plain n)).2 := by
      unfold semaTryDown
      split
      · exact quiet_modPlain x.kernel n fun m => { m with value := m.value - 1 }
      · exact .refl _
    exact ⟨hx.locks.quiet hq, hx.todo⟩
  | gained hv => exact absurd hok (ne_of_gt hv)
  | refused _ => exact ⟨hx.locks, hx.todo⟩
  | condWait hr _ h =>
    refine ⟨hx.locks.move hx.lists.current_facts.2.2.2
      (lockMove_lockRelease hr h), fun t w hw => ?_⟩
    by_cases ht : t = x.kernel.current
    · subst ht
      simp only [Function.update_self, List.mem_cons, List.not_mem_nil, or_false] at hw
      rcases hw with rfl | rfl
      · exact rfl
      · trivial
    · exact hx.todo t w (by simpa [Function.update_of_ne ht] using hw)
  | record hrest => exact absurd (hhead hrest) id
  | @semaDown s _ _ hrest h =>
    have hd : (Kernel.Act.semaDown s).direct := hhead hrest
    exact ⟨hx.locks_step hd h, htail hrest⟩
  | lockAcquire hrest h => exact ⟨hx.locks_step rfl h, htail hrest⟩
  | exit => exact ⟨hx.locks.quiet (Switched.threadExit _).quiet, hx.todo⟩
  | dispatch h => exact ⟨hx.locks.quiet (Switched.dispatch h).quiet, hx.todo⟩
  | relink => exact absurd hok id

theorem Held.step (hx : x.Held) (hok : triesFail a x) (hs : x.step a = some x') : x'.Held := by
  have hlists := step_lists hx.lists hs
  obtain ⟨r, hn, rfl⟩ := Option.map_eq_some_iff.mp hs
  obtain ⟨hlocks, htodo⟩ := hx.next hok hn
  exact ⟨hlists, hlocks, htodo⟩

theorem held_reachable {v : Nat → Nat} (hr : Reach (Booted v) step triesFail x) : x.Held := by
  refine Reach.induct ?_ ?_ x hr
  · intro x hb
    cases hb
    refine ⟨listInv_boot v, lockInv_boot v, fun t w hw => ?_⟩
    cases hw
  · intro a x x' _ hx hok hs
    exact hx.step hok hs

/-- Every run of acquires, releases and failing tries, in any
interleaving: a thread's list has exactly the locks it holds, each once. -/
theorem lock_holding_exact {v : Nat → Nat} (hr : Reach (Booted v) step triesFail x) (t : Tid) :
    (x.kernel.thread t).lockHolding.Nodup ∧
      ∀ l, l ∈ (x.kernel.thread t).lockHolding ↔ (x.kernel.lock l).holder = some t := by
  have hx := held_reachable hr
  exact ⟨hx.locks.nodup t, hx.locks.holding t⟩

theorem boot_reachable (ok : Act → Sys → Prop) :
    Reach (Booted fun _ => 0) step ok (boot fun _ => 0) := .init rfl

/-- Thread 0 takes lock 0 and fails to get lock 1, which thread 2 has. -/
theorem lock_holding_exact_after_try :
    ∃ x, Reach (Booted fun _ => 0) step triesFail x ∧
      (x.kernel.lock 0).holder = some 0 ∧ (x.kernel.lock 1).holder = some 2 ∧
      (x.kernel.thread 0).lockHolding.Nodup ∧
      ∀ l, l ∈ (x.kernel.thread 0).lockHolding ↔ (x.kernel.lock l).holder = some 0 := by
  obtain ⟨x, hr, hp⟩ := (boot_reachable triesFail).of_runAll
    [.kernel (.lockAcquire 0), .kernel .resume, .kernel (.spawn 40),
      .kernel .checkPreemption, .kernel (.lockAcquire 1), .kernel .resume,
      .dispatch 0, .tryAcquire 1]
    (fun x => (x.kernel.lock 0).holder = some 0 ∧ (x.kernel.lock 1).holder = some 2)
    (by decide +kernel)
  exact ⟨x, hr, hp.1, hp.2, lock_holding_exact hr 0⟩

/-- Thread 0 takes lock 0 by `lock_try_acquire`, thread 2 of priority 40
waits for it, and thread 0 takes and releases lock 1. It holds lock 0 and
has no list to show for it, and with the release it lost what thread 2
donates. -/
theorem lock_try_acquire_unrecorded :
    ∃ x, Reach (Booted fun _ => 0) step unrelinked x ∧
      x.todo 0 = [] ∧ (x.kernel.lock 0).holder = some 0 ∧
      (x.kernel.thread 0).lockHolding = [] ∧ x.kernel.prio 0 = 31 ∧
      (x.kernel.sema (.ofLock 0)).waiters = [2] ∧ x.kernel.prio 2 = 40 := by
  obtain ⟨x, hr, hp⟩ := (boot_reachable unrelinked).of_runAll
    [.tryAcquire 0, .proceed, .kernel (.spawn 40), .kernel .checkPreemption,
      .kernel (.lockAcquire 0), .kernel .resume, .kernel (.lockAcquire 1),
      .kernel .resume, .kernel (.lockRelease 1)]
    (fun x => x.todo 0 = [] ∧ (x.kernel.lock 0).holder = some 0 ∧
      (x.kernel.thread 0).lockHolding = [] ∧ x.kernel.prio 0 = 31 ∧
      (x.kernel.sema (.ofLock 0)).waiters = [2] ∧ x.kernel.prio 2 = 40) (by decide +kernel)
  exact ⟨x, hr, hp⟩

end Sys

end Pintos
