/-
Which waiter is woken.

# Semaphores

`sema_up` sorts the waiters by their priorities as they are at the time
of the call, so it does not matter what happened to them while the
threads slept: `list_sort` is a stable sort, and the thread that goes to
the ready queue is the first of those with the highest priority.

# Condition variables

`cond_signal` does not sort. A waiter is queued by the priority that its
thread has on entry to `cond_wait`, while it still holds the lock and with
everything donated to it, and the copy is never looked at again. The queue
is in order of the copies at all times (`Monitor.Sorted`), which is the
order of the priorities as long as the copies are accurate.
-/
import Pintos.Threads.Synch
import Pintos.Threads.ReadyQueue

namespace Pintos

open Transition List Option

namespace Kernel

variable {k k' : Kernel} {s : SemaRef} {t : Tid}

-- ==== sema_up

/-- `t` is the first of the waiters that have the highest priority. -/
def FirstHighest (k : Kernel) (t : Tid) (waiters : List Tid) : Prop :=
  ∃ before after, waiters = before ++ t :: after ∧
    (∀ u ∈ before, k.prio u < k.prio t) ∧ ∀ u ∈ after, k.prio u ≤ k.prio t

/-- `t` goes from the waiters of `s` to the ready queue, the value goes up,
and nothing else changes. -/
structure Wakes (s : SemaRef) (t : Tid) (k k' : Kernel) : Prop where
  waiters : (k'.sema s).waiters.Perm ((k.sema s).waiters.erase t)
  value : (k'.sema s).value = (k.sema s).value + 1
  semas : ∀ r, r ≠ s → k'.sema r = k.sema r
  woken : k'.thread t = { k.thread t with status := .ready }
  threads : ∀ u, u ≠ t → k'.thread u = k.thread u
  ready : k'.ready = listInsertOrdered k.comparePriorities t k.ready
  current : k'.current = k.current
  lock : k'.lock = k.lock
  count : k'.count = k.count
  idle : k'.idle = k.idle

/-- The thread that `list_sort` moves to the front. -/
theorem firstHighest_of_sort {waiters rest : List Tid}
    (h : listSort k.comparePriorities waiters = t :: rest) :
    k.FirstHighest t waiters ∧ rest.Perm (waiters.erase t) := by
  have hless a b : k.comparePriorities a b = true ↔ -k.prio a < -k.prio b := by
    simp [comparePriorities]
  obtain ⟨before, after, rfl, hb, ha, hperm⟩ :=
    listSort_front (less_asymm_key hless) (less_trans_key hless) h
  have hlt : ∀ u ∈ before, k.prio u < k.prio t := fun u hu => of_decide_eq_true (hb u hu)
  refine ⟨⟨before, after, rfl, hlt, ?_⟩, ?_⟩
  · intro u hu
    exact Int.neg_le_neg_iff.mp ((not_less_iff_key hless t u).mp (ha u hu))
  have hnot : t ∉ before := fun ht => lt_irrefl _ (hlt t ht)
  rwa [erase_append_right _ hnot, erase_cons_head]

theorem threadUnblock_wakes {rest : List Tid} (hb : k.status t = .blocked)
    (hperm : rest.Perm ((k.sema s).waiters.erase t)) :
    ∃ k₁, threadUnblock t (k.modSema s fun m => { m with waiters := rest })
        = some k₁ ∧
      Wakes s t k (k₁.modSema s fun m => { m with value := m.value + 1 }) := by
  refine ⟨_, if_pos hb, ?_, ?_, ?_, ?_, ?_, rfl, rfl, rfl, rfl, rfl⟩
  · simpa [modSema] using hperm
  · simp [modSema]
  · intro r hr
    simp [modSema, hr]
  · simp [setStatus, modThread_thread]
  · intro u hu
    simp [setStatus, modThread_thread, hu]

/-- `sema_up` with threads waiting. That the waiters are blocked is the
assertion of `thread_unblock`, and part of `ListInv`. -/
theorem sema_up_wakes_first_highest (k : Kernel) (s : SemaRef) (hne : (k.sema s).waiters ≠ [])
    (hblocked : ∀ t ∈ (k.sema s).waiters, k.status t = .blocked) :
    ∃ t k', k.FirstHighest t (k.sema s).waiters ∧
      k.semaPost s = some k' ∧ Wakes s t k k' ∧
      k.semaUp s = some k'.checkPreemption := by
  have hperm := listSort_perm k.comparePriorities (k.sema s).waiters
  cases h : listSort k.comparePriorities (k.sema s).waiters with
  | nil =>
    rw [h] at hperm
    exact absurd hperm.symm.eq_nil hne
  | cons t rest =>
    obtain ⟨hfirst, hrest⟩ := firstHighest_of_sort h
    have hmem : t ∈ (k.sema s).waiters := by
      rw [← hperm.mem_iff, h]
      exact mem_cons_self ..
    obtain ⟨k₁, hun, hw⟩ := threadUnblock_wakes (hblocked t hmem) hrest
    have hpost : k.semaPost s = some (k₁.modSema s fun m => { m with value := m.value + 1 }) := by
      rw [semaPost, h]
      simp only [hun, map_some]
    exact ⟨t, _, hfirst, hpost, hw, by rw [semaUp, hpost]; rfl⟩

/-- Three threads asleep on a semaphore, the last two of which were raised
to the same priority after they were queued. -/
def raisedWaiters : Kernel :=
  { boot (fun _ => 0) with
    thread := fun t => { (boot fun _ => 0).thread t with
      status := if t = 0 then .running else .blocked
      priority := if t = 2 then 31 else 40 }
    count := 5
    sema := fun s => ⟨0, if s = .plain 0 then [2, 3, 4] else []⟩ }

theorem sema_up_wakes_raised_waiter :
    ∃ t k', raisedWaiters.FirstHighest t [2, 3, 4] ∧
      raisedWaiters.semaPost (.plain 0) = some k' ∧
      Wakes (.plain 0) t raisedWaiters k' ∧
      raisedWaiters.semaUp (.plain 0) = some k'.checkPreemption :=
  sema_up_wakes_first_highest raisedWaiters (.plain 0) (by decide) (by decide)

end Kernel

-- ==== monitors

/-- `struct semaphore_elem`, on the stack of the thread that waits. -/
structure Waiter where
  priority : Int
  semaphore : Nat
  thread : Tid

/-- The thread system with condition variables: their queues, and the
calls a thread has still to make before its `cond_wait` returns. -/
structure Monitor where
  kernel : Kernel
  waiters : Nat → List Waiter
  todo : Tid → List Kernel.Act

namespace Monitor

inductive Act where
  | kernel (a : Kernel.Act)
  | condWait (c : Nat) (l : LockId) (n : Nat)
  | condSignal (c : Nat) (l : LockId)
  | proceed

/-- `compare_priorities_sema`. -/
def comparePrioritiesSema (a b : Waiter) : Bool := decide (b.priority < a.priority)

/-- `cond_wait` up to its `lock_release`; semaphore `n`, just initialised,
is the waiter's. -/
def condWait (c : Nat) (l : LockId) (n : Nat) (x : Monitor) : Monitor :=
  let t := x.kernel.current
  { x with
    waiters := Function.update x.waiters c
      (listInsertOrdered comparePrioritiesSema ⟨x.kernel.prio t, n, t⟩ (x.waiters c))
    todo := Function.update x.todo t [.lockRelease l, .semaDown (.plain n), .lockAcquire l] }

/-- `cond_signal`. -/
def condSignal (c : Nat) (x : Monitor) : Option Monitor :=
  match x.waiters c with
  | [] => some x
  | w :: rest =>
    (x.kernel.semaUp (.plain w.semaphore)).map fun k =>
      { x with kernel := k, waiters := Function.update x.waiters c rest }

/-- The running thread is outside every function that runs with interrupts
on and holds the lock. -/
def mayCall (l : LockId) (x : Monitor) : Prop :=
  (x.kernel.thread x.kernel.current).resume = .none ∧
    x.todo x.kernel.current = [] ∧
    (x.kernel.lock l).holder = some x.kernel.current

instance (l : LockId) (x : Monitor) : Decidable (x.mayCall l) := inferInstanceAs (Decidable (_ ∧ _))

def step (a : Act) (x : Monitor) : Option Monitor :=
  match a with
  | .kernel b =>
    if x.todo x.kernel.current = [] ∨ b.unasked then
      (x.kernel.step b).map fun k => { x with kernel := k }
    else none
  | .condWait c l n =>
    if x.mayCall l ∧ (x.kernel.sema (.plain n)).value = 0
        ∧ (x.kernel.sema (.plain n)).waiters = [] then
      some (x.condWait c l n)
    else none
  | .condSignal c l => if x.mayCall l then x.condSignal c else none
  | .proceed =>
    match x.todo x.kernel.current with
    | [] => none
    | b :: rest =>
      (x.kernel.step b).map fun k => { x with
        kernel := k
        todo := Function.update x.todo x.kernel.current rest }

/-- Right after `thread_start`, no condition variable being in use. -/
def Booted (x : Monitor) : Prop :=
  Kernel.Booted x.kernel ∧ (∀ c, x.waiters c = []) ∧ ∀ t, x.todo t = []

/-- The queues are in descending order of the copied priorities. -/
def Sorted (x : Monitor) : Prop := ∀ c, (x.waiters c).Pairwise fun a b => b.priority ≤ a.priority

variable {x x' : Monitor} {a : Act} {c : Nat} {l : LockId} {n : Nat}

theorem Sorted.update (hx : x.Sorted) {ws : List Waiter}
    (hws : ws.Pairwise fun a b => b.priority ≤ a.priority)
    (hx' : x'.waiters = Function.update x.waiters c ws) : x'.Sorted := by
  intro d
  rw [hx', Function.update_apply]
  split
  · exact hws
  · exact hx d

theorem Sorted.condWait (hx : x.Sorted) : (x.condWait c l n).Sorted := by
  refine hx.update ?_ rfl
  have hless a b : comparePrioritiesSema a b = true ↔ -a.priority < -b.priority := by
    simp [comparePrioritiesSema]
  exact (listInsertOrdered_sorted_key hless _ ((hx c).imp Int.neg_le_neg)).imp Int.le_of_neg_le_neg

theorem condSignal_cons {w : Waiter} {rest : List Waiter}
    (hw : x.waiters c = w :: rest) (hs : x.condSignal c = some x') :
    x.kernel.semaUp (.plain w.semaphore) = some x'.kernel ∧
      x'.waiters = Function.update x.waiters c rest := by
  unfold condSignal at hs
  rw [hw, map_eq_some_iff] at hs
  obtain ⟨k, hk, rfl⟩ := hs
  exact ⟨hk, rfl⟩

theorem Sorted.condSignal (hx : x.Sorted) (hs : x.condSignal c = some x') : x'.Sorted := by
  cases hw : x.waiters c with
  | nil =>
    rw [Monitor.condSignal, hw] at hs
    exact some.inj hs ▸ hx
  | cons w rest =>
    have hc := hx c
    rw [hw] at hc
    exact hx.update (pairwise_cons.mp hc).2 (condSignal_cons hw hs).2

theorem Sorted.step (hx : x.Sorted) (hs : x.step a = some x') : x'.Sorted := by
  cases a with
  | kernel b =>
    simp only [Monitor.step, ite_none_right_eq_some, map_eq_some_iff] at hs
    obtain ⟨-, k, -, rfl⟩ := hs
    exact hx
  | condWait c l n =>
    simp only [Monitor.step, ite_none_right_eq_some] at hs
    exact some.inj hs.2 ▸ hx.condWait
  | condSignal c l =>
    simp only [Monitor.step, ite_none_right_eq_some] at hs
    exact hx.condSignal hs.2
  | proceed =>
    simp only [Monitor.step] at hs
    split at hs
    · cases hs
    · obtain ⟨k, -, rfl⟩ := map_eq_some_iff.mp hs
      exact hx

theorem sorted_reachable (hr : Reach Booted step anyStep x) : x.Sorted := by
  refine Reach.induct ?_ ?_ x hr
  · intro x hb c
    rw [hb.2.1 c]
    exact List.Pairwise.nil
  · intro a x x' _ hx _ hs
    exact hx.step hs

/-- `cond_signal` in any state of any run: as long as every thread in the
queue has the priority it had when it entered `cond_wait`, the semaphore
raised is that of a thread with the highest. -/
theorem cond_signal_wakes_highest {w : Waiter} {rest : List Waiter}
    (hr : Reach Booted step anyStep x) (hs : x.step (.condSignal c l) = some x')
    (hw : x.waiters c = w :: rest) (hcopy : ∀ v ∈ x.waiters c, x.kernel.prio v.thread = v.priority)
    :
    x.kernel.semaUp (.plain w.semaphore) = some x'.kernel ∧
      x'.waiters c = rest ∧
      ∀ v ∈ x.waiters c, x.kernel.prio v.thread ≤ x.kernel.prio w.thread := by
  simp only [step, ite_none_right_eq_some] at hs
  obtain ⟨hup, hq⟩ := condSignal_cons hw hs.2
  refine ⟨hup, by simp [hq], ?_⟩
  have hsorted := sorted_reachable hr c
  rw [hw] at hsorted hcopy ⊢
  obtain ⟨hfirst, -⟩ := pairwise_cons.mp hsorted
  intro v hv
  rw [hcopy v hv, hcopy w (mem_cons_self ..)]
  rcases mem_cons.mp hv with rfl | hv
  · exact le_refl _
  · exact hfirst v hv

def start : Monitor := ⟨Kernel.boot fun _ => 0, fun _ => [], fun _ => []⟩

theorem start_reachable : Reach Booted step anyStep start :=
  .init ⟨⟨_, rfl⟩, fun _ => rfl, fun _ => rfl⟩

/-- The running thread takes lock 0. -/
def takes : List Act := [.kernel (.lockAcquire 0), .kernel .resume]

/-- The running thread goes through `cond_wait` until it sleeps. -/
def waits (n : Nat) : List Act := [.condWait 0 0 n, .proceed, .proceed, .kernel .resume]

/-- Threads 3 and 0 wait, with priorities 35 and 31, and thread 2 signals. -/
theorem cond_signal_wakes_highest_of_two :
    ∃ x x' w rest, Reach Booted step anyStep x ∧
      x.waiters 0 = w :: rest ∧ rest.length = 1 ∧
      x.step (.condSignal 0 0) = some x' ∧
      x.kernel.semaUp (.plain w.semaphore) = some x'.kernel ∧
      x'.waiters 0 = rest ∧
      ∀ v ∈ x.waiters 0, x.kernel.prio v.thread ≤ x.kernel.prio w.thread := by
  obtain ⟨x, hr, hsome, hlen, hcopy⟩ := start_reachable.of_runAll
    ([.kernel (.spawn 20), .kernel (.spawn 35), .kernel .checkPreemption]
      ++ takes ++ waits 8 ++ takes ++ waits 7 ++ takes)
    (fun x => (x.step (.condSignal 0 0)).isSome ∧ (x.waiters 0).length = 2 ∧
      ∀ v ∈ x.waiters 0, x.kernel.prio v.thread = v.priority) (by decide +kernel)
  obtain ⟨x', hs⟩ := isSome_iff_exists.mp hsome
  cases hw : x.waiters 0 with
  | nil => simp [hw] at hlen
  | cons w rest =>
    rw [hw] at hlen
    exact ⟨x, x', w, rest, hr, hw, Nat.succ.inj hlen, hs,
      hw ▸ cond_signal_wakes_highest hr hs hw hcopy⟩

/-- Thread 0 holds the lock and has priority 40 on behalf of thread 3, which
wants it, when it enters `cond_wait`; giving up the lock it falls back to
31. Thread 3 gets the lock, sets its priority to 35 and waits too. Thread 2
signals: thread 0 is woken and thread 3 sleeps on. -/
theorem cond_signal_passes_over_higher_waiter :
    ∃ x x', Reach Booted step anyStep x ∧
      x.step (.condSignal 0 0) = some x' ∧
      (x.waiters 0).map Waiter.thread = [0, 3] ∧
      (x'.waiters 0).map Waiter.thread = [3] ∧
      x.kernel.prio 0 < x.kernel.prio 3 ∧
      x.kernel.status 0 = .blocked ∧ x'.kernel.status 0 ≠ .blocked ∧
      x'.kernel.status 3 = .blocked := by
  obtain ⟨x, hr, x', hs, hp⟩ := start_reachable.of_runAll
    (takes ++ [.kernel (.spawn 20), .kernel (.spawn 40),
      .kernel .checkPreemption, .kernel (.lockAcquire 0), .kernel .resume,
      .condWait 0 0 7, .proceed, .kernel .resume, .kernel (.setPriority 35)]
      ++ waits 8 ++ [.proceed, .kernel .resume] ++ takes)
    (fun x => ∃ x' ∈ x.step (.condSignal 0 0), (x.waiters 0).map Waiter.thread = [0, 3] ∧
      (x'.waiters 0).map Waiter.thread = [3] ∧ x.kernel.prio 0 < x.kernel.prio 3 ∧
      x.kernel.status 0 = .blocked ∧ x'.kernel.status 0 ≠ .blocked ∧
      x'.kernel.status 3 = .blocked) (by decide +kernel)
  exact ⟨x, x', hr, hs, hp⟩

end Monitor

end Pintos
