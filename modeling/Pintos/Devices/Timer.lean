/-
The alarm clock of `devices/timer.c`.

# The system

`Clock` adds to the thread system the tick counter, the list of sleeping
threads and their wake-up times. `timer_sleep` runs with interrupts off
from the list insertion to the first turn of its `sema_down`, so it is one
action; what is left of it is the loop of `sema_down`, in which the
thread is found by `waitsOn`. The handler is one action too: its loop over
the front of `sleep_list` (`wakeDue`) does not depend on the semaphores it
raises. The `sleep_mutex` of thread `t` is the semaphore `2 * t`, and the
code outside the timer leaves these alone (`Sys.Act.spares`).

Beside the state, `sleeps` records every sleep that did not return at
once: when it was called, when it is due, and the ticks at which its
semaphore was raised.

# The invariant

It has two halves. `Mutexes` ties a thread's `sleep_mutex` to its place:
on `sleep_list` it is queued on a semaphore of value 0; in the loop and off
the list, the value is 1; outside the loop it is 0. `OnTime` is about the
list: it is sorted, nothing on it is due, and every recorded sleep off it
was raised once, at its tick.
-/
import Pintos.Threads.Loops

namespace Pintos

open Transition Function List Option

-- ==== the code

/-- The semaphore `sleep_mutex` of a thread. -/
def sleepMutex (t : Tid) : SemaRef := .plain (2 * t)

/-- A semaphore that is no thread's `sleep_mutex`. -/
def SemaRef.spare : SemaRef → Bool
  | .plain n => n % 2 == 1
  | .ofLock _ => true

/-- Code that uses no `sleep_mutex`. -/
def Sys.Act.spares : Sys.Act → Bool
  | .kernel (.semaDown s) => s.spare
  | .kernel (.semaUp s) => s.spare
  | .kernel (.interrupt ups _) => ups.all SemaRef.spare
  | .tryDown n => (SemaRef.plain n).spare
  | .condWait _ n => (SemaRef.plain n).spare
  | _ => true

/-- One sleep: the ticks at which it was called, at which it is due, and
at which its semaphore was raised. -/
structure Sleep where
  called : Int
  wake : Int
  raised : List Int
  deriving DecidableEq, Repr

structure Clock where
  sys : Sys
  ticks : Int
  tickToWake : Tid → Int
  sleepList : List Tid
  sleeps : Tid → List Sleep

/-- `compare_ticks`. -/
def compareTicks (wake : Tid → Int) (a b : Tid) : Bool := decide (wake a < wake b)

/-- The loop of `timer_interrupt` over `sleep_list`: the threads it wakes,
in order, and what it leaves. -/
def wakeDue (now : Int) (wake : Tid → Int) : List Tid → List Tid × List Tid
  | [] => ([], [])
  | t :: rest =>
    if now < wake t then ([], t :: rest)
    else (t :: (wakeDue now wake rest).1, (wakeDue now wake rest).2)

/-- The newest sleep of a thread, raised `n` times at tick `now`. -/
def raise (now : Int) (n : Nat) : List Sleep → List Sleep
  | [] => []
  | r :: rest => { r with raised := r.raised ++ List.replicate n now } :: rest

namespace Clock

inductive Act where
  | sys (a : Sys.Act)
  | timerSleep (ticks : Int)
  | timerInterrupt (slice : Bool)

/-- `timer_sleep`, called by the running thread. -/
def timerSleep (n : Int) (c : Clock) : Option Clock :=
  let t := c.sys.kernel.current
  if (c.sys.kernel.thread t).resume = .none ∧ c.sys.todo t = []
      ∧ t ≠ c.sys.kernel.idle then
    if n ≤ 0 then some c
    else
      let wake := update c.tickToWake t (c.ticks + n)
      ((c.sys.step (.kernel (.semaDown (sleepMutex t)))).bind
        (Sys.step (.kernel .resume))).map fun x =>
          { sys := x
            ticks := c.ticks
            tickToWake := wake
            sleepList := listInsertOrdered (compareTicks wake) t c.sleepList
            sleeps := update c.sleeps t (⟨c.ticks, c.ticks + n, []⟩ :: c.sleeps t) }
  else none

/-- `timer_interrupt`, with the `thread_yield` on return from it. -/
def timerInterrupt (slice : Bool) (c : Clock) : Option Clock :=
  let now := c.ticks + 1
  let (due, rest) := wakeDue now c.tickToWake c.sleepList
  (c.sys.step (.kernel (.interrupt (due.map sleepMutex) slice))).map fun x =>
      { sys := x
        ticks := now
        tickToWake := c.tickToWake
        sleepList := rest
        sleeps := fun t => raise now (due.count t) (c.sleeps t) }

def step (a : Act) (c : Clock) : Option Clock :=
  match a with
  | .sys a =>
    if a.spares then (c.sys.step a).map fun x => { c with sys := x }
    else none
  | .timerSleep n => c.timerSleep n
  | .timerInterrupt slice => c.timerInterrupt slice

/-- After `timer_init`, at any tick; `init_thread` sets every
`sleep_mutex` to 0. -/
def Booted (c : Clock) : Prop :=
  ∃ v, (∀ n, v (2 * n) = 0) ∧ c.sys = Sys.boot v ∧ c.sleepList = [] ∧ ∀ t, c.sleeps t = []

end Clock

-- ==== what spare code does

@[simp] theorem sleepMutex_inj {t u : Tid} : sleepMutex t = sleepMutex u ↔ t = u := by
  unfold sleepMutex
  rw [SemaRef.plain.injEq]
  exact Nat.mul_right_inj (by decide)

theorem ne_sleepMutex {s : SemaRef} (h : s.spare) (t : Tid) : s ≠ sleepMutex t := by
  rintro rfl
  simp [sleepMutex, SemaRef.spare] at h

namespace Sys

open Kernel

variable {a : Act} {x : Sys} {s : SemaRef} {t : Tid}

/-- What is re-tested is the loop the running thread is in. -/
theorem event_retest (h : (x.event a).retest = some s) :
    x.kernel.waitsOn x.kernel.current = some s := by
  cases a with
  | kernel b =>
    cases b with
    | resume =>
      refine event_resume (P := fun e => e.retest = some s → _ = some s) x.kernel ?_ ?_ ?_ h
      · nofun
      · exact fun r hw h => hw.trans h
      · exact fun r l hw _ h => hw.trans h
    | _ => cases h
  | proceed =>
    simp only [event] at h
    split at h <;> cases h
  | _ => cases h

/-- Spare code raises no `sleep_mutex`. -/
theorem spares_ups (ha : a.spares) (t : Tid) : sleepMutex t ∉ (x.event a).ups := by
  intro h
  cases a with
  | kernel b =>
    cases b with
    | semaUp s =>
      have hs : sleepMutex t = s := mem_singleton.mp h
      exact ne_sleepMutex ha t hs.symm
    | interrupt ups slice => exact ne_sleepMutex (List.all_eq_true.mp ha _ h) t rfl
    | lockRelease l =>
      have hs : sleepMutex t = .ofLock l := mem_singleton.mp h
      cases hs
    | resume => exact absurd h (event_resume (P := fun e => _ ∉ e.ups) x.kernel nofun nofun nofun)
    | _ => cases h
  | condWait l n =>
    have hs : sleepMutex t = .ofLock l := mem_singleton.mp h
    cases hs
  | proceed =>
    simp only [event] at h
    split at h <;> cases h
  | _ => cases h

/-- Spare code takes a unit of a `sleep_mutex` only in the loop of
`timer_sleep`. -/
theorem spares_down (ha : a.spares) (h : (x.event a).down = some (sleepMutex t)) :
    (x.event a).retest = some (sleepMutex t) := by
  have htry : ∀ s : SemaRef, s.spare → (x.kernel.tryEvent s).down ≠ some (sleepMutex t) := by
    intro s hs hd
    unfold tryEvent at hd
    split at hd
    · injection hd with hd
      exact ne_sleepMutex hs t hd
    · cases hd
  cases a with
  | kernel b =>
    cases b with
    | resume =>
      refine event_resume (P := fun e => e.down = some (sleepMutex t) →
        e.retest = some (sleepMutex t)) x.kernel ?_ ?_ ?_ h
      · nofun
      · nofun
      · exact fun _ _ _ _ h => h
    | _ => cases h
  | tryDown n => exact absurd h (htry _ ha)
  | tryAcquire l => exact absurd h (htry _ rfl)
  | proceed =>
    simp only [event] at h
    split at h <;> cases h
  | _ => cases h

/-- Waits of `cond_wait` are the only ones put off. -/
theorem next_todo {r : Kernel × (Tid → List Todo)} (hs : x.next a = some r)
    (h : .semaDown s ∈ r.2 t) :
    .semaDown s ∈ x.todo t ∨ ∃ l n, a = .condWait l n ∧ s = .plain n := by
  cases next_cases hs with
  | @gained l _ =>
    left
    by_cases ht : t = x.kernel.current
    · subst ht
      simpa using h
    · simpa [update_of_ne ht] using h
  | @condWait l n _ _ _ _ =>
    by_cases ht : t = x.kernel.current
    · subst ht
      simp only [update_self, mem_cons, Todo.semaDown.injEq, reduceCtorEq, not_mem_nil,
        or_false] at h
      exact .inr ⟨l, n, rfl, h⟩
    · left
      simpa [update_of_ne ht] using h
  | record hrest | semaDown hrest _ => exact .inl (mem_update_tail hrest t _ h)
  | lockAcquire hrest _ => exact .inl (mem_update_tail hrest t _ h)
  | _ => exact .inl h

end Sys

-- ==== the sleep mutexes

/-- The `sleep_mutex` of every thread, `l` being `sleep_list`. -/
structure Mutexes (x : Sys) (l : List Tid) : Prop where
  own : ∀ u t, x.kernel.waitsOn u = some (sleepMutex t) → u = t
  unborn : ∀ t, x.kernel.count ≤ t → x.kernel.waitsOn t = none
  spare : ∀ t s, .semaDown s ∈ x.todo t → s.spare
  asleep : ∀ t ∈ l,
    (x.kernel.sema (sleepMutex t)).waiters = [t] ∧ (x.kernel.sema (sleepMutex t)).value = 0
  awake : ∀ t, t ∉ l →
    (x.kernel.sema (sleepMutex t)).waiters = []
      ∧ ((x.kernel.waitsOn t = some (sleepMutex t)
          ∧ (x.kernel.sema (sleepMutex t)).value = 1)
        ∨ (x.kernel.waitsOn t ≠ some (sleepMutex t) ∧ (x.kernel.sema (sleepMutex t)).value = 0))

namespace Mutexes

open Kernel

variable {x x' : Sys} {l : List Tid}
variable {e : Event} {k' : Kernel} {enter : Option SemaRef}

variable {t : Tid} {s : SemaRef}

section

variable (hm : Mutexes x l)

include hm

/-- A sleeping thread is in its loop, and blocked. -/
theorem waiting (hi : x.kernel.ListInv (some x.kernel.current)) (ht : t ∈ l) :
    x.kernel.status t = .blocked ∧ x.kernel.waitsOn t = some (sleepMutex t) := by
  have h := hi.waiter (sleepMutex t) t (by rw [(hm.asleep t ht).1]; simp)
  exact ⟨h.1, h.2.2⟩

theorem current_awake (hi : x.kernel.ListInv (some x.kernel.current)) : x.kernel.current ∉ l := by
  intro h
  have hb := (hm.waiting hi h).1
  simp [(hi.running_iff _).mpr rfl] at hb

/-- The threads in the loop of a `sleep_mutex`, but for the one that
leaves it, are the same after spare code. -/
theorem waitsOn_iff (hl : Loops e enter x.kernel k') (hr : e.retest ≠ some (sleepMutex t))
    (he : enter ≠ some (sleepMutex t)) : k'.waitsOn t = some (sleepMutex t)
      ↔ x.kernel.waitsOn t = some (sleepMutex t) := by
  cases hl.waits t with
  | same h => rw [h]
  | born h ht => rw [h, hm.unborn t ht]
  | left h ht hd hret =>
    rw [h, ← hret]
    simp [hr]
  | entered h ht hen =>
    rw [h, hen]
    simp [he]

theorem own_step (hl : Loops e enter x.kernel k') (he : ∀ t, enter ≠ some (sleepMutex t))
    (u t : Tid) (h : k'.waitsOn u = some (sleepMutex t)) : u = t := by
  cases hl.waits u with
  | same hw => exact hm.own u t (hw ▸ h)
  | born hw _ | left hw _ _ _ => rw [hw] at h; cases h
  | entered _ _ hen => exact absurd (hen ▸ h) (he t)

theorem unborn_step (hi : x.kernel.ListInv (some x.kernel.current)) (hl : Loops e enter x.kernel k')
    (t : Tid) (ht : k'.count ≤ t) : k'.waitsOn t = none := by
  have hle : x.kernel.count ≤ t := le_trans hl.count ht
  cases hl.waits t with
  | same hw => rw [hw, hm.unborn t hle]
  | born hw _ | left hw _ _ _ => exact hw
  | entered _ hc _ =>
    have hlt := hi.current_facts.2.2.2
    rw [← hc] at hlt
    exact absurd hle (not_le.mpr hlt)

end

/-- A semaphore that a step neither raises nor re-tests. -/
theorem untouched {k : Kernel} (he : Effect e k k') (hu : s ∉ e.ups) (hr : e.retest ≠ some s)
    (hd : e.down ≠ some s) : (k'.sema s).value = (k.sema s).value
      ∧ (∀ t ∈ (k'.sema s).waiters, t ∈ (k.sema s).waiters)
      ∧ (k'.sema s).waiters.length = (k.sema s).waiters.length := by
  have hv := he.value s
  rw [if_neg hd, count_eq_zero.mpr hu] at hv
  refine ⟨hv, ?_⟩
  rcases he.waiters s with ⟨h, -⟩ | ⟨hsub, hlen⟩
  · exact absurd h hr
  · rw [count_eq_zero.mpr hu] at hlen
    exact ⟨hsub, hlen⟩

/-- Code outside the timer. A thread that leaves the loop of
`timer_sleep` takes the unit its wake-up left. -/
theorem step {a : Sys.Act} (hm : Mutexes x l) (hi : x.kernel.ListInv (some x.kernel.current))
    (ha : a.spares) (hs : x.step a = some x') : Mutexes x' l := by
  obtain ⟨r, hn, rfl⟩ := map_eq_some_iff.mp hs
  have heff := (Sys.next_moves hn).effect
  have hl := Sys.next_loops hn
  have henter : ∀ t, x.enter a ≠ some (sleepMutex t) := by
    intro t h
    unfold Sys.enter at h
    split at h
    next b =>
      cases b with
      | semaDown s =>
        injection h with h
        exact ne_sleepMutex ha t h
      | lockAcquire l => cases h
      | _ => cases h
    next =>
      split at h
      next s more hrest =>
        injection h with h
        refine ne_sleepMutex (hm.spare x.kernel.current s ?_) t h
        rw [hrest]
        exact mem_cons_self ..
      next => cases h
      next => cases h
    next => cases h
  refine ⟨hm.own_step hl henter, hm.unborn_step hi hl, ?_, ?_, ?_⟩
  · intro t s h
    rcases Sys.next_todo hn h with h | ⟨m, n, rfl, rfl⟩
    · exact hm.spare t s h
    · exact ha
  · intro t ht
    obtain ⟨hw, hv⟩ := hm.asleep t ht
    -- the sleeping thread is not the one that re-tests
    have hr : (x.event a).retest ≠ some (sleepMutex t) := by
      intro h
      have hc := hm.own _ t (Sys.event_retest h)
      exact hm.current_awake hi (hc ▸ ht)
    obtain ⟨hv', hsub, hlen⟩ := untouched heff (Sys.spares_ups ha t) hr
      fun h => hr (Sys.spares_down ha h)
    refine ⟨?_, hv'.trans hv⟩
    rw [hw] at hsub hlen
    obtain ⟨u, hu⟩ := length_eq_one_iff.mp hlen
    show (r.1.sema (sleepMutex t)).waiters = [t]
    rw [hu] at hsub ⊢
    rw [mem_singleton.mp (hsub u (mem_singleton_self u))]
  · intro t ht
    obtain ⟨hw, hv⟩ := hm.awake t ht
    by_cases hr : (x.event a).retest = some (sleepMutex t)
    · have hwait := Sys.event_retest hr
      have hc := hm.own _ t hwait
      rw [hc] at hwait
      have hone : (x.kernel.sema (sleepMutex t)).value = 1 := by
        rcases hv with ⟨-, h⟩ | ⟨h, -⟩
        · exact h
        · exact absurd hwait h
      -- the value is 1, so the re-test takes it and leaves the loop
      have hd : (x.event a).down = some (sleepMutex t) := by
        rcases heff.test _ hr with h | ⟨h, -⟩
        · exact h
        · omega
      have hv' := heff.value (sleepMutex t)
      rw [if_pos hd, hone, heff.single (by rw [hd]; simp), count_nil] at hv'
      have hout := hl.taken _ hr hd
      rw [hc] at hout
      have hzero : (r.1.sema (sleepMutex t)).value = 0 := by omega
      refine ⟨?_, .inr ⟨?_, hzero⟩⟩
      · rcases heff.waiters (sleepMutex t) with ⟨-, hz, -⟩ | ⟨hsub, -⟩
        · omega
        · rw [hw] at hsub
          exact eq_nil_iff_forall_not_mem.mpr fun u hu => by cases hsub u hu
      · show r.1.waitsOn t ≠ _
        rw [hout]
        simp
    · obtain ⟨hv', -, hlen⟩ := untouched heff (Sys.spares_ups ha t) hr
        fun h => hr (Sys.spares_down ha h)
      rw [hw] at hlen
      refine ⟨length_eq_zero_iff.mp hlen, ?_⟩
      have hiff := hm.waitsOn_iff hl hr (henter t)
      rcases hv with ⟨h, hone⟩ | ⟨h, hz⟩
      · exact .inl ⟨hiff.mpr h, hv'.trans hone⟩
      · exact .inr ⟨fun h' => h (hiff.mp h'), hv'.trans hz⟩

/-- The kernel after `timer_sleep` has gone to sleep. -/
def slept (k : Kernel) : Kernel :=
  (k.modThread k.current fun th =>
    { th with resume := .semaDown (sleepMutex k.current) }).semaWait (sleepMutex k.current)

theorem slept_sema (k : Kernel) (s : SemaRef) : ((slept k).sema s).value = (k.sema s).value
      ∧ ((slept k).sema s).waiters
        = if s = sleepMutex k.current then
            listInsertOrdered (k.modThread k.current fun th =>
              { th with resume :=
                .semaDown (sleepMutex k.current) }).comparePriorities k.current (k.sema s).waiters
          else (k.sema s).waiters := by
  unfold slept semaWait
  rw [(Switched.threadBlock _).sema]
  by_cases hs : s = sleepMutex k.current <;> simp [modSema, hs]

theorem slept_waitsOn (k : Kernel) (t : Tid) :
    (slept k).waitsOn t = if t = k.current then some (sleepMutex k.current) else k.waitsOn t :=
  ((semaWait_sameLoops _ _).waitsOn t).trans
    (waitsOn_setResume k (.semaDown (sleepMutex k.current)) t)

/-- A turn of the loop that finds the value 0. -/
theorem resume_waits {y : Sys} (hres : (y.kernel.thread y.kernel.current).resume = .semaDown s)
    (hz : (y.kernel.sema s).value = 0) :
    ∃ y', y.step (.kernel .resume) = some y'
      ∧ y'.kernel = y.kernel.semaWait s ∧ y'.todo = y.todo := by
  have hn : y.next (.kernel .resume) = some (y.kernel.semaWait s, y.todo) := by
    simp [Sys.next, Kernel.step, hres, Kernel.resume, hz, Act.unasked, Act.direct]
  refine ⟨y.commit (y.event (.kernel .resume)) (y.kernel.semaWait s, y.todo), ?_, rfl, rfl⟩
  unfold Sys.step
  rw [hn]
  rfl

section

variable (hi : x.kernel.ListInv (some x.kernel.current))

include hi

/-- `timer_sleep` finds its `sleep_mutex` at 0 and goes to sleep. -/
theorem sleep_step (hm : Mutexes x l) (hnone : (x.kernel.thread x.kernel.current).resume = .none)
    (htodo : x.todo x.kernel.current = []) (hid : x.kernel.current ≠ x.kernel.idle) :
    ∃ x₁ x₂,
      x.step (.kernel (.semaDown (sleepMutex x.kernel.current))) = some x₁
      ∧ x₁.step (.kernel .resume) = some x₂
      ∧ x₂.kernel = slept x.kernel ∧ x₂.todo = x.todo := by
  have hz : (x.kernel.sema (sleepMutex x.kernel.current)).value = 0 := by
    rcases (hm.awake _ (hm.current_awake hi)).2 with ⟨h, -⟩ | ⟨-, h⟩
    · unfold waitsOn at h
      rw [hnone] at h
      cases h
    · exact h
  have h1 : x.next (.kernel (.semaDown (sleepMutex x.kernel.current)))
      = some (x.kernel.modThread x.kernel.current fun th => { th with
          resume := .semaDown (sleepMutex x.kernel.current) }, x.todo) := by
    simp [Sys.next, htodo, Kernel.step, hnone, hid, call, Act.direct, sleepMutex, SemaRef.isPlain]
  have hres := congrArg Thread.resume (modThread_thread x.kernel
    x.kernel.current x.kernel.current fun th => { th with
      resume := .semaDown (sleepMutex x.kernel.current) })
  rw [if_pos rfl] at hres
  obtain ⟨x₂, h2, hk, ht⟩ := resume_waits (y := x.commit (x.event (.kernel
    (.semaDown (sleepMutex x.kernel.current)))) (_, x.todo)) hres hz
  exact ⟨_, x₂, by unfold Sys.step; rw [h1]; rfl, h2, hk, ht⟩

theorem sleep (hm : Mutexes x l) {l' : List Tid}
    (hnone : (x.kernel.thread x.kernel.current).resume = .none)
    (hl : ∀ t, t ∈ l' ↔ t = x.kernel.current ∨ t ∈ l) (hk : x'.kernel = slept x.kernel)
    (htodo : x'.todo = x.todo) : Mutexes x' l' := by
  have hwn : x.kernel.waitsOn x.kernel.current = none := by exact congrArg Resume.sema hnone
  have hcur := hm.awake _ (hm.current_awake hi)
  have hz : (x.kernel.sema (sleepMutex x.kernel.current)).value = 0 := by
    rcases hcur.2 with ⟨h, -⟩ | ⟨-, h⟩
    · simp [hwn] at h
    · exact h
  -- what other threads see of it
  have hother t (ht : t ≠ x.kernel.current) :
      ((slept x.kernel).sema (sleepMutex t)).waiters = (x.kernel.sema (sleepMutex t)).waiters ∧
      ((slept x.kernel).sema (sleepMutex t)).value = (x.kernel.sema (sleepMutex t)).value ∧ (slept
      x.kernel).waitsOn t = x.kernel.waitsOn t := by
    obtain ⟨hv, hw⟩ := slept_sema x.kernel (sleepMutex t)
    refine ⟨hw.trans (if_neg fun h => ht (sleepMutex_inj.mp h)), hv, ?_⟩
    rw [slept_waitsOn, if_neg ht]
  refine ⟨?_, ?_, ?_, ?_, ?_⟩
  · intro u t h
    rw [hk, slept_waitsOn] at h
    split at h
    next hu =>
      injection h with h
      rw [hu, sleepMutex_inj.mp h]
    next => exact hm.own u t h
  · intro t ht
    rw [hk] at ht ⊢
    have hcount : (slept x.kernel).count = x.kernel.count := (semaWait_sameLoops _ _).count
    rw [hcount] at ht
    have hne : t ≠ x.kernel.current := by
      intro h
      exact absurd hi.current_facts.2.2.2 (not_lt.mpr (h ▸ ht))
    rw [(hother t hne).2.2]
    exact hm.unborn t ht
  · intro t s h
    rw [htodo] at h
    exact hm.spare t s h
  · intro t ht
    rw [hk]
    by_cases hc : t = x.kernel.current
    · subst hc
      obtain ⟨hv, hw⟩ := slept_sema x.kernel (sleepMutex x.kernel.current)
      rw [if_pos rfl, hcur.1] at hw
      exact ⟨hw, hv.trans hz⟩
    · obtain ⟨hw, hv, -⟩ := hother t hc
      rw [hw, hv]
      exact hm.asleep t (((hl t).mp ht).resolve_left hc)
  · intro t ht
    have hc : t ≠ x.kernel.current := fun h => ht ((hl t).mpr (.inl h))
    obtain ⟨hw, hv, hwait⟩ := hother t hc
    rw [hk, hw, hv, hwait]
    exact hm.awake t fun h => ht ((hl t).mpr (.inr h))

/-- The handler raises the semaphores of the threads it takes off the
list. -/
theorem wake (hm : Mutexes x l) {due rest : List Tid} {slice : Bool} (hl : l = due ++ rest)
    (hnd : l.Nodup) (hs : x.step (.kernel (.interrupt (due.map sleepMutex) slice)) = some x')
    : Mutexes x' rest := by
  obtain ⟨r, hn, rfl⟩ := map_eq_some_iff.mp hs
  obtain ⟨-, hn⟩ := ite_none_right_eq_some.mp hn
  obtain ⟨k', hk, rfl⟩ := map_eq_some_iff.mp hn
  have hint := step_interrupt hk
  have hp := interrupt_posted hint
  have hsame := interrupt_sameLoops hint
  have hcount : ∀ t, (due.map sleepMutex).count (sleepMutex t) = due.count t :=
    count_map_of_injective due sleepMutex fun _ _ h => sleepMutex_inj.mp h
  rw [hl, nodup_append] at hnd
  obtain ⟨hdue, -, hdisj⟩ := hnd
  refine ⟨?_, ?_, hm.spare, ?_, ?_⟩
  · intro u t h
    exact hm.own u t ((hsame.waitsOn u).symm.trans h)
  · intro t ht
    exact (hsame.waitsOn t).trans (hm.unborn t (hsame.count ▸ ht))
  · intro t ht
    obtain ⟨hw, hv⟩ := hm.asleep t (hl ▸ mem_append_right due ht)
    have hzero : due.count t = 0 := count_eq_zero.mpr fun h => hdisj t h t ht rfl
    have hlen := hp.length (sleepMutex t)
    have hsub := hp.waiters (sleepMutex t)
    rw [hcount, hzero, hw] at hlen
    rw [hw] at hsub
    obtain ⟨u, hu⟩ := length_eq_one_iff.mp hlen
    constructor
    · show (k'.sema (sleepMutex t)).waiters = [t]
      rw [hu] at hsub ⊢
      rw [mem_singleton.mp (hsub u (mem_singleton_self u))]
    · show (k'.sema (sleepMutex t)).value = 0
      rw [hp.value, hcount, hzero, hv]
  · intro t ht
    show (k'.sema (sleepMutex t)).waiters = []
      ∧ ((k'.waitsOn t = _ ∧ (k'.sema _).value = 1) ∨ (k'.waitsOn t ≠ _ ∧ (k'.sema _).value = 0))
    have hlen := hp.length (sleepMutex t)
    have hv' := hp.value (sleepMutex t)
    rw [hcount] at hlen hv'
    rw [hsame.waitsOn t]
    by_cases htd : t ∈ due
    · have htl : t ∈ l := hl ▸ mem_append_left rest htd
      obtain ⟨hw, hv⟩ := hm.asleep t htl
      have hone : due.count t = 1 := count_eq_one_of_mem hdue htd
      rw [hone, hw] at hlen
      rw [hone, hv] at hv'
      exact ⟨length_eq_zero_iff.mp hlen, .inl ⟨(hm.waiting hi htl).2, hv'⟩⟩
    · have htl : t ∉ l := by
        rw [hl, mem_append]
        exact fun h => h.elim htd ht
      obtain ⟨hw, hv⟩ := hm.awake t htl
      rw [count_eq_zero.mpr htd] at hlen hv'
      rw [hw] at hlen
      refine ⟨length_eq_zero_iff.mp hlen, ?_⟩
      rw [hv', Nat.add_zero]
      exact hv

end

end Mutexes

-- ==== the sleep list

theorem wakeDue_append (now : Int) (wake : Tid → Int) (l : List Tid) :
    (wakeDue now wake l).1 ++ (wakeDue now wake l).2 = l := by
  induction l with
  | nil => rfl
  | cons t rest ih =>
    unfold wakeDue
    split
    · rfl
    · rw [cons_append, ih]

theorem wakeDue_due (now : Int) (wake : Tid → Int) (l : List Tid) :
    ∀ t ∈ (wakeDue now wake l).1, wake t ≤ now := by
  induction l with
  | nil => exact nofun
  | cons t rest ih =>
    intro u hu
    unfold wakeDue at hu
    split at hu
    next => cases hu
    next hdue =>
      rcases mem_cons.mp hu with rfl | hu
      · omega
      · exact ih u hu

/-- The handler stops at the first thread that is not due; in a sorted
list none behind it is. -/
theorem wakeDue_rest (now : Int) (wake : Tid → Int) {l : List Tid}
    (hl : l.Pairwise fun a b => wake a ≤ wake b) : ∀ t ∈ (wakeDue now wake l).2, now < wake t := by
  induction l with
  | nil => exact nofun
  | cons t rest ih =>
    obtain ⟨hhead, htail⟩ := pairwise_cons.mp hl
    intro u hu
    unfold wakeDue at hu
    split at hu
    next hlate =>
      rcases mem_cons.mp hu with rfl | hu
      · exact hlate
      · have := hhead u hu
        omega
    next => exact ih htail u hu

/-- A sleep that is over: its semaphore was raised once, at its tick. -/
def Sleep.Done (now : Int) (r : Sleep) : Prop :=
  r.called < r.wake ∧ r.wake ≤ now ∧ r.raised = [r.wake]

theorem Sleep.Done.mono {now now' : Int} {r : Sleep} (h : r.Done now)
    (hle : now ≤ now') : r.Done now' :=
  ⟨h.1, le_trans h.2.1 hle, h.2.2⟩

/-- The list and the sleeps on record. -/
structure OnTime (c : Clock) : Prop where
  sorted : c.sleepList.Pairwise fun a b => c.tickToWake a ≤ c.tickToWake b
  nodup : c.sleepList.Nodup
  later : ∀ t ∈ c.sleepList, c.ticks < c.tickToWake t
  newest : ∀ t ∈ c.sleepList, ∃ r rest, c.sleeps t = r :: rest
    ∧ r.wake = c.tickToWake t ∧ r.called < r.wake ∧ r.raised = []
    ∧ ∀ q ∈ rest, q.Done c.ticks
  done : ∀ t, t ∉ c.sleepList → ∀ r ∈ c.sleeps t, r.Done c.ticks

namespace OnTime

variable {c : Clock}

/-- A thread off the list goes to sleep for `n` ticks. -/
theorem sleep (h : OnTime c) {t : Tid} {n : Int} (hn : 0 < n) (ht : t ∉ c.sleepList) (x : Sys) :
    OnTime
      { sys := x
        ticks := c.ticks
        tickToWake := update c.tickToWake t (c.ticks + n)
        sleepList := listInsertOrdered (compareTicks
          (update c.tickToWake t (c.ticks + n))) t c.sleepList
        sleeps := update c.sleeps t (⟨c.ticks, c.ticks + n, []⟩ :: c.sleeps t) } := by
  have hne : ∀ u ∈ c.sleepList, u ≠ t := fun u hu he => ht (he ▸ hu)
  have hold : ∀ u ∈ c.sleepList, update c.tickToWake t (c.ticks + n) u = c.tickToWake u :=
    fun u hu => update_of_ne (hne u hu) ..
  refine ⟨?_, ?_, ?_, ?_, ?_⟩
  · refine listInsertOrdered_sorted_key (fun a b => ?_) t ?_
    · simp only [compareTicks, decide_eq_true_iff]
    · refine h.sorted.imp_of_mem fun {a b} ha hb hab => ?_
      show update c.tickToWake t (c.ticks + n) a ≤ update c.tickToWake t (c.ticks + n) b
      rw [hold a ha, hold b hb]
      exact hab
  · exact (listInsertOrdered_perm _ t _).nodup_iff.mpr (nodup_cons.mpr ⟨ht, h.nodup⟩)
  · intro u hu
    rcases mem_listInsertOrdered.mp hu with rfl | hu
    · simp only [update_self]
      omega
    · show c.ticks < update c.tickToWake t (c.ticks + n) u
      rw [hold u hu]
      exact h.later u hu
  · intro u hu
    rcases mem_listInsertOrdered.mp hu with rfl | hu
    · refine ⟨⟨c.ticks, c.ticks + n, []⟩, c.sleeps u, ?_, ?_, ?_, rfl, ?_⟩
      · simp only [update_self]
      · simp only [update_self]
      · show c.ticks < c.ticks + n
        omega
      · exact h.done u ht
    · obtain ⟨r, rest, hs, hw, hrest⟩ := h.newest u hu
      refine ⟨r, rest, ?_, ?_, hrest⟩
      · simpa only [update_of_ne (hne u hu)] using hs
      · show r.wake = update c.tickToWake t (c.ticks + n) u
        rw [hold u hu]
        exact hw
  · intro u hu r hr
    have hut : u ≠ t := fun he => hu (mem_listInsertOrdered.mpr (.inl he))
    simp only [update_of_ne hut] at hr
    exact h.done u (fun hm => hu (mem_listInsertOrdered.mpr (.inr hm))) r hr

/-- The next tick: the threads due now are those due at this very tick,
since none was due before. -/
theorem tick (h : OnTime c) (x : Sys) :
    OnTime
      { sys := x
        ticks := c.ticks + 1
        tickToWake := c.tickToWake
        sleepList := (wakeDue (c.ticks + 1) c.tickToWake c.sleepList).2
        sleeps := fun t => raise (c.ticks + 1)
          ((wakeDue (c.ticks + 1) c.tickToWake c.sleepList).1.count t)
          (c.sleeps t) } := by
  have happ := wakeDue_append (c.ticks + 1) c.tickToWake c.sleepList
  have hdue := wakeDue_due (c.ticks + 1) c.tickToWake c.sleepList
  have hrest := wakeDue_rest (c.ticks + 1) c.tickToWake h.sorted
  generalize wakeDue (c.ticks + 1) c.tickToWake c.sleepList = d at happ hdue hrest ⊢
  have hnd := h.nodup
  have hsorted := h.sorted
  rw [← happ] at hnd hsorted
  obtain ⟨hnd1, hnd2, hdisj⟩ := nodup_append.mp hnd
  have hzero t (ht : t ∉ d.1) l : raise (c.ticks + 1) (d.1.count t) l = l := by
    rw [count_eq_zero.mpr ht]
    cases l with
    | nil => rfl
    | cons r rest => simp [raise]
  refine ⟨(pairwise_append.mp hsorted).2.1, hnd2, hrest, ?_, ?_⟩
  · intro t ht
    have htl : t ∈ c.sleepList := happ ▸ mem_append_right d.1 ht
    have htd : t ∉ d.1 := fun hd => hdisj t hd t ht rfl
    obtain ⟨r, rest, hs, hw, hlt, hraised, hq⟩ := h.newest t htl
    refine ⟨r, rest, (hzero t htd _).trans hs, hw, hlt, hraised, fun q hm => (hq q hm).mono ?_⟩
    exact Int.le_add_of_nonneg_right (by decide)
  · intro t ht r hr
    by_cases htd : t ∈ d.1
    · have htl : t ∈ c.sleepList := happ ▸ mem_append_left d.2 htd
      obtain ⟨q, rest, hs, hw, hlt, hraised, hq⟩ := h.newest t htl
      have hlate := h.later t htl
      have hnow := hdue t htd
      simp only [hs, count_eq_one_of_mem hnd1 htd, raise] at hr
      rcases mem_cons.mp hr with rfl | hr
      · refine ⟨hlt, ?_, ?_⟩
        · show q.wake ≤ c.ticks + 1
          omega
        · have hwake : q.wake = c.ticks + 1 := by omega
          simp [hraised, hwake]
      · exact (hq r hr).mono (Int.le_add_of_nonneg_right (by decide))
    · simp only [hzero t htd] at hr
      have htl : t ∉ c.sleepList := by
        rw [← happ, mem_append]
        exact fun hm => hm.elim htd ht
      exact (h.done t htl r hr).mono (Int.le_add_of_nonneg_right (by decide))

end OnTime

-- ==== every run

namespace Clock

open Kernel

structure Inv (c : Clock) : Prop where
  lists : c.sys.kernel.ListInv (some c.sys.kernel.current)
  mutexes : Mutexes c.sys c.sleepList
  onTime : OnTime c

variable {c c' : Clock}

/-- `timer_sleep` with a positive argument always gets to sleep. -/
theorem Inv.timerSleep (hi : Inv c) {n : Int} (hs : c.timerSleep n = some c') : Inv c' := by
  obtain ⟨hg, hs⟩ := ite_none_right_eq_some.mp hs
  split at hs
  · cases hs
    exact hi
  next hn =>
    obtain ⟨hnone, htodo, hid⟩ := hg
    obtain ⟨x₁, x₂, h1, h2, hk, ht⟩ := hi.mutexes.sleep_step hi.lists hnone htodo hid
    rw [h1, bind_some, h2, map_some] at hs
    cases hs
    refine ⟨Sys.step_lists (Sys.step_lists hi.lists h1) h2, ?_, ?_⟩
    · exact hi.mutexes.sleep hi.lists hnone (fun t => mem_listInsertOrdered) hk ht
    · exact hi.onTime.sleep (by omega) (hi.mutexes.current_awake hi.lists) x₂

theorem Inv.timerInterrupt (hi : Inv c) {slice : Bool}
    (hs : c.timerInterrupt slice = some c') : Inv c' := by
  obtain ⟨x, hx, rfl⟩ := map_eq_some_iff.mp hs
  refine ⟨Sys.step_lists hi.lists hx, ?_, hi.onTime.tick x⟩
  exact hi.mutexes.wake hi.lists (wakeDue_append ..).symm hi.onTime.nodup hx

theorem Inv.step {a : Act} (hi : Inv c) (hs : c.step a = some c') : Inv c' := by
  cases a with
  | sys a =>
    obtain ⟨ha, hs⟩ := ite_none_right_eq_some.mp hs
    obtain ⟨x, hx, rfl⟩ := map_eq_some_iff.mp hs
    have ht := hi.onTime
    exact ⟨Sys.step_lists hi.lists hx, hi.mutexes.step hi.lists ha hx,
      ⟨ht.sorted, ht.nodup, ht.later, ht.newest, ht.done⟩⟩
  | timerSleep n => exact hi.timerSleep hs
  | timerInterrupt slice => exact hi.timerInterrupt hs

theorem inv_boot (hc : Booted c) : Inv c := by
  obtain ⟨v, hv, hsys, hlist, hsleeps⟩ := hc
  refine ⟨?_, ⟨?_, ?_, ?_, ?_, ?_⟩, ⟨?_, ?_, ?_, ?_, ?_⟩⟩
  · rw [hsys]
    exact listInv_boot v
  · intro u t h
    rw [hsys] at h
    cases h
  · intro t _
    rw [hsys]
    rfl
  · intro t s h
    rw [hsys] at h
    cases h
  · intro t ht
    simp [hlist] at ht
  · intro t _
    rw [hsys]
    refine ⟨rfl, .inr ⟨?_, hv t⟩⟩
    nofun
  · rw [hlist]
    exact List.Pairwise.nil
  · rw [hlist]
    exact nodup_nil
  · rw [hlist]
    exact nofun
  · rw [hlist]
    exact nofun
  · intro t _ r hr
    simp [hsleeps] at hr

theorem inv_reachable (hc : Reach Booted step anyStep c) : Inv c := by
  refine Reach.induct (P := Inv) ?_ ?_ c hc
  · exact fun c h => inv_boot h
  · exact fun a c c' _ hi _ hs => hi.step hs

/-- Every sleep on record is raised at its tick and at no other. -/
theorem OnTime.raised (h : OnTime c) {t : Tid} {r : Sleep} (hr : r ∈ c.sleeps t) :
    r.called < r.wake ∧ r.raised = if r.wake ≤ c.ticks then [r.wake] else [] := by
  have hdone {r : Sleep} (hd : r.Done c.ticks) :
      r.called < r.wake ∧ r.raised = if r.wake ≤ c.ticks then [r.wake] else [] := by
    rw [if_pos hd.2.1]
    exact ⟨hd.1, hd.2.2⟩
  by_cases ht : t ∈ c.sleepList
  · obtain ⟨q, rest, hs, hw, hlt, hraised, hrest⟩ := h.newest t ht
    rw [hs] at hr
    rcases mem_cons.mp hr with rfl | hr
    · have hlate := h.later t ht
      rw [if_neg (by omega)]
      exact ⟨hlt, hraised⟩
    · exact hdone (hrest r hr)
  · exact hdone (h.done t ht r hr)

/-- The timer interrupt gets through whenever interrupts are on. -/
theorem Inv.timerInterrupt_enabled (hi : Inv c)
    (hon : (c.sys.kernel.thread c.sys.kernel.current).resume = .none)
    (slice : Bool) : ∃ c', c.timerInterrupt slice = some c' := by
  obtain ⟨k', hk⟩ := hi.lists.interrupt_enabled hon
    ((wakeDue (c.ticks + 1) c.tickToWake c.sleepList).1.map sleepMutex) slice
  have hplain : ((wakeDue (c.ticks + 1) c.tickToWake c.sleepList).1.map
      sleepMutex).all SemaRef.isPlain := by
    simp [List.all_eq_true, sleepMutex, SemaRef.isPlain]
  have hn : c.sys.next (.kernel (.interrupt
      ((wakeDue (c.ticks + 1) c.tickToWake c.sleepList).1.map sleepMutex)
      slice)) = some (k', c.sys.todo) := by
    simp only [Sys.next]
    rw [if_pos ⟨.inr rfl, hplain⟩, hk]
    rfl
  unfold Clock.timerInterrupt Sys.step
  dsimp only
  rw [hn]
  exact ⟨_, rfl⟩

end Clock

end Pintos
