/-
Semaphores and locks over every interleaving.

# The system

`Sys` puts the rest of `threads/synch.c` on top of the thread system:
`sema_try_down`, `lock_try_acquire` in its two steps, `cond_wait` in its
three, and the end of `thread_exit`. What a thread has still to do in the
middle of a function that runs with interrupts on is its `todo` list;
interrupts and switches may come in between.

Two actions are there to have every interleaving, not because the code
has them. `dispatch t` switches to any READY thread, whatever its
priority. `relink` leaves arbitrary `lock_holding` lists behind:
`lock_release` takes the lock's `holding_elem` out of a list even when
`lock_try_acquire` never put it into one, and all that this can damage
here are those lists, which only priorities depend on.

The semaphore inside a lock is used by the lock functions only.

# The history

Beside the kernel, `Sys` keeps what the code does not store: the completed
downs and ups of every semaphore, the threads that have been taken off its
waiters and have not yet re-tested the value (`woken`), and the threads
between a successful acquire of a lock and its release (`inside`). An
action contributes an `Event`, and one function, `Sys.commit`, brings the
history up to date. `Effect` says what an action does to semaphores and
holders; every invariant below is read off it.
-/
import Pintos.Threads.Membership
import Pintos.Lib.Transition
import Mathlib.Data.Finset.Card

namespace Pintos

open Transition Function List Option

namespace Kernel

-- ==== the rest of the code

/-- `sema_try_down`. -/
def semaTryDown (s : SemaRef) (k : Kernel) : Bool × Kernel :=
  if 0 < (k.sema s).value then
    (true, k.modSema s fun m => { m with value := m.value - 1 })
  else (false, k)

/-- The end of `thread_exit`, from its `intr_disable` on. -/
def threadExit (k : Kernel) : Kernel := (k.setStatus k.current .dying).schedule

/-- A thread switch to any READY thread. -/
def dispatch (t : Tid) (k : Kernel) : Option Kernel :=
  if t ∈ k.requeueCurrent.ready then
    some ({ k.requeueCurrent with
      ready := k.requeueCurrent.ready.erase t, current := t }.setStatus t .running)
  else none

/-- Arbitrary `lock_holding` lists. -/
def relink (holding : Tid → List LockId) (k : Kernel) : Kernel :=
  { k with thread := fun t => { k.thread t with lockHolding := holding t } }

end Kernel

-- ==== the system

/-- What a thread has still to do in the function it is in. -/
inductive Todo where
  | recordHolder (l : LockId)
  | semaDown (s : SemaRef)
  | lockAcquire (l : LockId)
  deriving DecidableEq, Repr

structure Sys where
  kernel : Kernel
  todo : Tid → List Todo
  downs : SemaRef → Nat
  ups : SemaRef → Nat
  woken : SemaRef → Finset Tid
  inside : LockId → Finset Tid

/-- What an action does to semaphores and locks: the ups it completes, the
semaphore whose value the running thread re-tests, the down it completes,
the lock it records the running thread as the holder of. -/
structure Event where
  ups : List SemaRef
  retest : Option SemaRef
  down : Option SemaRef
  record : Option LockId

def Event.silent : Event := ⟨[], none, none, none⟩

namespace Sys

inductive Act where
  | kernel (a : Kernel.Act)
  | tryDown (n : Nat)
  | tryAcquire (l : LockId)
  | condWait (l : LockId) (n : Nat)
  | proceed
  | exit
  | dispatch (t : Tid)
  | relink (holding : Tid → List LockId)

end Sys

def SemaRef.isPlain : SemaRef → Bool
  | .plain _ => true
  | .ofLock _ => false

namespace Kernel

/-- Direct use of semaphores, as opposed to that of the lock functions, is
of semaphores outside locks. -/
def Act.direct : Act → Bool
  | .semaDown s => s.isPlain
  | .semaUp s => s.isPlain
  | .interrupt ups _ => ups.all SemaRef.isPlain
  | _ => true

/-- What needs no call by the running thread. -/
def Act.unasked : Act → Bool
  | .resume => true
  | .interrupt _ _ => true
  | _ => false

/-- The event of a turn of the loop of `sema_down`; `l` is the lock, when
the semaphore is a lock's. -/
def testEvent (s : SemaRef) (l : Option LockId) (k : Kernel) : Event :=
  if (k.sema s).value = 0 then ⟨[], some s, none, none⟩
  else ⟨[], some s, some s, l⟩

def event (a : Act) (k : Kernel) : Event :=
  match a with
  | .semaUp s => ⟨[s], none, none, none⟩
  | .lockRelease l => ⟨[.ofLock l], none, none, none⟩
  | .interrupt ups _ => ⟨ups, none, none, none⟩
  | .resume =>
    match (k.thread k.current).resume with
    | .none => .silent
    | .semaDown s => k.testEvent s none
    | .lockAcquire l => k.testEvent (.ofLock l) (some l)
  | _ => .silent

/-- The event of a `sema_try_down`. -/
def tryEvent (s : SemaRef) (k : Kernel) : Event :=
  ⟨[], none, if 0 < (k.sema s).value then some s else none, none⟩

end Kernel

namespace Sys

/-- The kernel after an action and the `todo` lists. -/
def next (a : Act) (x : Sys) : Option (Kernel × (Tid → List Todo)) :=
  let k := x.kernel
  let rest := x.todo k.current
  let setTodo (l : List Todo) : Tid → List Todo := update x.todo k.current l
  match a with
  | .kernel b =>
    if (rest = [] ∨ b.unasked) ∧ b.direct then
      (k.step b).map fun k' => (k', x.todo)
    else none
  | .tryDown n =>
    if (k.thread k.current).resume = .none then
      some ((k.semaTryDown (.plain n)).2, x.todo)
    else none
  | .tryAcquire l =>
    -- an interrupt handler may call it in the middle of anything
    if (k.thread k.current).resume = .none
        ∧ (k.lock l).holder ≠ some k.current then
      match k.semaTryDown (.ofLock l) with
      | (true, k') => some (k', setTodo (.recordHolder l :: rest))
      | (false, k') => some (k', x.todo)
    else none
  | .condWait l n =>
    if (k.thread k.current).resume = .none ∧ rest = []
        ∧ k.current ≠ k.idle ∧ (k.sema (.plain n)).value = 0
        ∧ (k.sema (.plain n)).waiters = [] then
      (k.lockRelease l).map fun k' => (k', setTodo [.semaDown (.plain n), .lockAcquire l])
    else none
  | .proceed =>
    if (k.thread k.current).resume = .none then
      match rest with
      | [] => none
      | .recordHolder l :: more =>
        some (k.modLock l fun m => { m with holder := some k.current }, setTodo more)
      | .semaDown s :: more => (k.step (.semaDown s)).map fun k' => (k', setTodo more)
      | .lockAcquire l :: more => (k.step (.lockAcquire l)).map fun k' => (k', setTodo more)
    else none
  | .exit =>
    if (k.thread k.current).resume = .none ∧ rest = []
        ∧ k.current ≠ k.idle then
      some (k.threadExit, x.todo)
    else none
  | .dispatch t => (k.dispatch t).map fun k' => (k', x.todo)
  | .relink holding => some (k.relink holding, x.todo)

def event (a : Act) (x : Sys) : Event :=
  match a with
  | .kernel b => x.kernel.event b
  | .tryDown n => x.kernel.tryEvent (.plain n)
  | .tryAcquire l => x.kernel.tryEvent (.ofLock l)
  | .condWait l _ => ⟨[.ofLock l], none, none, none⟩
  | .proceed =>
    match x.todo x.kernel.current with
    | .recordHolder l :: _ => ⟨[], none, none, some l⟩
    | _ => .silent
  | _ => .silent

/-- The history after an event. -/
def commit (e : Event) (r : Kernel × (Tid → List Todo)) (x : Sys) : Sys where
  kernel := r.1
  todo := r.2
  downs s := if e.down = some s then x.downs s + 1 else x.downs s
  ups s := x.ups s + e.ups.count s
  woken s :=
    (if e.retest = some s then (x.woken s).erase x.kernel.current
      else x.woken s)
    ∪ ((x.kernel.sema s).waiters.toFinset \ (r.1.sema s).waiters.toFinset)
  inside l :=
    if e.down = some (.ofLock l) then insert x.kernel.current (x.inside l)
    else if .ofLock l ∈ e.ups then (x.inside l).erase x.kernel.current
    else x.inside l

def step (a : Act) (x : Sys) : Option Sys := (x.next a).map fun r => x.commit (x.event a) r

/-- The system right after `thread_start`, plain semaphore `n` being
initialised to `v n`. -/
def boot (v : Nat → Nat) : Sys where
  kernel := Kernel.boot v
  todo _ := []
  downs _ := 0
  ups _ := 0
  woken _ := ∅
  inside _ := ∅

def Booted (v : Nat → Nat) (x : Sys) : Prop := x = boot v

end Sys

-- ==== what leaves semaphores alone

namespace Kernel

/-- No semaphore and no holder changes. -/
structure Still (k k' : Kernel) : Prop where
  sema : k'.sema = k.sema
  holder : ∀ l, (k'.lock l).holder = (k.lock l).holder

theorem Still.refl (k : Kernel) : Still k k := ⟨rfl, fun _ => rfl⟩

variable {k k' k₁ k₂ : Kernel} {s : SemaRef} {us : List SemaRef} {t : Tid} {l : LockId}

theorem Switched.still (h : Switched k k') : Still k k' := ⟨h.sema, fun l => by rw [h.lock]⟩

theorem Switched.threadExit (k : Kernel) : Switched k k.threadExit :=
  (Switched.setStatus k k.ready k.current ..).trans (Switched.schedule _)

theorem Switched.dispatch (hs : k.dispatch t = some k') : Switched k k' := by
  obtain ⟨-, ⟨⟩⟩ := ite_none_right_eq_some.mp hs
  exact (Switched.requeueCurrent k).trans (Switched.setStatus ..)

theorem spawn_still {p : Int} (hs : k.spawn p = some k') : Still k k' := by
  obtain ⟨-, hs⟩ := ite_none_right_eq_some.mp hs
  have h := (Switched.threadUnblock hs).still
  exact ⟨h.sema, h.holder⟩

theorem Reprioritised.still (h : Reprioritised k k') : Still k k' := ⟨h.sema, h.holder⟩

theorem lockRequest_still (hs : k.lockRequest l = some k') : Still k k' := by
  obtain ⟨-, ⟨⟩⟩ := ite_none_left_eq_some.mp hs
  cases (k.lock l).holder with
  | none => exact ⟨rfl, fun _ => rfl⟩
  | some t =>
    have hd := (donate_reprioritised k.count l (some t) (k.modThread k.current fun th =>
        { th with lockWaiting := th.lockWaiting ++ [l] })).still
    exact ⟨hd.sema, hd.holder⟩

/-- The calls that only leave a continuation. -/
theorem semaDown_still (hs : k.step (.semaDown s) = some k') : Still k k' := by
  rcases step_cases hs with ⟨h, -⟩ | ⟨-, hc⟩
  · cases h
  · cases hc
    exact ⟨rfl, fun _ => rfl⟩

theorem lockAcquire_still (hs : k.step (.lockAcquire l) = some k') : Still k k' := by
  rcases step_cases hs with ⟨h, -⟩ | ⟨-, hc⟩
  · cases h
  · cases hc with
    | lockAcquire _ h => exact lockRequest_still h

-- ==== what raises them

/-- Completed ups: every value goes up by the number of its ups, and each
up takes at most one thread off the waiters. -/
structure Posted (us : List SemaRef) (k k' : Kernel) : Prop where
  value : ∀ s, (k'.sema s).value = (k.sema s).value + us.count s
  waiters : ∀ s, ∀ t ∈ (k'.sema s).waiters, t ∈ (k.sema s).waiters
  length : ∀ s, (k'.sema s).waiters.length = (k.sema s).waiters.length - us.count s
  holder : ∀ l, (k'.lock l).holder = (k.lock l).holder

theorem Still.posted (h : Still k k') : Posted [] k k' := by
  refine ⟨?_, ?_, ?_, h.holder⟩
  · simp [h.sema]
  · simp [h.sema]
  · simp [h.sema]

theorem Posted.append {vs : List SemaRef} (h1 : Posted us k k₁)
    (h2 : Posted vs k₁ k₂) : Posted (us ++ vs) k k₂ := by
  refine ⟨?_, ?_, ?_, fun l => (h2.holder l).trans (h1.holder l)⟩
  · intro s
    rw [h2.value, h1.value, count_append, Nat.add_assoc]
  · exact fun s t ht => h1.waiters s t (h2.waiters s t ht)
  · intro s
    rw [h2.length, h1.length, count_append, Nat.sub_sub]

theorem Posted.still (h1 : Posted us k k₁) (h2 : Still k₁ k₂) : Posted us k k₂ := by
  have h := h1.append h2.posted
  rwa [append_nil] at h

theorem semaPost_posted (hs : k.semaPost s = some k') : Posted [s] k k' := by
  have hcount r : [s].count r = if r = s then 1 else 0 := by
    by_cases h : r = s
    · simp [h]
    · simp [h, Ne.symm h]
  rcases semaPost_cases hs with ⟨hnil, rfl⟩ | ⟨t, rest, k₂, -, hperm, hun, rfl⟩
  · refine ⟨?_, ?_, ?_, fun _ => rfl⟩ <;> intro r <;>
      simp only [modSema, hcount]
    · by_cases h : r = s <;> simp [h]
    · by_cases h : r = s <;> simp [h]
    · by_cases h : r = s <;> simp [h, hnil]
  · have hst := (Switched.threadUnblock hun).still
    refine ⟨?_, ?_, ?_, hst.holder⟩ <;> intro r <;>
      simp only [modSema, hst.sema, hcount]
    · by_cases h : r = s <;> simp [h]
    · by_cases h : r = s
      · subst h
        simp only [if_true]
        exact fun u hu => hperm.mem_iff.mp (mem_cons_of_mem t hu)
      · simp [h]
    · by_cases h : r = s
      · subst h
        simp [← hperm.length_eq]
      · simp [h]

variable {slice : Bool} {r : Option Tid}

theorem interrupt_posted (hs : k.interrupt us slice = some k') : Posted us k k' := by
  refine interrupt_induct (P := fun rest k' => ∃ vs, us = vs ++ rest ∧ Posted vs k k') ?_ ?_ hs ⟨[],
    rfl, (Still.refl k).posted⟩
  · intro s rest k₁ k₂ hp hpost
    obtain ⟨vs, e, hp⟩ := hp
    exact ⟨vs ++ [s], by rw [e, append_assoc]; rfl, hp.append (semaPost_posted hpost)⟩
  · intro k₁ hp
    obtain ⟨vs, e, hp⟩ := hp
    rw [e, append_nil]
    exact ⟨hp, hp.still (Switched.threadYield k₁).still⟩

/-- An external interrupt is taken whoever runs, interrupts being on. -/
theorem step_interrupt (hs : k.step (.interrupt us slice) = some k') :
    k.interrupt us slice = some k' := by
  rcases step_cases hs with ⟨h, -⟩ | ⟨-, hc⟩
  · cases h
  · cases hc with
    | interrupt h => exact h

theorem semaUp_posted (hs : k.semaUp s = some k') : Posted [s] k k' := by
  obtain ⟨k₁, hpost, rfl⟩ := semaUp_cases hs
  exact (semaPost_posted hpost).still (Switched.checkPreemption k₁).still

-- ==== what a step does

/-- What an action with event `e` does to semaphores and holders. -/
structure Effect (e : Event) (k k' : Kernel) : Prop where
  value : ∀ s, (k'.sema s).value + (if e.down = some s then 1 else 0)
    = (k.sema s).value + e.ups.count s
  waiters : ∀ s,
    (e.retest = some s ∧ (k.sema s).value = 0 ∧ e.down = none ∧ e.ups = []
      ∧ (k'.sema s).waiters.Perm (k.current :: (k.sema s).waiters))
    ∨ ((∀ t ∈ (k'.sema s).waiters, t ∈ (k.sema s).waiters)
      ∧ (k'.sema s).waiters.length = (k.sema s).waiters.length - e.ups.count s)
  holder : ∀ l t, (k'.lock l).holder = some t →
    ((k.lock l).holder = some t ∧ .ofLock l ∉ e.ups) ∨ (t = k.current ∧ e.record = some l)
  release : ∀ l, .ofLock l ∈ e.ups →
    e.ups.count (.ofLock l) = 1 ∧ (k.lock l).holder = some k.current
  single : e.down ≠ none → e.ups = []
  test : ∀ s, e.retest = some s → e.down = some s ∨ ((k.sema s).value = 0 ∧ e.ups = [])

/-- Ups of semaphores outside locks. -/
theorem Posted.effect (h : Posted us k k') (hus : us.all SemaRef.isPlain) :
    Effect ⟨us, none, none, none⟩ k k' := by
  have hlock : ∀ l, .ofLock l ∉ us := by
    intro l hl
    cases all_eq_true.mp hus _ hl
  refine ⟨?_, ?_, ?_, ?_, ?_, ?_⟩
  · intro s
    simp [h.value s]
  · exact fun s => .inr ⟨h.waiters s, h.length s⟩
  · intro l t ht
    rw [h.holder] at ht
    exact .inl ⟨ht, hlock l⟩
  · exact fun l hl => absurd hl (hlock l)
  · exact fun hd => absurd rfl hd
  · exact nofun

theorem Still.effect (h : Still k k') : Effect .silent k k' := h.posted.effect rfl

theorem lockRelease_effect (hs : k.lockRelease l = some k') :
    Effect ⟨[.ofLock l], none, none, none⟩ k k' := by
  obtain ⟨hh, hs⟩ := ite_none_right_eq_some.mp hs
  have hp := semaUp_posted hs
  refine ⟨?_, ?_, ?_, ?_, ?_, ?_⟩
  · intro s
    rw [hp.value s]
    simp
  · exact fun s => Or.inr ⟨hp.waiters s, hp.length s⟩
  · intro m t ht
    rw [hp.holder] at ht
    by_cases hm : m = l
    · subst hm
      simp [modLock] at ht
    · left
      simp only [modLock, modThread_lock, if_neg hm] at ht
      simp [ht, hm]
  · intro m hm
    have hml : m = l := by simpa using hm
    subst hml
    exact ⟨by simp, hh⟩
  · exact fun hd => absurd rfl hd
  · exact fun s hs => by cases hs

/-- A turn of the loop of `sema_down` that finds the value zero. -/
theorem semaWait_effect (hz : (k.sema s).value = 0) :
    Effect ⟨[], some s, none, none⟩ k (k.semaWait s) := by
  have hst := (Switched.threadBlock (k.modSema s fun m => { m with
    waiters := listInsertOrdered k.comparePriorities k.current m.waiters })).still
  unfold semaWait
  refine ⟨?_, ?_, ?_, ?_, ?_, ?_⟩
  · intro r
    rw [hst.sema]
    by_cases hr : r = s <;> simp [modSema, hr]
  · intro r
    rw [hst.sema]
    by_cases hr : r = s
    · subst hr
      refine .inl ⟨rfl, hz, rfl, rfl, ?_⟩
      simpa [modSema] using listInsertOrdered_perm _ _ _
    · right
      simp [modSema, hr]
  · intro l t ht
    rw [hst.holder] at ht
    exact .inl ⟨ht, not_mem_nil⟩
  · exact fun l hl => absurd hl not_mem_nil
  · exact fun _ => rfl
  · intro r hr
    injection hr with hr
    exact .inr ⟨hr ▸ hz, rfl⟩

/-- Taking a unit of a positive semaphore, with whatever else leaves the
waiters alone and records no other holder than the running thread. -/
theorem take_effect {r : Option SemaRef} {rec : Option LockId} (hr : r = none ∨ r = some s)
    (hpos : 0 < (k.sema s).value) (hsema : k'.sema = (k.modSema s fun m =>
      { m with value := m.value - 1 }).sema)
    (hold : ∀ l t, (k'.lock l).holder = some t →
      (k.lock l).holder = some t ∨ (t = k.current ∧ rec = some l)) :
    Effect ⟨[], r, some s, rec⟩ k k' := by
  refine ⟨?_, ?_, ?_, ?_, ?_, ?_⟩
  · intro q
    rw [hsema]
    by_cases hq : q = s
    · subst hq
      simp only [modSema, if_true, count_nil]
      omega
    · simp [modSema, hq, Ne.symm hq]
  · intro q
    rw [hsema]
    right
    by_cases hq : q = s <;> simp [modSema, hq]
  · intro l t ht
    rcases hold l t ht with h | h
    · exact .inl ⟨h, not_mem_nil⟩
    · exact .inr h
  · exact fun l hl => absurd hl not_mem_nil
  · exact fun _ => rfl
  · intro q hq
    rcases hr with rfl | rfl
    · cases hq
    · exact .inl hq

/-- The events of a turn of a loop. -/
theorem event_resume {P : Event → Prop} (k : Kernel) (hsilent : P .silent)
    (hsleep : ∀ s, k.waitsOn k.current = some s → P ⟨[], some s, none, none⟩)
    (htake : ∀ s l, k.waitsOn k.current = some s → (∀ m, l = some m → s = .ofLock m) →
      P ⟨[], some s, some s, l⟩) : P (k.event .resume) := by
  simp only [event, testEvent]
  split
  next => exact hsilent
  next s hr =>
    have hw : k.waitsOn k.current = some s := congrArg Resume.sema hr
    split
    · exact hsleep s hw
    · exact htake s none hw nofun
  next l hr =>
    have hw : k.waitsOn k.current = some (.ofLock l) := congrArg Resume.sema hr
    split
    · exact hsleep _ hw
    · exact htake _ (some l) hw fun m hm => congrArg _ (some.inj hm)

theorem event_sleep (hw : k.waitsOn k.current = some s) (hz : (k.sema s).value = 0) :
    k.event .resume = ⟨[], some s, none, none⟩ := by
  unfold waitsOn at hw
  cases hr : (k.thread k.current).resume <;> rw [hr] at hw <;> cases hw <;>
    simp [event, hr, testEvent, hz]

theorem resume_effect (hs : k.resume = some k') : Effect (k.event .resume) k k' := by
  cases resume_cases hs with
  | sleep hw hz =>
    rw [event_sleep hw hz]
    exact semaWait_effect hz
  | down hr hv =>
    simp only [event, hr, testEvent, if_neg hv]
    exact take_effect (.inr rfl) (Nat.pos_of_ne_zero hv) rfl fun l t ht => .inl ht
  | @take l hr hv =>
    simp only [event, hr, testEvent, if_neg hv]
    refine take_effect (.inr rfl) (Nat.pos_of_ne_zero hv) rfl fun m t ht => ?_
    by_cases hm : m = l
    · subst hm
      right
      simp only [lockTaken, modThread_lock, modLock, if_true, Option.some.injEq] at ht
      exact ⟨ht.symm, rfl⟩
    · left
      simpa only [lockTaken, modThread_lock, modLock, if_neg hm, modSema] using ht

theorem semaTryDown_effect (s : SemaRef) (k : Kernel) :
    Effect (k.tryEvent s) k (k.semaTryDown s).2 := by
  unfold tryEvent semaTryDown
  split
  next h => exact take_effect (.inl rfl) h rfl fun l t ht => .inl ht
  next => exact (Still.refl k).effect

theorem step_effect {a : Act} (hd : a.direct) (hs : k.step a = some k') :
    Effect (k.event a) k k' := by
  rcases step_cases hs with ⟨rfl, h⟩ | ⟨-, hc⟩
  · exact resume_effect h
  · cases hc with
    | spawn h => exact (spawn_still h).effect
    | unblock _ _ h => exact (Switched.threadUnblock h).still.effect
    | checkPreemption => exact (Switched.checkPreemption k).still.effect
    | yield => exact (Switched.threadYield k).still.effect
    | block => exact (Switched.threadBlock k).still.effect
    | @setPriority p =>
      have h := (Switched.checkPreemption (k.modThread k.current fun th =>
        { th with
          priority := if th.priority = th.oldPriority then p
            else th.priority
          oldPriority := p })).still
      exact Still.effect ⟨h.sema, h.holder⟩
    | semaDown _ => exact Still.effect ⟨rfl, fun _ => rfl⟩
    | semaUp h =>
      refine (semaUp_posted h).effect ?_
      simpa [Act.direct] using hd
    | lockAcquire _ h => exact (lockRequest_still h).effect
    | lockRelease h => exact lockRelease_effect h
    | interrupt h => exact (interrupt_posted h).effect hd

-- ==== the lists

theorem ListInv.threadExit (hi : ListInv k (some k.current)) :
    ListInv k.threadExit (some k.threadExit.current) := by
  obtain ⟨hnr, -, hw, hlt⟩ := hi.current_facts
  exact (hi.offList hnr (.inr (by decide)) hw hlt (fun h => by cases h)
    none_running (by simp)).schedule

theorem ListInv.dispatch (hi : ListInv k (some k.current))
    (hs : k.dispatch t = some k') : ListInv k' (some k'.current) := by
  obtain ⟨ht, ⟨⟩⟩ := ite_none_right_eq_some.mp hs
  exact hi.requeueCurrent.switch ht

theorem relink_reprioritised (holding : Tid → List LockId) (k : Kernel) :
    Reprioritised k (k.relink holding) :=
  ⟨rfl, rfl, rfl, rfl, rfl, fun _ => rfl, fun _ => rfl, fun _ => rfl⟩

theorem ListInv.semaTryDown (hi : ListInv k (some k.current)) (s : SemaRef) :
    ListInv (k.semaTryDown s).2 (some (k.semaTryDown s).2.current) := by
  unfold Kernel.semaTryDown
  split
  · exact hi.modValue s (· - 1)
  · exact hi

/-- At most one thread changes its status, from blocked to ready, and it
is one of `w`. -/
def Unblocks (w : List Tid) (k k' : Kernel) : Prop :=
  ∀ t, k'.status t ≠ k.status t →
    t ∈ w ∧ k.status t = .blocked ∧ k'.status t = .ready ∧ ∀ u, k'.status u ≠ k.status u → u = t

/-- `sema_up` up to its preemption check never fails the assertion of
`thread_unblock`, and unblocks at most one waiter. -/
theorem ListInv.semaPost_unblocks (hi : ListInv k r) (s : SemaRef) :
    ∃ k', k.semaPost s = some k' ∧ Unblocks (k.sema s).waiters k k' := by
  have hperm := listSort_perm k.comparePriorities (k.sema s).waiters
  unfold Kernel.semaPost
  split
  next => exact ⟨_, rfl, fun t ht => absurd rfl ht⟩
  next t rest h =>
    rw [h] at hperm
    have ht : t ∈ (k.sema s).waiters := hperm.mem_iff.mp (mem_cons_self ..)
    have hb : k.status t = .blocked := (hi.waiter s t ht).1
    have hb' : (k.modSema s fun m => { m with waiters := rest }).status t = .blocked := hb
    unfold Kernel.threadUnblock
    rw [if_pos hb']
    refine ⟨_, rfl, ?_⟩
    -- the status of every thread but `t` is what it was
    have honly u (hu : (if u = t then Status.ready else k.status u) ≠ k.status u) : u = t := by
      by_contra hne
      exact hu (if_neg hne)
    intro u hu
    have hut := honly u ((status_setStatus _ t u .ready) ▸ hu)
    subst hut
    refine ⟨ht, hb, ?_, fun w hw => ?_⟩
    · exact (status_setStatus _ u u .ready).trans (if_pos rfl)
    · exact honly w ((status_setStatus _ u w .ready) ▸ hw)

/-- So an external interrupt gets through, interrupts being on. -/
theorem ListInv.interruptUps_enabled (us : List SemaRef) (b : Bool) (k : Kernel)
    (hi : ListInv k (some k.current)) : ∃ r, interruptUps us b k = some r := by
  induction us generalizing b k with
  | nil => exact ⟨_, rfl⟩
  | cons s rest ih =>
    obtain ⟨k₁, hpost, -⟩ := hi.semaPost_unblocks s
    obtain ⟨hi1, hcur⟩ := hi.semaPost hpost
    rw [← hcur] at hi1
    obtain ⟨r, hr⟩ := ih (b || k₁.preempts) k₁ hi1
    refine ⟨r, ?_⟩
    unfold interruptUps
    rw [hpost]
    exact hr

theorem ListInv.interrupt_enabled (hi : ListInv k (some k.current))
    (hon : (k.thread k.current).resume = .none) (us : List SemaRef)
    (slice : Bool) : ∃ k', k.step (.interrupt us slice) = some k' := by
  obtain ⟨r, hr⟩ := ListInv.interruptUps_enabled us slice k hi
  have hint : ∃ k', k.interrupt us slice = some k' := by
    unfold Kernel.interrupt
    rw [hr]
    exact ⟨_, rfl⟩
  obtain ⟨k', hk⟩ := hint
  refine ⟨k', ?_⟩
  unfold Kernel.step
  rw [if_pos hon]
  split <;> exact hk

end Kernel

namespace Sys

open Kernel

variable {l : LockId} {a : Act} {t : Tid}

/-- The actions, one by one. -/
inductive Next (x : Sys) : Act → Kernel × (Tid → List Todo) → Prop
  | kernel {b : Kernel.Act} {k' : Kernel}
      (hfree : x.todo x.kernel.current = [] ∨ b.unasked) (hd : b.direct)
      (h : x.kernel.step b = some k') : Next x (.kernel b) (k', x.todo)
  | tryDown {n : Nat} : Next x (.tryDown n) ((x.kernel.semaTryDown (.plain n)).2, x.todo)
  | gained {l : LockId} (hv : 0 < (x.kernel.sema (.ofLock l)).value) :
      Next x (.tryAcquire l) ((x.kernel.semaTryDown (.ofLock l)).2,
        update x.todo x.kernel.current (.recordHolder l :: x.todo x.kernel.current))
  | refused {l : LockId} (hv : (x.kernel.sema (.ofLock l)).value = 0) :
      Next x (.tryAcquire l) (x.kernel, x.todo)
  | condWait {l : LockId} {n : Nat} {k' : Kernel}
      (hr : (x.kernel.thread x.kernel.current).resume = .none)
      (hrest : x.todo x.kernel.current = [])
      (h : x.kernel.lockRelease l = some k') :
      Next x (.condWait l n) (k', update x.todo x.kernel.current
        [.semaDown (.plain n), .lockAcquire l])
  | record {l : LockId} {more : List Todo}
      (hrest : x.todo x.kernel.current = .recordHolder l :: more) :
      Next x .proceed
        (x.kernel.modLock l fun m => { m with holder := x.kernel.current },
          update x.todo x.kernel.current more)
  | semaDown {s : SemaRef} {more : List Todo} {k' : Kernel}
      (hrest : x.todo x.kernel.current = .semaDown s :: more)
      (h : x.kernel.step (.semaDown s) = some k') :
      Next x .proceed (k', update x.todo x.kernel.current more)
  | lockAcquire {l : LockId} {more : List Todo} {k' : Kernel}
      (hrest : x.todo x.kernel.current = .lockAcquire l :: more)
      (h : x.kernel.step (.lockAcquire l) = some k') :
      Next x .proceed (k', update x.todo x.kernel.current more)
  | exit : Next x .exit (x.kernel.threadExit, x.todo)
  | dispatch {t : Tid} {k' : Kernel} (h : x.kernel.dispatch t = some k') :
      Next x (.dispatch t) (k', x.todo)
  | relink {holding : Tid → List LockId} :
      Next x (.relink holding) (x.kernel.relink holding, x.todo)

/-- What one step of the system can be. -/
theorem next_cases {x : Sys} {r : Kernel × (Tid → List Todo)}
    (hs : x.next a = some r) : Next x a r := by
  cases a with
  | kernel b =>
    simp only [next, ite_none_right_eq_some, map_eq_some_iff] at hs
    obtain ⟨hg, k', h, rfl⟩ := hs
    exact .kernel hg.1 hg.2 h
  | tryDown n =>
    simp only [next, ite_none_right_eq_some] at hs
    exact some.inj hs.2 ▸ .tryDown
  | tryAcquire l =>
    simp only [next, ite_none_right_eq_some] at hs
    replace hs := hs.2
    by_cases hv : 0 < (x.kernel.sema (.ofLock l)).value
    · have hg := Next.gained hv
      simp only [semaTryDown, if_pos hv] at hs hg
      exact some.inj hs ▸ hg
    · simp only [semaTryDown, if_neg hv] at hs
      exact some.inj hs ▸ .refused (Nat.eq_zero_of_not_pos hv)
  | condWait l n =>
    simp only [next, ite_none_right_eq_some, map_eq_some_iff] at hs
    obtain ⟨hg, k', h, rfl⟩ := hs
    exact .condWait hg.1 hg.2.1 h
  | proceed =>
    simp only [next, ite_none_right_eq_some] at hs
    replace hs := hs.2
    split at hs
    next => cases hs
    next l more hrest => exact some.inj hs ▸ .record hrest
    next s more hrest =>
      obtain ⟨k', h, rfl⟩ := map_eq_some_iff.mp hs
      exact .semaDown hrest h
    next l more hrest =>
      obtain ⟨k', h, rfl⟩ := map_eq_some_iff.mp hs
      exact .lockAcquire hrest h
  | exit =>
    simp only [next, ite_none_right_eq_some] at hs
    exact some.inj hs.2 ▸ .exit
  | dispatch t =>
    obtain ⟨k', h, rfl⟩ := map_eq_some_iff.mp hs
    exact .dispatch h
  | relink holding => exact some.inj hs ▸ .relink

variable {k : Kernel} {x' : Sys} {b : Kernel.Act}

/-- The membership of the lists survives every action. -/
theorem next_lists {x : Sys} {r : Kernel × (Tid → List Todo)}
    (hi : ListInv x.kernel (some x.kernel.current)) (hs : x.next a = some r) :
    ListInv r.1 (some r.1.current) := by
  cases next_cases hs with
  | kernel _ _ h => exact hi.step h
  | tryDown | gained _ => exact hi.semaTryDown _
  | refused _ => exact hi
  | condWait _ _ h => exact hi.lockRelease h
  | @record l _ _ => exact hi.modLock l fun m => { m with holder := x.kernel.current }
  | semaDown _ h | lockAcquire _ h => exact hi.step h
  | exit => exact hi.threadExit
  | dispatch h => exact hi.dispatch h
  | relink => exact hi.reprioritised (relink_reprioritised _ x.kernel)

/-- Every step of the system keeps the lists. -/
theorem step_lists {x : Sys} (hi : x.kernel.ListInv (some x.kernel.current))
    (hs : x.step a = some x') : x'.kernel.ListInv (some x'.kernel.current) := by
  obtain ⟨r, hn, rfl⟩ := map_eq_some_iff.mp hs
  exact next_lists hi hn

/-- What an action does to semaphores, holders and `todo` lists. -/
structure Moves (e : Event) (x : Sys) (r : Kernel × (Tid → List Todo)) : Prop where
  effect : Effect e x.kernel r.1
  record : ∀ l, e.record = some l → e.down = some (.ofLock l)
    ∨ .recordHolder l ∈ x.todo x.kernel.current
  todo : ∀ t l, .recordHolder l ∈ r.2 t → .recordHolder l ∈ x.todo t
    ∨ (t = x.kernel.current ∧ e.down = some (.ofLock l))
  free : (∃ l, .ofLock l ∈ e.ups) → x.todo x.kernel.current = []

/-- Semaphores and holders alone, the list of things to do getting
shorter. -/
theorem Moves.of_still {x : Sys} {k' : Kernel} {todo' : Tid → List Todo} (h : Still x.kernel k')
    (ht : ∀ t, ∀ w ∈ todo' t, w ∈ x.todo t) : Moves .silent x (k', todo') := by
  refine ⟨h.effect, ?_, fun t l hl => .inl (ht t _ hl), ?_⟩
  · nofun
  · rintro ⟨l, hl⟩
    cases hl

/-- The things to do after the first of them. -/
theorem mem_update_tail {x : Sys} {w : Todo} {more : List Todo}
    (hrest : x.todo x.kernel.current = w :: more) (t : Tid) :
    ∀ v ∈ update x.todo x.kernel.current more t, v ∈ x.todo t := by
  intro v hv
  by_cases h : t = x.kernel.current
  · subst h
    rw [update_self] at hv
    rw [hrest]
    exact mem_cons_of_mem w hv
  · rwa [update_of_ne h] at hv

/-- A kernel call records a holder with the down that makes it one. -/
theorem event_record (h : (k.event b).record = some l) : (k.event b).down = some (.ofLock l) := by
  cases b with
  | resume =>
    refine event_resume (P := fun e => e.record = some l → e.down = some (.ofLock l)) k ?_ ?_ ?_ h
    · nofun
    · nofun
    · exact fun s m _ hm h => congrArg some (hm l h)
  | _ => cases h

/-- A kernel call that raises a lock's semaphore is `lock_release`. -/
theorem event_ups (hd : b.direct) (h : .ofLock l ∈ (k.event b).ups) : b.unasked = false := by
  cases b with
  | resume => exact absurd h (event_resume (P := fun e => _ ∉ e.ups) k nofun nofun nofun)
  | interrupt ups slice => cases all_eq_true.mp hd _ h
  | _ => rfl

theorem next_moves {x : Sys} {r : Kernel × (Tid → List Todo)}
    (hs : x.next a = some r) : Moves (x.event a) x r := by
  cases next_cases hs with
  | kernel hfree hd h =>
    refine ⟨step_effect hd h, fun l hl => .inl (event_record hl), fun t l hl => .inl hl, ?_⟩
    rintro ⟨l, hl⟩
    refine hfree.resolve_right fun h => ?_
    simp [event_ups hd hl] at h
  | tryDown =>
    exact ⟨semaTryDown_effect _ _, nofun, fun t l hl => .inl hl, fun ⟨_, hl⟩ => nomatch hl⟩
  | @gained l hv =>
    refine ⟨semaTryDown_effect _ _, nofun, fun t m hm => ?_, fun ⟨_, hm⟩ => nomatch hm⟩
    by_cases ht : t = x.kernel.current
    · subst ht
      simp only [update_self, mem_cons, Todo.recordHolder.injEq] at hm
      rcases hm with rfl | hm
      · exact .inr ⟨rfl, if_pos hv⟩
      · exact .inl hm
    · simp only [update_of_ne ht] at hm
      exact .inl hm
  | @refused l hv =>
    have he := semaTryDown_effect (.ofLock l) x.kernel
    rw [semaTryDown, if_neg (by omega)] at he
    exact ⟨he, nofun, fun t m hm => .inl hm, fun ⟨_, hm⟩ => nomatch hm⟩
  | condWait _ hrest h =>
    refine ⟨lockRelease_effect h, nofun, fun t m hm => ?_, fun _ => hrest⟩
    by_cases ht : t = x.kernel.current
    · subst ht
      simp [update_self] at hm
    · simp only [update_of_ne ht] at hm
      exact .inl hm
  | @record l more hrest =>
    have he : x.event .proceed = ⟨[], none, none, some l⟩ := by simp only [event, hrest]
    rw [he]
    refine ⟨⟨fun s => rfl, fun s => .inr ⟨fun t ht => ht, rfl⟩, ?_,
      fun m hm => ?_, fun _ => rfl, fun s hs => ?_⟩, fun m hm => ?_,
      fun t m hm => .inl (mem_update_tail hrest t _ hm),
      fun ⟨m, hm⟩ => ?_⟩
    · intro m t ht
      by_cases hm : m = l
      · subst hm
        simp only [modLock, if_true, Option.some.injEq] at ht
        exact .inr ⟨ht.symm, rfl⟩
      · simp only [modLock, if_neg hm] at ht
        exact .inl ⟨ht, not_mem_nil⟩
    · cases hm
    · cases hs
    · cases hm
      right
      rw [hrest]
      exact mem_cons_self ..
    · cases hm
  | semaDown hrest h =>
    rw [show x.event .proceed = .silent by simp only [event, hrest]]
    exact Moves.of_still (semaDown_still h) (mem_update_tail hrest)
  | lockAcquire hrest h =>
    rw [show x.event .proceed = .silent by simp only [event, hrest]]
    exact Moves.of_still (lockAcquire_still h) (mem_update_tail hrest)
  | exit => exact Moves.of_still (Switched.threadExit _).still fun t w hw => hw
  | dispatch h => exact Moves.of_still (Switched.dispatch h).still fun t w hw => hw
  | relink => exact Moves.of_still (relink_reprioritised _ _).still fun t w hw => hw

-- ==== the invariant

/-- The initial value of a semaphore. -/
def initially (v : Nat → Nat) : SemaRef → Nat
  | .plain n => v n
  | .ofLock _ => 1

structure Inv (v : Nat → Nat) (x : Sys) : Prop where
  lists : ListInv x.kernel (some x.kernel.current)
  units : ∀ s, x.downs s + (x.kernel.sema s).value = initially v s + x.ups s
  unclaimed : ∀ s, (x.kernel.sema s).waiters ≠ [] → (x.kernel.sema s).value ≤ (x.woken s).card
  awake : ∀ s, ∀ t ∈ x.woken s, t ∉ (x.kernel.sema s).waiters
  exclusive : ∀ l, (x.kernel.sema (.ofLock l)).value + (x.inside l).card = 1
  holder : ∀ l t, (x.kernel.lock l).holder = some t → t ∈ x.inside l
  pending : ∀ t l, .recordHolder l ∈ x.todo t → t ∈ x.inside l

variable {v : Nat → Nat} {x : Sys} {e : Event} {r : Kernel × (Tid → List Todo)}

theorem Inv.commit_units (hi : Inv v x) (he : Effect e x.kernel r.1) (s : SemaRef) :
    (x.commit e r).downs s + (r.1.sema s).value = initially v s + (x.commit e r).ups s := by
  have hu := hi.units s
  have hv := he.value s
  simp only [commit]
  split <;> rename_i hd
  · rw [if_pos hd] at hv
    omega
  · rw [if_neg hd] at hv
    omega

/-- The holder of a lock is the one thread inside. -/
theorem Inv.alone (hi : Inv v x) (hh : (x.kernel.lock l).holder = some t) :
    x.inside l = {t} ∧ (x.kernel.sema (.ofLock l)).value = 0 := by
  have hmem := hi.holder l t hh
  have hone := hi.exclusive l
  have hpos : 0 < (x.inside l).card := Finset.card_pos.mpr ⟨t, hmem⟩
  refine ⟨?_, by omega⟩
  obtain ⟨u, hu⟩ := Finset.card_eq_one.mp (show (x.inside l).card = 1 by omega)
  rw [hu, Finset.mem_singleton] at hmem
  rw [hu, hmem]

/-- The threads a step takes off a waiters list are as many as it is
shorter by. -/
theorem card_left {w w' : List Tid} (hw : w.Nodup) (hw' : w'.Nodup) (hsub : ∀ t ∈ w', t ∈ w) :
    (w.toFinset \ w'.toFinset).card = w.length - w'.length := by
  have hss : w'.toFinset ⊆ w.toFinset := by
    intro t ht
    exact List.mem_toFinset.mpr (hsub t (List.mem_toFinset.mp ht))
  rw [Finset.card_sdiff_of_subset hss, toFinset_card_of_nodup hw, toFinset_card_of_nodup hw']

section

variable (he : Effect e x.kernel r.1)

include he

/-- No unit is left unclaimed while a thread is queued: a step that raises
the value of a semaphore with waiters wakes as many of them, and a step
that takes a thread out of `woken` takes its unit or finds none. -/
theorem Inv.commit_unclaimed (hi : Inv v x) (hl : ListInv r.1 (some r.1.current)) (s : SemaRef)
    (hne : (r.1.sema s).waiters ≠ []) : (r.1.sema s).value ≤ ((x.commit e r).woken s).card := by
  have hv := he.value s
  rcases he.waiters s with ⟨-, hz, hd, hu, -⟩ | ⟨hsub, hlen⟩
  · rw [hd, hu, hz] at hv
    simp only [reduceCtorEq, if_false, count_nil] at hv
    omega
  · have hpos : 0 < (r.1.sema s).waiters.length := length_pos_of_ne_nil hne
    have hold := hi.unclaimed s (by
      intro h
      rw [h] at hlen
      simp only [length_nil] at hlen
      omega)
    have hcard := card_left (hi.lists.waiters_nodup s) (hl.waiters_nodup s) hsub
    have hdisj {W : Finset Tid} (hW : W ⊆ x.woken s) :
        Disjoint W ((x.kernel.sema s).waiters.toFinset \ (r.1.sema s).waiters.toFinset) := by
      rw [Finset.disjoint_left]
      intro t h1 h2
      exact hi.awake s t (hW h1) (List.mem_toFinset.mp (Finset.mem_sdiff.mp h2).1)
    simp only [commit]
    split
    next ht =>
      have herase := Finset.pred_card_le_card_erase (s := x.woken s) (a := x.kernel.current)
      rw [Finset.card_union_of_disjoint (hdisj (Finset.erase_subset _ _)), hcard]
      rcases he.test s ht with hd | ⟨hz, hu⟩
      · rw [if_pos hd] at hv
        omega
      · omega
    next ht =>
      rw [Finset.card_union_of_disjoint (hdisj (Finset.Subset.refl _)), hcard]
      omega

theorem Inv.commit_awake (hi : Inv v x) (s : SemaRef) (ht : t ∈ (x.commit e r).woken s) :
    t ∉ (r.1.sema s).waiters := by
  simp only [commit, Finset.mem_union, Finset.mem_sdiff, List.mem_toFinset] at ht
  rcases ht with ht | ht
  · rcases he.waiters s with ⟨hr, -, -, -, hperm⟩ | ⟨hsub, -⟩
    · rw [if_pos hr, Finset.mem_erase] at ht
      intro hm
      rcases mem_cons.mp (hperm.mem_iff.mp hm) with h | h
      · exact ht.1 h
      · exact hi.awake s t ht.2 h
    · have hw : t ∈ x.woken s := by
        split at ht
        · exact Finset.mem_of_mem_erase ht
        · exact ht
      exact fun hm => hi.awake s t hw (hsub t hm)
  · exact ht.2

theorem Inv.commit_exclusive (hi : Inv v x) (l : LockId) :
    (r.1.sema (.ofLock l)).value + ((x.commit e r).inside l).card = 1 := by
  have hone := hi.exclusive l
  have hv := he.value (.ofLock l)
  simp only [commit]
  split
  next hd =>
    rw [if_pos hd, he.single (by rw [hd]; simp), count_nil] at hv
    have hempty : x.inside l = ∅ := Finset.card_eq_zero.mp (by omega)
    rw [hempty]
    simp only [insert_empty_eq, Finset.card_singleton]
    omega
  next hd =>
    rw [if_neg hd] at hv
    split
    next hu =>
      -- given up by the one thread inside
      obtain ⟨hin, hz⟩ := hi.alone (he.release l hu).2
      rw [(he.release l hu).1, hz] at hv
      rw [hin]
      simp only [Finset.erase_singleton, Finset.card_empty]
      omega
    next hu =>
      rw [count_eq_zero.mpr hu] at hv
      omega

end

/-- Who is inside stays inside, but for a release. -/
theorem mem_commit_inside (ht : t ∈ x.inside l) (hu : .ofLock l ∉ e.ups) :
    t ∈ (x.commit e r).inside l := by
  simp only [commit, if_neg hu]
  split
  · exact Finset.mem_insert_of_mem ht
  · exact ht

theorem current_mem_commit_inside (hd : e.down = some (.ofLock l)) :
    x.kernel.current ∈ (x.commit e r).inside l := by
  simp only [commit, if_pos hd]
  exact Finset.mem_insert_self _ _

theorem Inv.commit_holder (hi : Inv v x) (hm : Moves e x r)
    (ht : (r.1.lock l).holder = some t) : t ∈ (x.commit e r).inside l := by
  rcases hm.effect.holder l t ht with ⟨hold, hu⟩ | ⟨rfl, hrec⟩
  · exact mem_commit_inside (hi.holder l t hold) hu
  · rcases hm.record l hrec with hd | hp
    · exact current_mem_commit_inside hd
    · refine mem_commit_inside (hi.pending _ l hp) fun hu => ?_
      simp [hm.free ⟨l, hu⟩] at hp

theorem Inv.commit_pending (hi : Inv v x) (hm : Moves e x r)
    (ht : .recordHolder l ∈ r.2 t) : t ∈ (x.commit e r).inside l := by
  rcases hm.todo t l ht with hp | ⟨rfl, hd⟩
  · have hin := hi.pending t l hp
    refine mem_commit_inside hin fun hu => ?_
    -- the releasing thread would be the one with the holder to record
    rw [(hi.alone (hm.effect.release l hu).2).1, Finset.mem_singleton] at hin
    simp [hin, hm.free ⟨l, hu⟩] at hp
  · exact current_mem_commit_inside hd

theorem Inv.step (hi : Inv v x) (hs : x.step a = some x') : Inv v x' := by
  obtain ⟨r, hn, rfl⟩ := map_eq_some_iff.mp hs
  have hm := next_moves hn
  have hl := next_lists hi.lists hn
  exact ⟨hl, hi.commit_units hm.effect, hi.commit_unclaimed hm.effect hl,
    fun s t => hi.commit_awake hm.effect s, hi.commit_exclusive hm.effect,
    fun l t => hi.commit_holder hm, fun t l => hi.commit_pending hm⟩

theorem inv_boot (v : Nat → Nat) : Inv v (boot v) := by
  refine ⟨listInv_boot v, ?_, ?_, ?_, ?_, ?_, ?_⟩
  · intro s
    cases s <;> simp [boot, Kernel.boot, initially]
  · exact fun s h => absurd rfl h
  · exact fun s t ht => by cases ht
  · exact fun l => rfl
  · exact fun l t ht => by cases ht
  · exact fun t l ht => by cases ht

theorem inv_reachable {x : Sys} (hx : Reach (Booted v) step anyStep x) : Inv v x := by
  refine Reach.induct (P := Inv v) ?_ ?_ x hx
  · rintro x rfl
    exact inv_boot v
  · exact fun a x x' _ hi _ hs => hi.step hs

-- ==== what it gives

/-- Over any interleaving: completed downs and the value make up the
initial value and the completed ups; `sema_up` succeeds and unblocks at
most one waiter; and while a thread is queued, the value is at most the
number of threads on their way out of the queue. -/
theorem semaphore_units_conserved {v : Nat → Nat} {x : Sys}
    (hx : Reach (Booted v) step anyStep x) (s : SemaRef) :
    x.downs s + (x.kernel.sema s).value = initially v s + x.ups s
    ∧ (∃ k', x.kernel.semaPost s = some k' ∧ Unblocks (x.kernel.sema s).waiters x.kernel k')
    ∧ ((x.kernel.sema s).waiters ≠ [] → (x.kernel.sema s).value ≤ (x.woken s).card)
    ∧ ∀ t ∈ x.woken s, t ∉ (x.kernel.sema s).waiters := by
  have hi := inv_reachable hx
  exact ⟨hi.units s, hi.lists.semaPost_unblocks s, hi.unclaimed s, hi.awake s⟩

/-- A third thread takes the unit the woken thread was meant to have: with
one down and one up completed and the value back to zero, thread 2 is
still to re-test it and thread 3 is queued. -/
theorem semaphore_unit_stolen :
    ∃ x, Reach (Booted fun _ => 0) step anyStep x
      ∧ (x.downs (.plain 0) = 1 ∧ x.ups (.plain 0) = 1
        ∧ x.woken (.plain 0) = {2}
        ∧ (x.kernel.sema (.plain 0)).waiters = [3])
      ∧ x.downs (.plain 0) + (x.kernel.sema (.plain 0)).value = 0 + x.ups (.plain 0) := by
  have h0 : Reach (Booted fun _ => 0) step anyStep (boot fun _ => 0) := .init rfl
  obtain ⟨x, hx, hk⟩ := h0.of_runAll [.kernel (.spawn 20), .kernel (.spawn 10), .dispatch 2,
      .kernel (.semaDown (.plain 0)), .kernel .resume, .dispatch 3,
      .kernel (.semaDown (.plain 0)), .kernel .resume,
      .kernel (.semaUp (.plain 0)), .tryDown 0]
    (fun x => x.downs (.plain 0) = 1 ∧ x.ups (.plain 0) = 1 ∧ x.woken (.plain 0) = {2}
      ∧ (x.kernel.sema (.plain 0)).waiters = [3]) (by decide)
  exact ⟨x, hx, hk, (semaphore_units_conserved hx _).1⟩

/-- Over any interleaving: a lock's semaphore is 0 or 1, at most one
thread is inside, the holder is none or that thread, and a free semaphore
has no holder. -/
theorem lock_mutual_exclusion {v : Nat → Nat} {x : Sys} (hx : Reach (Booted v) step anyStep x)
    (l : LockId) : ((x.kernel.sema (.ofLock l)).value = 0 ∨ (x.kernel.sema (.ofLock l)).value = 1)
    ∧ (x.inside l).card ≤ 1
    ∧ (∀ t, (x.kernel.lock l).holder = some t → x.inside l = {t})
    ∧ ((x.kernel.sema (.ofLock l)).value = 1 → (x.kernel.lock l).holder = none) := by
  have hi := inv_reachable hx
  have hone := hi.exclusive l
  refine ⟨by omega, by omega, fun t ht => (hi.alone ht).1, fun hv => ?_⟩
  cases hh : (x.kernel.lock l).holder with
  | none => rfl
  | some t =>
    have hz := (hi.alone hh).2
    omega

/-- Between the two steps of `lock_try_acquire` another thread runs into
the lock: its semaphore is taken, it has no holder, and one thread is
inside. -/
theorem lock_try_acquire_interrupted :
    ∃ x, Reach (Booted fun _ => 0) step anyStep x
      ∧ (x.inside 0 = {0} ∧ (x.kernel.lock 0).holder = none
        ∧ (x.kernel.sema (.ofLock 0)).waiters = [2])
      ∧ (x.inside 0).card ≤ 1 := by
  have h0 : Reach (Booted fun _ => 0) step anyStep (boot fun _ => 0) := .init rfl
  obtain ⟨x, hx, hk⟩ := h0.of_runAll
    [.kernel (.spawn 20), .tryAcquire 0, .dispatch 2, .kernel (.lockAcquire 0), .kernel .resume]
    (fun x => x.inside 0 = {0} ∧ (x.kernel.lock 0).holder = none
      ∧ (x.kernel.sema (.ofLock 0)).waiters = [2]) (by decide)
  exact ⟨x, hx, hk, (lock_mutual_exclusion hx 0).2.1⟩

end Sys

end Pintos
