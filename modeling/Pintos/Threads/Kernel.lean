/-
The thread system of `threads/thread.c` and `threads/synch.c`: the ready
queue, the scheduler, semaphores, locks with priority donation.

# Atomic sections

Every operation below runs with interrupts off in the source, so each is
one action of the system; what may interleave is the order of actions.
A thread that sleeps inside `sema_down` leaves its continuation behind
(`Resume`): the `while (sema->value == 0)` loop it is in, and the rest
of `lock_acquire` when the semaphore is a lock's. The loop re-runs when
the thread is next scheduled, as the `resume` action; no other action
is enabled while the running thread owes one.

`lock_acquire` and `sema_down` are split at the loop head: the action
makes the donation (for a lock) and records the continuation, and the
first turn of the loop is the `resume` that follows. Nothing can come
between the two, but the state in between is a state of the system.

# Conventions

- A thread is named by its `struct thread`; `thread` of a name that was
  never created has status `dying`.
- The semaphore inside a lock is `SemaRef.ofLock`.
- `lock_waiting` is only ever pushed to and read at its front, so the
  list of pushes in order is what `list_begin` and `list_empty` see, even
  when one lock's `waiting_elem` is linked in twice.
- `value` is an unbounded counter.
-/
import Pintos.Threads.List

namespace Pintos

abbrev Tid := Nat
abbrev LockId := Nat

def priMin : Int := 0
def priDefault : Int := 31
def priMax : Int := 63

-- ==== state

/-- `enum thread_status`. -/
inductive Status where
  | running
  | ready
  | blocked
  | dying
  deriving DecidableEq, Repr

/-- A semaphore of its own, or the one inside a lock. -/
inductive SemaRef where
  | plain (n : Nat)
  | ofLock (l : LockId)
  deriving DecidableEq, Repr

/-- What a thread does when it is next scheduled. -/
inductive Resume where
  | none
  | semaDown (s : SemaRef)
  | lockAcquire (l : LockId)
  deriving DecidableEq, Repr

/-- The semaphore whose `waiters` a continuation belongs to. -/
def Resume.sema : Resume → Option SemaRef
  | .none => Option.none
  | .semaDown s => some s
  | .lockAcquire l => some (.ofLock l)

/-- The scheduling part of `struct thread`. -/
structure Thread where
  status : Status
  priority : Int
  oldPriority : Int
  lockHolding : List LockId
  lockWaiting : List LockId
  resume : Resume

structure Semaphore where
  value : Nat
  waiters : List Tid

/-- `struct lock` less its semaphore and list links. -/
structure Lock where
  holder : Option Tid
  maxPriority : Int

structure Kernel where
  thread : Tid → Thread
  count : Nat
  ready : List Tid
  current : Tid
  idle : Tid
  sema : SemaRef → Semaphore
  lock : LockId → Lock

namespace Kernel

def prio (k : Kernel) (t : Tid) : Int := (k.thread t).priority

def status (k : Kernel) (t : Tid) : Status := (k.thread t).status

def waitsOn (k : Kernel) (t : Tid) : Option SemaRef := (k.thread t).resume.sema

def modThread (k : Kernel) (t : Tid) (f : Thread → Thread) : Kernel :=
  { k with thread := fun u => if u = t then f (k.thread t) else k.thread u }

def setStatus (k : Kernel) (t : Tid) (st : Status) : Kernel :=
  k.modThread t fun th => { th with status := st }

def modSema (k : Kernel) (s : SemaRef) (f : Semaphore → Semaphore) : Kernel :=
  { k with sema := fun r => if r = s then f (k.sema s) else k.sema r }

def modLock (k : Kernel) (l : LockId) (f : Lock → Lock) : Kernel :=
  { k with lock := fun m => if m = l then f (k.lock l) else k.lock m }

-- ==== thread.c

/-- `compare_priorities`: higher priority first. -/
def comparePriorities (k : Kernel) (a b : Tid) : Bool := decide (k.prio b < k.prio a)

/-- `thread_unblock`; the assertion on the status is its guard. -/
def threadUnblock (t : Tid) (k : Kernel) : Option Kernel :=
  if k.status t = .blocked then
    some ({ k with
      ready := listInsertOrdered k.comparePriorities t k.ready }.setStatus t .ready)
  else none

/-- `next_thread_to_run`: pops the ready queue, or falls back to idle. -/
def nextThreadToRun (k : Kernel) : Tid × Kernel :=
  match k.ready with
  | [] => (k.idle, k)
  | t :: rest => (t, { k with ready := rest })

/-- `schedule` with `thread_schedule_tail`. -/
def schedule (k : Kernel) : Kernel :=
  let (next, k') := k.nextThreadToRun
  { k' with current := next }.setStatus next .running

def threadBlock (k : Kernel) : Kernel := (k.setStatus k.current .blocked).schedule

/-- The first half of `thread_yield`: back into the ready queue, unless
it is the idle thread that yields. -/
def requeueCurrent (k : Kernel) : Kernel :=
  (if k.current = k.idle then k
   else { k with ready := listInsertOrdered k.comparePriorities k.current k.ready }).setStatus
    k.current .ready

def threadYield (k : Kernel) : Kernel := k.requeueCurrent.schedule

/-- The test of `check_preemption`: it looks at the front of the ready
queue only. -/
def preempts (k : Kernel) : Bool :=
  match k.ready with
  | [] => false
  | t :: _ => decide (k.prio k.current < k.prio t)

/-- `check_preemption` outside an interrupt. -/
def checkPreemption (k : Kernel) : Kernel :=
  if k.preempts then k.threadYield else k

/-- `thread_create` up to its `thread_unblock`: `init_thread` (whose
assertion bounds the priority) and the insertion into the queue. The pool
lock and `tid_lock`, which it takes inside, are actions of their own: each
release of one recomputes the caller's priority. -/
def spawn (priority : Int) (k : Kernel) : Option Kernel :=
  if priMin ≤ priority ∧ priority ≤ priMax then
    threadUnblock k.count ({ k with count := k.count + 1 }.modThread k.count fun _ =>
        { status := .blocked, priority := priority,
          oldPriority := priority, lockHolding := [], lockWaiting := [],
          resume := .none })
  else none

/-- `thread_set_priority`. -/
def threadSetPriority (new : Int) (k : Kernel) : Kernel :=
  (k.modThread k.current fun th =>
    { th with
      priority := if th.priority = th.oldPriority then new else th.priority
      oldPriority := new }).checkPreemption

-- ==== synch.c

/-- One turn of the loop of `sema_down` that finds the value zero: queue
up in the waiters and sleep. -/
def semaWait (s : SemaRef) (k : Kernel) : Kernel :=
  (k.modSema s fun m => { m with
    waiters := listInsertOrdered k.comparePriorities k.current m.waiters }).threadBlock

/-- `sema_up` up to its `check_preemption`. -/
def semaPost (s : SemaRef) (k : Kernel) : Option Kernel :=
  match listSort k.comparePriorities (k.sema s).waiters with
  | [] => some (k.modSema s fun m => { m with value := m.value + 1 })
  | t :: rest =>
    (threadUnblock t (k.modSema s fun m => { m with waiters := rest })).map fun k' =>
        k'.modSema s fun m => { m with value := m.value + 1 }

def semaUp (s : SemaRef) (k : Kernel) : Option Kernel := (k.semaPost s).map checkPreemption

/-- One turn of the loop of `lock_acquire`: the holder `t` of `l` gets the
running thread's priority, and `l` its `max_priority`. -/
def raise (l : LockId) (t : Tid) (k : Kernel) : Kernel :=
  (k.modThread t fun th => { th with
    priority := k.prio k.current }).modLock l fun m =>
      { m with maxPriority := max m.maxPriority (k.prio k.current) }

/-- The loop of `lock_acquire`: raise the holder while it is below the
running thread, then go on to the lock at the front of its
`lock_waiting`. -/
def donate : Nat → LockId → Option Tid → Kernel → Kernel
  | 0, _, _, k => k
  | _, _, none, k => k
  | fuel + 1, l, some t, k =>
    if k.prio t < k.prio k.current then
      match (k.thread t).lockWaiting with
      | [] => k.raise l t
      | l' :: _ => donate fuel l' (k.lock l').holder (k.raise l t)
    else k

/-- The loop of `lock_acquire`, at the lock `l` with the holder `h` in
the state `k`, comes to its end: in `k'`, with `raised` raised. -/
inductive Donates : LockId → Option Tid → Kernel → Kernel → List Tid → Prop where
  | free : Donates l none k k []
  | above : ¬ k.prio t < k.prio k.current → Donates l (some t) k k []
  | last : k.prio t < k.prio k.current → (k.thread t).lockWaiting = [] →
    Donates l (some t) k (k.raise l t) [t]
  | next : k.prio t < k.prio k.current → (k.thread t).lockWaiting = l' :: rest →
    Donates l' (k.lock l').holder (k.raise l t) k' raised → Donates l (some t) k k' (t :: raised)

/-- `compare_priorities_lock`. -/
def comparePrioritiesLock (k : Kernel) (a b : LockId) : Bool :=
  decide ((k.lock a).maxPriority < (k.lock b).maxPriority)

/-- `lock_acquire` up to its `sema_down`. -/
def lockRequest (l : LockId) (k : Kernel) : Option Kernel :=
  if (k.lock l).holder = some k.current then none
  else
    let k₁ := match (k.lock l).holder with
      | none => k
      | some t =>
        donate k.count l (some t) (k.modThread k.current fun th =>
          { th with lockWaiting := th.lockWaiting ++ [l] })
    some (k₁.modThread k.current fun th => { th with resume := .lockAcquire l })

/-- The end of `lock_acquire`, once its `sema_down` has returned. -/
def lockTaken (l : LockId) (k : Kernel) : Kernel :=
  (k.modThread k.current fun th => { th with
    lockHolding := listInsertOrdered k.comparePrioritiesLock l th.lockHolding }).modLock l fun m =>
    { m with holder := some k.current }

/-- The priority `lock_release` leaves the thread with, `holding` being
what is left of its `lock_holding`. -/
def priorityAfterRelease (k : Kernel) (holding : List LockId) : Int :=
  let old := (k.thread k.current).oldPriority
  match listMax k.comparePrioritiesLock holding with
  | none => old
  | some l =>
    if old < (k.lock l).maxPriority then (k.lock l).maxPriority else old

/-- `lock_release`. The new `max_priority` is that of the second waiter
in list order. -/
def lockRelease (l : LockId) (k : Kernel) : Option Kernel :=
  if (k.lock l).holder = some k.current then
    let k₁ := k.modLock l fun m => { m with
      maxPriority := match (k.sema (.ofLock l)).waiters with
        | _ :: second :: _ => k.prio second
        | _ => 0 }
    let holding := (k.thread k.current).lockHolding.erase l
    let k₂ := k₁.modThread k.current fun th => { th with
      lockHolding := holding
      priority := k₁.priorityAfterRelease holding }
    (k₂.modLock l fun m => { m with holder := none }).semaUp (.ofLock l)
  else none

-- ==== actions

/-- What the running thread, or an external interrupt, does next. -/
inductive Act where
  | spawn (priority : Int)
  | unblock (t : Tid)
  | checkPreemption
  | yield
  | block
  | setPriority (new : Int)
  | semaDown (s : SemaRef)
  | semaUp (s : SemaRef)
  | lockAcquire (l : LockId)
  | lockRelease (l : LockId)
  | resume
  | interrupt (ups : List SemaRef) (slice : Bool)

/-- The handler part of an external interrupt: `sema_up` in interrupt
context only asks for a yield on return, which the flag records. -/
def interruptUps : List SemaRef → Bool → Kernel → Option (Bool × Kernel)
  | [], flag, k => some (flag, k)
  | s :: rest, flag, k =>
    match k.semaPost s with
    | some k' => interruptUps rest (flag || k'.preempts) k'
    | none => none

/-- `intr_handler` of an external interrupt: the handler, then
`thread_yield` when a yield was asked for or the time slice is over. -/
def interrupt (ups : List SemaRef) (slice : Bool) (k : Kernel) : Option Kernel :=
  (interruptUps ups slice k).map fun (flag, k') =>
    if flag then k'.threadYield else k'

/-- One turn of the `sema_down` loop the running thread is in. -/
def resume (k : Kernel) : Option Kernel :=
  match (k.thread k.current).resume with
  | .none => none
  | .semaDown s =>
    if (k.sema s).value = 0 then some (k.semaWait s)
    else some ((k.modSema s fun m =>
      { m with value := m.value - 1 }).modThread k.current fun th => { th with resume := .none })
  | .lockAcquire l =>
    if (k.sema (.ofLock l)).value = 0 then some (k.semaWait (.ofLock l))
    else some (((k.modSema (.ofLock l) fun m =>
      { m with value := m.value - 1 }).lockTaken l).modThread k.current
        fun th => { th with resume := .none })

/-- What code of the running thread may call, interrupts being on. The
idle thread only ever blocks. -/
def call (a : Act) (k : Kernel) : Option Kernel :=
  match a with
  | .spawn p => k.spawn p
  | .unblock t =>
    if (k.thread t).resume = .none ∧ t ≠ k.idle then k.threadUnblock t
    else none
  | .checkPreemption => some k.checkPreemption
  | .yield => some k.threadYield
  | .block => some k.threadBlock
  | .setPriority p => some (k.threadSetPriority p)
  | .semaDown s => some (k.modThread k.current fun th => { th with resume := .semaDown s })
  | .semaUp s => k.semaUp s
  | .lockAcquire l => k.lockRequest l
  | .lockRelease l => k.lockRelease l
  | .resume => none
  | .interrupt ups slice => k.interrupt ups slice

/-- The transition function of the thread system. -/
def step (a : Act) (k : Kernel) : Option Kernel :=
  if (k.thread k.current).resume = .none then
    if k.current = k.idle then
      match a with
      | .block => some k.threadBlock
      | .interrupt ups slice => k.interrupt ups slice
      | _ => none
    else k.call a
  else
    match a with
    | .resume => k.resume
    | _ => none

/-- The system right after `thread_start`: the initial thread runs, the
idle thread sleeps, no lock is held, and plain semaphore `n` was
initialised to `v n`. -/
def boot (v : Nat → Nat) : Kernel where
  thread t :=
    { status := if t = 0 then .running else if t = 1 then .blocked
        else .dying
      priority := if t = 1 then priMin else priDefault
      oldPriority := if t = 1 then priMin else priDefault
      lockHolding := [], lockWaiting := [], resume := .none }
  count := 2
  ready := []
  current := 0
  idle := 1
  sema s :=
    { value := match s with
        | .plain n => v n
        | .ofLock _ => 1
      waiters := [] }
  lock _ := { holder := none, maxPriority := 0 }

end Kernel

end Pintos
