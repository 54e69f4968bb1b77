/-
The interrupt queue of `devices/intq.c`.

# The system

`State` adds to the thread system one queue and, for every thread, where
in `intq_getc` or `intq_putc` it is. Both run with interrupts off, so the
running thread is alone until it blocks or is preempted: in
`lock_acquire`, in `thread_block` inside `wait`, and in the
`check_preemption` of `lock_release`. These are the phases of a call.
An interrupt comes when the running thread is outside the queue's code,
and its handler moves a byte if it may. An assertion that fails ends the
run in a state with a `fault`.

The two functions are one loop and one transfer with the two conditions
exchanged, and so are the two waiters' slots: `Op` and `Cond`.

# What goes wrong

The loop tests the queue, acquires the lock and waits, and `wait` asserts
that the test still fails. Nothing makes it so: a thread that has to wait
for the lock may get it after the queue has changed. It is enough, and
`quietTransfer` asks no more, that no byte is added to an empty queue
while a thread that found it empty is in `lock_acquire`, and none removed
from a full queue while one that found it full is.

Under that condition whoever is in `lock_acquire` may still wait when it
gets the lock (`Inv.blocks`). The lock itself does the rest: it is held
from before a slot is written until after the waiter has been woken, so
the two slots together name at most one thread (`Inv.slot`).
-/
import Pintos.Threads.Loops
import Pintos.Threads.Parked

namespace Pintos

open Transition List Option Kernel

namespace Intq

open Kernel (ListInv LockInv Parked)

-- ==== the code

/-- `INTQ_BUFSIZE`. -/
def bufsize : Nat := 64

/-- `struct intq` less its lock. -/
structure Queue where
  notFull : Option Tid
  notEmpty : Option Tid
  buf : Nat → UInt8
  head : Nat
  tail : Nat

/-- The lock of the queue. -/
def qlock : LockId := 0

def next (pos : Nat) : Nat := (pos + 1) % bufsize

namespace Queue

/-- `intq_empty`. -/
def empty (q : Queue) : Bool := q.head == q.tail

/-- `intq_full`. -/
def full (q : Queue) : Bool := next q.head == q.tail

/-- `intq_init`; the bytes are whatever they were. -/
def init (buf : Nat → UInt8) : Queue where
  notFull := none
  notEmpty := none
  buf := buf
  head := 0
  tail := 0

end Queue

/-- The two conditions threads wait for. -/
inductive Cond where
  | notEmpty
  | notFull
  deriving DecidableEq, Repr

/-- The condition does not hold: the test of the loop, and the assertion
of `wait`. -/
def Cond.blocks : Cond → Queue → Bool
  | .notEmpty, q => q.empty
  | .notFull, q => q.full

/-- The waiter's slot of a condition. -/
def Queue.slot (q : Queue) : Cond → Option Tid
  | .notEmpty => q.notEmpty
  | .notFull => q.notFull

def Queue.setSlot (q : Queue) (w : Option Tid) : Cond → Queue
  | .notEmpty => { q with notEmpty := w }
  | .notFull => { q with notFull := w }

/-- The two functions, with the condition each waits for and the one it
signals. -/
inductive Op where
  | getc
  | putc (byte : UInt8)
  deriving DecidableEq, Repr

def Op.waits : Op → Cond
  | .getc => .notEmpty
  | .putc _ => .notFull

def Op.signals : Op → Cond
  | .getc => .notFull
  | .putc _ => .notEmpty

/-- What comes after the loop: the byte that is returned, if any, and the
queue with the byte moved. -/
def Op.transfer : Op → Queue → Option UInt8 × Queue
  | .getc, q => (some (q.buf q.tail), { q with tail := next q.tail })
  | .putc byte, q =>
    (none, { q with
      buf := Function.update q.buf q.head byte
      head := next q.head })

-- ==== first in, first out

/-- The bytes in the queue, from `tail` up to `head`. -/
def Queue.contents (q : Queue) : List UInt8 :=
  (List.range ((q.head + bufsize - q.tail) % bufsize)).map fun i => q.buf ((q.tail + i) % bufsize)

/-- The byte a call is given. -/
def Op.input : Op → List UInt8
  | .getc => []
  | .putc byte => [byte]

/-- Calls that need not wait, from `intq_init` on: the bytes put, the
bytes got, and the queue they leave. -/
inductive Served : List UInt8 → List UInt8 → Queue → Prop where
  | init (buf : Nat → UInt8) : Served [] [] (.init buf)
  | call {ins outs : List UInt8} {q : Queue} (o : Op) : Served ins outs q →
    o.waits.blocks q = false →
    Served (ins ++ o.input) (outs ++ (o.transfer q).1.toList) (o.transfer q).2

/-- Both ends are places of the buffer. -/
def Queue.Within (q : Queue) : Prop := q.head < bufsize ∧ q.tail < bufsize

section

variable {q : Queue} (hq : q.Within)

include hq

theorem Queue.empty_iff : q.empty = true ↔ q.contents = [] := by
  obtain ⟨hh, ht⟩ := hq
  unfold empty contents bufsize at *
  rw [beq_iff_eq, map_eq_nil_iff, range_eq_nil]
  omega

/-- A call moves its byte at the right end, and the assertion of its
`signal` holds. -/
theorem Op.transfer_contents (o : Op) (hw : o.waits.blocks q = false) : (o.transfer q).2.Within ∧
      (o.transfer q).1.toList ++ (o.transfer q).2.contents = q.contents ++ o.input ∧
      o.signals.blocks (o.transfer q).2 = false := by
  obtain ⟨hh, ht⟩ := hq
  cases o with
  | getc =>
    simp only [waits, Cond.blocks, Queue.empty, beq_eq_false_iff_ne] at hw
    simp only [transfer, signals, Cond.blocks, Queue.full, beq_eq_false_iff_ne, Queue.Within,
      Queue.contents, input, next, bufsize, toList_some, append_nil] at *
    refine ⟨by omega, ?_, by omega⟩
    -- one byte less, and each a place nearer
    rw [show (q.head + 64 - q.tail) % 64 = (q.head + 64 - (q.tail + 1) % 64) % 64 + 1 by omega,
      List.range_succ_eq_map, List.map_cons, List.map_map,
      show (q.tail + 0) % 64 = q.tail from Nat.mod_eq_of_lt ht]
    refine congrArg _ (List.map_congr_left fun i _ => congrArg q.buf ?_)
    omega
  | putc byte =>
    simp only [waits, Cond.blocks, Queue.full, beq_eq_false_iff_ne] at hw
    simp only [transfer, signals, Cond.blocks, Queue.empty, beq_eq_false_iff_ne, Queue.Within,
      Queue.contents, input, next, bufsize, toList_none, nil_append] at *
    refine ⟨by omega, ?_, by omega⟩
    -- the new byte is behind the last, at a place none of the others has
    rw [show ((q.head + 1) % 64 + 64 - q.tail) % 64 = (q.head + 64 - q.tail) % 64 + 1 by omega,
      range_succ, map_append, map_singleton,
      show (q.tail + (q.head + 64 - q.tail) % 64) % 64 = q.head by omega, Function.update_self]
    refine congrArg (· ++ [byte]) (List.map_congr_left fun i hi => Function.update_of_ne ?_ ..)
    have := mem_range.mp hi
    omega

end

theorem Served.stored {ins outs : List UInt8} {q : Queue} (h : Served ins outs q) :
    q.Within ∧ ins = outs ++ q.contents := by
  induction h with
  | init buf =>
    exact ⟨show 0 < bufsize ∧ 0 < bufsize by decide, by simp [Queue.init, Queue.contents]⟩
  | call o _ hw ih =>
    obtain ⟨hq, rfl⟩ := ih
    obtain ⟨hq', hmove, -⟩ := o.transfer_contents hq hw
    exact ⟨hq', by rw [append_assoc, append_assoc, hmove]⟩

/-- The queue is first in, first out, however often its ends wrap
around: what was put is what was got and then what is stored, at most
`INTQ_BUFSIZE - 1` bytes. -/
theorem intq_fifo {ins outs : List UInt8} {q : Queue} (h : Served ins outs q) :
    ins = outs ++ q.contents ∧ outs <+: ins ∧ q.contents.length ≤ bufsize - 1 ∧
      (q.empty = true ↔ outs = ins) ∧
      ∀ o : Op, o.waits.blocks q = false → o.signals.blocks (o.transfer q).2 = false := by
  obtain ⟨hq, rfl⟩ := h.stored
  refine ⟨rfl, prefix_append .., ?_, ?_, fun o hw => (o.transfer_contents hq hw).2.2⟩
  · rw [Queue.contents, length_map, length_range]
    exact Nat.le_sub_one_of_lt (Nat.mod_lt _ (by decide))
  · rw [Queue.empty_iff hq, self_eq_append_right]

/-- A list of calls, none of which has to wait. -/
def calls : List Op → List UInt8 → List UInt8 → Queue → Option (List UInt8 × List UInt8 × Queue)
  | [], ins, outs, q => some (ins, outs, q)
  | o :: os, ins, outs, q =>
    if o.waits.blocks q then none
    else calls os (ins ++ o.input) (outs ++ (o.transfer q).1.toList) (o.transfer q).2

theorem Served.calls {os : List Op} {ins outs : List UInt8} {q : Queue} (h : Served ins outs q)
    {x : List UInt8 × List UInt8 × Queue} (hx : Intq.calls os ins outs q = some x) :
    Served x.1 x.2.1 x.2.2 := by
  induction os generalizing ins outs q with
  | nil =>
    cases hx
    exact h
  | cons o os ih =>
    obtain ⟨hw, hx⟩ := Option.ite_none_left_eq_some.mp hx
    exact ih (h.call o (Bool.eq_false_iff.mpr hw)) hx

/-- 62 bytes pass through the queue, four more are put and one of them is
got: the head has wrapped around, the tail has not, and three bytes are
left. -/
theorem intq_fifo_wrapped : ∃ ins outs q, Served ins outs q ∧ q.head = 2 ∧ q.tail = 63 ∧
    q.contents = [8, 9, 10] ∧ ins = outs ++ [8, 9, 10] ∧ outs <+: ins ∧ q.empty = false := by
  obtain ⟨x, hx, hq⟩ := (Option.any_eq_true _ _).mp (show (calls
      ((replicate 62 [Op.putc 5, .getc]).flatten ++
        [.putc 7, .putc 8, .putc 9, .putc 10, .getc]) [] [] (.init fun _ => 0)).any (fun x =>
      x.2.2.head == 2 && x.2.2.tail == 63 && x.2.2.contents == [8, 9, 10] &&
        !x.2.2.empty) = true by decide +kernel)
  simp only [Bool.and_eq_true, beq_iff_eq, Bool.not_eq_true'] at hq
  obtain ⟨⟨⟨hhead, htail⟩, hleft⟩, hempty⟩ := hq
  have h := Served.calls (.init fun _ => 0) hx
  obtain ⟨hins, hpre, -⟩ := intq_fifo h
  rw [hleft] at hins
  exact ⟨_, _, _, h, hhead, htail, hleft, hins, hpre, hempty⟩

-- ==== threads in the queue's code

/-- Where a thread is in its call: at the loop's test, in `lock_acquire`,
about to `wait`, or in its `thread_block` and what follows. -/
inductive Phase where
  | test
  | acquire
  | locked
  | asleep
  deriving DecidableEq, Repr

/-- The assertions on the way. -/
inductive Fault where
  | wait
  | signal
  | threadUnblock
  | lockAcquire
  | lockRelease
  deriving DecidableEq, Repr

structure State where
  kernel : Kernel
  queue : Queue
  pc : Tid → Option (Op × Phase)
  result : Tid → Option UInt8
  fault : Option Fault

namespace State

def fail (f : Fault) (s : State) : State := { s with fault := some f }

/-- The running thread's place, `none` being outside the queue's code. -/
def goto (p : Option (Op × Phase)) (s : State) : State :=
  { s with pc := Function.update s.pc s.kernel.current p }

def wait (c : Cond) (s : State) : State :=
  if c.blocks s.queue then
    { s with
      queue := s.queue.setSlot (some s.kernel.current) c
      kernel := s.kernel.threadBlock }
  else s.fail .wait

def signal (c : Cond) (s : State) : State :=
  if c.blocks s.queue then s.fail .signal
  else
    match s.queue.slot c with
    | none => s
    | some t =>
      match s.kernel.threadUnblock t with
      | none => s.fail .threadUnblock
      | some k => { s with
          kernel := k
          queue := s.queue.setSlot none c }

/-- The part after the loop. -/
def finish (o : Op) (s : State) : State :=
  signal o.signals { s with queue := (o.transfer s.queue).2 }

/-- A call of the running thread, up to the loop. -/
def call (o : Op) (s : State) : State := s.goto (some (o, .test))

def intqGetc (s : State) : State := s.call .getc

def intqPutc (byte : UInt8) (s : State) : State := s.call (.putc byte)

/-- The running thread goes on with its call, to the next point at which
it may block or be preempted. -/
def run (s : State) : Option State :=
  let t := s.kernel.current
  match s.pc t with
  | none => none
  | some (o, .test) =>
    if o.waits.blocks s.queue then
      match s.kernel.step (.lockAcquire qlock) with
      | none => some (s.fail .lockAcquire)
      | some k => some { s.goto (some (o, .acquire)) with kernel := k }
    else
      some (finish o { s.goto none with
        result := Function.update s.result t (o.transfer s.queue).1 })
  | some (o, .acquire) =>
    (s.kernel.step .resume).map fun k =>
      if (s.kernel.sema (.ofLock qlock)).value = 0 then
        { s with kernel := k }
      else { s.goto (some (o, .locked)) with kernel := k }
  | some (o, .locked) => some (wait o.waits (s.goto (some (o, .asleep))))
  | some (o, .asleep) =>
    match s.kernel.step (.lockRelease qlock) with
    | none => some (s.fail .lockRelease)
    | some k => some { s.goto (some (o, .test)) with kernel := k }

inductive Act where
  | kernel (a : Kernel.Act)
  | getc
  | putc (byte : UInt8)
  | run
  | interrupt (o : Op)

/-- Other code leaves the queue's lock and the threads in its functions
alone. -/
def spares (a : Kernel.Act) (s : State) : Bool :=
  match a with
  | .unblock t => (s.pc t).isNone
  | .semaDown r => r.own
  | .semaUp r => r.own
  | .lockAcquire l => l != qlock
  | .lockRelease l => l != qlock
  | .interrupt ups _ => ups.all SemaRef.own
  | _ => true

/-- The running thread is outside the queue's code, with interrupts on. -/
def outside (s : State) : Bool :=
  (s.pc s.kernel.current).isNone && decide ((s.kernel.thread s.kernel.current).resume = .none)

def step (a : Act) (s : State) : Option State :=
  if s.fault ≠ none then none
  else
    match a with
    | .kernel b =>
      if (s.pc s.kernel.current).isNone && s.spares b then
        (s.kernel.step b).map fun k => { s with kernel := k }
      else none
    | .getc =>
      if s.outside && s.kernel.current != s.kernel.idle then
        some s.intqGetc
      else none
    | .putc byte =>
      if s.outside && s.kernel.current != s.kernel.idle then
        some (s.intqPutc byte)
      else none
    | .run => s.run
    | .interrupt o =>
      if s.outside && !o.waits.blocks s.queue then some (s.finish o)
      else none

def start (v : Nat → Nat) (buf : Nat → UInt8) : State where
  kernel := boot v
  queue := .init buf
  pc _ := none
  result _ := none
  fault := none

def Booted (s : State) : Prop := ∃ v buf, s = start v buf

-- ==== the guard

/-- If `o` moves a byte now and ends a condition that threads wait for,
none of these is still in `lock_acquire`. -/
def quietTransfer (o : Op) (s : State) : Prop :=
  o.waits.blocks s.queue = false → o.signals.blocks s.queue = true →
    ∀ t, t < s.kernel.count → ∀ x ∈ s.pc t, x.2 = .acquire → x.1.waits ≠ o.signals

def transferGuard (a : Act) (s : State) : Prop :=
  match a with
  | .run =>
    match s.pc s.kernel.current with
    | some (o, .test) => quietTransfer o s
    | _ => True
  | .interrupt o => quietTransfer o s
  | _ => True

-- ==== the invariant

/-- Where a thread is, as the thread system and the queue see it, in the
place `p`. -/
def Placed (k : Kernel) (q : Queue) (t : Tid) : Option (Op × Phase) → Prop
  | none => k.waitsOn t ≠ some (.ofLock qlock) ∧ (k.lock qlock).holder ≠ some t
  | some (o, p) => (t < k.count ∧ t ≠ k.idle)
    ∧ k.waitsOn t = (if p = .acquire then some (.ofLock qlock) else none)
    ∧ ((k.lock qlock).holder = some t ↔ p = .locked ∨ p = .asleep)
    ∧ (p = .locked → t = k.current)
    ∧ (p = .acquire ∨ p = .locked → o.waits.blocks q = true)

structure Inv (s : State) : Prop where
  lists : ListInv s.kernel (some s.kernel.current)
  locks : LockInv s.kernel
  small : s.queue.Within
  sound : s.fault = none
  placed : ∀ t, Placed s.kernel s.queue t (s.pc t)
  slot : ∀ c t, s.queue.slot c = some t →
    ∃ o, s.pc t = some (o, .asleep) ∧ o.waits = c ∧ Parked t s.kernel

/-- A place that the lock knows nothing of. -/
def Neutral (p : Option (Op × Phase)) : Prop := ∀ o q, p = some (o, q) → q = .test

theorem goto_pc (p : Option (Op × Phase)) (s : State) (t : Tid) :
    (s.goto p).pc t = if t = s.kernel.current then p else s.pc t :=
  Function.update_apply ..

/-- A thread stays in its place when nothing it shows changes. -/
theorem Placed.same {k k' : Kernel} {q q' : Queue} {t : Tid} {p : Option (Op × Phase)}
    (h : Placed k q t p) (hcount : k.count ≤ k'.count) (hidle : k'.idle = k.idle)
    (hwaits : k'.waitsOn t = k.waitsOn t)
    (hholder : (k'.lock qlock).holder = some t ↔ (k.lock qlock).holder = some t)
    (hcur : t = k.current → k'.current = t) (hblocks : ∀ c : Cond, c.blocks q' = c.blocks q) :
    Placed k' q' t p := by
  cases p with
  | none => exact ⟨hwaits ▸ h.1, mt hholder.mp h.2⟩
  | some x =>
    obtain ⟨⟨hlt, hid⟩, hw, hh, hl, hb⟩ := h
    exact ⟨⟨hlt.trans_le hcount, hidle ▸ hid⟩, hwaits.trans hw, hholder.trans hh,
      fun hp => (hcur (hl hp)).symm, hblocks _ ▸ hb⟩

namespace Inv

variable {s : State}
variable {o : Op} {k : Kernel} {a : Kernel.Act} {t : Tid}

theorem current_lt (hi : Inv s) : s.kernel.current < s.kernel.count := hi.lists.current_facts.2.2.2

variable {c : Cond} {q : Queue} {s' : State}

/-- The running thread is in no slot. -/
theorem slot_ne (hi : Inv s) (ht : s.queue.slot c = some t) : t ≠ s.kernel.current := by
  obtain ⟨o, -, -, hp⟩ := hi.slot c t ht
  intro e
  have hrun := hi.lists.current_facts.2.1
  simp [← e, hp.blocked] at hrun

section

variable (hi : Inv s)

include hi

theorem at_pc {p : Phase} (h : s.pc t = some (o, p)) : Placed s.kernel s.queue t (some (o, p)) :=
  h ▸ hi.placed t

theorem here {x : Op × Phase} (h : s.pc t = some x) : t < s.kernel.count ∧ t ≠ s.kernel.idle :=
  (hi.at_pc h).1

theorem acquire (h : s.pc t = some (o, .acquire)) : s.kernel.waitsOn t = some (.ofLock qlock) :=
  (hi.at_pc h).2.1

theorem calm {p : Phase} (h : s.pc t = some (o, p)) (hp : p ≠ .acquire) :
    s.kernel.waitsOn t = none :=
  (hi.at_pc h).2.1.trans (if_neg hp)

theorem holder {p : Phase} (h : s.pc t = some (o, p)) :
    (s.kernel.lock qlock).holder = some t ↔ p = .locked ∨ p = .asleep :=
  (hi.at_pc h).2.2.1

theorem blocks {p : Phase} (h : s.pc t = some (o, p)) (hp : p = .acquire ∨ p = .locked) :
    o.waits.blocks s.queue = true :=
  (hi.at_pc h).2.2.2.2 hp

end

/-- A thread outside the lock does not hold it. -/
theorem free_of_neutral (hi : Inv s) (h : Neutral (s.pc t)) :
    (s.kernel.lock qlock).holder ≠ some t := by
  cases hpc : s.pc t with
  | none => exact (hpc ▸ hi.placed t : Placed _ _ _ none).2
  | some x =>
    obtain ⟨o, p⟩ := x
    cases h o p hpc
    simp [hi.holder hpc]

/-- The running thread moves between places outside the lock. -/
theorem goto_neutral (hi : Inv s) {p : Option (Op × Phase)} (hnow : Neutral (s.pc s.kernel.current))
    (hp : Neutral p) (hw : s.kernel.waitsOn s.kernel.current = none)
    (hid : p ≠ none → s.kernel.current ≠ s.kernel.idle) : Inv (s.goto p) := by
  refine ⟨hi.lists, hi.locks, hi.small, hi.sound, fun t => ?_, fun c t h => ?_⟩
  · rw [goto_pc]
    change Placed s.kernel s.queue t _
    split
    next ht =>
      have hfree := hi.free_of_neutral hnow
      rw [ht]
      cases p with
      | none => exact ⟨by simp [hw], hfree⟩
      | some x =>
        obtain ⟨o, q⟩ := x
        cases hp o q rfl
        exact ⟨⟨hi.current_lt, hid nofun⟩, hw, by simpa using hfree, nofun, by simp⟩
    next => exact hi.placed t
  · rw [goto_pc, if_neg (hi.slot_ne h)]
    exact hi.slot c t h

/-- A byte is moved while nobody is about to wait. -/
theorem requeue (hi : Inv s) (hsmall : q.Within) (hslot : ∀ c, q.slot c = s.queue.slot c)
    (hnone : ∀ t o p, s.pc t = some (o, p) → ¬(p = .acquire ∨ p = .locked)) :
    Inv { s with queue := q } := by
  refine { hi with
    small := hsmall
    slot := fun c t h => hi.slot c t (hslot c ▸ h)
    placed := fun t => ?_ }
  have h := hi.placed t
  cases hpc : s.pc t <;> rw [hpc] at h
  case none => exact h
  case some x =>
    exact ⟨h.1, h.2.1, h.2.2.1, h.2.2.2.1, fun hp => absurd hp (hnone t _ _ hpc)⟩

theorem slot_setSlot (q : Queue) (w : Option Tid) (c d : Cond) :
    (q.setSlot w c).slot d = if d = c then w else q.slot d := by
  cases c <;> cases d <;> rfl

theorem blocks_setSlot (q : Queue) (w : Option Tid) (c d : Cond) :
    d.blocks (q.setSlot w c) = d.blocks q := by
  cases c <;> cases d <;> rfl

/-- Two threads in `wait` are one: both hold the lock. -/
theorem asleep_unique (hi : Inv s) {u : Tid} {o' : Op} (ht : s.pc t = some (o, .asleep))
    (hu : s.pc u = some (o', .asleep)) : t = u ∧ o = o' := by
  have h1 := (hi.holder ht).mpr (.inr rfl)
  have h2 := (hi.holder hu).mpr (.inr rfl)
  rw [h1] at h2
  cases h2
  rw [ht] at hu
  cases hu
  exact ⟨rfl, rfl⟩

/-- `signal` finds its condition and, if a thread waits for it, finds it
blocked. -/
theorem signal (hi : Inv s) (hc : c.blocks s.queue = false) : Inv (s.signal c) := by
  unfold State.signal
  rw [hc, if_neg (by decide)]
  cases hs : s.queue.slot c with
  | none => exact hi
  | some t =>
    obtain ⟨o, ho, hoc, hpk⟩ := hi.slot c t hs
    have hw := hi.calm ho (by decide)
    dsimp only
    cases hk : s.kernel.threadUnblock t with
    | none =>
      unfold threadUnblock at hk
      simp [if_pos hpk.blocked] at hk
    | some k =>
      have hq := (Kernel.Switched.threadUnblock hk).quiet
      have hloops := Kernel.Switched.threadUnblock hk
      have hcur := threadUnblock_current hk
      have hlists := hi.lists.threadUnblock (fun r hmem => by
        have := (hi.lists.waiter r t hmem).2.2
        rw [hw] at this
        cases this) hk
      refine ⟨?_, hi.locks.quiet hq, ?_, hi.sound, fun u => ?_, fun d u h => ?_⟩
      · exact hcur.symm ▸ hlists
      · cases c <;> exact hi.small
      · exact (hi.placed u).same hq.count hq.idle (hloops.waitsOn u) (by rw [hq.lock])
          (fun hu => hcur.trans hu.symm) fun d => blocks_setSlot ..
      · rw [slot_setSlot] at h
        obtain ⟨hdc, h⟩ := ite_none_left_eq_some.mp h
        obtain ⟨o', ho', hod, hpk'⟩ := hi.slot d u h
        refine ⟨o', ho', hod, hpk'.threadUnblock ?_ hk⟩
        intro e
        obtain ⟨-, rfl⟩ := hi.asleep_unique ho ho'
        exact hdc (hod.symm.trans hoc)

-- ==== steps of the threads

/-- What every step of the thread system keeps. -/
structure Stepped (s : State) (k : Kernel) : Prop where
  lists : ListInv k (some k.current)
  locks : LockInv k
  count : s.kernel.count ≤ k.count
  idle : k.idle = s.kernel.idle
  parked : ∀ c t, s.queue.slot c = some t → Parked t k

theorem stepped (hi : Inv s) (hown : ownSemas a s.kernel)
    (ha : ∀ c t, s.queue.slot c = some t → a ≠ .unblock t)
    (hs : s.kernel.step a = some k) : Stepped s k := by
  have hm := lockMove_step hi.locks.raw hown hs
  refine ⟨hi.lists.step hs, hi.locks.move hi.current_lt hm, (step_loops hs).count, hm.idle, ?_⟩
  intro c t ht
  obtain ⟨o, ho, -, hpk⟩ := hi.slot c t ht
  exact hpk.step hi.lists (hi.calm ho (by decide)) (ha c t ht) hs

/-- The places are those of `pc`, the queue's bytes and slots the same. -/
theorem of_stepped (hi : Inv s) (hst : Stepped s k) {pc : Tid → Option (Op × Phase)}
    (hat : ∀ t, Placed k s.queue t (pc t))
    (hslot : ∀ c t, s.queue.slot c = some t → pc t = s.pc t) :
    Inv { s with kernel := k, pc := pc } := by
  refine ⟨hst.lists, hst.locks, hi.small, hi.sound, hat, fun c t h => ?_⟩
  obtain ⟨o, ho, hoc, -⟩ := hi.slot c t h
  exact ⟨o, (hslot c t h).trans ho, hoc, hst.parked c t h⟩

theorem ownSemas_of_spares (h : s.spares a = true) : ownSemas a s.kernel := by
  cases a with
  | semaDown r | semaUp r => exact h
  | interrupt ups slice => exact all_eq_true.mp h
  | _ => trivial

theorem enter_of_spares (h : s.spares a = true) : a.enter ≠ some (.ofLock qlock) := by
  intro e
  cases a with
  | semaDown r =>
    cases e
    cases h
  | lockAcquire l =>
    cases e
    simp [State.spares] at h
  | _ => cases e

/-- Other code does not move the queue's lock. -/
theorem spares_holder (hi : Inv s) (hpc : s.pc s.kernel.current = none) (hsp : s.spares a = true)
    (hs : s.kernel.step a = some k) : (k.lock qlock).holder = (s.kernel.lock qlock).holder := by
  -- the running thread is not in the queue's `lock_acquire`
  have hnot : ∀ l, (s.kernel.thread s.kernel.current).resume = .lockAcquire l → qlock ≠ l := by
    intro l hr e
    have hw : s.kernel.waitsOn s.kernel.current = some (.ofLock qlock) := by
      unfold waitsOn
      rw [hr, e]
      rfl
    exact (hpc ▸ hi.placed _ : Placed _ _ _ none).1 hw
  cases lockMove_step hi.locks.raw (ownSemas_of_spares hsp) hs with
  | quiet _ hq => rw [hq.lock]
  | @enter l _ _ => exact (entered_entered l _).holder _
  | @donate l t _ _ _ => exact (donated_entered l t _).holder _
  | @sleep l _ _ =>
    rw [(semaWait_quiet s.kernel (.ofLock l)).lock]
    rfl
  | @take l hr _ => rw [granted_lock, if_neg (hnot l hr)]
  | @release l k₁ _ _ hpost =>
    have hl : qlock ≠ l := fun e => by simp [State.spares, ← e] at hsp
    rw [(Kernel.Switched.checkPreemption k₁).lock, (semaPost_upped hpost).lock,
      released_lock, if_neg hl]
  | rebase _ =>
    rw [(Kernel.Switched.checkPreemption _).lock]
    rfl

section

variable (hi : Inv s)

include hi

/-- A step leaves the other threads where they are, but for one that gets
the lock. -/
theorem placed_other (hst : Stepped s k) (hs : s.kernel.step a = some k) (ht : t ≠ s.kernel.current)
    (hholder : (k.lock qlock).holder = some t ↔ (s.kernel.lock qlock).holder = some t) :
    Placed k s.queue t (s.pc t) := by
  have h := hi.placed t
  cases (step_loops hs).waits t with
  | same hw => exact h.same hst.count hst.idle hw hholder (fun e => absurd e ht) fun _ => rfl
  | born hw hge =>
    have hpc : s.pc t = none := eq_none_iff_forall_ne_some.mpr fun x hx =>
      not_lt.mpr hge (hi.here hx).1
    rw [hpc] at h ⊢
    exact ⟨by simp [hw], mt hholder.mp h.2⟩
  | left _ h _ _ | entered _ h _ => exact absurd h ht

theorem kernel (hpc : s.pc s.kernel.current = none) (hsp : s.spares a = true)
    (hs : s.kernel.step a = some k) : Inv { s with kernel := k } := by
  have hst := hi.stepped (ownSemas_of_spares hsp) (fun c t ht => by
    rintro rfl
    obtain ⟨o, ho, -, -⟩ := hi.slot c t ht
    simp [State.spares, ho] at hsp) hs
  have hholder := hi.spares_holder hpc hsp hs
  refine hi.of_stepped hst (fun t => ?_) fun _ _ _ => rfl
  by_cases ht : t = s.kernel.current
  · have h := hi.placed t
    rw [ht, hpc] at h ⊢
    refine ⟨?_, hholder ▸ h.2⟩
    cases (step_loops hs).waits s.kernel.current with
    | same hw => exact hw ▸ h.1
    | born hw _ | left hw _ _ _ => simp [hw]
    | entered _ _ hw => exact hw ▸ enter_of_spares hsp
  · exact hi.placed_other hst hs ht (by rw [hholder])

-- ==== steps of the running thread

/-- A step takes the running thread to the phase `p` of its call. -/
theorem moved {p₀ p : Phase} (hpc : s.pc s.kernel.current = some (o, p₀))
    (hown : ownSemas a s.kernel) (ha : ∀ t, a ≠ .unblock t) (hs : s.kernel.step a = some k)
    (hself : k.waitsOn s.kernel.current = if p = .acquire then some (.ofLock qlock) else none)
    (hholder : ∀ t, (k.lock qlock).holder = some t
      ↔ if t = s.kernel.current then p = .locked ∨ p = .asleep
        else (s.kernel.lock qlock).holder = some t)
    (hcur : p = .locked → k.current = s.kernel.current)
    (hb : p = .acquire ∨ p = .locked → o.waits.blocks s.queue = true) :
    Inv { s.goto (some (o, p)) with kernel := k } := by
  have hst := hi.stepped hown (fun _ t _ => ha t) hs
  refine hi.of_stepped hst (fun t => ?_) fun c t h => ?_
  · rw [goto_pc]
    by_cases ht : t = s.kernel.current
    · have h := hi.placed t
      rw [ht, hpc] at h
      rw [if_pos ht, ht]
      refine ⟨⟨h.1.1.trans_le hst.count, hst.idle ▸ h.1.2⟩, hself, ?_, fun hp => (hcur hp).symm, hb⟩
      rw [hholder, if_pos rfl]
    · rw [if_neg ht]
      exact hi.placed_other hst hs ht (by rw [hholder, if_neg ht])
  · rw [goto_pc, if_neg (hi.slot_ne h)]

/-- The test failed: on to `lock_acquire`. -/
theorem enter (hpc : s.pc s.kernel.current = some (o, .test)) (hb : o.waits.blocks s.queue = true)
    (hs : s.kernel.step (.lockAcquire qlock) = some k) :
    Inv { s.goto (some (o, .acquire)) with kernel := k } := by
  obtain ⟨-, hreq⟩ := step_lockAcquire hs
  obtain ⟨hwaits, -⟩ := lockRequest_waitsOn hreq
  refine hi.moved (a := .lockAcquire qlock) hpc trivial nofun hs ?_ ?_ nofun (fun _ => hb)
  · rw [hwaits, if_pos rfl, if_pos rfl]
  · intro t
    rw [(lockRequest_still hreq).holder qlock]
    split
    next ht =>
      rw [ht, hi.holder hpc]
      simp
    next => rfl

/-- The turn of `lock_acquire` that goes to sleep. -/
theorem sleep (hpc : s.pc s.kernel.current = some (o, .acquire))
    (hv : (s.kernel.sema (.ofLock qlock)).value = 0)
    (hs : s.kernel.step .resume = some k) : Inv { s with kernel := k } := by
  have hw := hi.acquire hpc
  have hk := step_resume_sleep (hi.locks.inside hw) hv hs
  have hloops := semaWait_sameLoops (.ofLock qlock) s.kernel
  have hq := semaWait_quiet s.kernel (.ofLock qlock)
  rw [← hk] at hloops hq
  have hgoto : s.goto (some (o, .acquire)) = s := by
    unfold goto
    rw [← hpc, Function.update_eq_self]
  rw [← hgoto]
  refine hi.moved (a := .resume) hpc trivial nofun hs ?_ ?_ nofun
    (fun _ => hi.blocks hpc (.inl rfl))
  · rw [hloops.waitsOn, hw]
    rfl
  · intro t
    rw [hq.lock]
    change (s.kernel.lock qlock).holder = some t ↔ _
    split
    next ht => simp [ht, hi.holder hpc]
    next => rfl

/-- The turn that gets the lock. -/
theorem take (hpc : s.pc s.kernel.current = some (o, .acquire))
    (hv : (s.kernel.sema (.ofLock qlock)).value ≠ 0) (hs : s.kernel.step .resume = some k) :
    Inv { s.goto (some (o, .locked)) with kernel := k } := by
  have hr := hi.locks.inside (hi.acquire hpc)
  have hk := step_resume_take hr hv hs
  refine hi.moved (a := .resume) hpc trivial nofun hs ?_ ?_ ?_ (fun _ => hi.blocks hpc (.inl rfl))
  · rw [hk]
    unfold waitsOn
    rw [granted_thread, if_pos rfl]
    rfl
  · intro t
    rw [hk, granted_lock, if_pos rfl, hi.locks.free hv]
    split
    next ht => simp [ht]
    next ht => simp [Ne.symm ht]
  · intro _
    rw [hk]
    rfl

/-- A thread in `wait` gets into its slot. -/
theorem fillSlot (ht : s.pc t = some (o, .asleep)) (hpk : Parked t s.kernel) :
    Inv { s with queue := s.queue.setSlot (some t) o.waits } := by
  refine { hi with
    small := by cases o <;> exact hi.small
    slot := fun c u h => ?_
    placed := fun u => (hi.placed u).same (Nat.le_refl _) rfl rfl Iff.rfl Eq.symm
      fun d => blocks_setSlot .. }
  rw [slot_setSlot] at h
  split at h
  next hc =>
    cases h
    exact ⟨o, ht, hc.symm, hpk⟩
  next => exact hi.slot c u h

/-- While a thread has the lock and does not wait, both slots are free. -/
theorem slot_none (hpc : s.pc s.kernel.current = some (o, .locked)) (c : Cond) :
    s.queue.slot c = none := by
  cases hs : s.queue.slot c with
  | none => rfl
  | some t =>
    obtain ⟨o', ho', -, -⟩ := hi.slot c t hs
    have h1 := (hi.holder ho').mpr (.inr rfl)
    rw [(hi.holder hpc).mpr (.inl rfl)] at h1
    exact absurd (some.inj h1).symm (hi.slot_ne hs)

/-- `wait` finds the condition as the test left it, and its slot free. -/
theorem wait (hpc : s.pc s.kernel.current = some (o, .locked)) :
    Inv (State.wait o.waits (s.goto (some (o, .asleep)))) := by
  obtain ⟨hoff, -, -, -⟩ := hi.lists.current_facts
  have hw := hi.calm hpc (by decide)
  have hid := (hi.here hpc).2
  have hres := resume_eq_none hw
  have hs : s.kernel.step .block = some s.kernel.threadBlock := by
    unfold Kernel.step
    rw [if_pos hres, if_neg hid]
    rfl
  have hsw := Kernel.Switched.threadBlock s.kernel
  have hpk : Parked s.kernel.current s.kernel.threadBlock := by
    refine Parked.schedule ⟨?_, hoff, hid⟩
    rw [status_setStatus, if_pos rfl]
  have hi' : Inv { s.goto (some (o, .asleep)) with
      kernel := s.kernel.threadBlock } := by
    refine hi.moved (a := .block) hpc trivial nofun hs ?_ ?_ nofun nofun
    · rw [hsw.waitsOn]
      exact hw
    · intro t
      rw [hsw.quiet.lock]
      split
      next ht => simp [ht, hi.holder hpc]
      next => rfl
  have hb : o.waits.blocks (s.goto (some (o, .asleep))).queue = true := hi.blocks hpc (.inr rfl)
  unfold State.wait
  rw [if_pos hb]
  exact hi'.fillSlot ((goto_pc _ s _).trans (if_pos rfl)) hpk

/-- The woken thread gives the lock back and is at the test again. -/
theorem release (hpc : s.pc s.kernel.current = some (o, .asleep))
    (hs : s.kernel.step (.lockRelease qlock) = some k) :
    Inv { s.goto (some (o, .test)) with kernel := k } := by
  have hw := hi.calm hpc (by decide)
  have hmine := (hi.holder hpc).mpr (.inr rfl)
  refine hi.moved (a := .lockRelease qlock) hpc trivial nofun hs ?_ ?_ nofun nofun
  · rw [if_neg (by decide)]
    cases (step_loops hs).waits s.kernel.current with
    | same h => exact h.trans hw
    | born h _ | left h _ _ _ => exact h
    | entered _ _ h => exact h
  · intro t
    obtain ⟨-, -, k₁, hpost, rfl⟩ := step_lockRelease hs
    rw [(Kernel.Switched.checkPreemption k₁).lock, (semaPost_upped hpost).lock,
      released_lock, if_pos rfl, hmine]
    split
    next => simp
    next ht => simp [Ne.symm ht]

end

/-- What comes after the loop, in a call or in a handler. -/
theorem finish (hi : Inv s) (hpc : Neutral (s.pc s.kernel.current))
    (hb : o.waits.blocks s.queue = false) (hok : quietTransfer o s) : Inv (s.finish o) := by
  have hnone : ∀ t o' p, s.pc t = some (o', p) → ¬(p = .acquire ∨ p = .locked) := by
    intro t o' p h hp
    have hblocks := hi.blocks h hp
    rcases hp with rfl | rfl
    · by_cases hw : o'.waits = o.waits
      · simp [hw, hb] at hblocks
      · have hsig : o'.waits = o.signals := by
          cases o <;> cases o' <;> first | rfl | exact absurd rfl hw
        rw [hsig] at hblocks
        exact hok hb hblocks t (hi.here h).1 _ h rfl hsig
    · have ht := (hi.at_pc h).2.2.2.1 rfl
      rw [ht] at h
      cases hpc o' _ h
  obtain ⟨hsmall, -, hsig⟩ := o.transfer_contents hi.small hb
  refine .signal (hi.requeue hsmall ?_ hnone) hsig
  intro c
  cases o <;> cases c <;> rfl

-- ==== every step

/-- `lock_acquire` is not called with the lock held. -/
theorem lockAcquire_enabled (hi : Inv s) (hpc : s.pc s.kernel.current = some (o, .test)) :
    ∃ k, s.kernel.step (.lockAcquire qlock) = some k := by
  have hres := resume_eq_none (hi.calm hpc (by decide))
  have hnot : (s.kernel.lock qlock).holder ≠ some s.kernel.current := by simp [hi.holder hpc]
  unfold Kernel.step
  rw [if_pos hres, if_neg (hi.here hpc).2]
  unfold Kernel.call Kernel.lockRequest
  dsimp only
  rw [if_neg hnot]
  exact ⟨_, rfl⟩

/-- `lock_release` is called with the lock held. -/
theorem lockRelease_enabled (hi : Inv s) (hpc : s.pc s.kernel.current = some (o, .asleep)) :
    ∃ k, s.kernel.step (.lockRelease qlock) = some k := by
  have hres := resume_eq_none (hi.calm hpc (by decide))
  obtain ⟨k₁, -, hk⟩ := hi.lists.lockRelease_enabled hres (hi.here hpc).2
    ((hi.holder hpc).mpr (.inr rfl))
  exact ⟨_, hk⟩

theorem setResult (hi : Inv s) (r : Tid → Option UInt8) : Inv { s with result := r } := { hi with }

theorem run (hi : Inv s) (hok : transferGuard .run s) (hs : s.run = some s') : Inv s' := by
  unfold State.run at hs
  dsimp only at hs
  unfold transferGuard at hok
  split at hs
  next => cases hs
  next o hpc =>
    rw [hpc] at hok
    have hw := hi.calm hpc (by decide)
    have hnow : Neutral (s.pc s.kernel.current) := by
      intro o' p h
      rw [hpc] at h
      cases h
      rfl
    split at hs
    case isTrue hb =>
      obtain ⟨k, hk⟩ := hi.lockAcquire_enabled hpc
      rw [hk] at hs
      cases hs
      exact hi.enter hpc hb hk
    case isFalse hb =>
      cases hs
      have hi1 : Inv (s.goto none) := hi.goto_neutral hnow nofun hw (fun h => absurd rfl h)
      have hg := goto_pc none s
      refine (hi1.setResult _).finish ?_ (Bool.eq_false_iff.mpr hb) ?_
      · intro o' p h
        have hself := hg s.kernel.current
        exact absurd (hself.symm.trans h) (by simp)
      · intro h1 h2 t ht x hx
        have hx' : x ∈ (s.goto none).pc t := hx
        rw [hg] at hx'
        split at hx'
        next => cases hx'
        next => exact hok h1 h2 t ht x hx'
  next o hpc =>
    obtain ⟨k, hk, rfl⟩ := map_eq_some_iff.mp hs
    split
    next hv => exact hi.sleep hpc hv hk
    next hv => exact hi.take hpc hv hk
  next o hpc =>
    cases hs
    exact hi.wait hpc
  next o hpc =>
    obtain ⟨k, hk⟩ := hi.lockRelease_enabled hpc
    rw [hk] at hs
    cases hs
    exact hi.release hpc hk

theorem step (hi : Inv s) {a : Act}
    (hok : transferGuard a s) (hs : s.step a = some s') : Inv s' := by
  unfold State.step at hs
  rw [if_neg (not_not.mpr hi.sound)] at hs
  -- a thread outside the queue's code may enter it
  have hcall o (h : (s.outside && s.kernel.current != s.kernel.idle) = true) : Inv (s.call o) := by
    simp only [outside, Bool.and_eq_true, isNone_iff_eq_none, decide_eq_true_eq, bne_iff_ne] at h
    obtain ⟨⟨hpc, hres⟩, hid⟩ := h
    refine hi.goto_neutral ?_ ?_ ?_ (fun _ => hid)
    · intro o' p h
      simp [hpc] at h
    · intro o' p h
      cases h
      rfl
    · unfold waitsOn
      rw [hres]
      rfl
  cases a with
  | kernel b =>
    obtain ⟨h, hs⟩ := ite_none_right_eq_some.mp hs
    simp only [Bool.and_eq_true, isNone_iff_eq_none] at h
    obtain ⟨k, hk, rfl⟩ := map_eq_some_iff.mp hs
    exact hi.kernel h.1 h.2 hk
  | getc =>
    obtain ⟨h, ⟨⟩⟩ := ite_none_right_eq_some.mp hs
    exact hcall .getc h
  | putc byte =>
    obtain ⟨h, ⟨⟩⟩ := ite_none_right_eq_some.mp hs
    exact hcall (.putc byte) h
  | run => exact hi.run hok hs
  | interrupt o =>
    obtain ⟨h, hs⟩ := ite_none_right_eq_some.mp hs
    simp only [outside, Bool.and_eq_true, isNone_iff_eq_none, Bool.not_eq_true'] at h
    cases hs
    refine hi.finish ?_ h.2 hok
    intro o' p hp
    simp [h.1.1] at hp

theorem init (v : Nat → Nat) (buf : Nat → UInt8) : Inv (start v buf) where
  lists := listInv_boot v
  locks := lockInv_boot v
  small := ⟨Nat.zero_lt_succ _, Nat.zero_lt_succ _⟩
  sound := rfl
  placed _ := ⟨nofun, nofun⟩
  slot := by
    intro c t h
    cases c <;> cases h

end Inv

variable {s : State} {t : Tid} {c : Cond}

theorem inv_of_reach (h : Reach Booted step transferGuard s) : Inv s := by
  refine Reach.induct (P := Inv) ?_ ?_ s h
  · intro s hs
    obtain ⟨v, buf, rfl⟩ := hs
    exact .init v buf
  · intro a s s' _ hi hok hs
    exact hi.step hok hs

-- ==== the waiters

variable {d : Cond} {s' : State}

/-- A slot is emptied only for a thread that is woken. -/
theorem signal_slot (h : s.queue.slot d = some t) :
    (s.signal c).queue.slot d = some t ∨ (s.signal c).kernel.status t ≠ .blocked := by
  unfold State.signal
  split
  case isTrue => exact .inl h
  case isFalse =>
    cases hs : s.queue.slot c with
    | none => exact .inl h
    | some u =>
      dsimp only
      cases hk : s.kernel.threadUnblock u with
      | none => exact .inl h
      | some k =>
        rw [Inv.slot_setSlot]
        by_cases hdc : d = c
        · right
          rw [hdc, hs] at h
          cases h
          obtain ⟨-, ⟨⟩⟩ := ite_none_right_eq_some.mp hk
          rw [status_setStatus, if_pos rfl]
          decide
        · rw [if_neg hdc]
          exact .inl h

theorem finish_slot {o : Op} (h : s.queue.slot d = some t) :
    (s.finish o).queue.slot d = some t ∨ (s.finish o).kernel.status t ≠ .blocked := by
  refine signal_slot ?_
  cases o <;> cases d <;> exact h

/-- Only `wait` writes a slot, and whoever is there holds the lock that
a waiter would hold. -/
theorem Inv.run_slot (hi : Inv s) (hs : s.run = some s') (h : s.queue.slot c = some t) :
    s'.queue.slot c = some t ∨ s'.kernel.status t ≠ .blocked := by
  unfold State.run at hs
  dsimp only at hs
  split at hs
  next => cases hs
  next o hpc =>
    split at hs
    case isTrue => split at hs <;> exact .inl (by cases hs; exact h)
    case isFalse =>
      cases hs
      exact finish_slot h
  next o hpc =>
    obtain ⟨k, -, rfl⟩ := map_eq_some_iff.mp hs
    left
    split <;> exact h
  next o hpc => simp [hi.slot_none hpc c] at h
  next o hpc => split at hs <;> exact .inl (by cases hs; exact h)

/-- No step takes a slot from a blocked thread. -/
theorem Inv.slot_kept {a : Act} (hi : Inv s)
    (hs : s.step a = some s') (h : s.queue.slot c = some t) :
    s'.queue.slot c = some t ∨ s'.kernel.status t ≠ .blocked := by
  obtain ⟨-, hs⟩ := ite_none_left_eq_some.mp hs
  split at hs
  next =>
    obtain ⟨-, hs⟩ := ite_none_right_eq_some.mp hs
    obtain ⟨k, -, rfl⟩ := map_eq_some_iff.mp hs
    exact .inl h
  next =>
    obtain ⟨-, ⟨⟩⟩ := ite_none_right_eq_some.mp hs
    exact .inl h
  next =>
    obtain ⟨-, ⟨⟩⟩ := ite_none_right_eq_some.mp hs
    exact .inl h
  next => exact hi.run_slot hs h
  next =>
    obtain ⟨-, ⟨⟩⟩ := ite_none_right_eq_some.mp hs
    exact finish_slot h

/-- If no byte ends a condition while a thread that found it is still in
`lock_acquire`, no assertion fails in any run, and a slot keeps its
thread until that thread has been woken. -/
theorem waiters_safe {s : State} (hr : Reach Booted step transferGuard s) :
    s.fault = none ∧
      ∀ a s', transferGuard a s → s.step a = some s' →
        ∀ c t, s.queue.slot c = some t →
          s'.queue.slot c = some t ∨ s'.kernel.status t ≠ .blocked := by
  have hi := inv_of_reach hr
  refine ⟨hi.sound, ?_⟩
  intro a s' _ hs c t h
  exact hi.slot_kept hs h

instance (o : Op) (s : State) : Decidable (quietTransfer o s) :=
  inferInstanceAs (Decidable (_ = _ → _ = _ → ∀ t, t < s.kernel.count →
    ∀ x ∈ s.pc t, x.2 = .acquire → x.1.waits ≠ o.signals))

instance (a : Act) (s : State) : Decidable (transferGuard a s) :=
  match a with
  | .run =>
    match h : s.pc s.kernel.current with
    | some (o, .test) => decidable_of_iff (quietTransfer o s) (by
        simp only [transferGuard, h])
    | none => .isTrue (by simp only [transferGuard, h])
    | some (_, .acquire) => .isTrue (by simp only [transferGuard, h])
    | some (_, .locked) => .isTrue (by simp only [transferGuard, h])
    | some (_, .asleep) => .isTrue (by simp only [transferGuard, h])
  | .interrupt o => inferInstanceAs (Decidable (quietTransfer o s))
  | .kernel _ => .isTrue trivial
  | .getc => .isTrue trivial
  | .putc _ => .isTrue trivial

/-- Thread 2 waits for a byte, an interrupt brings one and empties the
slot: the thread is no longer blocked. -/
theorem waiters_safe_one :
    ∃ s s', Reach Booted step transferGuard s ∧
      s.queue.notEmpty = some 2 ∧ s.step (.interrupt (.putc 7)) = some s' ∧
      s'.queue.notEmpty = none ∧ s'.kernel.status 2 ≠ .blocked := by
  have hb : Reach Booted step transferGuard (start (fun _ => 0) fun _ => 0) := .init ⟨_, _, rfl⟩
  obtain ⟨s, hr, hslot, hok, s', hs', hempty⟩ := hb.of_runAll
    [.kernel (.spawn 35), .kernel .checkPreemption, .getc, .run, .run, .run]
    (fun s => s.queue.notEmpty = some 2 ∧ transferGuard (.interrupt (.putc 7)) s ∧
      ∃ s' ∈ s.step (.interrupt (.putc 7)), s'.queue.notEmpty = none) (by decide +kernel)
  have hkept := (waiters_safe hr).2 _ s' hok hs' .notEmpty 2 hslot
  refine ⟨s, s', hr, hslot, hs', hempty, hkept.resolve_left ?_⟩
  show s'.queue.notEmpty ≠ some 2
  rw [hempty]
  simp

/-- Thread 2 (priority 35) waits for a byte with the lock, thread 3
(priority 40) found the queue empty too and waits for the lock. A byte
comes, thread 2 wakes up and releases the lock, thread 3 gets it with
the byte still there, and its `wait` asserts that the queue is empty. -/
theorem wait_asserts_stale_test : ∃ s, Reach Booted step anyStep s ∧ s.fault = some .wait := by
  have hb : Reach Booted step anyStep (start (fun _ => 0) fun _ => 0) := .init ⟨_, _, rfl⟩
  obtain ⟨s, hr, hs⟩ := hb.of_runAll
    [.kernel (.spawn 35), .kernel .checkPreemption, .getc, .run, .run,
      .run, .kernel (.spawn 40), .kernel .checkPreemption, .getc, .run,
      .run, .interrupt (.putc 0), .kernel .checkPreemption, .run, .run, .run]
    (fun s => s.fault = some .wait) (by decide +kernel)
  exact ⟨s, hr, hs⟩

end State

end Intq

end Pintos
