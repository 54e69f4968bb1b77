/-
Processes as `userprog/process.c` and `threads/thread.c` create, wait for
and destroy them: `process_execute`, `thread_create`, `start_process`,
`process_wait`, `thread_exit` and the page that `thread_schedule_tail`
gives back.

# Grain

A step is one semaphore operation, one scheduling event or one test on
another thread's record, together with the thread-local code before it.
The code in front of a `sema_down` is a step of its own, since the
thread may sleep there. A thread takes an element out of its own
`child_list`, which nobody else looks at, in the same step as the
`sema_up` that follows. Any thread whose next step is enabled may take
it: the scheduler is arbitrary.

# What is kept of `thread_exit`

Closing files and releasing locks do not touch the protocol's fields and
are left out; so is the page directory. `sema_down` on a zero semaphore
is a disabled step.

# Ghosts

`creator` and `byExec` record who called `thread_create` and with what
`calling_exec`; `log` lists the protocol's observable events. No step
reads them.
-/
import Mathlib.Data.List.Basic

namespace Pintos

/-- A `struct thread`, numbered in order of creation. The initial thread
is number 0. -/
abbrev ThreadId := Nat

def tidError : Int := -1

namespace Process

/-- What a thread is doing with one child of its own. -/
inductive Stage where
  /-- `thread_create`, after `thread_unblock`. -/
  | created
  /-- `thread_create`, at `sema_down (&t->load_mutex)`. -/
  | loadWait
  /-- `thread_create`, the load's outcome is known. -/
  | loaded
  /-- `thread_create`, at its `return t->tid`. -/
  | createReturn
  /-- `process_wait`, at `sema_down (&child->wait_mutex)`. -/
  | waitDown (pid : Int)
  /-- `process_wait`, at the read of `exit_status`. -/
  | waitRead (pid : Int)
  /-- `process_wait`, about to reap with the result in hand. -/
  | waitReap (pid : Int) (result : Int)
  deriving DecidableEq, Repr

/-- Program points. -/
inductive Point where
  | unborn
  | running
  /-- `thread_create`, before its `palloc_get_page`. -/
  | creating
  | onChild (c : ThreadId) (st : Stage)
  /-- `start_process`, in `load`. -/
  | loading
  /-- `start_process`, load failed and `tid` overwritten. -/
  | loadFailed
  /-- `start_process`, the failure reported to the creator. -/
  | loadReported
  /-- `thread_exit`, in the loop over `child_list`. -/
  | exitKids
  /-- `thread_exit`, at `sema_up (&wait_mutex)`. -/
  | exitNotify
  /-- `thread_exit`, at `sema_down (&exit_mutex)`. -/
  | exitWait
  /-- `THREAD_DYING`, switched away from. -/
  | dying
  /-- The page has been given back. -/
  | freed
  deriving DecidableEq, Repr

/-- The protocol's part of `struct thread`. -/
structure Proc where
  tid : Int
  point : Point
  childList : List ThreadId
  callingExec : Bool
  waitedOnce : Bool
  loadMutex : Nat
  waitMutex : Nat
  exitMutex : Nat
  exitStatus : Int
  creator : ThreadId
  byExec : Bool

/-- Who raises a child's `exit_mutex`. -/
inductive Raiser where
  | wait (p : ThreadId)
  | exit (p : ThreadId)
  deriving DecidableEq, Repr

inductive Event where
  /-- `t` entered `thread_exit` with this `exit_status`. -/
  | exited (t : ThreadId) (status : Int)
  /-- `process_wait (pid)` of `p` reaped a child and returned. -/
  | waitReturned (p : ThreadId) (pid : Int) (result : Int)
  /-- `process_wait (pid)` of `p` returned -1 at once. -/
  | waitRefused (p : ThreadId) (pid : Int)
  /-- `sema_up (&c->exit_mutex)`. -/
  | raised (c : ThreadId) (who : Raiser)
  /-- `palloc_free_page (t)`. -/
  | pageFreed (t : ThreadId)
  deriving DecidableEq, Repr

structure Sys where
  proc : ThreadId → Proc
  count : Nat
  log : List Event

namespace Sys

def mod (s : Sys) (t : ThreadId) (f : Proc → Proc) : Sys :=
  { s with proc := fun u => if u = t then f (s.proc t) else s.proc u }

def goto (s : Sys) (t : ThreadId) (pt : Point) : Sys := s.mod t fun x => { x with point := pt }

def emit (s : Sys) (e : Event) : Sys := { s with log := e :: s.log }

-- ==== creating and loading

/-- `init_thread` for a thread created by `p`; it starts in
`start_process` when it was created by `process_execute`. The `tid` is an
`int` in the source: 2^31 creations are out of scope. -/
def initThread (s : Sys) (p : ThreadId) : Proc :=
  let exec := (s.proc p).callingExec
  { tid := (s.count : Int) + 1
    point := if exec then .loading else .running
    childList := [], callingExec := false, waitedOnce := false
    loadMutex := 0, waitMutex := 0, exitMutex := 0, exitStatus := 0
    creator := p, byExec := exec }

/-- `thread_create` through its `thread_unblock`; `ok` is whether
`palloc_get_page` found a page. On failure `process_execute` returns. -/
def alloc (p : ThreadId) (ok : Bool) (s : Sys) : Sys :=
  if ok then
    ({ s with count := s.count + 1 }.mod s.count
      fun _ => s.initThread p).goto p (.onChild s.count .created)
  else s.mod p fun x => { x with point := .running, callingExec := false }

/-- `thread_create` after `thread_unblock`: an `exec` lists the child. -/
def listChild (p c : ThreadId) (s : Sys) : Sys :=
  if (s.proc p).callingExec then
    s.mod p fun x => { x with
      childList := x.childList ++ [c], point := .onChild c .loadWait }
  else s.goto p (.onChild c .createReturn)

def loadDown (p c : ThreadId) (s : Sys) : Option Sys :=
  if 0 < (s.proc c).loadMutex then
    some ((s.mod c fun y => { y with loadMutex := y.loadMutex - 1 }).goto p (.onChild c .loaded))
  else none

/-- The test of the child's `tid` after the load. -/
def checkLoad (p c : ThreadId) (s : Sys) : Sys :=
  if (s.proc c).tid = tidError then
    s.mod p fun x => { x with
      childList := x.childList.erase c, point := .onChild c .createReturn }
  else s.goto p (.onChild c .createReturn)

/-- `start_process` once `load` has returned. -/
def load (c : ThreadId) (ok : Bool) (s : Sys) : Sys :=
  if ok then
    s.mod c fun y => { y with point := .running, loadMutex := y.loadMutex + 1 }
  else s.mod c fun y => { y with point := .loadFailed, tid := tidError }

-- ==== waiting, exiting

/-- The search of `process_wait` through `child_list`. -/
def findChild (s : Sys) (p : ThreadId) (pid : Int) : Option ThreadId :=
  (s.proc p).childList.find? fun c => (s.proc c).tid = pid

/-- `process_wait` up to its `sema_down`. -/
def processWait (p : ThreadId) (pid : Int) (s : Sys) : Sys :=
  match s.findChild p pid with
  | none => s.emit (.waitRefused p pid)
  | some c =>
    if (s.proc c).waitedOnce then s.emit (.waitRefused p pid)
    else (s.mod c fun y => { y with waitedOnce := true }).goto p (.onChild c (.waitDown pid))

def waitDown (p c : ThreadId) (pid : Int) (s : Sys) : Option Sys :=
  if 0 < (s.proc c).waitMutex then
    some ((s.mod c fun y => { y with waitMutex := y.waitMutex - 1 }).goto p
      (.onChild c (.waitRead pid)))
  else none

/-- The end of `process_wait`: `list_remove`, `sema_up`, return. -/
def waitReap (p c : ThreadId) (pid result : Int) (s : Sys) : Sys :=
  (((s.mod c fun y => { y with exitMutex := y.exitMutex + 1 }).mod p
    fun x => { x with
      childList := x.childList.erase c, point := .running }).emit
    (.raised c (.wait p))).emit (.waitReturned p pid result)

/-- Entry of `thread_exit`, after `exit_status` was set. -/
def enterExit (p : ThreadId) (status : Int) (s : Sys) : Sys :=
  (s.mod p fun x => { x with
    exitStatus := status, point := .exitKids }).emit (.exited p status)

/-- One turn of the loop of `thread_exit` over `child_list`. -/
def exitKids (p : ThreadId) (s : Sys) : Sys :=
  match (s.proc p).childList with
  | [] => s.goto p .exitNotify
  | c :: rest =>
    ((s.mod c fun y => { y with exitMutex := y.exitMutex + 1 }).mod p
      fun x => { x with childList := rest, point := .exitKids }).emit
      (.raised c (.exit p))

def exitNotify (p : ThreadId) (s : Sys) : Sys :=
  s.mod p fun x => { x with
    waitMutex := x.waitMutex + 1, point := .exitWait }

def exitDown (p : ThreadId) (s : Sys) : Option Sys :=
  if 0 < (s.proc p).exitMutex then
    some (s.mod p fun x => { x with
      exitMutex := x.exitMutex - 1, point := .dying })
  else none

/-- `thread_schedule_tail` in the thread switched to: the page of a dying
thread is freed, unless it is the initial thread's. -/
def scheduleTail (p : ThreadId) (s : Sys) : Option Sys :=
  if p = 0 then none else some ((s.goto p .freed).emit (.pageFreed p))

/-- The next step of the code that `p` is in. -/
def go (p : ThreadId) (s : Sys) : Option Sys :=
  match (s.proc p).point with
  | .onChild c .created => some (s.listChild p c)
  | .onChild c .loadWait => s.loadDown p c
  | .onChild c .loaded => some (s.checkLoad p c)
  | .onChild _ .createReturn =>
    some (s.mod p fun x => { x with point := .running, callingExec := false })
  | .onChild c (.waitDown pid) => s.waitDown p c pid
  | .onChild c (.waitRead pid) => some (s.goto p (.onChild c (.waitReap pid (s.proc c).exitStatus)))
  | .onChild c (.waitReap pid r) => some (s.waitReap p c pid r)
  | .loadFailed =>
    some (s.mod p fun y => { y with point := .loadReported, loadMutex := y.loadMutex + 1 })
  | .loadReported => some (s.enterExit p (-1))
  | .exitKids => some (s.exitKids p)
  | .exitNotify => some (s.exitNotify p)
  | .exitWait => s.exitDown p
  | .dying => s.scheduleTail p
  | .unborn | .running | .creating | .loading | .freed => none

-- ==== actions

inductive Act where
  /-- `process_execute` sets `calling_exec` and calls `thread_create`. -/
  | exec (p : ThreadId)
  /-- The kernel itself calls `thread_create`. -/
  | create (p : ThreadId)
  | alloc (p : ThreadId) (ok : Bool)
  | load (c : ThreadId) (ok : Bool)
  | wait (p : ThreadId) (pid : Int)
  /-- The `exit` system call. -/
  | exit (p : ThreadId) (status : Int)
  /-- `kill`, `page_fault` or a failed argument check. -/
  | kill (p : ThreadId)
  /-- The function of a kernel thread returned. -/
  | threadExit (p : ThreadId)
  | go (p : ThreadId)

/-- Run `f` when `p` is at the point `pt`. -/
def at_ (s : Sys) (p : ThreadId) (pt : Point) (f : Sys → Sys) : Option Sys :=
  if (s.proc p).point = pt then some (f s) else none

/-- The transition function of the process system. -/
def step (a : Act) (s : Sys) : Option Sys :=
  match a with
  | .exec p => s.at_ p .running fun s =>
    s.mod p fun x => { x with point := .creating, callingExec := true }
  | .create p => s.at_ p .running (·.goto p .creating)
  | .alloc p ok => s.at_ p .creating (·.alloc p ok)
  | .load c ok => s.at_ c .loading (·.load c ok)
  | .wait p pid => s.at_ p .running (·.processWait p pid)
  | .exit p status => s.at_ p .running (·.enterExit p status)
  | .kill p => s.at_ p .running (·.enterExit p (-1))
  | .threadExit p => s.at_ p .running fun s => s.enterExit p (s.proc p).exitStatus
  | .go p => s.go p

/-- After `thread_init`: the initial thread alone. -/
def boot : Sys where
  proc t :=
    { tid := if t = 0 then 1 else 0
      point := if t = 0 then .running else .unborn
      childList := [], callingExec := false, waitedOnce := false
      loadMutex := 0, waitMutex := 0, exitMutex := 0, exitStatus := 0
      creator := 0, byExec := false }
  count := 1
  log := []

def Booted (s : Sys) : Prop := s = boot

end Sys

end Process

end Pintos
