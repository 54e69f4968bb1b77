/-
`process_execute` and `start_process` with the page that carries the
command line.

# The system

`State` adds to the process system what the two functions hold: each
thread's `Frame`, the pages handed out and given back, and the argument a
new thread is started with. A page is named by the `palloc_get_page` call
that returned it, so that a page given back twice, or read after it was
given back, shows even when the allocator has handed it out again; either
sets `fault`.

Every step moves the process system by one step or not at all
(`step_sys`), so its invariant holds here too. The two calls of
`palloc_get_page`, the return of `thread_create` and the calls of
`palloc_free_page` are steps of their own. While a thread is in one of
the two functions it takes no other step.

# Left out

The bytes of the command line, and the thread's name with the assertion
on it in `init_thread`.

# Ghosts

`outcome` is what `load` returned in a thread, `returned` lists the
returns of `process_execute` with the child, if there was one. No step
reads them.
-/
import Pintos.Userprog.WaitExit

namespace Pintos.Process

open Option

namespace Exec

open Transition

/-- A page, by the call of `palloc_get_page` that returned it. -/
abbrev Page := Nat

/-- What a thread holds of `process_execute` or `start_process`. -/
inductive Frame where
  | outside
  /-- `process_execute`, before its second `palloc_get_page`. -/
  | copied (fnCopy : Page)
  /-- `process_execute`, in `thread_create`. -/
  | creating (fnCopy s : Page)
  /-- `process_execute`, `thread_create` returned `tid`. -/
  | created (fnCopy s : Page) (tid : Int)
  /-- `process_execute`, at `palloc_free_page (s)`. -/
  | freeing (s : Page) (tid : Int)
  /-- `process_execute`, about to return. -/
  | leaving (tid : Int)
  /-- `start_process`, in `load`. -/
  | loading (fileName : Page)
  /-- `start_process`, at `palloc_free_page (file_name)`. -/
  | loaded (fileName : Page)
  deriving DecidableEq, Repr

/-- A return of `process_execute`. -/
structure Return where
  caller : ThreadId
  child : Option ThreadId
  tid : Int
  deriving DecidableEq, Repr

structure State where
  sys : Sys
  frame : ThreadId → Frame
  /-- `kf->aux`. -/
  aux : ThreadId → Option Page
  pages : Nat
  frees : Page → Nat
  fault : Bool
  outcome : ThreadId → Option Bool
  returned : List Return

namespace State

def point (s : State) (t : ThreadId) : Point := (s.sys.proc t).point

def goto (t : ThreadId) (f : Frame) (s : State) : State :=
  { s with frame := Function.update s.frame t f }

/-- A read of the page. -/
def touch (pg : Page) (s : State) : State :=
  { s with fault := s.fault || s.frees pg != 0 }

/-- `palloc_free_page`. -/
def pallocFreePage (pg : Page) (s : State) : State :=
  { s.touch pg with frees := Function.update s.frees pg (s.frees pg + 1) }

/-- `process_execute` returns. -/
def ret (p : ThreadId) (child : Option ThreadId) (tid : Int) (s : State) : State :=
  { s.goto p .outside with returned := ⟨p, child, tid⟩ :: s.returned }

/-- `process_execute` up to its second `palloc_get_page`; `got` is
whether the first one found a page. -/
def processExecute (p : ThreadId) (got : Bool) (s : State) : State :=
  if got then { s.goto p (.copied s.pages) with pages := s.pages + 1 }
  else s.ret p none tidError

/-- `process_execute` from there to its call of `thread_create`. -/
def callCreate (p : ThreadId) (fnCopy : Page) (got : Bool) (s : State) : Option State :=
  if got then
    (s.sys.step (.exec p)).map fun y =>
      { s.goto p (.creating fnCopy s.pages) with
        sys := y, pages := s.pages + 1 }
  else some (s.ret p none tidError)

/-- `thread_create` through its `thread_unblock`. -/
def alloc (p : ThreadId) (ok : Bool) (s : State) : Option State :=
  (s.sys.step (.alloc p ok)).bind fun y =>
    match s.frame p with
    | .outside => some { s with sys := y }
    | .creating fnCopy sc =>
      if ok then
        some { s.goto s.sys.count (.loading fnCopy) with
          sys := y
          aux := Function.update s.aux s.sys.count (some fnCopy) }
      else some { s.goto p (.created fnCopy sc tidError) with sys := y }
    | _ => none

/-- `load` returns. -/
def load (c : ThreadId) (ok : Bool) (s : State) : Option State :=
  match s.frame c with
  | .loading fileName =>
    (s.sys.step (.load c ok)).map fun y =>
      { s.goto c (if ok then .loaded fileName else .outside) with
        sys := y
        outcome := Function.update s.outcome c (some ok) }
  | _ => none

/-- `load` reads the command line. -/
def use (c : ThreadId) (s : State) : Option State :=
  match s.frame c with
  | .loading fileName => some (s.touch fileName)
  | _ => none

def sysGo (p : ThreadId) (s : State) : Option State := (s.sys.go p).map fun y => { s with sys := y }

/-- The next step of the code that `p` is in. -/
def go (p : ThreadId) (s : State) : Option State :=
  match s.frame p with
  | .outside => s.sysGo p
  | .copied _ => none
  | .creating fnCopy sc =>
    match s.point p with
    | .onChild c .createReturn => some (s.goto p (.created fnCopy sc (s.sys.proc c).tid))
    | _ => s.sysGo p
  | .created fnCopy sc tid =>
    some ((if tid = tidError then s.pallocFreePage fnCopy else s).goto p (.freeing sc tid))
  | .freeing sc tid => some ((s.pallocFreePage sc).goto p (.leaving tid))
  | .leaving tid =>
    match s.point p with
    | .onChild c .createReturn => (s.sysGo p).map (·.ret p (some c) tid)
    | _ => some (s.ret p none tid)
  | .loading _ => none
  | .loaded fileName => some ((s.pallocFreePage fileName).goto p .outside)

/-- What a thread outside the two functions may begin. -/
inductive Call where
  | create
  | wait (pid : Int)
  | exit (status : Int)
  | kill
  | threadExit

def Call.act (p : ThreadId) : Call → Process.Sys.Act
  | .create => .create p
  | .wait pid => .wait p pid
  | .exit status => .exit p status
  | .kill => .kill p
  | .threadExit => .threadExit p

inductive Act where
  | exec (p : ThreadId) (got : Bool)
  | second (p : ThreadId) (got : Bool)
  | alloc (p : ThreadId) (ok : Bool)
  | load (c : ThreadId) (ok : Bool)
  | use (c : ThreadId)
  | call (p : ThreadId) (k : Call)
  | go (p : ThreadId)

/-- The thread that takes the step. -/
def Act.actor : Act → ThreadId
  | .exec p _ | .second p _ | .alloc p _ | .load p _ | .use p | .call p _
  | .go p => p

def step (a : Act) (s : State) : Option State :=
  match a with
  | .exec p got =>
    if s.frame p = .outside ∧ s.point p = .running then
      some (s.processExecute p got)
    else none
  | .second p got =>
    match s.frame p with
    | .copied fnCopy => s.callCreate p fnCopy got
    | _ => none
  | .alloc p ok => s.alloc p ok
  | .load c ok => s.load c ok
  | .use c => s.use c
  | .call p k =>
    if s.frame p = .outside then
      (s.sys.step (k.act p)).map fun y => { s with sys := y }
    else none
  | .go p => s.go p

def boot : State where
  sys := Sys.boot
  frame _ := .outside
  aux _ := none
  pages := 0
  frees _ := 0
  fault := false
  outcome _ := none
  returned := []

def Booted (s : State) : Prop := s = boot

-- ==== the steps

/-- What a step does, branch by branch. -/
inductive Turn (s : State) : Act → State → Prop where
  | exec {p got} : s.frame p = .outside → s.point p = .running →
    Turn s (.exec p got) (s.processExecute p got)
  | noScratch {p fn} : s.frame p = .copied fn → Turn s (.second p false) (s.ret p none tidError)
  | create {p fn y} : s.frame p = .copied fn → s.sys.step (.exec p) = some y →
    Turn s (.second p true)
      { s.goto p (.creating fn s.pages) with sys := y, pages := s.pages + 1 }
  | alloc {p ok y} : s.frame p = .outside → s.sys.step (.alloc p ok) = some y →
    Turn s (.alloc p ok) { s with sys := y }
  | allocChild {p fn sc y} : s.frame p = .creating fn sc → s.sys.step (.alloc p true) = some y →
    Turn s (.alloc p true) { s.goto s.sys.count (.loading fn) with
      sys := y, aux := Function.update s.aux s.sys.count (some fn) }
  | allocFail {p fn sc y} : s.frame p = .creating fn sc → s.sys.step (.alloc p false) = some y →
    Turn s (.alloc p false) { s.goto p (.created fn sc tidError) with sys := y }
  | load {c ok fn y} : s.frame c = .loading fn → s.sys.step (.load c ok) = some y →
    Turn s (.load c ok) { s.goto c (if ok then .loaded fn else .outside) with
      sys := y, outcome := Function.update s.outcome c (some ok) }
  | use {c fn} : s.frame c = .loading fn → Turn s (.use c) (s.touch fn)
  | call {p k y} : s.frame p = .outside → s.sys.step (k.act p) = some y →
    Turn s (.call p k) { s with sys := y }
  | go {p y} : s.frame p = .outside → s.sys.step (.go p) = some y →
    Turn s (.go p) { s with sys := y }
  | creating {p fn sc y} : s.frame p = .creating fn sc →
    (∀ c, s.point p ≠ .onChild c .createReturn) → s.sys.step (.go p) = some y →
    Turn s (.go p) { s with sys := y }
  | readTid {p fn sc c} : s.frame p = .creating fn sc → s.point p = .onChild c .createReturn →
    Turn s (.go p) (s.goto p (.created fn sc (s.sys.proc c).tid))
  | created {p fn sc tid} : s.frame p = .created fn sc tid →
    Turn s (.go p) ((if tid = tidError then s.pallocFreePage fn else s).goto p (.freeing sc tid))
  | freeing {p sc tid} : s.frame p = .freeing sc tid →
    Turn s (.go p) ((s.pallocFreePage sc).goto p (.leaving tid))
  | leave {p tid c y} : s.frame p = .leaving tid → s.point p = .onChild c .createReturn →
    s.sys.step (.go p) = some y → Turn s (.go p) (ret p (some c) tid { s with sys := y })
  | leaveMissed {p tid} : s.frame p = .leaving tid → (∀ c, s.point p ≠ .onChild c .createReturn) →
    Turn s (.go p) (s.ret p none tid)
  | loaded {p fn} : s.frame p = .loaded fn → Turn s (.go p) ((s.pallocFreePage fn).goto p .outside)

variable {s s' : State} {a : Act}

theorem go_turn {p : ThreadId} (h : s.go p = some s') : Turn s (.go p) s' := by
  unfold go at h
  split at h
  case h_1 hf =>
    obtain ⟨y, hy, rfl⟩ := map_eq_some_iff.mp h
    exact .go hf hy
  case h_2 => cases h
  case h_3 hf =>
    split at h
    case h_1 hpt => exact some.inj h ▸ .readTid hf hpt
    case h_2 hpt =>
      obtain ⟨y, hy, rfl⟩ := map_eq_some_iff.mp h
      exact .creating hf hpt hy
  case h_4 hf => exact some.inj h ▸ .created hf
  case h_5 hf => exact some.inj h ▸ .freeing hf
  case h_6 hf =>
    split at h
    case h_1 hpt =>
      obtain ⟨_, h1, rfl⟩ := map_eq_some_iff.mp h
      obtain ⟨y, hy, rfl⟩ := map_eq_some_iff.mp h1
      exact .leave hf hpt hy
    case h_2 hpt => exact some.inj h ▸ .leaveMissed hf hpt
  case h_7 => cases h
  case h_8 hf => exact some.inj h ▸ .loaded hf

theorem step_turn (h : s.step a = some s') : Turn s a s' := by
  cases a with
  | exec p got =>
    obtain ⟨⟨hf, hpt⟩, ⟨⟩⟩ := ite_none_right_eq_some.mp h
    exact .exec hf hpt
  | second p got =>
    unfold step at h
    dsimp only at h
    split at h
    case h_2 => cases h
    case h_1 fn hf =>
      cases got with
      | false => exact some.inj h ▸ .noScratch hf
      | true =>
        obtain ⟨y, hy, rfl⟩ := map_eq_some_iff.mp h
        exact .create hf hy
  | alloc p ok =>
    obtain ⟨y, hy, h⟩ := bind_eq_some_iff.mp h
    split at h
    case h_1 hf => exact some.inj h ▸ .alloc hf hy
    case h_2 hf =>
      cases ok with
      | true => exact some.inj h ▸ .allocChild hf hy
      | false => exact some.inj h ▸ .allocFail hf hy
    case h_3 => cases h
  | load c ok =>
    unfold step load at h
    dsimp only at h
    split at h
    case h_2 => cases h
    case h_1 hf =>
      obtain ⟨y, hy, rfl⟩ := map_eq_some_iff.mp h
      exact .load hf hy
  | use c =>
    unfold step use at h
    dsimp only at h
    split at h
    case h_2 => cases h
    case h_1 hf => exact some.inj h ▸ .use hf
  | call p k =>
    obtain ⟨hf, h⟩ := ite_none_right_eq_some.mp h
    obtain ⟨y, hy, rfl⟩ := map_eq_some_iff.mp h
    exact .call hf hy
  | go p => exact go_turn h

/-- A step here is a step of the process system, or none. -/
theorem step_sys (h : s.step a = some s') : s'.sys = s.sys ∨ ∃ b, s.sys.step b = some s'.sys := by
  cases step_turn h with
  | exec =>
    unfold processExecute
    split <;> exact .inl rfl
  | created => split <;> exact .inl rfl
  | noScratch | use | readTid | freeing | leaveMissed | loaded => exact .inl rfl
  | create _ hy | alloc _ hy | allocChild _ hy | allocFail _ hy | load _ hy | call _ hy | go _ hy
  | creating _ _ hy | leave _ _ hy => exact .inr ⟨_, hy⟩

theorem step_sysInv (hy : s.sys.Inv) (h : s.step a = some s') : s'.sys.Inv := by
  rcases step_sys h with e | ⟨b, hb⟩
  · rw [e]
    exact hy
  · exact hy.move (Sys.step_move hb)

theorem reach_sys {ok : Act → State → Prop} (hr : Reach Booted step ok s) :
    Reach Sys.Booted Sys.step anyStep s.sys := by
  refine .induct (P := fun s => Reach Sys.Booted Sys.step anyStep s.sys) ?_ ?_ s hr
  · intro s hs
    subst hs
    exact .init rfl
  · intro a s s' _ ih _ hs
    rcases step_sys hs with h | ⟨b, hb⟩
    · rw [h]
      exact ih
    · exact .step b ih trivial hb

end State

end Exec

end Pintos.Process
