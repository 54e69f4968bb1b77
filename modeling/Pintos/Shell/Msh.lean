/-
The job table of the shell `msh`, over every order of forks, child events
and deliveries of SIGCHLD.

# The system

`eval` blocks SIGCHLD, forks, enters the child into the job table with
`addjob`, and unblocks SIGCHLD. `sigchld_handler` may run whenever SIGCHLD
is not blocked and some child has changed state: it takes one change after
the other from `waitpid` and looks the child up in the table. The main
program stands still while the handler runs; the children do not. A child
keeps the list of its changes that `waitpid` has not reported yet.

The main program is its place in `eval`, `do_bgfg` and `waitfg`. A lookup
that finds nothing makes the handler go through a null pointer, whatever
the status is: the shell has crashed.

# What goes wrong

The table has 16 slots. `addjob` says so when there is none left, and
`eval` does not listen: the child runs on, and its first change of state
crashes the shell (`seventeenth_job_crashes`). As long as every fork finds
a free slot, every change that `waitpid` reports is that of a job in the
table (`reaped_jobs_are_listed`).

`addjob` sets `nextjid` back to 1 after 16, whatever jobs are listed, and
may give a number twice (`jid_given_twice`); only `deletejob` looks for
the numbers in use (`jids_identify`).
-/
import Pintos.Lib.Transition
import Mathlib.Data.List.FinRange

namespace Pintos.Shell

open Transition List Option

-- ==== jobs.c

/-- `MAXJOBS`. -/
def maxJobs : Nat := 16

inductive JobState where
  | undef
  | fg
  | bg
  | st
  deriving DecidableEq, Repr

/-- `struct job_t`; a slot is free when its `pid` is 0. -/
structure Job where
  pid : Nat
  jid : Nat
  state : JobState
  cmdline : List Char
  deriving DecidableEq, Repr

/-- The array `jobs` and the counter `nextjid`. -/
structure Jobs where
  job : Fin maxJobs → Job
  nextjid : Nat

namespace Jobs

/-- `clearjob`. -/
def clearjob : Job := ⟨0, 0, .undef, []⟩

/-- `initjobs`, at the start of the program. -/
def initjobs : Jobs := ⟨fun _ => clearjob, 1⟩

/-- The first slot that a loop over the table stops at. -/
def findSlot (p : Job → Bool) (t : Jobs) : Option (Fin maxJobs) :=
  (List.finRange maxJobs).find? fun i => p (t.job i)

def setJob (i : Fin maxJobs) (j : Job) (t : Jobs) : Jobs :=
  { t with job := Function.update t.job i j }

def maxjid (t : Jobs) : Nat :=
  (List.finRange maxJobs).foldl (fun m i => if m < (t.job i).jid then (t.job i).jid else m) 0

def addjob (pid : Nat) (state : JobState) (cmdline : List Char) (t : Jobs) : Bool × Jobs :=
  if pid < 1 then (false, t)
  else
    match t.findSlot fun j => j.pid == 0 with
    | none => (false, t)
    | some i =>
      (true, { t.setJob i ⟨pid, t.nextjid, state, cmdline⟩ with
        nextjid := if maxJobs < t.nextjid + 1 then 1 else t.nextjid + 1 })

def deletejob (pid : Nat) (t : Jobs) : Bool × Jobs :=
  if pid < 1 then (false, t)
  else
    match t.findSlot fun j => j.pid == pid with
    | none => (false, t)
    | some i =>
      (true, { t.setJob i clearjob with
        nextjid := (t.setJob i clearjob).maxjid + 1 })

def fgpid (t : Jobs) : Nat :=
  match t.findSlot fun j => j.state == .fg with
  | none => 0
  | some i => (t.job i).pid

def getjobpid (pid : Nat) (t : Jobs) : Option (Fin maxJobs) :=
  if pid < 1 then none else t.findSlot fun j => j.pid == pid

def getjobjid (jid : Nat) (t : Jobs) : Option (Fin maxJobs) :=
  if jid < 1 then none else t.findSlot fun j => j.jid == jid

/-- What `bg` and `fg` are given: a process or a job number. -/
inductive JobId where
  | pid (pid : Nat)
  | jid (jid : Nat)
  deriving DecidableEq, Repr

/-- The lookup of `do_bgfg`. -/
def getjob (t : Jobs) : JobId → Option (Fin maxJobs)
  | .pid pid => t.getjobpid pid
  | .jid jid => t.getjobjid jid

/-- Process `pid` has a slot. -/
def Lists (t : Jobs) (pid : Nat) : Prop := ∃ i, (t.job i).pid = pid

instance (t : Jobs) (pid : Nat) : Decidable (t.Lists pid) := inferInstanceAs (Decidable (∃ _, _))

/-- There is a free slot. -/
def HasRoom (t : Jobs) : Prop := (t.findSlot fun j => j.pid == 0).isSome

instance (t : Jobs) : Decidable t.HasRoom := inferInstanceAs (Decidable (_ = true))

variable {t : Jobs} {pid q : Nat} {i : Fin maxJobs} {p : Job → Bool} {state : JobState}
  {cmdline : List Char}

theorem findSlot_spec (h : t.findSlot p = some i) : p (t.job i) = true := by
  have := find?_some h
  simpa using this

theorem findSlot_isSome (h : p (t.job i) = true) : (t.findSlot p).isSome := by
  unfold findSlot
  rw [find?_isSome]
  exact ⟨i, mem_finRange i, h⟩

/-- A lookup finds a listed process. -/
theorem getjobpid_isSome (hpid : 1 ≤ pid) (h : t.Lists pid) : (t.getjobpid pid).isSome := by
  obtain ⟨i, hi⟩ := h
  unfold getjobpid
  rw [if_neg (by omega)]
  apply findSlot_isSome (i := i)
  simpa using hi

theorem getjobpid_pid (h : t.getjobpid pid = some i) : (t.job i).pid = pid := by
  unfold getjobpid at h
  split at h
  case isTrue => cases h
  case isFalse => simpa using findSlot_spec h

/-- A slot that is overwritten had another process. -/
theorem lists_setJob {j : Job} (h : t.Lists q)
    (hi : (t.job i).pid ≠ q ∨ j.pid = q) : (t.setJob i j).Lists q := by
  obtain ⟨k, hk⟩ := h
  by_cases hki : k = i
  · subst hki
    refine ⟨k, ?_⟩
    simp only [setJob, Function.update_self]
    exact hi.resolve_left fun hne => hne hk
  · refine ⟨k, ?_⟩
    simp only [setJob, Function.update_of_ne hki]
    exact hk

theorem lists_addjob (h : t.Lists q) (hq : 1 ≤ q) : (t.addjob pid state cmdline).2.Lists q := by
  unfold addjob
  split
  case isTrue => exact h
  case isFalse =>
    split
    case h_1 => exact h
    case h_2 i hi =>
      have hfree : (t.job i).pid = 0 := by simpa using findSlot_spec hi
      have hset := lists_setJob (j := ⟨pid, t.nextjid, state, cmdline⟩) (i := i) h (.inl (by omega))
      exact hset

/-- With room the new process gets its slot. -/
theorem addjob_lists (hpid : 1 ≤ pid) (h : t.HasRoom) :
    (t.addjob pid state cmdline).2.Lists pid := by
  obtain ⟨i, hi⟩ := isSome_iff_exists.mp h
  unfold addjob
  rw [if_neg (by omega), hi]
  exact ⟨i, by simp [setJob]⟩

/-- Deleting one process leaves the others. -/
theorem lists_deletejob (h : t.Lists q) (hne : pid ≠ q) : (t.deletejob pid).2.Lists q := by
  unfold deletejob
  split
  case isTrue => exact h
  case isFalse =>
    split
    case h_1 => exact h
    case h_2 i hi =>
      have hp : (t.job i).pid = pid := by simpa using findSlot_spec hi
      have hset := lists_setJob (j := clearjob) (i := i) h (.inl (by omega))
      exact hset

-- ==== job numbers

/-- A call that enters or deletes a job. -/
inductive Call where
  | add (pid : Nat) (state : JobState) (cmdline : List Char)
  | delete (pid : Nat)

/-- The table after a call; the pid of a new job is that of no other. -/
def call : Call → Jobs → Option Jobs
  | .add pid state cmdline, t =>
    if 0 < pid ∧ ∀ i, (t.job i).pid ≠ pid then some (t.addjob pid state cmdline).2 else none
  | .delete pid, t => some (t.deletejob pid).2

/-- No job is entered after `nextjid` went back to 1, as long as jobs are
listed. -/
def unwrapped : Call → Jobs → Prop
  | .add .., t => t.HasRoom → t.nextjid = 1 → ∀ i, (t.job i).pid = 0
  | .delete _, _ => True

instance : ∀ (c : Call) (t : Jobs), Decidable (unwrapped c t)
  | .add .., _ => inferInstanceAs (Decidable (_ → _ → _))
  | .delete _, _ => .isTrue trivial

/-- A job's number is positive, that of no other job, and leads to it. -/
def Identified (t : Jobs) : Prop :=
  ∀ i, (t.job i).pid ≠ 0 → 0 < (t.job i).jid ∧ t.getjobjid (t.job i).jid = some i ∧
    ∀ j, (t.job j).pid ≠ 0 → (t.job j).jid = (t.job i).jid → j = i

structure Numbered (t : Jobs) : Prop where
  live : ∀ i, (t.job i).pid = 0 ↔ (t.job i).jid = 0
  distinct : ∀ i j, (t.job i).jid ≠ 0 → (t.job j).jid = (t.job i).jid → j = i
  next : t.nextjid = 1 ∨ ∀ i, (t.job i).jid < t.nextjid

/-- One slot gets a new number or none. -/
theorem Numbered.set (h : t.Numbered) {j : Job} {n : Nat} (hj : j.pid = 0 ↔ j.jid = 0)
    (hnew : j.jid ≠ 0 → ∀ a, (t.job a).jid ≠ j.jid)
    (hn : n = 1 ∨ ∀ a, ((t.setJob i j).job a).jid < n) :
    Numbered { t.setJob i j with nextjid := n } where
  live a := by
    have := h.live a
    simp only [setJob, Function.update_apply]
    split <;> assumption
  distinct a b ha hab := by
    have := h.distinct a b
    simp only [setJob, Function.update_apply] at ha hab
    grind
  next := hn

theorem Numbered.addjob (h : t.Numbered) (hg : t.HasRoom → t.nextjid = 1 → ∀ i, (t.job i).pid = 0) :
    (t.addjob pid state cmdline).2.Numbered := by
  unfold Jobs.addjob
  split
  case isTrue => exact h
  case isFalse hpid =>
    split
    case h_1 => exact h
    case h_2 i hi =>
      have hlt : ∀ a, (t.job a).jid < t.nextjid := by
        obtain h1 | hlt := h.next
        · intro a
          rw [(h.live a).mp (hg (isSome_of_eq_some hi) h1 a), h1]
          exact Nat.one_pos
        · exact hlt
      have hpos := hlt i
      refine h.set (iff_of_false ?_ ?_) (fun _ a => (hlt a).ne) ?_
      · show pid ≠ 0
        omega
      · show t.nextjid ≠ 0
        omega
      split
      · exact .inl rfl
      · refine .inr fun a => ?_
        have := hlt a
        simp only [setJob, Function.update_apply]
        split
        · exact Nat.lt_succ_self _
        · omega

theorem jid_le_maxjid (t : Jobs) (i : Fin maxJobs) : (t.job i).jid ≤ t.maxjid := by
  have hmax : ∀ (l : List (Fin maxJobs)) (m : Nat), m ≤ l.foldl
      (fun m i => if m < (t.job i).jid then (t.job i).jid else m) m ∧ ∀ i ∈ l, (t.job i).jid ≤
        l.foldl (fun m i => if m < (t.job i).jid then (t.job i).jid else m) m := by
    intro l
    induction l with
    | nil => simp
    | cons a l ih =>
      intro m
      obtain ⟨hm, hl⟩ := ih (if m < (t.job a).jid then (t.job a).jid else m)
      grind
  exact (hmax _ 0).2 i (mem_finRange i)

theorem Numbered.deletejob (h : t.Numbered) : (t.deletejob pid).2.Numbered := by
  unfold Jobs.deletejob
  split
  case isTrue => exact h
  case isFalse =>
    split
    case h_1 => exact h
    case h_2 i _ =>
      refine h.set (iff_of_true rfl rfl) (absurd rfl) (.inr fun a => ?_)
      exact Nat.lt_succ_of_le (jid_le_maxjid _ a)

theorem Numbered.identified (h : t.Numbered) : t.Identified := by
  intro i hi
  have hne : (t.job i).jid ≠ 0 := fun h0 => hi ((h.live i).mpr h0)
  refine ⟨Nat.pos_of_ne_zero hne, ?_, fun j _ => h.distinct i j hne⟩
  obtain ⟨j, hj⟩ := isSome_iff_exists.mp
    (findSlot_isSome (p := fun j => j.jid == (t.job i).jid) (beq_self_eq_true (t.job i).jid))
  have hji := h.distinct i j hne (by simpa using findSlot_spec hj)
  rw [getjobjid, if_neg (by omega), hj, hji]

/-- As long as no job is entered after a wrap, `getjobjid` finds the job
that a number was given to. -/
theorem jids_identify (h : Reach (· = initjobs) call unwrapped t) : t.Identified := by
  refine Numbered.identified (Reach.induct (P := Numbered) ?_ ?_ t h)
  · intro t ht
    rw [ht]
    exact ⟨fun _ => iff_of_true rfl rfl, fun _ _ hne => absurd rfl hne, .inl rfl⟩
  · intro c t t' _ ht hg hs
    cases c with
    | add pid state cmdline =>
      obtain ⟨-, ⟨⟩⟩ := ite_none_right_eq_some.mp hs
      exact ht.addjob hg
    | delete pid =>
      cases hs
      exact ht.deletejob

/-- The table is full, three jobs go, and two more come: they get the
numbers 16 and 17, and the thirteen others keep theirs. -/
theorem jids_identify_refilled :
    ∃ t : Jobs, t.Identified ∧ (∀ pid ∈ [1, 4, 15, 17, 18], t.Lists pid) ∧
    ∃ i j, (t.job i).pid = 17 ∧ (t.job i).jid = 16 ∧ (t.job j).pid = 18 ∧ (t.job j).jid = 17 := by
  have hinit : Reach (· = initjobs) call unwrapped initjobs := .init rfl
  obtain ⟨t, ht, hp⟩ := hinit.of_runAll ((List.range' 1 16).map (.add · .bg []) ++
    [.delete 2, .delete 16, .add 17 .bg [], .delete 3, .add 18 .bg []])
    (fun t => (∀ pid ∈ [1, 4, 15, 17, 18], t.Lists pid) ∧ ∃ i j, (t.job i).pid = 17 ∧
      (t.job i).jid = 16 ∧ (t.job j).pid = 18 ∧ (t.job j).jid = 17) (by decide +kernel)
  exact ⟨t, jids_identify ht, hp⟩

/-- The table is full with 1 to 16, and 2 and 3 go: the next job gets 17,
and the one after it 1 again. -/
theorem jid_given_twice : ∃ t, Reach (· = initjobs) call anyStep t ∧ ¬ t.Identified := by
  have hinit : Reach (· = initjobs) call anyStep initjobs := .init rfl
  obtain ⟨t, ht, i, j, hi, hj, hjid⟩ := hinit.of_runAll ((List.range' 1 16).map (.add · .bg []) ++
    [.delete 2, .delete 3, .add 17 .bg [], .add 18 .bg []])
    (fun t => ∃ i j, (t.job i).pid = 1 ∧ (t.job j).pid = 18 ∧ (t.job j).jid = (t.job i).jid)
    (by decide +kernel)
  refine ⟨t, ht, fun h => ?_⟩
  have := (h i (by omega)).2.2 j (by omega) hjid
  simp [this, hi] at hj

end Jobs

-- ==== msh.c

/-- The status that `waitpid` gives with a child. -/
inductive Change where
  | exited (code : Nat)
  | signaled (sig : Nat)
  | stopped (sig : Nat)
  deriving DecidableEq, Repr

/-- The child is gone. -/
def Change.final : Change → Bool
  | .exited _ | .signaled _ => true
  | .stopped _ => false

/-- A child, with the changes of its state still to be reported. -/
structure Child where
  pid : Nat
  changes : List Change
  deriving DecidableEq, Repr

/-- Where the main program is. -/
inductive Main where
  | prompt
  /-- `eval`, SIGCHLD blocked, before the `fork`. -/
  | forking (bg : Bool) (cmdline : List Char)
  /-- The parent, before its `addjob`. -/
  | forked (pid : Nat) (bg : Bool) (cmdline : List Char)
  /-- After it, before SIGCHLD is unblocked. -/
  | added (pid : Nat) (bg : Bool)
  /-- `do_bgfg` has seen that there is such a job, and looks for it again. -/
  | checked (id : Jobs.JobId) (fg : Bool)
  /-- `do_bgfg` is about to block all signals. SIGCHLD was not blocked
  during the lookups, so the second may have found nothing. -/
  | found (slot : Option (Fin maxJobs)) (fg : Bool)
  /-- The end of the shell, after `do_bgfg` went through a null pointer. -/
  | died
  /-- `do_bgfg` is about to call `waitfg`. -/
  | toFront (slot : Fin maxJobs)
  /-- `waitfg`, before it blocks SIGCHLD. -/
  | waitfg (pid : Nat)
  /-- At its test, SIGCHLD blocked. -/
  | testing (pid : Nat)
  /-- In `sigsuspend`. -/
  | suspended (pid : Nat)

/-- SIGCHLD is not blocked. -/
def Main.open : Main → Bool
  | .prompt | .checked _ _ | .found _ _ | .toFront _ | .waitfg _ | .suspended _ => true
  | .forking _ _ | .forked _ _ _ | .added _ _ | .died | .testing _ => false

/-- The child that has been forked and not yet entered into the table. -/
def Main.entering : Main → Option Nat
  | .forked pid _ _ => some pid
  | _ => none

structure World where
  table : Jobs
  children : List Child
  main : Main
  /-- `sigchld_handler` is running. -/
  handling : Bool
  crashed : Bool

namespace World

def boot : World := ⟨Jobs.initjobs, [], .prompt, false, false⟩

def pids (w : World) : List Nat := w.children.map Child.pid

def child? (w : World) (pid : Nat) : Option Child := w.children.find? fun c => c.pid == pid

/-- Some change is still to be reported. -/
def pending (w : World) : Bool := w.children.any fun c => !c.changes.isEmpty

def modChild (w : World) (pid : Nat) (f : Child → Child) : World :=
  { w with children := w.children.map fun c => if c.pid = pid then f c else c }

/-- The status reported for `pid` has been dealt with. -/
def reported (w : World) (pid : Nat) (change : Change) : World :=
  if change.final then
    { w with children := w.children.filter fun c => c.pid ≠ pid }
  else w.modChild pid fun c => { c with changes := c.changes.tail }

/-- One round of the loop of `sigchld_handler`; every branch goes through
the pointer to the job. -/
def reap (w : World) (pid : Nat) (change : Change) : World :=
  match w.table.getjobpid pid with
  | none => { w with crashed := true }
  | some i =>
    if change.final then
      { w.reported pid change with
        table := (w.table.deletejob (w.table.job i).pid).2 }
    else
      { w.reported pid change with
        table := w.table.setJob i { w.table.job i with state := .st } }

end World

inductive Action
  /-- `eval` of a command that is not built in. -/
  | command (bg : Bool) (cmdline : List Char)
  | fork (pid : Nat)
  | addjob
  | unblock
  /-- `do_bgfg` looks whether there is such a job, and looks for it again. -/
  | lookup (id : Jobs.JobId) (fg : Bool)
  | lookupAgain
  | resumeJob
  | enterWait
  | block
  | test
  /-- A child stops or terminates. -/
  | change (pid : Nat) (change : Change)
  | deliver
  | waitpid (pid : Nat)
  /-- `waitpid` has nothing left to report. -/
  | handled

/-- The main program, when neither the handler runs nor the shell has
crashed. -/
def mainStep (w : World) : Action → Option World
  | .command bg cmdline =>
    match w.main with
    | .prompt => some { w with main := .forking bg cmdline }
    | _ => none
  | .fork pid =>
    match w.main with
    | .forking bg cmdline =>
      if 1 ≤ pid ∧ pid ∉ w.pids then
        some { w with
          main := .forked pid bg cmdline
          children := w.children ++ [⟨pid, []⟩] }
      else none
    | _ => none
  | .addjob =>
    match w.main with
    | .forked pid bg cmdline =>
      some { w with
        main := .added pid bg
        table := (w.table.addjob pid (if bg then .bg else .fg) cmdline).2 }
    | _ => none
  | .unblock =>
    match w.main with
    | .added pid bg => some { w with main := if bg then .prompt else .waitfg pid }
    | _ => none
  | .lookup id fg =>
    match w.main, w.table.getjob id with
    | .prompt, some _ => some { w with main := .checked id fg }
    | _, _ => none
  | .lookupAgain =>
    match w.main with
    | .checked id fg => some { w with main := .found (w.table.getjob id) fg }
    | _ => none
  | .resumeJob =>
    match w.main with
    | .found (some i) fg =>
      some { w with
        main := if fg then .toFront i else .prompt
        table := w.table.setJob i { w.table.job i with state := if fg then .fg else .bg } }
    | .found none _ => some { w with main := .died }
    | _ => none
  | .enterWait =>
    match w.main with
    | .toFront i => some { w with main := .waitfg (w.table.job i).pid }
    | _ => none
  | .block =>
    match w.main with
    | .waitfg pid => some { w with main := .testing pid }
    | _ => none
  | .test =>
    match w.main with
    | .testing pid =>
      some { w with main :=
        if w.table.fgpid = pid then .suspended pid else .prompt }
    | _ => none
  | .deliver =>
    if w.main.open ∧ w.pending then some { w with handling := true }
    else none
  | .change _ _ | .waitpid _ | .handled => none

/-- The handler. -/
def handlerStep (w : World) : Action → Option World
  | .waitpid pid =>
    match w.child? pid with
    | some ⟨_, change :: _⟩ => some (w.reap pid change)
    | _ => none
  | .handled =>
    if w.pending then none
    else some { w with
      handling := false
      main := match w.main with
        | .suspended pid => .testing pid
        | m => m }
  | _ => none

def step (a : Action) (w : World) : Option World :=
  if w.crashed then none
  else
    match a with
    | .change pid change =>
      match w.child? pid with
      | none => none
      | some c =>
        if c.changes.any Change.final then none
        else some (w.modChild pid fun c => { c with changes := c.changes ++ [change] })
    | a => if w.handling then handlerStep w a else mainStep w a

def Start (w : World) : Prop := w = .boot

def Action.isFork : Action → Bool
  | .fork _ => true
  | _ => false

/-- Every fork finds a free slot in the table. -/
def roomy (a : Action) (w : World) : Prop := a.isFork = true → w.table.HasRoom

instance (a : Action) (w : World) : Decidable (roomy a w) := inferInstanceAs (Decidable (_ → _))

/-- The shell has not crashed, and it will not at the next report: the
children that `waitpid` can report are in the table. -/
def Bookkept (w : World) : Prop :=
  w.crashed = false ∧ (w.handling = true →
    ∀ c ∈ w.children, c.changes ≠ [] → (w.table.getjobpid c.pid).isSome)

-- ==== the invariant

/-- Every child is in the table, but for the one that `eval` is about to
enter, for which there is room. -/
structure Inv (w : World) : Prop where
  alive : w.crashed = false
  quiet : w.handling = true → w.main.open = true
  positive : ∀ c ∈ w.children, 1 ≤ c.pid
  listed : ∀ c ∈ w.children, w.table.Lists c.pid ∨ w.main.entering = some c.pid
  room : w.main.entering ≠ none → w.table.HasRoom

section Steps

variable {w w' : World} {pid : Nat} {change : Change}

variable {m : Main} {a : Action}

/-- The handler does not run between `fork` and `addjob`. -/
theorem Main.entering_of_open (h : m.open = true) : m.entering = none := by
  cases m <;> first | rfl | cases h

/-- Outside this window all children are listed. -/
theorem Inv.lists (h : Inv w) (hm : w.main.entering = none) :
    ∀ c ∈ w.children, w.table.Lists c.pid := by
  intro c hc
  apply (h.listed c hc).resolve_right
  rw [hm]
  simp

theorem Inv.bookkept (h : Inv w) : Bookkept w := by
  refine ⟨h.alive, fun hw c hc _ => ?_⟩
  have hm := Main.entering_of_open (h.quiet hw)
  exact Jobs.getjobpid_isSome (h.positive c hc) (h.lists hm c hc)

theorem inv_boot : Inv .boot where
  alive := rfl
  quiet := nofun
  positive := nofun
  listed := nofun
  room := fun h => absurd rfl h

variable (h : Inv w)

include h

/-- The main program goes on, outside the window. -/
theorem Inv.goto (hm : w.main.entering = none) (hidle : w.handling = false)
    (hm' : m.entering = none) : Inv { w with main := m } where
  alive := h.alive
  quiet := fun hw => by rw [hidle] at hw; cases hw
  positive := h.positive
  listed := fun c hc => .inl (h.lists hm c hc)
  room := fun hne => absurd hm' hne

/-- The table is written, and no child loses its slot. -/
theorem Inv.setTable (hm : w.main.entering = none) {t : Jobs}
    (ht : ∀ c ∈ w.children, w.table.Lists c.pid → t.Lists c.pid) : Inv { w with table := t } where
  alive := h.alive
  quiet := h.quiet
  positive := h.positive
  listed := fun c hc => .inl (ht c hc (h.lists hm c hc))
  room := fun hne => absurd hm hne

theorem Inv.setState (hm : w.main.entering = none) (i : Fin maxJobs) (state : JobState) :
    Inv { w with table := w.table.setJob i { w.table.job i with state := state } } := by
  refine h.setTable hm fun c _ hl => Jobs.lists_setJob hl ?_
  by_cases hi : (w.table.job i).pid = c.pid
  · exact .inr hi
  · exact .inl hi

/-- The children are some of those there were. -/
theorem Inv.setChildren {cs : List Child} (hcs : ∀ c ∈ cs, ∃ d ∈ w.children, c.pid = d.pid) :
    Inv { w with children := cs } where
  alive := h.alive
  quiet := h.quiet
  positive := by
    intro c hc
    obtain ⟨d, hd, hpid⟩ := hcs c hc
    rw [hpid]
    exact h.positive d hd
  listed := by
    intro c hc
    obtain ⟨d, hd, hpid⟩ := hcs c hc
    rw [hpid]
    exact h.listed d hd
  room := h.room

theorem Inv.modChild {f : Child → Child}
    (hf : ∀ c, (f c).pid = c.pid) : Inv (w.modChild pid f) := by
  refine h.setChildren fun c hc => ?_
  obtain ⟨d, hd, rfl⟩ := mem_map.mp hc
  refine ⟨d, hd, ?_⟩
  split
  · exact hf d
  · rfl

/-- A round of the handler. -/
theorem Inv.reap (hm : w.main.entering = none) (hpid : pid ∈ w.pids) : Inv (w.reap pid change) := by
  obtain ⟨c, hc, rfl⟩ := mem_map.mp hpid
  obtain ⟨i, hi⟩ := isSome_iff_exists.mp (Jobs.getjobpid_isSome (h.positive c hc) (h.lists hm c hc))
  unfold World.reap World.reported
  rw [hi]
  dsimp only
  by_cases hfinal : change.final = true
  · -- the child is gone: its slot is cleared, and the others stay
    rw [if_pos hfinal, if_pos hfinal, Jobs.getjobpid_pid hi]
    have hgone : Inv { w with
        children := w.children.filter fun d => d.pid ≠ c.pid } := by
      apply h.setChildren
      intro d hd
      exact ⟨d, (mem_filter.mp hd).1, rfl⟩
    apply hgone.setTable hm
    intro d hd hl
    have hne : d.pid ≠ c.pid := by simpa using (mem_filter.mp hd).2
    exact Jobs.lists_deletejob hl (Ne.symm hne)
  · rw [if_neg hfinal, if_neg hfinal]
    have hmod : Inv (w.modChild c.pid fun d =>
        { d with changes := d.changes.tail }) := h.modChild fun _ => rfl
    exact hmod.setState hm i .st

/-- `fork`, with room for the child. -/
theorem Inv.fork (hm : w.main.entering = none) (hidle : w.handling = false) (hpid : 1 ≤ pid)
    (hroom : w.table.HasRoom) (bg : Bool) (cmdline : List Char) :
    Inv { w with
      main := .forked pid bg cmdline
      children := w.children ++ [⟨pid, []⟩] } where
  alive := h.alive
  quiet := fun hw => by rw [hidle] at hw; cases hw
  positive := by
    intro c hc
    rcases mem_append.mp hc with hc | hc
    · exact h.positive c hc
    · rw [mem_singleton.mp hc]
      exact hpid
  listed := by
    intro c hc
    rcases mem_append.mp hc with hc | hc
    · exact .inl (h.lists hm c hc)
    · rw [mem_singleton.mp hc]
      exact .inr rfl
  room := fun _ => hroom

/-- `addjob`, of the child just forked. -/
theorem Inv.addjob (hidle : w.handling = false) {bg : Bool} {cmdline : List Char}
    (hmain : w.main = .forked pid bg cmdline) (state : JobState) :
    Inv { w with
      main := .added pid bg
      table := (w.table.addjob pid state cmdline).2 } where
  alive := h.alive
  quiet := fun hw => by rw [hidle] at hw; cases hw
  positive := h.positive
  listed := by
    intro c hc
    have hpos := h.positive c hc
    have hroom : w.table.HasRoom := h.room (by rw [hmain]; simp [Main.entering])
    rcases h.listed c hc with hl | hentering
    · exact .inl (Jobs.lists_addjob hl hpos)
    · rw [hmain] at hentering
      cases hentering
      exact .inl (Jobs.addjob_lists hpos hroom)
  room := fun hne => absurd rfl hne

theorem Inv.mainStep (hidle : w.handling = false)
    (hroom : roomy a w) (hs : mainStep w a = some w') : Inv w' := by
  cases a with
  | change _ _ | waitpid _ | handled => cases hs
  | command _ _ | lookup _ _ | lookupAgain | enterWait | block =>
    simp only [Shell.mainStep] at hs
    split at hs
    · cases hs
      exact h.goto (by simp [*, Main.entering]) hidle rfl
    · cases hs
  | unblock =>
    simp only [Shell.mainStep] at hs
    split at hs
    case h_1 pid bg hmain =>
      cases hs
      apply h.goto (hmain ▸ rfl) hidle
      cases bg <;> rfl
    case h_2 => cases hs
  | test =>
    simp only [Shell.mainStep] at hs
    split at hs
    case h_1 pid hmain =>
      cases hs
      apply h.goto (hmain ▸ rfl) hidle
      split <;> rfl
    case h_2 => cases hs
  | fork pid =>
    simp only [Shell.mainStep] at hs
    split at hs
    case h_1 bg cmdline hmain =>
      obtain ⟨hpid, ⟨⟩⟩ := ite_none_right_eq_some.mp hs
      exact h.fork (hmain ▸ rfl) hidle hpid.1 (hroom rfl) bg cmdline
    case h_2 => cases hs
  | addjob =>
    simp only [Shell.mainStep] at hs
    split at hs
    case h_1 pid bg cmdline hmain =>
      cases hs
      exact h.addjob hidle hmain _
    case h_2 => cases hs
  | resumeJob =>
    simp only [Shell.mainStep] at hs
    split at hs
    case h_1 i fg hmain =>
      cases hs
      have hm : w.main.entering = none := hmain ▸ rfl
      apply (h.setState hm i (if fg then .fg else .bg)).goto hm hidle
      cases fg <;> rfl
    case h_2 fg hmain =>
      cases hs
      exact h.goto (hmain ▸ rfl) hidle rfl
    case h_3 => cases hs
  | deliver =>
    obtain ⟨hcond, ⟨⟩⟩ := ite_none_right_eq_some.mp hs
    exact ⟨h.alive, fun _ => hcond.1, h.positive, h.listed, h.room⟩

theorem Inv.handlerStep (hbusy : w.handling = true) (hs : handlerStep w a = some w') : Inv w' := by
  have hm := Main.entering_of_open (h.quiet hbusy)
  unfold Shell.handlerStep at hs
  split at hs
  case h_3 => cases hs
  case h_1 pid =>
    split at hs
    case h_2 => cases hs
    case h_1 d change rest hc =>
      cases hs
      apply h.reap hm
      have hpid : d = pid := by simpa using find?_some hc
      subst hpid
      exact mem_map.mpr ⟨_, mem_of_find?_eq_some hc, rfl⟩
  case h_2 =>
    obtain ⟨-, ⟨⟩⟩ := ite_none_left_eq_some.mp hs
    have hidle : Inv { w with handling := false } :=
      ⟨h.alive, fun hw => (by cases hw), h.positive, h.listed, h.room⟩
    apply hidle.goto hm rfl
    split
    · rfl
    · exact hm

theorem Inv.step (hroom : roomy a w) (hs : step a w = some w') : Inv w' := by
  unfold Shell.step at hs
  rw [if_neg (by rw [h.alive]; exact Bool.false_ne_true)] at hs
  split at hs
  case h_1 pid change =>
    split at hs
    case h_1 => cases hs
    case h_2 c hc =>
      obtain ⟨-, ⟨⟩⟩ := ite_none_left_eq_some.mp hs
      exact h.modChild fun _ => rfl
  case h_2 =>
    split at hs
    case isTrue hbusy => exact h.handlerStep hbusy hs
    case isFalse hidle => exact h.mainStep (Bool.eq_false_iff.mpr hidle) hroom hs

end Steps

/-- While every fork finds a free slot, whatever `waitpid` reports to the
handler is a job of the table. -/
theorem reaped_jobs_are_listed {w : World} (h : Reach Start step roomy w) : Bookkept w := by
  have hinv : Inv w := by
    refine Reach.induct (P := Inv) ?_ ?_ w h
    · intro w hw
      rw [hw]
      exact inv_boot
    · intro a w w' _ hw hroom hs
      exact hw.step hroom hs
  exact hinv.bookkept

-- ==== two runs

/-- `eval` of a background job, up to the next prompt. -/
def background (pid : Nat) : List Action := [.command true [], .fork pid, .addjob, .unblock]

/-- Child `pid` exits and is reaped. -/
def exits (pid : Nat) : List Action := [.change pid (.exited 0), .deliver, .waitpid pid]

theorem reach_of_boot (ok : Action → World → Prop) [∀ a w, Decidable (ok a w)] (acts : List Action)
    (P : World → Prop) (hrun : ∃ w ∈ runAll (guarded step ok) acts .boot, P w) :
    ∃ w, Reach Start step ok w ∧ P w := by
  have hboot : Reach Start step ok .boot := .init rfl
  exact hboot.of_runAll acts P hrun

/-- Sixteen jobs run, one exits, a seventeenth comes, and all is well. -/
theorem sixteen_jobs_at_a_time : ∃ w, Reach Start step roomy w ∧
    w.children.length = 16 ∧ Bookkept w := by
  obtain ⟨w, hw, hp⟩ := reach_of_boot roomy
    ((List.range' 1 16).flatMap background ++ exits 3 ++ [.handled] ++ background 17)
    (fun w => w.children.length = 16) (by decide +kernel)
  exact ⟨w, hw, hp, reaped_jobs_are_listed hw⟩

/-- A seventeenth job at a time is not in the table; the shell crashes
when it exits. -/
theorem seventeenth_job_crashes : ∃ w, Reach Start step anyStep w ∧ ¬ Bookkept w := by
  obtain ⟨w, hw, hp⟩ := reach_of_boot anyStep ((List.range' 1 17).flatMap background ++ exits 17)
    (fun w => w.crashed = true) (by decide +kernel)
  refine ⟨w, hw, fun h => ?_⟩
  simp [h.1] at hp

end Pintos.Shell
