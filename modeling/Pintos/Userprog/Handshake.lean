/-
The handshake of `process_execute` with the thread it creates.

`Handshake` collects what the two sides can rely on: what
`process_execute` returns and what it leaves in `child_list`, that the
page of the command line is given back once and not before its last use,
and that `process_execute` returns if its own thread and the new one are
let run. Each clause is read off the invariant in one state.
-/
import Pintos.Userprog.ExecInv

namespace Pintos.Process

open List Option

namespace Exec

open Transition

/-- The frames of `process_execute` from its call of `thread_create`. -/
def Frame.executes : Frame → Bool
  | .creating _ _ | .created _ _ _ | .freeing _ _ | .leaving _ => true
  | _ => false

namespace State

/-- In `process_execute`, with `calling_exec` set. -/
def Executing (s : State) (p : ThreadId) : Prop := (s.frame p).executes = true

/-- The steps of `p` and of the child it is working on. -/
def mine (p : ThreadId) (a : Act) (s : State) : Prop :=
  a.actor = p ∨ ∃ c st, s.point p = .onChild c st ∧ a.actor = c

/-- `process_execute` of `p` returned `tid` after it had created `c`. -/
def Agreed (s : State) (p c : ThreadId) (tid : Int) : Prop :=
  s.outcome c = some true ∧ tid = (s.sys.proc c).tid ∧ tid ≠ tidError ∧
      c ∈ (s.sys.proc p).childList ∧ s.sys.findChild p tid = some c ∨
    s.outcome c = some false ∧ tid = tidError ∧ c ∉ (s.sys.proc p).childList

/-- The handshake in one state. -/
structure Handshake (s : State) : Prop where
  /-- No page was given back twice, none was read after it was. -/
  sound : s.fault = false
  once : ∀ c fn, s.aux c = some fn → s.frees fn ≤ 1
  /-- A command line is there as long as its thread is in `load`. -/
  inUse : ∀ c fn, s.aux c = some fn → s.frame c = .loading fn → s.frees fn = 0
  /-- Once the thread has left `start_process` and its creator is past
  its own `palloc_free_page`, the command line has been given back. -/
  settled : ∀ c fn, s.aux c = some fn → s.frame c ≠ .loading fn →
    s.frame c ≠ .loaded fn →
    (s.frame (s.sys.proc c).creator).keeps fn = false → s.frees fn = 1
  returns : ∀ a s' p c tid, s.step a = some s' →
    s'.returned = ⟨p, some c, tid⟩ :: s.returned → s'.Agreed p c tid
  childless : ∀ a s' p tid, s.step a = some s' →
    s'.returned = ⟨p, none, tid⟩ :: s.returned → tid = tidError
  /-- `process_execute` can always be brought to return, by steps of its
  own thread and of the new one. -/
  completes : ∀ p, s.Executing p → ∃ s' r, Reach (· = s) step (mine p) s' ∧
    s'.returned = r :: s.returned ∧ r.caller = p
  /-- A loaded child gives its command line back in its next step. -/
  frees : ∀ c fn, s.frame c = .loaded fn → ∃ s', s.step (.go c) = some s' ∧ s'.frees fn = 1

end State

open State

variable {own : Page → Role} {s s' : State} {p : ThreadId}
variable {c : ThreadId} {fn sc : Page} {y : Sys} {tid : Int}

-- ==== pages

variable {f : Frame} {a : Act}

/-- Where a thread with a frame can be. -/
theorem Fits.point_cases (h : Fits own s p f) :
    f = .outside ∧ s.point p ≠ .loading ∨
    (∃ fn, f = .loading fn ∧ s.point p = .loading) ∨
    s.point p = .running ∨ s.point p = .creating ∨
    ∃ c st, s.point p = .onChild c st := by
  have hret {tid} (hr : s.Missed p tid ∨ (∃ c, s.Returns p c tid)) :
      s.point p = .running ∨ s.point p = .creating ∨ ∃ c st, s.point p = .onChild c st := by
    rcases hr with hm | ⟨c, hr⟩
    · exact .inl hm.1
    · exact .inr (.inr ⟨c, _, hr.1⟩)
  cases f with
  | outside => exact .inl ⟨rfl, h.2⟩
  | copied fn => exact .inr (.inr (.inl h.2.1))
  | creating fn sc =>
    rcases h.2.2 with ⟨hpt, -⟩ | ⟨c, st, hpt, -⟩
    · exact .inr (.inr (.inr (.inl hpt)))
    · exact .inr (.inr (.inr (.inr ⟨c, st, hpt⟩)))
  | created fn sc tid =>
    have hend : s.Missed p tid ∨ ∃ c, s.Returns p c tid := by
      rcases h.2 with ⟨hm, -⟩ | ⟨c, hr, -⟩
      · exact .inl hm
      · exact .inr ⟨c, hr⟩
    exact .inr (.inr (hret hend))
  | freeing sc tid => exact .inr (.inr (hret h.2))
  | leaving tid => exact .inr (.inr (hret h))
  | loading fn => exact .inr (.inl ⟨fn, rfl, h.2.1⟩)
  | loaded fn => exact .inr (.inr (.inl h.2.1))

/-- A thread in `load` has the frame of `start_process`. -/
theorem Inv.loading_frame (hi : Inv own s) (hp : p < s.sys.count)
    (hpt : s.point p = .loading) : ∃ fn, s.frame p = .loading fn := by
  rcases (hi.thread p hp).point_cases with
    ⟨-, h⟩ | ⟨fn, hf, -⟩ | h | h | ⟨c, st, h⟩
  · exact absurd hpt h
  · exact ⟨fn, hf⟩
  all_goals exact absurd (hpt.symm.trans h) (by simp)

/-- A thread whose load failed has none. -/
theorem Inv.failed_frame (hi : Inv own s) (hp : p < s.sys.count)
    (hpt : s.point p = .loadFailed) : s.frame p = .outside := by
  rcases (hi.thread p hp).point_cases with
    ⟨hf, -⟩ | ⟨fn, -, h⟩ | h | h | ⟨c, st, h⟩
  · exact hf
  all_goals exact absurd (hpt.symm.trans h) (by simp)

theorem due_le (s : State) (c : ThreadId) (fn : Page) : s.due c fn ≤ 1 := by
  unfold State.due
  split
  · exact Nat.zero_le 1
  · split <;> simp
  · split <;> simp

theorem Inv.in_use (hi : Inv own s) (haux : s.aux c = some fn)
    (hf : s.frame c = .loading fn) : s.frees fn = 0 := by
  have hn := hi.name c fn haux
  have hfit := hi.thread c hn.born
  rw [hf] at hfit
  rw [hn.frees]
  unfold State.due
  rw [hn.pending.mpr hfit.2.1]

theorem Inv.settled (hi : Inv own s) (haux : s.aux c = some fn)
    (hload : s.frame c ≠ .loading fn) (hloaded : s.frame c ≠ .loaded fn)
    (hkeeps : (s.frame (s.sys.proc c).creator).keeps fn = false) :
    s.frees fn = 1 := by
  have hn := hi.name c fn haux
  have hknown : s.outcome c ≠ none := by
    intro h
    obtain ⟨g, hg⟩ := hi.loading_frame hn.born (hn.pending.mp h)
    have hfit := hi.thread c hn.born
    rw [hg] at hfit
    obtain rfl : g = fn := some.inj (hfit.2.2.symm.trans haux)
    exact hload hg
  rw [hn.frees]
  unfold State.due
  cases ho : s.outcome c with
  | none => exact absurd ho hknown
  | some ok =>
    cases ok with
    | true => exact if_neg hloaded
    | false => exact if_neg (by rw [hkeeps]; simp)

-- ==== returns

/-- What a step adds to the list of returns. -/
theorem step_log (h : s.step a = some s') :
    s'.returned = s.returned ∨
    (∃ q, s'.returned = ⟨q, none, tidError⟩ :: s.returned) ∨
    (∃ q tid, s.frame q = .leaving tid ∧
      (∀ c, s.point q ≠ .onChild c .createReturn) ∧
      s' = s.ret q none tid) ∨
    ∃ q c tid y, s.frame q = .leaving tid ∧
      s.point q = .onChild c .createReturn ∧ s.sys.go q = some y ∧
      s' = State.ret q (some c) tid { s with sys := y } := by
  cases State.step_turn h with
  | @exec q =>
    unfold State.processExecute
    split
    · exact .inl rfl
    · exact .inr (.inl ⟨q, rfl⟩)
  | @noScratch q => exact .inr (.inl ⟨q, rfl⟩)
  | @leave q tid c y hf hpt hy => exact .inr (.inr (.inr ⟨q, c, tid, y, hf, hpt, hy, rfl⟩))
  | @leaveMissed q tid hf hpt => exact .inr (.inr (.inl ⟨q, tid, hf, hpt, rfl⟩))
  | created => split <;> exact .inl rfl
  | _ => exact .inl rfl

/-- The steps in which `process_execute` returns. -/
theorem step_returned {r : Return} (h : s.step a = some s') (hret : s'.returned = r :: s.returned) :
    (∃ q, r = ⟨q, none, tidError⟩) ∨ (∃ q tid, s.frame q = .leaving tid ∧
      (∀ c, s.point q ≠ .onChild c .createReturn) ∧ r = ⟨q, none, tid⟩) ∨
    ∃ q c tid y, s.frame q = .leaving tid ∧
      s.point q = .onChild c .createReturn ∧ s.sys.go q = some y ∧
      s' = State.ret q (some c) tid { s with sys := y } ∧
      r = ⟨q, some c, tid⟩ := by
  rcases step_log h with e | ⟨q, e⟩ | ⟨q, tid, hf, hne, e⟩ | ⟨q, c, tid, y, hf, hpt, hgo, e⟩
  · have hlen := congrArg List.length (e.symm.trans hret)
    simp at hlen
  · left
    rw [e] at hret
    injection hret with hret
    exact ⟨q, hret.symm⟩
  · right
    left
    rw [e] at hret
    injection hret with hret
    exact ⟨q, tid, hf, hne, hret.symm⟩
  · right
    right
    have hret' := hret
    rw [e] at hret'
    injection hret' with hret'
    exact ⟨q, c, tid, y, hf, hpt, hgo, e, hret'.symm⟩

/-- The children of a thread are told apart by their `tid`s. -/
theorem findChild_listed (hy : y.Inv) (hc : c ∈ (y.proc p).childList)
    (htid : (y.proc c).tid ≠ tidError) : y.findChild p (y.proc c).tid = some c := by
  have hother d (hd : d ∈ (y.proc p).childList) (he : (y.proc d).tid = (y.proc c).tid) : d = c := by
    have hd' := (hy.link d (hy.owns p d (.inl hd)).2.2).tid.resolve_left (he ▸ htid)
    have hc' := (hy.link c (hy.owns p c (.inl hc)).2.2).tid.resolve_left htid
    exact Int.ofNat_inj.mp (by omega)
  unfold Sys.findChild
  cases hfind : (y.proc p).childList.find? fun d => (y.proc d).tid = (y.proc c).tid with
  | none =>
    have := find?_eq_none.mp hfind c hc
    simp at this
  | some d =>
    have hd := mem_of_find?_eq_some hfind
    have he := find?_some hfind
    exact congrArg some (hother d hd (by simpa using he))

/-- At its return the creator has the child in its list exactly if the
load succeeded. -/
theorem Inv.agreed (hi : Inv own s) (hy : s.sys.Inv) (hr : s.Returns p c tid) :
    s.Agreed p c tid := by
  obtain ⟨hpt, haux, htid⟩ := hr
  obtain ⟨fn, hfn⟩ := ne_none_iff_exists'.mp haux
  have hn := hi.name c fn hfn
  have hl := hy.linkAt hpt
  by_cases he : (s.sys.proc c).tid = tidError
  · right
    refine ⟨hn.failed.mpr he, htid.trans he, ?_⟩
    intro hmem
    rcases hl.failed hmem he with e | e <;> cases e
  · left
    have hlisted : c ∈ (s.sys.proc p).childList := by
      rcases hl.kept hn.exec he (by simp) with h | h
      · exact h
      · simp [hl.held (Or.inr (by simp))] at h
    refine ⟨?_, htid, htid ▸ he, hlisted, ?_⟩
    · cases ho : s.outcome c with
      | none => exact absurd ho (outcome_known hy hpt hn)
      | some ok =>
        cases ok with
        | true => rfl
        | false => exact absurd (hn.failed.mp ho) he
    · rw [htid]
      exact findChild_listed hy hlisted he

/-- The last step of `thread_create` does not touch what was agreed. -/
theorem agreed_ret (h : s.Agreed p c tid)
    (hpt : s.point p = .onChild c .createReturn) (hgo : s.sys.go p = some y) :
    (State.ret p (some c) tid { s with sys := y }).Agreed p c tid := by
  have hy : y = s.sys.mod p fun x => { x with point := .running, callingExec := false } := by
    unfold Sys.go at hgo
    rw [show (s.sys.proc p).point = _ from hpt] at hgo
    exact (some.inj hgo).symm
  have htid d : (y.proc d).tid = (s.sys.proc d).tid := by
    rw [hy]
    unfold Sys.mod
    dsimp only
    split
    next e => rw [e]
    next => rfl
  have hlist : (y.proc p).childList = (s.sys.proc p).childList := by rw [hy, Sys.mod_self]
  have hfind : y.findChild p tid = s.sys.findChild p tid := by
    unfold Sys.findChild
    rw [hlist]
    simp only [htid]
  rcases h with ⟨ho, ht, hne, hmem, hf⟩ | ⟨ho, ht, hmem⟩
  · refine .inl ⟨ho, ht.trans (htid c).symm, hne, ?_, hfind.trans hf⟩
    show c ∈ (y.proc p).childList
    rw [hlist]
    exact hmem
  · refine .inr ⟨ho, ht, ?_⟩
    show c ∉ (y.proc p).childList
    rw [hlist]
    exact hmem

theorem Inv.leaving_missed (hi : Inv own s) (hf : s.frame p = .leaving tid)
    (hne : ∀ c, s.point p ≠ .onChild c .createReturn) : tid = tidError := by
  have hfit := hi.thread p (hi.born hf (by simp))
  rw [hf] at hfit
  rcases hfit with hm | ⟨c, hr⟩
  · exact hm.2.2
  · exact absurd hr.1 (hne c)

theorem Inv.leaving_returns (hi : Inv own s) (hf : s.frame p = .leaving tid)
    (hpt : s.point p = .onChild c .createReturn) : s.Returns p c tid := by
  have hfit := hi.thread p (hi.born hf (by simp))
  rw [hf] at hfit
  rcases hfit with hm | ⟨d, hr⟩
  · have := hm.1
    simp [hpt] at this
  · have := hr.1
    rw [hpt] at this
    cases this
    exact hr

-- ==== progress

/-- How far a thread is from the report of its load. -/
def loadRank : Point → Nat
  | .loading => 2
  | .loadFailed => 1
  | _ => 0

/-- How far `process_execute` is from its return. -/
def rank (s : State) (p : ThreadId) : Nat :=
  match s.frame p with
  | .creating _ _ =>
    match s.point p with
    | .creating => 9
    | .onChild _ .created => 8
    | .onChild c .loadWait => 5 + loadRank (s.point c)
    | .onChild _ .loaded => 4
    | _ => 3
  | .created _ _ _ => 2
  | .freeing _ _ => 1
  | _ => 0

theorem loadRank_le (pt : Point) : loadRank pt ≤ 2 := by cases pt <;> simp [loadRank]

theorem rank_wait (hf : s.frame p = .creating fn sc) (hpt : s.point p = .onChild c .loadWait) :
    rank s p = 5 + loadRank (s.point c) := by
  unfold rank
  rw [hf, hpt]

/-- A step of `process_execute` or of the new thread towards the return,
or the return itself. -/
def Nearer (s : State) (p : ThreadId) (s' : State) : Prop :=
  (rank s' p < rank s p ∧ s'.Executing p ∧ s'.returned = s.returned) ∨
    ∃ r, s'.returned = r :: s.returned ∧ r.caller = p

/-- The load is over or its failure reported: the child is nearer to its
report, the creator still waits. -/
theorem Nearer.of_child (hf : s.frame p = .creating fn sc) (hpt : s.point p = .onChild c .loadWait)
    (hf' : s'.frame p = s.frame p) (hpt' : s'.point p = s.point p) (hret : s'.returned = s.returned)
    (hlt : loadRank (s'.point c) < loadRank (s.point c)) : Nearer s p s' := by
  refine .inl ⟨?_, ?_, hret⟩
  · rw [rank_wait hf hpt, rank_wait (hf'.trans hf) (hpt'.trans hpt)]
    omega
  · unfold State.Executing
    rw [hf', hf]
    rfl

-- ==== the steps that can be taken

theorem step_outside (hf : s.frame p = .outside) (hgo : s.sys.go p = some y) :
    s.step (.go p) = some { s with sys := y } := by
  unfold State.step State.go State.sysGo
  dsimp only
  rw [hf, hgo]
  rfl

theorem step_creating (hf : s.frame p = .creating fn sc)
    (hne : ∀ c, s.point p ≠ .onChild c .createReturn) (hgo : s.sys.go p = some y) :
    s.step (.go p) = some { s with sys := y } := by
  unfold State.step State.go State.sysGo
  dsimp only
  rw [hf, hgo]
  dsimp only
  split
  case h_1 c hc => exact absurd hc (hne c)
  case h_2 => rfl

theorem go_failed (hpt : (y.proc c).point = .loadFailed) :
    ∃ y', y.go c = some y' ∧ (y'.proc c).point = .loadReported ∧
      ∀ u, u ≠ c → (y'.proc u).point = (y.proc u).point := by
  unfold Sys.go
  rw [hpt]
  refine ⟨_, rfl, ?_, ?_⟩
  · simp
  · intro u hu
    rw [Sys.mod_ne _ _ hu]

theorem go_created (hpt : (y.proc p).point = .onChild c .created)
    (hflag : (y.proc p).callingExec = true) :
    ∃ y', y.go p = some y' ∧ (y'.proc p).point = .onChild c .loadWait := by
  unfold Sys.go
  rw [hpt]
  refine ⟨_, rfl, ?_⟩
  unfold Sys.listChild
  rw [if_pos hflag, Sys.mod_self]

theorem go_loadWait (hpt : (y.proc p).point = .onChild c .loadWait)
    (hpos : 0 < (y.proc c).loadMutex) :
    ∃ y', y.go p = some y' ∧ (y'.proc p).point = .onChild c .loaded := by
  unfold Sys.go
  rw [hpt]
  refine ⟨_, if_pos hpos, ?_⟩
  unfold Sys.goto
  rw [Sys.mod_self]

theorem go_loaded (hpt : (y.proc p).point = .onChild c .loaded) :
    ∃ y', y.go p = some y' ∧ (y'.proc p).point = .onChild c .createReturn := by
  unfold Sys.go
  rw [hpt]
  refine ⟨_, rfl, ?_⟩
  unfold Sys.checkLoad Sys.goto
  split <;> rw [Sys.mod_self]

theorem go_createReturn (hpt : (y.proc p).point = .onChild c .createReturn) :
    ∃ y', y.go p = some y' := by
  unfold Sys.go
  rw [hpt]
  exact ⟨_, rfl⟩

-- ==== a step nearer

/-- `thread_create` goes on: the frame stays, the point moves. -/
theorem Nearer.of_point (hf : s.frame p = .creating fn sc)
    (hlt : rank { s with sys := y } p < rank s p) : Nearer s p { s with sys := y } := by
  refine .inl ⟨hlt, ?_, rfl⟩
  unfold State.Executing
  rw [hf]
  rfl

/-- The frame of `process_execute` moves. -/
theorem Nearer.of_frame (hf : s'.frame p = f) (hexec : f.executes = true)
    (hret : s'.returned = s.returned) (hlt : rank s' p < rank s p) : Nearer s p s' := by
  refine .inl ⟨hlt, ?_, hret⟩
  unfold State.Executing
  rw [hf]
  exact hexec

/-- While the creator waits for the load, the child or the creator can
go on. -/
theorem Inv.advance_wait (hi : Inv own s) (hy : s.sys.Inv) (hf : s.frame p = .creating fn sc)
    (hpt : s.point p = .onChild c .loadWait) (hfn : s.aux c = some fn) (htold : Told s.sys c) :
    ∃ a s', mine p a s ∧ s.step a = some s' ∧ Nearer s p s' := by
  have hn := hi.name c fn hfn
  have hpc := Nat.ne_of_lt (hy.owns p c (Sys.holds_of_point hpt)).2.1
  by_cases hload : s.point c = .loading
  · obtain ⟨g, hg⟩ := hi.loading_frame hn.born hload
    have hr := load_record (p := c) true (hn.not_failed (hn.pending.mpr hload))
    have hstep : s.step (.load c true) = some { s.goto c (.loaded g) with
          sys := s.sys.load c true
          outcome := Function.update s.outcome c (some true) } := by
      unfold State.step State.load
      dsimp only
      rw [hg]
      rw [show s.sys.step (.load c true) = _ from if_pos hload]
      rfl
    refine ⟨_, _, .inr ⟨c, _, hpt, rfl⟩, hstep, ?_⟩
    refine Nearer.of_child hf hpt ?_ ?_ rfl ?_
    · exact goto_ne _ s hpc
    · exact congrArg Proc.point (hr.other p hpc)
    · show loadRank ((s.sys.load c true).proc c).point < _
      rw [hr.point, hload]
      decide
  by_cases hfail : s.point c = .loadFailed
  · obtain ⟨y, hgo, hc, hother⟩ := go_failed hfail
    refine ⟨.go c, _, .inr ⟨c, _, hpt, rfl⟩, step_outside (hi.failed_frame hn.born hfail) hgo, ?_⟩
    refine Nearer.of_child hf hpt rfl (hother p hpc) rfl ?_
    show loadRank (y.proc c).point < _
    rw [hc, hfail]
    decide
  · -- the child has reported
    have hpos : 0 < (s.sys.proc c).loadMutex := by
      refine htold ?_
      intro hph
      have hph' : (s.point c).phase = .loading := hph
      cases hc : s.point c with
      | loading => exact hload hc
      | loadFailed => exact hfail hc
      | _ =>
        rw [hc] at hph'
        cases hph'
    obtain ⟨y, hgo, hp⟩ := go_loadWait hpt hpos
    refine ⟨.go p, _, .inl rfl, step_creating hf ?_ hgo, Nearer.of_point hf ?_⟩
    · rw [hpt]
      simp
    · rw [rank_wait hf hpt]
      unfold rank
      dsimp only [State.point]
      rw [hf, hp]
      dsimp only
      omega

/-- From every state of `process_execute` there is a step nearer to its
return. -/
theorem Inv.advance (hi : Inv own s) (hy : s.sys.Inv) (hexec : s.Executing p) :
    ∃ a s', mine p a s ∧ s.step a = some s' ∧ Nearer s p s' := by
  unfold State.Executing at hexec
  have hp : p < s.sys.count := by
    refine hi.born rfl ?_
    intro hf
    rw [hf] at hexec
    cases hexec
  have hfit := hi.thread p hp
  cases hf : s.frame p with
  | outside | copied fn =>
    rw [hf] at hexec
    cases hexec
  | loading fn | loaded fn =>
    rw [hf] at hexec
    cases hexec
  | creating fn sc =>
    rw [hf] at hfit
    obtain ⟨hflag, -, hfit⟩ := hfit
    rcases hfit with ⟨hpt, -⟩ | ⟨c, st, hpt, hst, hfn, htold⟩
    · -- the page for the thread's record may be missing
      have hstep : s.step (.alloc p false) = some { s.goto p (.created fn sc tidError) with
            sys := s.sys.alloc p false } := by
        show s.alloc p false = _
        unfold State.alloc
        rw [show s.sys.step (.alloc p false) = _ from if_pos hpt, hf]
        rfl
      refine ⟨_, _, .inl rfl, hstep, ?_⟩
      have hf' : (s.goto p (.created fn sc tidError)).frame p
          = .created fn sc tidError := goto_self ..
      refine Nearer.of_frame hf' rfl rfl ?_
      unfold rank
      rw [hf', hf, hpt]
      show 2 < 9
      decide
    · cases st with
      | created =>
        obtain ⟨y, hgo, hp'⟩ := go_created hpt hflag
        refine ⟨.go p, _, .inl rfl, step_creating hf ?_ hgo, Nearer.of_point hf ?_⟩
        · rw [hpt]
          simp
        · have hle := loadRank_le (y.proc c).point
          unfold rank
          dsimp only [State.point] at hpt ⊢
          rw [hf, hpt, hp']
          dsimp only
          omega
      | loadWait => exact hi.advance_wait hy hf hpt hfn (htold rfl)
      | loaded =>
        obtain ⟨y, hgo, hp'⟩ := go_loaded hpt
        refine ⟨.go p, _, .inl rfl, step_creating hf ?_ hgo, Nearer.of_point hf ?_⟩
        · rw [hpt]
          simp
        · unfold rank
          dsimp only [State.point] at hpt ⊢
          rw [hf, hpt, hp']
          show 3 < 4
          decide
      | createReturn =>
        have hstep : s.step (.go p) = some (s.goto p (.created fn sc (s.sys.proc c).tid)) := by
          unfold State.step State.go
          dsimp only
          rw [hf, hpt]
        have hf' : (s.goto p (.created fn sc (s.sys.proc c).tid)).frame p
            = .created fn sc (s.sys.proc c).tid := goto_self ..
        refine ⟨_, _, .inl rfl, hstep, Nearer.of_frame hf' rfl rfl ?_⟩
        unfold rank
        rw [hf', hf, hpt]
        show 2 < 3
        decide
      | waitDown pid | waitRead pid => cases hst
      | waitReap pid r => cases hst
  | created fn sc tid =>
    have hstep : s.step (.go p) = some
        ((if tid = tidError then s.pallocFreePage fn else s).goto p (.freeing sc tid)) := by
      unfold State.step State.go
      dsimp only
      rw [hf]
    refine ⟨_, _, .inl rfl, hstep, ?_⟩
    have hf' := goto_self p (.freeing sc tid) (if tid = tidError then s.pallocFreePage fn else s)
    refine Nearer.of_frame hf' rfl ?_ ?_
    · split <;> rfl
    · unfold rank
      rw [hf', hf]
      show 1 < 2
      decide
  | freeing sc tid =>
    have hstep : s.step (.go p) = some ((s.pallocFreePage sc).goto p (.leaving tid)) := by
      unfold State.step State.go
      dsimp only
      rw [hf]
    have hf' := goto_self p (.leaving tid) (s.pallocFreePage sc)
    refine ⟨_, _, .inl rfl, hstep, Nearer.of_frame hf' rfl rfl ?_⟩
    unfold rank
    rw [hf', hf]
    show 0 < 1
    decide
  | leaving tid =>
    rw [hf] at hfit
    rcases hfit with hm | ⟨c, hr⟩
    · have hstep : s.step (.go p) = some (s.ret p none tid) := by
        unfold State.step State.go
        dsimp only
        rw [hf, hm.1]
      exact ⟨_, _, .inl rfl, hstep, .inr ⟨_, rfl, rfl⟩⟩
    · obtain ⟨y, hgo⟩ := go_createReturn hr.1
      have hstep : s.step (.go p) = some (State.ret p (some c) tid { s with sys := y }) := by
        unfold State.step State.go State.sysGo
        dsimp only
        rw [hf, hr.1, hgo]
        rfl
      exact ⟨_, _, .inl rfl, hstep, .inr ⟨_, rfl, rfl⟩⟩

/-- By induction on the rank: a run of `p` and its child that ends in the
return. -/
theorem Inv.completes (hi : Inv own s) (hy : s.sys.Inv) (hexec : s.Executing p) :
    ∃ s' r, Reach (· = s) State.step (mine p) s' ∧
      s'.returned = r :: s.returned ∧ r.caller = p := by
  induction hn : rank s p using Nat.strongRecOn generalizing s own with
  | _ n ih =>
    obtain ⟨a, s₁, hm, hs, hnear⟩ := hi.advance hy hexec
    have hfirst : Reach (· = s) State.step (mine p) s₁ := .step a (.init rfl) hm hs
    rcases hnear with ⟨hlt, hexec1, hret⟩ | ⟨r, hret, hcaller⟩
    · obtain ⟨own₁, hi1⟩ := hi.step hy hs
      obtain ⟨s', r, hrun, hr, hcaller⟩ := ih _ (hn ▸ hlt) hi1 (State.step_sysInv hy hs) hexec1 rfl
      exact ⟨s', r, hfirst.trans hrun, hret ▸ hr, hcaller⟩
    · exact ⟨s₁, r, hfirst, hret, hcaller⟩

-- ==== the handshake

theorem Inv.handshake (hi : Inv own s) (hy : s.sys.Inv) : Handshake s where
  sound := hi.sound
  once := by
    intro c fn haux
    rw [(hi.name c fn haux).frees]
    exact due_le s c fn
  inUse := fun c fn haux hf => hi.in_use haux hf
  settled := fun c fn haux hload hloaded hkeeps => hi.settled haux hload hloaded hkeeps
  returns := by
    intro a s' p c tid hs hret
    rcases step_returned hs hret with ⟨q, e⟩ | ⟨q, t, -, -, e⟩ | ⟨q, d, t, y, hf, hpt, hgo, hs', e⟩
    · cases e
    · cases e
    · cases e
      rw [hs']
      exact agreed_ret (hi.agreed hy (hi.leaving_returns hf hpt)) hpt hgo
  childless := by
    intro a s' p tid hs hret
    rcases step_returned hs hret with ⟨q, e⟩ | ⟨q, t, hf, hne, e⟩ | ⟨q, d, t, y, -, -, -, -, e⟩
    · cases e
      rfl
    · cases e
      exact hi.leaving_missed hf hne
    · cases e
  completes := fun p hexec => hi.completes hy hexec
  frees := by
    intro c fn hf
    have hstep : s.step (.go c) = some ((s.pallocFreePage fn).goto c .outside) := by
      unfold State.step State.go
      dsimp only
      rw [hf]
    refine ⟨_, hstep, ?_⟩
    have hfit := hi.thread c (hi.born hf (by simp))
    rw [hf] at hfit
    have hn := hi.name c fn hfit.2.2.1
    have hzero : s.frees fn = 0 := by
      rw [hn.frees]
      unfold State.due
      rw [hfit.2.2.2, if_pos hf]
    show Function.update s.frees fn (s.frees fn + 1) fn = 1
    rw [Function.update_self, hzero]

/-- The handshake of `process_execute` with its child holds in every state
of every run. -/
theorem exec_handshake (hr : Reach Booted State.step anyStep s) : Handshake s := by
  obtain ⟨hy, own, hi⟩ := reach_inv hr
  exact hi.handshake hy

/-- The child loads, gives its command line back and exits before its
creator resumes; the creator still returns its `tid` and finds it. -/
theorem exec_handshake_early_exit :
    ∃ s s', Reach Booted State.step anyStep s ∧ s.point 1 = .exitWait ∧
      s.step (.go 0) = some s' ∧
      s'.returned = ⟨0, some 1, 2⟩ :: s.returned ∧
      s'.sys.findChild 0 2 = some 1 ∧ s.frees 0 = 1 := by
  have h0 : Reach Booted State.step anyStep boot := .init rfl
  obtain ⟨s, hr, hpt, haux, hout, hleave, hcr, s', hstep, hret⟩ := h0.of_runAll
    [.exec 0 true, .second 0 true, .alloc 0 true, .use 1, .load 1 true,
      .go 1, .call 1 (.exit 7), .go 1, .go 1, .go 0, .go 0, .go 0, .go 0,
      .go 0, .go 0]
    (fun s => s.point 1 = .exitWait ∧ s.aux 1 = some 0 ∧ s.frame 1 = .outside ∧
      s.frame 0 = .leaving 2 ∧ (s.sys.proc 1).creator = 0 ∧
      ∃ s' ∈ s.step (.go 0), s'.returned = ⟨0, some 1, 2⟩ :: s.returned) (by decide +kernel)
  have hh := exec_handshake hr
  refine ⟨s, s', hr, hpt, hstep, hret, ?_, ?_⟩
  · rcases hh.returns _ s' 0 1 2 hstep hret with h | ⟨-, h, -⟩
    · exact h.2.2.2.2
    · exact absurd h (by decide)
  · refine hh.settled 1 0 haux ?_ ?_ ?_
    · rw [hout]
      simp
    · rw [hout]
      simp
    · rw [hcr, hleave]
      rfl

end Exec

end Pintos.Process
