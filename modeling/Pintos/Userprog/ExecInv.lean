/-
The invariant of `process_execute` and `start_process`, and that every
step keeps it.

# Who gives the page back

The command line is copied to a page that both threads point to. The
child gives it back if its load succeeded, the creator if it learns that
it failed, from the child's `tid`. `due` says how often the page has been
given back by now: not at all until `load` has returned, and once as soon
as the side whose turn it is has passed its `palloc_free_page`.

# Method

`Inv` has one clause for each frame a thread can have (`Fits`) and one
for each command-line page (`Named`). Pages of different calls are kept
apart by a map `own` from pages to their purpose, which the invariant
carries along: two frames that could mean the same page would give it two
purposes. `Inv.next` assembles the invariant after a quiet step; the two
steps that are not quiet, a birth and the end of a load, have lemmas of
their own.
-/
import Pintos.Userprog.ExecFrame

namespace Pintos.Process

open Option

/-- The stages of `thread_create`. -/
def Stage.creates : Stage → Bool
  | .created | .loadWait | .loaded | .createReturn => true
  | _ => false

/-- The stages before the creator knows that the load is over. -/
def Stage.waits : Stage → Bool
  | .created | .loadWait => true
  | _ => false

namespace Exec

open Transition Function

-- ==== the invariant

/-- What a page is for. -/
inductive Role where
  | copy (p : ThreadId)
  | scratch (p : ThreadId)
  | name (c : ThreadId)

/-- The creator's frames that may still give the page `fn` back. -/
def Frame.keeps (fn : Page) : Frame → Bool
  | .creating fnCopy _ => fnCopy = fn
  | .created fnCopy _ _ => fnCopy = fn
  | _ => false

namespace State

/-- How often the page of the command line of `c` has been given back. -/
def due (s : State) (c : ThreadId) (fn : Page) : Nat :=
  match s.outcome c with
  | none => 0
  | some true => if s.frame c = .loaded fn then 0 else 1
  | some false =>
    if (s.frame (s.sys.proc c).creator).keeps fn then 0 else 1

/-- `thread_create` found no page. -/
def Missed (s : State) (p : ThreadId) (tid : Int) : Prop :=
  s.point p = .running ∧ (s.sys.proc p).callingExec = false ∧ tid = tidError

/-- `thread_create` has returned the `tid` of `c`. -/
def Returns (s : State) (p c : ThreadId) (tid : Int) : Prop :=
  s.point p = .onChild c .createReturn ∧ s.aux c ≠ none ∧ tid = (s.sys.proc c).tid

end State

open State (Missed Returns)

section Clauses

variable (own : Page → Role) (s : State)

/-- A page in use, for this purpose. -/
def Held (pg : Page) (r : Role) : Prop := pg < s.pages ∧ s.frees pg = 0 ∧ own pg = r

/-- What a frame of `p` says. -/
def Fits (p : ThreadId) : Frame → Prop
  | .outside => (s.sys.proc p).callingExec = false ∧ s.point p ≠ .loading
  | .copied fn => (s.sys.proc p).callingExec = false ∧
      s.point p = .running ∧ Held own s fn (.copy p)
  | .creating fn sc => (s.sys.proc p).callingExec = true ∧
      Held own s sc (.scratch p) ∧
      (s.point p = .creating ∧ Held own s fn (.copy p) ∨
        ∃ c st, s.point p = .onChild c st ∧ st.creates = true ∧
          s.aux c = some fn ∧ (st.waits = true → Told s.sys c))
  | .created fn sc tid => Held own s sc (.scratch p) ∧
      (s.Missed p tid ∧ Held own s fn (.copy p) ∨ ∃ c, s.Returns p c tid ∧ s.aux c = some fn)
  | .freeing sc tid => Held own s sc (.scratch p) ∧ (s.Missed p tid ∨ ∃ c, s.Returns p c tid)
  | .leaving tid => s.Missed p tid ∨ ∃ c, s.Returns p c tid
  | .loading fn => (s.sys.proc p).callingExec = false ∧ s.point p = .loading ∧ s.aux p = some fn
  | .loaded fn => (s.sys.proc p).callingExec = false ∧
      s.point p = .running ∧ s.aux p = some fn ∧ s.outcome p = some true

/-- What is known of the command line `fn` of `c`. -/
structure Named (c : ThreadId) (fn : Page) : Prop where
  born : c < s.sys.count
  exec : (s.sys.proc c).byExec = true
  page : fn < s.pages
  owner : own fn = .name c
  frees : s.frees fn = s.due c fn
  pending : s.outcome c = none ↔ s.point c = .loading
  failed : s.outcome c = some false ↔ (s.sys.proc c).tid = tidError
  waiting : s.outcome c = none → ∃ sc, s.frame (s.sys.proc c).creator = .creating fn sc

structure Inv : Prop where
  sound : s.fault = false
  fresh : ∀ pg, s.pages ≤ pg → s.frees pg = 0
  unborn : ∀ t, s.sys.count ≤ t → s.frame t = .outside ∧ s.aux t = none ∧ s.outcome t = none
  thread : ∀ p, p < s.sys.count → Fits own s p (s.frame p)
  name : ∀ c fn, s.aux c = some fn → Named own s c fn

end Clauses

section Rules

variable {own own' : Page → Role} {s s' : State} {p : ThreadId}
variable {fn sc : Page} {c : ThreadId} {f f₀ : Frame} {y : Sys} {r : Role}

theorem goto_self (t : ThreadId) (f : Frame) (s : State) : (s.goto t f).frame t = f :=
  update_self ..

theorem goto_ne {t u : ThreadId} (f : Frame) (s : State) (h : u ≠ t) :
    (s.goto t f).frame u = s.frame u :=
  update_of_ne h ..

/-- A page is the command line of one thread. -/
theorem Named.unique {d : ThreadId} (hc : Named own s c fn) (hd : Named own s d fn) : c = d := by
  have h := hc.owner
  rw [hd.owner] at h
  injection h with h
  exact h.symm

theorem Named.role (hn : Named own s c fn) (h : Held own s fn r) : r = .name c :=
  h.2.2.symm.trans hn.owner

/-- A frame's clause, seen from the steps of other threads. -/
theorem Fits.keep {u : ThreadId} (h : Fits own s u f) (hpt : s'.point u = s.point u)
    (hflag : (s'.sys.proc u).callingExec = (s.sys.proc u).callingExec)
    (hheld : ∀ pg r, r = .copy u ∨ r = .scratch u → Held own s pg r → Held own' s' pg r)
    (haux : ∀ c fn, s.aux c = some fn → s'.aux c = some fn)
    (htold : ∀ c st, s.point u = .onChild c st → st.waits = true → Told s.sys c → Told s'.sys c)
    (htid : ∀ c, s.point u = .onChild c .createReturn → (s'.sys.proc c).tid = (s.sys.proc c).tid)
    (hout : s'.outcome u = s.outcome u) : Fits own' s' u f := by
  have hret c tid (hr : s.Returns u c tid) : s'.Returns u c tid := by
    obtain ⟨hp, ha, ht⟩ := hr
    refine ⟨hpt.trans hp, ?_, ht.trans (htid c hp).symm⟩
    obtain ⟨fn, hfn⟩ := ne_none_iff_exists'.mp ha
    rw [haux c fn hfn]
    simp
  have hmiss tid (hm : s.Missed u tid) : s'.Missed u tid := by
    exact ⟨hpt.trans hm.1, hflag.trans hm.2.1, hm.2.2⟩
  cases f with
  | outside =>
    refine ⟨hflag.trans h.1, ?_⟩
    rw [hpt]
    exact h.2
  | copied fn => exact ⟨hflag.trans h.1, hpt.trans h.2.1, hheld _ _ (.inl rfl) h.2.2⟩
  | creating fn sc =>
    obtain ⟨hc, hsc, h⟩ := h
    refine ⟨hflag.trans hc, hheld _ _ (.inr rfl) hsc, ?_⟩
    rcases h with ⟨hp, hfn⟩ | ⟨c, st, hp, hst, ha, ht⟩
    · exact .inl ⟨hpt.trans hp, hheld _ _ (.inl rfl) hfn⟩
    · refine .inr ⟨c, st, hpt.trans hp, hst, haux c fn ha, ?_⟩
      intro hw
      exact htold c st hp hw (ht hw)
  | created fn sc tid =>
    obtain ⟨hsc, h⟩ := h
    refine ⟨hheld _ _ (.inr rfl) hsc, ?_⟩
    rcases h with ⟨hm, hfn⟩ | ⟨c, hr, ha⟩
    · exact .inl ⟨hmiss tid hm, hheld _ _ (.inl rfl) hfn⟩
    · exact .inr ⟨c, hret c tid hr, haux c fn ha⟩
  | freeing sc tid =>
    obtain ⟨hsc, h⟩ := h
    refine ⟨hheld _ _ (.inr rfl) hsc, ?_⟩
    rcases h with hm | ⟨c, hr⟩
    · exact .inl (hmiss tid hm)
    · exact .inr ⟨c, hret c tid hr⟩
  | leaving tid =>
    rcases h with hm | ⟨c, hr⟩
    · exact .inl (hmiss tid hm)
    · exact .inr ⟨c, hret c tid hr⟩
  | loading fn => exact ⟨hflag.trans h.1, hpt.trans h.2.1, haux u fn h.2.2⟩
  | loaded fn => exact ⟨hflag.trans h.1, hpt.trans h.2.1, haux u fn h.2.2.1, hout.trans h.2.2.2⟩

/-- A page's clause, but for who has given it back. -/
theorem Named.next (hn : Named own s c fn) (hborn : s.sys.count ≤ s'.sys.count)
    (hpages : s.pages ≤ s'.pages) (hown : own' fn = own fn) (hout : s'.outcome c = s.outcome c)
    (hpt : s'.point c = .loading ↔ s.point c = .loading)
    (hcr : (s'.sys.proc c).creator = (s.sys.proc c).creator)
    (hex : (s'.sys.proc c).byExec = (s.sys.proc c).byExec)
    (htid : (s'.sys.proc c).tid = (s.sys.proc c).tid)
    (hfrees : s'.frees fn = s'.due c fn ∧ (s.outcome c = none →
      ∃ sc, s'.frame (s.sys.proc c).creator = .creating fn sc)) : Named own' s' c fn := by
  refine ⟨Nat.lt_of_lt_of_le hn.born hborn, hex.trans hn.exec, Nat.lt_of_lt_of_le hn.page hpages,
    hown.trans hn.owner, hfrees.1, ?_, ?_, ?_⟩
  · rw [hout, hn.pending, hpt]
  · rw [hout, htid]
    exact hn.failed
  · rw [hout, hcr]
    exact hfrees.2

/-- A thread with a frame has been created. -/
theorem Inv.born (hi : Inv own s) (hf : s.frame p = f) (hne : f ≠ .outside) : p < s.sys.count := by
  by_contra hp
  exact hne (hf.symm.trans (hi.unborn p (Nat.not_lt.mp hp)).1)

theorem Inv.fits (hi : Inv own s) (hp : p < s.sys.count) (hf : s.frame p = f) : Fits own s p f :=
  hf ▸ hi.thread p hp

/-- Only the frame of a load is at its point. -/
theorem Fits.not_loading (h : Fits own s p f) (hne : ∀ fn, f ≠ .loading fn) :
    s.point p ≠ .loading := by
  intro e
  cases f <;> simp_all [Fits, Missed, Returns]

/-- The assembly of the invariant after a quiet step of `p`. -/
theorem Inv.next (hi : Inv own s) (hy : s.sys.Inv) (hp : p < s.sys.count)
    (hq : Quiet p s.sys s'.sys) (haux : s'.aux = s.aux) (hout : s'.outcome = s.outcome)
    (hframe : ∀ u, u ≠ p → s'.frame u = s.frame u) (hsound : s'.fault = false)
    (hpages : s.pages ≤ s'.pages) (hfresh : ∀ pg, s'.pages ≤ pg → s'.frees pg = 0)
    (hown : ∀ pg, pg < s.pages → own' pg = own pg)
    (hfrees : ∀ pg u, u ≠ p → own pg = .copy u ∨ own pg = .scratch u → s'.frees pg = s.frees pg)
    (hload : s.point p ≠ .loading) (hself : Fits own' s' p (s'.frame p))
    (hname : ∀ c fn, Named own s c fn → s'.frees fn = s'.due c fn ∧
      (s.outcome c = none → ∃ sc, s'.frame (s.sys.proc c).creator = .creating fn sc)) :
    Inv own' s' := by
  refine ⟨hsound, hfresh, ?_, ?_, ?_⟩
  · intro t ht
    rw [hq.count] at ht
    rw [haux, hout, hframe t (Nat.ne_of_gt (Nat.lt_of_lt_of_le hp ht))]
    exact hi.unborn t ht
  · intro u hu
    rw [hq.count] at hu
    by_cases hup : u = p
    · subst hup
      exact hself
    rw [hframe u hup]
    refine (hi.thread u hu).keep (hq.point u hup) (hq.flag u hup) ?_ ?_ ?_
      (fun c _ => hq.tid c) (congrFun hout u)
    · intro pg r hr h
      obtain ⟨hlt, hzero, hrole⟩ := h
      refine ⟨Nat.lt_of_lt_of_le hlt hpages, ?_, (hown pg hlt).trans hrole⟩
      rw [hfrees pg u hup (hrole ▸ hr)]
      exact hzero
    · intro c fn h
      rw [haux]
      exact h
    · intro c st hpt _ h
      refine hq.told c ?_ h
      -- a child has one creator
      intro hpt'
      have h1 := (hy.owns u c (Sys.holds_of_point hpt)).1
      have h2 := (hy.owns p c (Sys.holds_of_point hpt')).1
      exact hup (h1.symm.trans h2)
  · intro c fn h
    rw [haux] at h
    have hn := hi.name c fn h
    refine hn.next (Nat.le_of_eq hq.count.symm) hpages (hown fn hn.page) (congrFun hout c) ?_
      (hq.creator c) (hq.byExec c) (hq.tid c) (hname c fn hn)
    by_cases hcp : c = p
    · subst hcp
      exact iff_of_false (hq.loading hload) hload
    · exact iff_of_eq (congrArg (· = Point.loading) (hq.point c hcp))

/-- The pages when the frame of `p` changes in a way that does not touch
the page `fn`. -/
theorem Named.keep (hn : Named own s c fn) (hcr : (s'.sys.proc c).creator = (s.sys.proc c).creator)
    (hout : s'.outcome c = s.outcome c) (hframe : ∀ u, u ≠ p → s'.frame u = s.frame u)
    (hfrees : s'.frees fn = s.frees fn) (hkeeps : (s'.frame p).keeps fn = (s.frame p).keeps fn)
    (hloaded : s'.frame p = .loaded fn ↔ s.frame p = .loaded fn)
    (hcreating : ∀ sc, s.frame p = .creating fn sc →
      s.outcome c = none → s'.frame p = .creating fn sc) :
    s'.frees fn = s'.due c fn ∧ (s.outcome c = none →
      ∃ sc, s'.frame (s.sys.proc c).creator = .creating fn sc) := by
  have hk u : (s'.frame u).keeps fn = (s.frame u).keeps fn := by
    by_cases hup : u = p
    · rw [hup]
      exact hkeeps
    · rw [hframe u hup]
  have hl u : s'.frame u = .loaded fn ↔ s.frame u = .loaded fn := by
    by_cases hup : u = p
    · rw [hup]
      exact hloaded
    · rw [hframe u hup]
  constructor
  · rw [hfrees, hn.frees]
    unfold State.due
    rw [hout, hcr, hk]
    simp only [hl]
  · intro hnone
    obtain ⟨sc, hsc⟩ := hn.waiting hnone
    refine ⟨sc, ?_⟩
    by_cases hup : (s.sys.proc c).creator = p
    · rw [hup] at hsc ⊢
      exact hcreating sc hsc hnone
    · rw [hframe _ hup]
      exact hsc

/-- The process system moves, the frames stay. -/
theorem Inv.quiet (hi : Inv own s) (hy : s.sys.Inv) (hp : p < s.sys.count) (hq : Quiet p s.sys y)
    (hload : s.point p ≠ .loading) (hself : Fits own { s with sys := y } p (s.frame p)) :
    Inv own { s with sys := y } := by
  refine hi.next hy hp hq rfl rfl (fun _ _ => rfl) hi.sound (Nat.le_refl _)
    hi.fresh (fun _ _ => rfl) (fun _ _ _ _ => rfl) hload hself ?_
  intro c fn hn
  exact hn.keep (p := p) (hq.creator c) rfl (fun _ _ => rfl) rfl rfl Iff.rfl (fun _ h _ => h)

/-- What the frames `f` and `g` of the creator mean for the page `fn` of
`c` is the same. -/
def SameFor (s : State) (c : ThreadId) (fn : Page) (f g : Frame) : Prop :=
  g.keeps fn = f.keeps fn ∧ (g = .loaded fn ↔ f = .loaded fn) ∧
    ∀ sc, f = .creating fn sc → s.outcome c = none → g = .creating fn sc

section Reframe

variable (hi : Inv own s) (hy : s.sys.Inv) (hp : p < s.sys.count) (hf : s.frame p = f₀)
  (hne : ∀ fn, f₀ ≠ .loading fn)

include hi hy hp hf hne

/-- The assembly when the frame of `p` becomes `f`. A page either keeps
its meaning, or its clause is shown by hand. -/
theorem Inv.nextFrame (hq : Quiet p s.sys s'.sys) (haux : s'.aux = s.aux)
    (hout : s'.outcome = s.outcome) (hframe : s'.frame = (s.goto p f).frame)
    (hsound : s'.fault = false) (hpages : s.pages ≤ s'.pages)
    (hfresh : ∀ pg, s'.pages ≤ pg → s'.frees pg = 0) (hown : ∀ pg, pg < s.pages → own' pg = own pg)
    (hfrees : ∀ pg u, u ≠ p → own pg = .copy u ∨ own pg = .scratch u → s'.frees pg = s.frees pg)
    (hself : Fits own' s' p f) (hname : ∀ c fn, Named own s c fn →
      s'.frees fn = s.frees fn ∧ SameFor s c fn f₀ f ∨
        s'.frees fn = s'.due c fn ∧ s.outcome c ≠ none) : Inv own' s' := by
  subst hf
  have hothers u (hu : u ≠ p) : s'.frame u = s.frame u := by
    rw [hframe]
    exact goto_ne f s hu
  obtain rfl : s'.frame p = f := hframe ▸ goto_self p f s
  refine hi.next hy hp hq haux hout hothers hsound hpages hfresh hown hfrees
    ((hi.thread p hp).not_loading hne) hself fun c fn hn => ?_
  rcases hname c fn hn with ⟨hfr, hk, hl, hc⟩ | ⟨hdue, hknown⟩
  · exact hn.keep (p := p) (hq.creator c) (congrFun hout c) hothers hfr hk hl hc
  · exact ⟨hdue, fun h => absurd h hknown⟩

/-- The frame of `p` changes, and nothing else. -/
theorem Inv.reframe {rs : List Return} (hself : Fits own s p f)
    (hname : ∀ c fn, Named own s c fn → SameFor s c fn f₀ f) :
    Inv own { s.goto p f with returned := rs } :=
  hi.nextFrame hy hp hf hne (.of_proc p rfl rfl) rfl rfl rfl hi.sound (Nat.le_refl _) hi.fresh
    (fun _ _ => rfl) (fun _ _ _ _ => rfl) hself fun c fn hn => .inl ⟨rfl, hname c fn hn⟩

/-- A new page for `p`. -/
theorem Inv.palloc (hq : Quiet p s.sys y)
    (hself : Fits (update own s.pages r) { s with sys := y, pages := s.pages + 1 } p f)
    (hname : ∀ c fn, Named own s c fn → SameFor s c fn f₀ f) :
    Inv (update own s.pages r) { s.goto p f with sys := y, pages := s.pages + 1 } := by
  refine hi.nextFrame hy hp hf hne hq rfl rfl rfl hi.sound (Nat.le_succ _) ?_ ?_
    (fun _ _ _ _ => rfl) hself fun c fn hn => .inl ⟨rfl, hname c fn hn⟩
  · intro pg h
    exact hi.fresh pg (Nat.le_of_succ_le h)
  · intro pg h
    exact update_of_ne (Nat.ne_of_lt h) ..

/-- `p` gives the page `pg` back. -/
theorem Inv.free {pg : Page} (hlt : pg < s.pages) (hzero : s.frees pg = 0)
    (hrole : ∀ u, u ≠ p → own pg ≠ .copy u ∧ own pg ≠ .scratch u)
    (hself : Fits own (s.pallocFreePage pg) p f)
    (hother : ∀ c fn, Named own s c fn → fn ≠ pg → SameFor s c fn f₀ f)
    (hsame : ∀ c, Named own s c pg → s.outcome c ≠ none ∧
      ((s.pallocFreePage pg).goto p f).due c pg = 1) :
    Inv own ((s.pallocFreePage pg).goto p f) := by
  have hfr g : (s.pallocFreePage pg).frees g = if g = pg then 1 else s.frees g := by
    show update s.frees pg (s.frees pg + 1) g = _
    rw [update_apply, hzero]
  refine hi.nextFrame hy hp hf hne (.of_proc p rfl rfl) rfl rfl rfl ?_
    (Nat.le_refl _) ?_ (fun _ _ => rfl) ?_ hself ?_
  · show (s.fault || s.frees pg != 0) = false
    rw [hi.sound, hzero]
    rfl
  · intro g hg
    show (s.pallocFreePage pg).frees g = 0
    rw [hfr, if_neg (Nat.ne_of_gt (Nat.lt_of_lt_of_le hlt hg))]
    exact hi.fresh g hg
  · intro g u hu hr
    show (s.pallocFreePage pg).frees g = _
    rw [hfr, if_neg]
    intro e
    subst e
    rcases hr with hr | hr
    · exact (hrole u hu).1 hr
    · exact (hrole u hu).2 hr
  · intro c fn hn
    by_cases hfn : fn = pg
    · subst hfn
      obtain ⟨hout, hdue⟩ := hsame c hn
      refine .inr ⟨?_, hout⟩
      rw [hdue]
      show (s.pallocFreePage fn).frees fn = 1
      rw [hfr, if_pos rfl]
    · refine .inl ⟨?_, hother c fn hn hfn⟩
      show (s.pallocFreePage pg).frees fn = _
      rw [hfr, if_neg hfn]

end Reframe

-- ==== every step

/-- `thread_create` goes on with its child. -/
theorem go_creating {y' : Sys} {st : Stage} (hpc : p ≠ c) (hpt : (y.proc p).point = .onChild c st)
    (hst : st.creates = true) (hne : st ≠ .createReturn) (hflag : (y.proc p).callingExec = true)
    (h : y.go p = some y') :
    ∃ st', (y'.proc p).point = .onChild c st' ∧ st'.creates = true ∧
      (y'.proc p).callingExec = true ∧
      (st'.waits = true → st.waits = true ∧ st ≠ .loadWait) := by
  unfold Sys.go at h
  rw [hpt] at h
  cases st with
  | created =>
    cases h
    unfold Sys.listChild
    refine ⟨.loadWait, ?_, rfl, ?_, fun _ => ⟨rfl, by simp⟩⟩ <;> simp [hflag]
  | loadWait =>
    obtain ⟨-, ⟨⟩⟩ := ite_none_right_eq_some.mp h
    refine ⟨.loaded, ?_, rfl, ?_, fun hw => by cases hw⟩
    · simp [Sys.goto]
    · simp [Sys.goto, Sys.mod_ne _ _ hpc, hflag]
  | loaded =>
    cases h
    unfold Sys.checkLoad
    split
    · refine ⟨.createReturn, ?_, rfl, ?_, fun hw => by cases hw⟩ <;>
        simp [hflag]
    · refine ⟨.createReturn, ?_, rfl, ?_, fun hw => by cases hw⟩ <;>
        simp [Sys.goto, hflag]
  | createReturn => exact absurd rfl hne
  | waitDown pid | waitRead pid => cases hst
  | waitReap pid r => cases hst

/-- A creator that returns knows the outcome. -/
theorem outcome_known (hy : s.sys.Inv) (hpt : s.point p = .onChild c .createReturn)
    (hn : Named own s c fn) : s.outcome c ≠ none := by
  intro h
  have hload := hn.pending.mp h
  have hl := (hy.linkAt hpt).loading (by
    rw [show (s.sys.proc c).point = .loading from hload]
    rfl)
  rcases hl.2 with e | e <;> cases e

/-- The two pages of a frame differ. -/
theorem Inv.scratch_ne (hi : Inv own s) {tid : Int}
    (hfit : Fits own s p (.created fn sc tid)) : sc ≠ fn := by
  obtain ⟨hsc, hfit⟩ := hfit
  intro e
  rw [e] at hsc
  rcases hfit with ⟨-, hfn⟩ | ⟨c, -, haux⟩
  · cases hsc.2.2.symm.trans hfn.2.2
  · cases (hi.name c fn haux).role hsc

theorem held_free {pg q : Page} (h : Held own s pg r) (hne : pg ≠ q) :
    Held own (s.pallocFreePage q) pg r := by
  obtain ⟨hlt, hzero, hrole⟩ := h
  refine ⟨hlt, ?_, hrole⟩
  show update s.frees q (s.frees q + 1) pg = 0
  rw [update_of_ne hne]
  exact hzero

/-- The frame after `thread_create` knows the page of one child only. -/
theorem created_same {g : Page} {tid : Int} (hg : g ≠ fn) :
    SameFor s c g (.created fn sc tid) (.freeing sc tid) := by
  simp [SameFor, Frame.keeps, Ne.symm hg]

/-- Before the child is there the copy is the creator's own. -/
theorem Fits.copy_held (h : Fits own s p (.creating fn sc))
    (hpt : s.point p = .creating) : Held own s fn (.copy p) := by
  rcases h.2.2 with ⟨-, hfn⟩ | ⟨c, st, hpt', -⟩
  · exact hfn
  · simp [hpt] at hpt'

/-- A load that is not over has not failed. -/
theorem Named.not_failed (hn : Named own s c fn) (h : s.outcome c = none) :
    (s.sys.proc c).tid ≠ tidError := by
  intro e
  have hfail := hn.failed.mpr e
  simp [h] at hfail

/-- The end of the load of `p` in the process system. -/
structure LoadEnd (p : ThreadId) (ok : Bool) (y y' : Sys) : Prop where
  count : y'.count = y.count
  other : ∀ u, u ≠ p → y'.proc u = y.proc u
  flag : (y'.proc p).callingExec = (y.proc p).callingExec
  creator : (y'.proc p).creator = (y.proc p).creator
  byExec : (y'.proc p).byExec = (y.proc p).byExec
  point : (y'.proc p).point = if ok then .running else .loadFailed
  tid : (y'.proc p).tid = tidError ↔ ok = false
  told : Told y' p

theorem load_record (ok : Bool) (htid : (y.proc p).tid ≠ tidError) :
    LoadEnd p ok y (y.load p ok) := by
  have hother u (hu : u ≠ p) : (y.load p ok).proc u = y.proc u := by
    unfold Sys.load
    split <;> exact Sys.mod_ne _ _ hu
  have hcount : (y.load p ok).count = y.count := by
    unfold Sys.load
    split <;> rfl
  refine ⟨hcount, hother, ?_, ?_, ?_, ?_, ?_, ?_⟩ <;>
    cases ok <;> simp [Sys.load, Told, htid, Point.phase]

/-- The command line of the thread whose load ends. -/
theorem Named.load {ok : Bool} (hn : Named own s p fn) (hf : s.frame p = .loading fn)
    (hnone : s.outcome p = none) (hr : LoadEnd p ok s.sys y) :
    Named own { s.goto p (if ok then .loaded fn else .outside) with
      sys := y, outcome := update s.outcome p (some ok) } p fn := by
  obtain ⟨sc, hwait⟩ := hn.waiting hnone
  have hcr : (s.sys.proc p).creator ≠ p := by
    intro e
    simp [e, hf] at hwait
  have hzero : s.frees fn = 0 := by
    rw [hn.frees]
    unfold State.due
    rw [hnone]
  have hout : update s.outcome p (some ok) p = some ok := update_self ..
  have hpoint := hr.point
  have htid := hr.tid
  refine ⟨Nat.lt_of_lt_of_eq hn.born hr.count.symm, hr.byExec.trans hn.exec,
    hn.page, hn.owner, ?_, ?_, ?_, ?_⟩
  · -- the creator is still in `thread_create`, holding the page too
    have hself := goto_self p (if ok then .loaded fn else .outside) s
    have hpar := (goto_ne (if ok then .loaded fn else .outside) s hcr).trans hwait
    refine hzero.trans ?_
    unfold State.due
    simp only [hout, hr.creator]
    cases ok with
    | true => exact (if_pos (hself.trans (if_pos rfl))).symm
    | false =>
      refine (if_pos ?_).symm
      rw [hpar]
      simp [Frame.keeps]
  · refine iff_of_false ?_ ?_
    · intro h
      exact absurd (hout.symm.trans h) (by simp)
    · show (y.proc p).point ≠ .loading
      rw [hpoint]
      cases ok <;> simp
  · refine (iff_of_eq (congrArg (· = some false) hout)).trans ?_
    refine Iff.trans ?_ htid.symm
    simp
  · intro h
    exact absurd (hout.symm.trans h) (by simp)

section Creator

variable (hi : Inv own s) (hy : s.sys.Inv) (hp : p < s.sys.count)
variable {fn sc : Page} {tid : Int} {y : Sys}

include hi hy hp

theorem Inv.processExecute (hf : s.frame p = .outside) (hpt : s.point p = .running) (got : Bool) :
    ∃ own', Inv own' (s.processExecute p got) := by
  have hfit := hi.fits hp hf
  unfold State.processExecute
  split
  · refine ⟨_, hi.palloc hy hp hf nofun (.of_proc p rfl rfl) (r := .copy p)
      ⟨hfit.1, hpt, Nat.lt_succ_self _, ?_, ?_⟩ ?_⟩
    · exact hi.fresh s.pages (Nat.le_refl _)
    · exact update_self ..
    · simp [SameFor, Frame.keeps]
  · refine ⟨own, hi.reframe hy hp hf nofun hfit ?_⟩
    simp [SameFor]

/-- No page for the second copy. -/
theorem Inv.noScratch (hf : s.frame p = .copied fn) : Inv own (s.ret p none tidError) := by
  obtain ⟨hflag, -, -⟩ := hi.fits hp hf
  refine hi.reframe hy hp hf nofun ⟨hflag, (hi.fits hp hf).not_loading nofun⟩ ?_
  simp [SameFor, Frame.keeps]

theorem Inv.callCreate (hf : s.frame p = .copied fn) (hstep : s.sys.step (.exec p) = some y) :
    ∃ own', Inv own' { s.goto p (.creating fn s.pages) with sys := y, pages := s.pages + 1 } := by
  obtain ⟨-, -, hfn⟩ := hi.fits hp hf
  have hq := Quiet.of_shape (Sys.step_shape hy hstep nofun nofun)
  obtain ⟨-, rfl⟩ := Sys.at_eq (s := s.sys) (f := fun z => z.mod p fun x =>
    { x with point := .creating, callingExec := true }) hstep
  refine ⟨_, hi.palloc hy hp hf nofun hq (r := .scratch p)
    ⟨?_, ⟨Nat.lt_succ_self _, ?_, ?_⟩, .inl ⟨?_, ?_⟩⟩ ?_⟩
  · simp
  · exact hi.fresh s.pages (Nat.le_refl _)
  · exact update_self ..
  · simp [State.point]
  · obtain ⟨hlt, hzero, hrole⟩ := hfn
    refine ⟨Nat.lt_succ_of_lt hlt, hzero, ?_⟩
    rw [update_of_ne (Nat.ne_of_lt hlt)]
    exact hrole
  · intro c g hn
    have hne : fn ≠ g := by
      intro e
      subst e
      cases hn.role hfn
    simp [SameFor, Frame.keeps, hne]

theorem Inv.outside (hf : s.frame p = .outside) (hq : Plain p s.sys y) :
    Inv own { s with sys := y } := by
  have hfit := hi.fits hp hf
  refine hi.quiet hy hp hq.toQuiet hfit.2 ?_
  rw [hf]
  exact ⟨hq.lowered hfit.1, hq.loading hfit.2⟩

theorem Inv.create (hf : s.frame p = .creating fn sc)
    (hne : ∀ c, s.point p ≠ .onChild c .createReturn) (hgo : s.sys.step (.go p) = some y) :
    Inv own { s with sys := y } := by
  have hload := (hi.fits hp hf).not_loading nofun
  obtain ⟨hflag, hsc, hfit⟩ := hi.fits hp hf
  have hq := go_plain hy hgo
  rcases hfit with ⟨hpt, -⟩ | ⟨c, st, hpt, hst, haux, htold⟩
  · have hgo' : s.sys.go p = some y := hgo
    unfold Sys.go at hgo'
    simp [show (s.sys.proc p).point = .creating from hpt] at hgo'
  · have hpc := Nat.ne_of_lt (hy.owns p c (Sys.holds_of_point hpt)).2.1
    have hst' : st ≠ .createReturn := by
      intro e
      exact hne c (e ▸ hpt)
    obtain ⟨st', hpt', hcr, hflag', hw⟩ := go_creating hpc hpt hst hst' hflag hgo
    refine hi.quiet hy hp hq.toQuiet hload ?_
    rw [hf]
    refine ⟨hflag', hsc, .inr ⟨c, st', hpt', hcr, haux, ?_⟩⟩
    intro hst''
    obtain ⟨hwaits, hnot⟩ := hw hst''
    refine hq.told c ?_ (htold hwaits)
    intro e
    have e' : Point.onChild c st = .onChild c .loadWait := hpt.symm.trans e
    injection e' with _ e'
    exact hnot e'

theorem Inv.readTid (hf : s.frame p = .creating fn sc)
    (hpt : s.point p = .onChild c .createReturn) :
    Inv own (s.goto p (.created fn sc (s.sys.proc c).tid)) := by
  obtain ⟨-, hsc, hfit⟩ := hi.fits hp hf
  have haux : s.aux c = some fn := by
    rcases hfit with ⟨hpt', -⟩ | ⟨c', st, hpt', -, haux, -⟩
    · simp [hpt] at hpt'
    · rw [hpt] at hpt'
      cases hpt'
      exact haux
  refine hi.reframe hy hp hf nofun ⟨hsc, .inr ⟨c, ⟨hpt, ?_, rfl⟩, haux⟩⟩ ?_
  · rw [haux]
    simp
  · intro d g hn
    refine ⟨rfl, by simp, ?_⟩
    intro sc' e hnone
    cases e
    obtain rfl := hn.unique (hi.name c fn haux)
    exact absurd hnone (outcome_known hy hpt hn)

/-- The load failed, or there is no child: `process_execute` gives the
command line back. -/
theorem Inv.freeCopy (hf : s.frame p = .created fn sc tidError) :
    Inv own ((s.pallocFreePage fn).goto p (.freeing sc tidError)) := by
  have hne := hi.scratch_ne (hi.fits hp hf)
  obtain ⟨hsc, hfit⟩ := hi.fits hp hf
  rcases hfit with ⟨hm, hfn⟩ | ⟨c, hr, haux⟩
  · refine hi.free hy hp hf nofun hfn.1 hfn.2.1 ?_
      ⟨held_free hsc hne, .inl hm⟩ (fun _ _ _ => created_same) ?_
    · intro u hu
      rw [hfn.2.2]
      simpa using Ne.symm hu
    · intro d hn
      cases hn.role hfn
  · have hn := hi.name c fn haux
    have hcr := (hy.owns p c (Sys.holds_of_point hr.1)).1
    have hout : s.outcome c = some false := hn.failed.mpr hr.2.2.symm
    refine hi.free hy hp hf nofun hn.page ?_ ?_
      ⟨held_free hsc hne, .inr ⟨c, hr⟩⟩ (fun _ _ _ => created_same) ?_
    · rw [hn.frees]
      unfold State.due
      rw [hout, hcr, hf]
      simp [Frame.keeps]
    · intro u _
      rw [hn.owner]
      simp
    · intro d hd
      obtain rfl := hn.unique hd
      refine ⟨by rw [hout]; simp, ?_⟩
      unfold State.due
      rw [show ((s.pallocFreePage fn).goto p _).outcome c = some false from hout]
      rw [show (((s.pallocFreePage fn).goto p (.freeing sc tidError)).sys.proc
        c).creator = p from hcr, goto_self]
      rfl

/-- The load succeeded: the command line is the child's. -/
theorem Inv.keepCopy (hf : s.frame p = .created fn sc tid)
    (htid : tid ≠ tidError) : Inv own (s.goto p (.freeing sc tid)) := by
  obtain ⟨hsc, hfit⟩ := hi.fits hp hf
  rcases hfit with ⟨hm, -⟩ | ⟨c, hr, haux⟩
  · exact absurd hm.2.2 htid
  have hn := hi.name c fn haux
  have hpc := Nat.ne_of_lt (hy.owns p c (Sys.holds_of_point hr.1)).2.1
  have hknown := outcome_known hy hr.1 hn
  have hfail : s.outcome c ≠ some false := by
    intro h
    exact htid (hr.2.2.trans (hn.failed.mp h))
  have hout : s.outcome c = some true := by
    cases ho : s.outcome c with
    | none => exact absurd ho hknown
    | some b =>
      cases b with
      | true => rfl
      | false => exact absurd ho hfail
  refine hi.nextFrame hy hp hf nofun (f := .freeing sc tid) (.of_proc p rfl rfl) rfl
    rfl rfl hi.sound (Nat.le_refl _) hi.fresh (fun _ _ => rfl)
    (fun _ _ _ _ => rfl) ⟨hsc, .inr ⟨c, hr⟩⟩ ?_
  intro d g hd
  by_cases hg : g = fn
  · subst hg
    obtain rfl := hn.unique hd
    refine .inr ⟨hn.frees.trans ?_, hknown⟩
    unfold State.due
    rw [show (s.goto p _).outcome c = some true from hout, hout, goto_ne _ s (Ne.symm hpc)]
  · exact .inl ⟨rfl, created_same hg⟩

theorem Inv.afterCreate (hf : s.frame p = .created fn sc tid) :
    Inv own ((if tid = tidError then s.pallocFreePage fn else s).goto p (.freeing sc tid)) := by
  split
  case isTrue h =>
    subst h
    exact hi.freeCopy hy hp hf
  case isFalse h => exact hi.keepCopy hy hp hf h

theorem Inv.freeScratch (hf : s.frame p = .freeing sc tid) :
    Inv own ((s.pallocFreePage sc).goto p (.leaving tid)) := by
  obtain ⟨hsc, hfit⟩ := hi.fits hp hf
  refine hi.free hy hp hf nofun hsc.1 hsc.2.1 ?_ hfit ?_ ?_
  · intro u hu
    rw [hsc.2.2]
    simpa using Ne.symm hu
  · simp [SameFor, Frame.keeps]
  · intro c hn
    cases hn.role hsc

/-- `process_execute` returns after `thread_create` made a child. -/
theorem Inv.leave (hf : s.frame p = .leaving tid) (hpt : s.point p = .onChild c .createReturn)
    (hgo : s.sys.step (.go p) = some y) :
    Inv own (State.ret p (some c) tid { s with sys := y }) := by
  have hload := (hi.fits hp hf).not_loading nofun
  have hq := go_plain hy hgo
  have hself : (y.proc p).callingExec = false := by
    have hgo' : s.sys.go p = some y := hgo
    unfold Sys.go at hgo'
    rw [show (s.sys.proc p).point = _ from hpt] at hgo'
    rw [← some.inj hgo']
    simp
  refine hi.nextFrame hy hp hf nofun (f := .outside) hq.toQuiet rfl rfl rfl hi.sound
    (Nat.le_refl _) hi.fresh (fun _ _ => rfl) (fun _ _ _ _ => rfl)
    ⟨hself, hq.loading hload⟩ fun d g _ => .inl ⟨rfl, ?_⟩
  simp [SameFor, Frame.keeps]

/-- `process_execute` returns without a child. -/
theorem Inv.leaveMissed (hf : s.frame p = .leaving tid)
    (hne : ∀ c, s.point p ≠ .onChild c .createReturn) : Inv own (s.ret p none tid) := by
  have hfit := hi.fits hp hf
  have hload := hfit.not_loading nofun
  rcases hfit with hm | ⟨c, hr⟩
  · refine hi.reframe hy hp hf nofun ⟨hm.2.1, hload⟩ ?_
    simp [SameFor, Frame.keeps]
  · exact absurd hr.1 (hne c)

/-- The child gives its command line back. -/
theorem Inv.freeName (hf : s.frame p = .loaded fn) :
    Inv own ((s.pallocFreePage fn).goto p .outside) := by
  have hload := (hi.fits hp hf).not_loading nofun
  obtain ⟨hflag, -, haux, hout⟩ := hi.fits hp hf
  have hn := hi.name p fn haux
  refine hi.free hy hp hf nofun hn.page ?_ ?_ ⟨hflag, hload⟩ ?_ ?_
  · rw [hn.frees]
    unfold State.due
    rw [hout, if_pos hf]
  · intro u _
    rw [hn.owner]
    simp
  · intro c g _ hg
    simp [SameFor, Frame.keeps, Ne.symm hg]
  · intro c hc
    obtain rfl := hn.unique hc
    refine ⟨by rw [hout]; simp, ?_⟩
    unfold State.due
    rw [show ((s.pallocFreePage fn).goto p _).outcome p = some true from hout, goto_self]
    simp

variable {ok : Bool}

/-- `load` returns in `p`. -/
theorem Inv.load (hf : s.frame p = .loading fn) (h : s.sys.step (.load p ok) = some y) :
    Inv own { s.goto p (if ok then .loaded fn else .outside) with
      sys := y, outcome := update s.outcome p (some ok) } := by
  obtain ⟨hpt, rfl⟩ := Sys.at_eq (s := s.sys) (f := (·.load p ok)) h
  obtain ⟨hflag, -, haux⟩ := hi.fits hp hf
  have hn := hi.name p fn haux
  have hnone : s.outcome p = none := hn.pending.mpr hpt
  have hr := load_record ok (hn.not_failed hnone)
  refine ⟨hi.sound, hi.fresh, ?_, ?_, ?_⟩
  · intro t ht
    have ht' : s.sys.count ≤ t := Nat.le_trans (Nat.le_of_eq hr.count.symm) ht
    have htp : t ≠ p := Nat.ne_of_gt (Nat.lt_of_lt_of_le hp ht')
    show (s.goto p _).frame t = _ ∧ _ ∧ update _ _ _ t = _
    rw [goto_ne _ s htp, update_of_ne htp]
    exact hi.unborn t ht'
  · intro u hu
    by_cases hup : u = p
    · subst hup
      rw [goto_self]
      have hpt' := hr.point
      cases ok with
      | true => exact ⟨hr.flag.trans hflag, hpt', haux, update_self ..⟩
      | false =>
        refine ⟨hr.flag.trans hflag, ?_⟩
        show ((s.sys.load u false).proc u).point ≠ _
        rw [hpt']
        simp
    · rw [goto_ne _ s hup]
      refine (hi.thread u (Nat.lt_of_lt_of_eq hu hr.count)).keep ?_ ?_ (fun _ _ _ h => h)
        (fun _ _ h => h) ?_ ?_ (update_of_ne hup ..)
      · exact congrArg Proc.point (hr.other u hup)
      · exact congrArg Proc.callingExec (hr.other u hup)
      · intro c st _ _ hc
        by_cases hcp : c = p
        · rw [hcp]
          exact hr.told
        · unfold Told at hc ⊢
          rw [hr.other c hcp]
          exact hc
      · intro c hret
        have hcp : c ≠ p := by
          intro e
          subst e
          exact outcome_known hy hret hn hnone
        exact congrArg Proc.tid (hr.other c hcp)
  · intro d g hd
    by_cases hdp : d = p
    · subst hdp
      obtain rfl : fn = g := some.inj (haux.symm.trans hd)
      exact hn.load hf hnone hr
    · have hnd := hi.name d g hd
      have hproc := hr.other d hdp
      have hout : update s.outcome p (some ok) d = s.outcome d := update_of_ne hdp ..
      refine hnd.next (Nat.le_of_eq hr.count.symm) (Nat.le_refl _) rfl hout ?_
        (congrArg Proc.creator hproc) (congrArg Proc.byExec hproc) (congrArg Proc.tid hproc) ?_
      · exact iff_of_eq (congrArg (fun z : Proc => z.point = .loading) hproc)
      · refine hnd.keep (p := p) (congrArg Proc.creator hproc) hout ?_ rfl ?_ ?_ ?_
        · intro u hu
          exact goto_ne _ s hu
        · show ((s.goto p _).frame p).keeps g = _
          rw [goto_self, hf]
          cases ok <;> rfl
        · show (s.goto p _).frame p = _ ↔ _
          rw [goto_self, hf]
          have hg : fn ≠ g := by
            intro e
            subst e
            exact hdp (hnd.unique hn)
          cases ok <;> simp [hg]
        · intro sc h
          simp [hf] at h

/-- The page for the new thread's record was not there. -/
theorem Inv.allocFail (hf : s.frame p = .creating fn sc)
    (h : s.sys.step (.alloc p false) = some y) :
    Inv own { s.goto p (.created fn sc tidError) with sys := y } := by
  obtain ⟨hpt, rfl⟩ := Sys.at_eq (s := s.sys) (f := (·.alloc p false)) h
  have hfn := (hi.fits hp hf).copy_held hpt
  obtain ⟨-, hsc, -⟩ := hi.fits hp hf
  have hq := alloc_plain hy hpt
  refine hi.nextFrame hy hp hf nofun (f := .created fn sc tidError) hq.toQuiet rfl rfl
    rfl hi.sound (Nat.le_refl _) hi.fresh (fun _ _ => rfl)
    (fun _ _ _ _ => rfl) ⟨hsc, .inl ⟨⟨?_, ?_, rfl⟩, hfn⟩⟩ ?_
  · simp [State.point, Sys.alloc]
  · simp [Sys.alloc]
  · intro c g hn
    refine .inl ⟨rfl, rfl, by simp, ?_⟩
    intro sc' e
    cases e
    cases hn.role hfn

/-- A thread is born. -/
theorem Inv.birth (hb : Sys.Birth s.sys y p) (hpt : s.point p = .creating) (hsys : s'.sys = y)
    (hframe : ∀ u, u ≠ s.sys.count → s'.frame u = s.frame u)
    (haux : ∀ c, c ≠ s.sys.count → s'.aux c = s.aux c) (hout : s'.outcome = s.outcome)
    (hpages : s'.pages = s.pages) (hfrees : s'.frees = s.frees) (hfault : s'.fault = s.fault)
    (hown : ∀ pg, own pg ≠ .copy p → own' pg = own pg)
    (hnew : ∀ g, (s'.frame s.sys.count).keeps g = false ∧ s'.frame s.sys.count ≠ .loaded g)
    (hself : Fits own' s' p (s'.frame p)) (hborn : Fits own' s' s.sys.count (s'.frame s.sys.count))
    (hname : ∀ fn, s'.aux s.sys.count = some fn → Named own' s' s.sys.count fn) : Inv own' s' := by
  subst hsys
  -- the old records, but for the point of the creator
  have hold u (hu : u ≠ s.sys.count) :
      ∃ pt, s'.sys.proc u = { s.sys.proc u with point := pt } ∧ (u ≠ p → pt = s.point u) ∧ (pt =
      .loading ↔ s.point u = .loading) ∧ (pt.phase = .loading ↔ (s.point u).phase = .loading) := by
    by_cases hup : u = p
    · subst hup
      refine ⟨_, hb.self, fun h => absurd rfl h, ?_, ?_⟩
      · rw [hpt]
        simp
      · rw [hpt]
        simp [Point.phase]
    · exact ⟨s.point u, hb.old u hup hu, fun _ => rfl, Iff.rfl, Iff.rfl⟩
  have hlt : ∀ {c}, c < s.sys.count → c ≠ s.sys.count := Nat.ne_of_lt
  refine ⟨hfault.trans hi.sound, ?_, ?_, ?_, ?_⟩
  · intro pg h
    rw [hfrees]
    exact hi.fresh pg (hpages ▸ h)
  · intro t ht
    rw [hb.count] at ht
    have hne : t ≠ s.sys.count := Nat.ne_of_gt ht
    rw [hframe t hne, haux t hne, hout]
    exact hi.unborn t (Nat.le_of_succ_le ht)
  · intro u hu
    rw [hb.count] at hu
    by_cases hun : u = s.sys.count
    · rw [hun]
      exact hborn
    by_cases hup : u = p
    · rw [hup]
      exact hself
    have hu' := Nat.lt_of_le_of_ne (Nat.lt_succ_iff.mp hu) hun
    rw [hframe u hun]
    have hproc := hb.old u hup hun
    refine (hi.thread u hu').keep (congrArg Proc.point hproc)
      (congrArg Proc.callingExec hproc) ?_ ?_ ?_ ?_ (congrFun hout u)
    · intro pg r hr h
      obtain ⟨hpg, hzero, hrole⟩ := h
      refine ⟨hpages ▸ hpg, hfrees ▸ hzero, ?_⟩
      rw [hown pg, hrole]
      rw [hrole]
      intro e
      rcases hr with hr | hr <;> rw [hr] at e
      · injection e with e
        exact hup e
      · cases e
    · intro c fn h
      have hc : c ≠ s.sys.count := hlt (hi.name c fn h).born
      rw [haux c hc]
      exact h
    · intro c st hc _ h
      have hcn := hlt (hy.owns u c (Sys.holds_of_point hc)).2.2
      obtain ⟨pt, hproc', -, -, hph⟩ := hold c hcn
      unfold Told at h ⊢
      rw [hproc']
      intro hph'
      exact h (fun e => hph' (hph.mpr e))
    · intro c hc
      have hcn := hlt (hy.owns u c (Sys.holds_of_point hc)).2.2
      obtain ⟨pt, hproc', -⟩ := hold c hcn
      rw [hproc']
  · intro c fn h
    by_cases hcn : c = s.sys.count
    · subst hcn
      exact hname fn h
    rw [haux c hcn] at h
    have hn := hi.name c fn h
    obtain ⟨pt, hproc, -, hload, -⟩ := hold c hcn
    refine hn.next ?_ (Nat.le_of_eq hpages.symm) ?_ (congrFun hout c) ?_ ?_ ?_ ?_ ?_
    · rw [hb.count]
      exact Nat.le_succ _
    · refine hown fn ?_
      rw [hn.owner]
      simp
    · show (s'.sys.proc c).point = _ ↔ _
      rw [hproc]
      exact hload
    · rw [hproc]
    · rw [hproc]
    · rw [hproc]
    · have hout' := (hi.unborn s.sys.count (Nat.le_refl _)).1
      refine hn.keep (p := s.sys.count) (by rw [hproc]) (congrFun hout c)
        hframe (congrFun hfrees fn) ?_ ?_ ?_
      · rw [(hnew fn).1, hout']
        rfl
      · rw [hout']
        exact iff_of_false (hnew fn).2 (by simp)
      · intro sc e
        simp [hout'] at e

/-- `thread_create` called by the kernel itself. -/
theorem Inv.allocPlain (hf : s.frame p = .outside) (hpt : s.point p = .creating) :
    Inv own { s with sys := s.sys.alloc p true } := by
  have hfit := hi.fits hp hf
  obtain ⟨hnf, hna, -⟩ := hi.unborn s.sys.count (Nat.le_refl _)
  have hb := Sys.alloc_birth (s := s.sys) hp
  refine hi.birth hy hp hb hpt rfl (fun _ _ => rfl) (fun _ _ => rfl) rfl
    rfl rfl rfl (fun _ _ => rfl) ?_ ?_ ?_ ?_
  · intro g
    rw [hnf]
    simp [Frame.keeps]
  · show Fits own _ p (s.frame p)
    rw [hf]
    constructor
    · show ((s.sys.alloc p true).proc p).callingExec = _
      rw [hb.self]
      exact hfit.1
    · show ((s.sys.alloc p true).proc p).point ≠ _
      rw [hb.self]
      simp
  · show Fits own _ _ (s.frame _)
    rw [hnf]
    constructor
    · show ((s.sys.alloc p true).proc _).callingExec = _
      rw [hb.new]
      rfl
    · show ((s.sys.alloc p true).proc _).point ≠ _
      rw [hb.new]
      simp [Sys.initThread, hfit.1]
  · intro fn e
    have e' : s.aux s.sys.count = some fn := e
    simp [hna] at e'

/-- `thread_create` called by `process_execute`: the copy becomes the
command line of the new thread. -/
theorem Inv.allocChild (hf : s.frame p = .creating fn sc) (hpt : s.point p = .creating) :
    Inv (update own fn (.name s.sys.count))
      { s.goto s.sys.count (.loading fn) with
        sys := s.sys.alloc p true
        aux := update s.aux s.sys.count (some fn) } := by
  have hfn := (hi.fits hp hf).copy_held hpt
  obtain ⟨hflag, hsc, -⟩ := hi.fits hp hf
  have hpn : p ≠ s.sys.count := Nat.ne_of_lt hp
  obtain ⟨-, -, hno⟩ := hi.unborn s.sys.count (Nat.le_refl _)
  have hb := Sys.alloc_birth (s := s.sys) hp
  have hscne : sc ≠ fn := by
    intro e
    have := hsc.2.2
    simp [e, hfn.2.2] at this
  have hnew : (s.goto s.sys.count (.loading fn)).frame s.sys.count = .loading fn := goto_self ..
  have hpar : (s.goto s.sys.count (.loading fn)).frame p
      = .creating fn sc := (goto_ne _ s hpn).trans hf
  have hnewpt : ((s.sys.alloc p true).proc s.sys.count).point = .loading := by
    rw [hb.new]
    simp [Sys.initThread, hflag]
  have hnewaux : update s.aux s.sys.count (some fn) s.sys.count = some fn := update_self ..
  refine hi.birth hy hp hb hpt rfl ?_ ?_ rfl rfl rfl rfl ?_ ?_ ?_ ?_ ?_
  · intro u hu
    exact goto_ne _ s hu
  · intro c hc
    exact update_of_ne hc ..
  · intro pg hpg
    refine update_of_ne ?_ ..
    intro e
    subst e
    exact hpg hfn.2.2
  · intro g
    rw [hnew]
    simp [Frame.keeps]
  · show Fits _ _ p ((s.goto _ _).frame p)
    rw [hpar]
    refine ⟨?_, ⟨hsc.1, hsc.2.1, ?_⟩, .inr ⟨s.sys.count, .created, ?_, rfl, hnewaux, ?_⟩⟩
    · show ((s.sys.alloc p true).proc p).callingExec = _
      rw [hb.self]
      exact hflag
    · rw [update_of_ne hscne]
      exact hsc.2.2
    · show ((s.sys.alloc p true).proc p).point = _
      rw [hb.self]
    · intro _ hph
      exact absurd (hnewpt ▸ rfl) hph
  · show Fits _ _ _ ((s.goto _ _).frame _)
    rw [hnew]
    refine ⟨?_, hnewpt, hnewaux⟩
    rw [hb.new]
    rfl
  · intro g e
    obtain rfl : fn = g := some.inj (hnewaux.symm.trans e)
    refine ⟨?_, ?_, hfn.1, update_self .., ?_, ?_, ?_, ?_⟩
    · show s.sys.count < (s.sys.alloc p true).count
      exact Nat.lt_succ_self _
    · show ((s.sys.alloc p true).proc _).byExec = _
      rw [hb.new]
      exact hflag
    · refine hfn.2.1.trans ?_
      unfold State.due
      simp only [show (s.goto s.sys.count (.loading fn)).outcome s.sys.count = none from hno]
    · exact iff_of_true hno hnewpt
    · refine iff_of_false ?_ ?_
      · intro e'
        exact absurd (hno.symm.trans e') (by simp)
      · show ((s.sys.alloc p true).proc _).tid ≠ _
        rw [hb.new]
        show (s.sys.count : Int) + 1 ≠ -1
        omega
    · intro _
      refine ⟨sc, ?_⟩
      rw [hb.new]
      exact hpar

end Creator

theorem Inv.use (hi : Inv own s) (hf : s.frame c = .loading fn) : Inv own (s.touch fn) := by
  have hfit := hi.fits (hi.born hf nofun) hf
  have hn := hi.name c fn hfit.2.2
  -- the page is still there
  have hzero : s.frees fn = 0 := by
    rw [hn.frees]
    unfold State.due
    rw [hn.pending.mpr hfit.2.1]
  have hsame : s.touch fn = s := by
    unfold State.touch
    rw [hzero]
    simp
  rw [hsame]
  exact hi

theorem Inv.step {a : State.Act} (hi : Inv own s) (hy : s.sys.Inv)
    (h : s.step a = some s') : ∃ own', Inv own' s' := by
  have halive {q : ThreadId} {pt : Point} (hpt : (s.sys.proc q).point = pt) (hne : pt ≠ .unborn) :
      q < s.sys.count := by
    exact hy.born (hpt ▸ hne)
  cases State.step_turn h with
  | exec hf hpt => exact hi.processExecute hy (halive hpt nofun) hf hpt _
  | noScratch hf => exact ⟨own, hi.noScratch hy (hi.born hf nofun) hf⟩
  | create hf hstep => exact hi.callCreate hy (hi.born hf nofun) hf hstep
  | @alloc q ok y hf hstep =>
    obtain ⟨hpt, rfl⟩ := Sys.at_eq (s := s.sys) (f := (·.alloc q ok)) hstep
    cases ok with
    | false => exact ⟨own, hi.outside hy (halive hpt nofun) hf (alloc_plain hy hpt)⟩
    | true => exact ⟨own, hi.allocPlain hy (halive hpt nofun) hf hpt⟩
  | @allocChild q fn sc y hf hstep =>
    obtain ⟨hpt, rfl⟩ := Sys.at_eq (s := s.sys) (f := (·.alloc q true)) hstep
    exact ⟨_, hi.allocChild hy (halive hpt nofun) hf hpt⟩
  | allocFail hf hstep => exact ⟨own, hi.allocFail hy (hi.born hf nofun) hf hstep⟩
  | load hf hstep => exact ⟨own, hi.load hy (hi.born hf nofun) hf hstep⟩
  | use hf => exact ⟨own, hi.use hf⟩
  | call hf hstep =>
    have hq := halive (call_running hstep) nofun
    exact ⟨own, hi.outside hy hq hf (call_plain hy hstep)⟩
  | @go q y hf hgo =>
    have hq : q < s.sys.count := by
      refine hy.born ?_
      intro e
      have hgo' : s.sys.go q = some y := hgo
      unfold Sys.go at hgo'
      simp [e] at hgo'
    exact ⟨own, hi.outside hy hq hf (go_plain hy hgo)⟩
  | creating hf hpt hgo => exact ⟨own, hi.create hy (hi.born hf nofun) hf hpt hgo⟩
  | readTid hf hpt => exact ⟨own, hi.readTid hy (hi.born hf nofun) hf hpt⟩
  | created hf => exact ⟨own, hi.afterCreate hy (hi.born hf nofun) hf⟩
  | freeing hf => exact ⟨own, hi.freeScratch hy (hi.born hf nofun) hf⟩
  | leave hf hpt hgo => exact ⟨own, hi.leave hy (hi.born hf nofun) hf hpt hgo⟩
  | leaveMissed hf hpt => exact ⟨own, hi.leaveMissed hy (hi.born hf nofun) hf hpt⟩
  | loaded hf => exact ⟨own, hi.freeName hy (hi.born hf nofun) hf⟩

end Rules

theorem inv_boot : Inv (fun _ => .copy 0) State.boot where
  sound := rfl
  fresh _ _ := rfl
  unborn _ _ := ⟨rfl, rfl, rfl⟩
  thread p hp := by
    obtain rfl : p = 0 := Nat.lt_one_iff.mp hp
    exact ⟨rfl, by decide⟩
  name c fn h := by cases h

theorem reach_inv {ok : State.Act → State → Prop} {s : State}
    (hr : Reach State.Booted State.step ok s) : s.sys.Inv ∧ ∃ own, Inv own s := by
  have hsys : ∀ {s}, Reach State.Booted State.step ok s → s.sys.Inv :=
    fun hr => (Sys.reachable_inv (State.reach_sys hr)).1
  refine ⟨hsys hr, ?_⟩
  refine Reach.induct (P := fun s => ∃ own, Inv own s) ?_ ?_ s hr
  · intro s hs
    subst hs
    exact ⟨_, inv_boot⟩
  · intro a s s' hr ih _ hs
    obtain ⟨own, hi⟩ := ih
    exact hi.step (hsys hr) hs

end Exec

end Pintos.Process
