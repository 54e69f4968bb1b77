/-
What a step of the process system leaves alone outside the thread that
takes it.

A step of `p` changes the point of `p` only, the protocol's fields of at
most one child, and nobody's `tid`, unless it creates a thread or ends a
load. `Quiet` says this in the terms the handshake needs; `Plain` adds
that the step does not set `calling_exec`, which all but the one in
`process_execute` satisfy.
-/
import Pintos.Userprog.Exec

namespace Pintos.Process

namespace Exec

open Transition

-- ==== steps of others

/-- A thread past its load has reported it. -/
def Told (y : Sys) (c : ThreadId) : Prop :=
  (y.proc c).point.phase ≠ .loading → 0 < (y.proc c).loadMutex

/-- A step of `p` that neither creates a thread nor ends a load. -/
structure Quiet (p : ThreadId) (y y' : Sys) : Prop where
  count : y'.count = y.count
  point : ∀ u, u ≠ p → (y'.proc u).point = (y.proc u).point
  flag : ∀ u, u ≠ p → (y'.proc u).callingExec = (y.proc u).callingExec
  creator : ∀ u, (y'.proc u).creator = (y.proc u).creator
  byExec : ∀ u, (y'.proc u).byExec = (y.proc u).byExec
  tid : ∀ u, (y'.proc u).tid = (y.proc u).tid
  told : ∀ c, (y.proc p).point ≠ .onChild c .loadWait → Told y c → Told y' c
  loading : (y.proc p).point ≠ .loading → (y'.proc p).point ≠ .loading

/-- One that does not set `calling_exec`. -/
structure Plain (p : ThreadId) (y y' : Sys) : Prop extends Quiet p y y' where
  lowered : (y.proc p).callingExec = false → (y'.proc p).callingExec = false

/-- The log is not looked at. -/
theorem Quiet.of_proc {y y' : Sys} (p : ThreadId) (hs : y'.proc = y.proc)
    (hcount : y'.count = y.count) : Quiet p y y' := by
  refine ⟨hcount, ?_, ?_, ?_, ?_, ?_, ?_, ?_⟩ <;>
    simp [Told, hs]

variable {y y' : Sys} {p : ThreadId} {a : Sys.Act}

theorem Quiet.of_shape (h : Sys.Shape a p y y') : Quiet p y y' := by
  refine ⟨h.count, fun u hu => (h.base u hu).point,
    fun u hu => (h.base u hu).callingExec, ?_, ?_, ?_, ?_, ?_⟩
  · intro u
    by_cases hu : u = p
    · exact hu ▸ h.own.creator
    · exact (h.base u hu).creator
  · intro u
    by_cases hu : u = p
    · exact hu ▸ h.own.byExec
    · exact (h.base u hu).byExec
  · intro u
    by_cases hu : u = p
    · exact hu ▸ h.own.tid
    · exact h.tid u hu
  · intro c hc ht
    unfold Told at ht ⊢
    by_cases hcp : c = p
    · subst hcp
      intro _
      rcases h.own.told with ⟨-, hpos⟩ | ⟨hph, hm⟩
      · exact hpos
      · exact hm ▸ ht hph
    · rw [(h.base c hcp).point, h.mutex c hcp hc]
      exact ht
  · intro _ hl
    rcases h.own.point with hp | ⟨hp, -⟩
    · rw [hl] at hp
      cases hp
    · cases hl.symm.trans hp

theorem Plain.of_shape (h : Sys.Shape a p y y') (ha : a ≠ .exec p) : Plain p y y' :=
  ⟨.of_shape h, h.own.lowered ha⟩

theorem call_running {k : State.Call} (h : y.step (k.act p) = some y') :
    (y.proc p).point = .running := by
  by_contra hpt
  cases k <;> simp [State.Call.act, Sys.step, Sys.at_, hpt] at h

/-- The calls of a thread outside the two functions. -/
theorem call_plain (hi : y.Inv) {k : State.Call}
    (h : y.step (k.act p) = some y') : Plain p y y' := by
  have hs : Sys.Shape (k.act p) (k.act p).actor y y' := by
    refine Sys.step_shape hi h ?_ ?_ <;> cases k <;> nofun
  cases k <;> exact .of_shape hs nofun

theorem go_plain (hi : y.Inv) (h : y.go p = some y') : Plain p y y' :=
  .of_shape (Sys.go_shape hi h) nofun

theorem alloc_plain (hi : y.Inv) (hpt : (y.proc p).point = .creating) :
    Plain p y (y.alloc p false) :=
  .of_shape (Sys.step_shape (a := .alloc p false) hi (if_pos hpt) nofun nofun) nofun

end Exec

end Pintos.Process
