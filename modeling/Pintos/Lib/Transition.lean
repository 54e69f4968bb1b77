/-
Guarded transition systems, over an arbitrary state and an arbitrary
action alphabet.

# What the library fixes

A system is a partial step function `step : α → σ → Option σ`: `none`
is a disabled action. `Reach init step ok` is the set of states of
runs all of whose actions met the guard `ok` in the state they were
taken from; `ok := fun _ _ => True` (`Reach.weaken`) is plain
reachability. The guard is what a conditional safety result
quantifies over: the run is arbitrary, the guard cuts the runs that
take a bad step.

# The rules

- `Reach.induct`: an invariant that holds initially and survives every
  guarded step holds at every state of every guarded run.
- `runAll`/`Reach.of_runAll`: the executable run of an action list that
  also checks the guard, and its embedding in the relation, so that a
  concrete trace is a witness.
-/
import Mathlib.Logic.Basic

namespace Transition

variable {σ : Type*} {α : Type*}

/-- States of the runs of `step` from `init`, every action of which
meets `ok` in the state it is taken from. -/
inductive Reach (init : σ → Prop) (step : α → σ → Option σ)
    (ok : α → σ → Prop) : σ → Prop
  | init {s : σ} (h : init s) : Reach init step ok s
  | step {s s' : σ} (a : α) :
      Reach init step ok s → ok a s → step a s = some s' →
      Reach init step ok s'

/-- The guard of unguarded runs. -/
def anyStep (_ : α) (_ : σ) : Prop := True

variable {init : σ → Prop} {step : α → σ → Option σ} {ok : α → σ → Prop}

/-- The invariant rule: initially true, kept by every guarded step. -/
theorem Reach.induct {P : σ → Prop} (h0 : ∀ s, init s → P s)
    (hstep : ∀ a s s', Reach init step ok s → P s → ok a s → step a s = some s' → P s') :
    ∀ s, Reach init step ok s → P s := by
  intro s hr
  induction hr with
  | init h => exact h0 _ h
  | step a hr hok hs ih => exact hstep a _ _ hr ih hok hs

/-- A stronger guard reaches fewer states. -/
theorem Reach.weaken {ok' : α → σ → Prop} (himp : ∀ a s, ok a s → ok' a s)
    {s : σ} (h : Reach init step ok s) : Reach init step ok' s := by
  induction h with
  | init h => exact .init h
  | step a _ hok hs ih => exact .step a ih (himp a _ hok) hs

/-- The guard need only imply the other one along its own runs. -/
theorem Reach.relax {ok' : α → σ → Prop} (himp : ∀ a s, Reach init step ok s → ok a s → ok' a s)
    {s : σ} (h : Reach init step ok s) : Reach init step ok' s := by
  induction h with
  | init h => exact .init h
  | step a hr hok hs ih => exact .step a ih (himp a _ hr hok) hs

/-- A run from a reached state is a run. -/
theorem Reach.trans {s s' : σ} (hs : Reach init step ok s)
    (h : Reach (· = s) step ok s') : Reach init step ok s' := by
  induction h with
  | init h =>
    subst h
    exact hs
  | step a _ hok hstep ih => exact .step a ih hok hstep

/-- Run a list of actions, failing on the first disabled one. -/
def runAll (step : α → σ → Option σ) : List α → σ → Option σ
  | [], s => some s
  | a :: rest, s =>
    match step a s with
    | some s' => runAll step rest s'
    | none => none

/-- The step function that also refuses the actions outside the guard. -/
def guarded (step : α → σ → Option σ) (ok : α → σ → Prop)
    [∀ a s, Decidable (ok a s)] (a : α) (s : σ) : Option σ :=
  if ok a s then step a s else none

instance (a : α) (s : σ) : Decidable (anyStep a s) := .isTrue trivial

/-- A guarded run that ends in a state with `P` witnesses a reachable
state with `P`. -/
theorem Reach.of_runAll [∀ a s, Decidable (ok a s)] {s : σ} (hs : Reach init step ok s)
    (acts : List α) (P : σ → Prop) (hrun : ∃ s' ∈ runAll (guarded step ok) acts s, P s') :
    ∃ s', Reach init step ok s' ∧ P s' := by
  induction acts generalizing s with
  | nil =>
    obtain ⟨_, ⟨⟩, hp⟩ := hrun
    exact ⟨s, hs, hp⟩
  | cons a rest ih =>
    unfold runAll guarded at hrun
    by_cases hok : ok a s
    · rw [if_pos hok] at hrun
      cases h1 : step a s with
      | none => simp [h1] at hrun
      | some s₁ =>
        rw [h1] at hrun
        exact ih (.step a hs hok h1) hrun
    · simp [if_neg hok] at hrun

end Transition
