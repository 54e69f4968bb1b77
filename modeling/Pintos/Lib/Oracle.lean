/-
Sequential programs over a state that draw on outside choices and may
stop, with a calculus of weakest liberal preconditions.

`Prog ω σ α` is a state-passing function that also threads what is outside
of the program (`ω`): the choices that are not its own (what an allocator
hands out, whether there is memory), and any record kept of its draws. A
program that stops for good leaves only this. `Wlp G p s Q` holds when
every run of `p` from `s` with `G` outside leaves `G` outside, and if it
returns, it returns with `Q`: the outside does not show in the state, so a
specification only says what is assumed of all choices.

There is one rule per constructor and one for sequencing (`wlp_bind`), and
`Wlp.conseq` to weaken a specification. `Wlp.run` applies a specification
to a run.
-/
import Mathlib.Logic.Basic

namespace Oracle

variable {ω σ α β : Type}

/-- Programs over the state `σ` with the outside `ω`. -/
def Prog (ω σ α : Type) : Type := ω → σ → Except ω (α × ω × σ)

/-- The outside after a run. -/
def left : Except ω (α × ω × σ) → ω
  | .error o => o
  | .ok (_, o, _) => o

namespace Prog

instance : Monad (Prog ω σ) where
  pure a := fun o s => .ok (a, o, s)
  bind p f := fun o s =>
    match p o s with
    | .error o' => .error o'
    | .ok (a, o', s') => f a o' s'

def get : Prog ω σ σ := fun o s => .ok (s, o, s)

def modify (f : σ → σ) : Prog ω σ Unit := fun o s => .ok ((), o, f s)

/-- Stop for good. -/
def stop : Prog ω σ α := fun o _ => .error o

/-- An outside choice; it may be limited by the state. -/
def draw (f : ω → σ → Option (α × ω)) : Prog ω σ α := fun o s =>
  match f o s with
  | none => .error o
  | some (a, o') => .ok (a, o', s)

end Prog

open Prog

variable {G : ω → Prop} {p : Prog ω σ α} {f : α → Prog ω σ β} {s s' : σ} {o o' : ω} {a : α}
variable {Q : α → σ → Prop}

/-- A sequence whose first part returns goes on from there. -/
theorem run_bind (h : p o s = .ok (a, o', s')) : (p >>= f) o s = f a o' s' := by
  simp only [bind, h]

/-- Every run of `p` from `s` with `G` outside leaves `G`, and returns with
`Q` if it does. -/
def Wlp (G : ω → Prop) (p : Prog ω σ α) (s : σ) (Q : α → σ → Prop) : Prop :=
  ∀ o, G o → G (left (p o s)) ∧ ∀ a o' s', p o s = .ok (a, o', s') → Q a s'

theorem Wlp.run (h : Wlp G p s Q) (ho : G o) (hr : p o s = .ok (a, o', s')) : Q a s' :=
  (h o ho).2 a o' s' hr

/-- The postcondition may be weakened. -/
theorem Wlp.conseq {Q' : α → σ → Prop} (h : Wlp G p s Q)
    (hQ : ∀ a s', Q a s' → Q' a s') : Wlp G p s Q' :=
  fun o ho => ⟨(h o ho).1, fun a _ s' hr => hQ a s' (h.run ho hr)⟩

/-- A program that returns without a look at what is outside. -/
theorem wlp_ok (hp : ∀ o, p o s = .ok (a, o, s')) (h : Q a s') : Wlp G p s Q := by
  intro o ho
  rw [hp o]
  refine ⟨ho, ?_⟩
  rintro _ _ _ ⟨⟩
  exact h

/-- A program that returns at once. -/
theorem wlp_pure (h : Q a s) : Wlp G (pure a : Prog ω σ α) s Q := wlp_ok (fun _ => rfl) h

theorem wlp_get {Q : σ → σ → Prop} (h : Q s s) : Wlp G (Prog.get : Prog ω σ σ) s Q :=
  wlp_ok (fun _ => rfl) h

/-- A change of the state. -/
theorem wlp_modify {g : σ → σ} {Q : Unit → σ → Prop} (h : Q () (g s)) :
    Wlp G (Prog.modify g : Prog ω σ Unit) s Q :=
  wlp_ok (fun _ => rfl) h

theorem wlp_stop : Wlp G (Prog.stop : Prog ω σ α) s Q := fun _ ho => ⟨ho, nofun⟩

/-- A program after another. -/
theorem wlp_bind {Q : β → σ → Prop}
    (h : Wlp G p s fun a s' => Wlp G (f a) s' Q) : Wlp G (p >>= f) s Q := by
  intro o ho
  obtain ⟨hG, hf⟩ := h o ho
  cases hp : p o s with
  | error o' =>
    have hrun : (p >>= f) o s = .error o' := by
      simp only [bind, hp]
    rw [hp] at hG
    rw [hrun]
    exact ⟨hG, nofun⟩
  | ok r =>
    rw [hp] at hG
    rw [run_bind hp]
    exact hf r.1 r.2.1 r.2.2 hp r.2.1 hG

/-- A program whose specification is known, and what follows it. -/
theorem Wlp.bind {R : α → σ → Prop} {Q : β → σ → Prop} (h : Wlp G p s R)
    (hf : ∀ a s', R a s' → Wlp G (f a) s' Q) : Wlp G (p >>= f) s Q :=
  wlp_bind (h.conseq hf)

/-- An answer of the outside. -/
theorem wlp_draw {g : ω → σ → Option (α × ω)}
    (h : ∀ o a o', G o → g o s = some (a, o') → G o' ∧ Q a s) : Wlp G (Prog.draw g) s Q := by
  intro o ho
  unfold Prog.draw
  cases hg : g o s with
  | none => exact ⟨ho, nofun⟩
  | some r =>
    obtain ⟨hG, hQ⟩ := h o r.1 r.2 ho hg
    refine ⟨hG, ?_⟩
    rintro _ _ _ ⟨⟩
    exact hQ

end Oracle
