/-
Programs run alone: that they return, and what they do on the way.

# Returning

`Runs act p s Q` says that the program returns from `s`, with `Q`.

# Checks

`Below act p q` says that where `p` returns, `q` returns the same. A
program with checks added is below the one without them, so if it returns
then the other did nothing that the checks are about.

# On the way

`trace` is the commands that a run issues, also the one it stops at;
`Logs` is a run that returns, with its trace. `Enters` says that a run
comes to another program on its way.

# From start to end

`Within act rel p` says that every run of `p` that returns relates its
first state to its last; for a preorder it is enough to look at the
commands.
-/
import Pintos.Lib.Resume

namespace Resume

open Env

variable {C : Type} {R : C → Type} {σ α β : Type}

namespace Prog

variable {act : (c : C) → σ → Option (R c × σ)}
variable {p q : Prog C R α} {s : σ} {f : α → Prog C R β}

-- ==== returning

def Runs (act : (c : C) → σ → Option (R c × σ)) (p : Prog C R α) (s : σ)
    (Q : α → σ → Prop) : Prop :=
  ∃ a s', p.exec act s = some (a, s') ∧ Q a s'

variable {Q Q' : α → σ → Prop} {rel rel' : σ → σ → Prop}

theorem Runs.pure {a : α} (h : Q a s) : Runs act (Pure.pure a : Prog C R α) s Q := ⟨a, s, rfl, h⟩

theorem Runs.of_exec {a : α} {s' : σ} (he : p.exec act s = some (a, s'))
    (h : Q a s') : Runs act p s Q :=
  ⟨a, s', he, h⟩

/-- The first program has returned. -/
theorem Runs.after {B : β → σ → Prop} {a : α} {s' : σ} (he : p.exec act s = some (a, s'))
    (h : Runs act (f a) s' B) : Runs act (p >>= f) s B := by
  obtain ⟨b, s'', he', hB⟩ := h
  refine ⟨b, s'', ?_, hB⟩
  rw [exec_bind, he]
  exact he'

/-- A program after another. -/
theorem Runs.bind {B : β → σ → Prop} (h : Runs act p s Q)
    (hf : ∀ a s', Q a s' → Runs act (f a) s' B) : Runs act (p >>= f) s B := by
  obtain ⟨a, s', he, hQ⟩ := h
  exact .after he (hf a s' hQ)

theorem Runs.conseq (h : Runs act p s Q) (hQ : ∀ a s', Q a s' → Q' a s') : Runs act p s Q' := by
  obtain ⟨a, s', he, hq⟩ := h
  exact ⟨a, s', he, hQ a s' hq⟩

/-- What the program returns is what it returns. -/
theorem Runs.exec (h : Runs act p s Q) {a : α} {s' : σ}
    (he : p.exec act s = some (a, s')) : Q a s' := by
  obtain ⟨b, s'', he', hQ⟩ := h
  rw [he] at he'
  cases he'
  exact hQ

-- ==== checks

def Below (act : (c : C) → σ → Option (R c × σ)) (p q : Prog C R α) : Prop :=
  ∀ s r, p.exec act s = some r → q.exec act s = some r

theorem Below.refl (p : Prog C R α) : Below act p p := fun _ _ h => h

theorem Below.bind {g : α → Prog C R β} (h : Below act p q)
    (hf : ∀ a, Below act (f a) (g a)) : Below act (p >>= f) (q >>= g) := by
  rintro s ⟨b, s'⟩ he
  obtain ⟨a, s₁, hp, hb⟩ := exec_bind_some he
  rw [exec_bind, h s _ hp]
  exact hf a s₁ _ hb

theorem Below.ite {b : Prop} {_ : Decidable b} {p' q' : Prog C R α} (h : Below act p q)
    (h' : Below act p' q') : Below act (if b then p else p') (if b then q else q') := by
  split
  · exact h
  · exact h'

variable {c : C}

/-- A command that can only fail or give this answer, changing nothing. -/
theorem Below.check {v : R c} (hc : ∀ s r, act c s = some r → r = (v, s)) :
    Below act (Prog.call c) (Pure.pure v) := by
  intro s r he
  rw [exec_call] at he
  exact congrArg some (hc s r he).symm

-- ==== on the way

def trace (act : (c : C) → σ → Option (R c × σ)) : Prog C R α → σ → List C
  | .ret _, _ => []
  | .op c k, s => c ::
      match act c s with
      | none => []
      | some (v, s') => (k v).trace act s'

/-- The run from `s` issues the commands `L` and returns `a` at `s'`. -/
structure Logs (act : (c : C) → σ → Option (R c × σ)) (p : Prog C R α)
    (s : σ) (L : List C) (a : α) (s' : σ) : Prop where
  exec : p.exec act s = some (a, s')
  trace : p.trace act s = L

theorem Logs.pure (a : α) (s : σ) : Logs act (Pure.pure a : Prog C R α) s [] a s := ⟨rfl, rfl⟩

theorem Logs.call {s' : σ} {v : R c} (h : act c s = some (v, s')) :
    Logs act (Prog.call c : Prog C R (R c)) s [c] v s' := by
  refine ⟨(exec_call c s).trans h, ?_⟩
  unfold Prog.call Prog.trace
  rw [h]
  rfl

theorem trace_bind (p : Prog C R α) (f : α → Prog C R β) (s : σ) :
    (p >>= f).trace act s = p.trace act s ++
      match p.exec act s with
      | none => []
      | some (a, s') => (f a).trace act s' := by
  induction p generalizing s with
  | ret a => rfl
  | op c k ih =>
    rw [op_bind, Prog.trace, Prog.trace, Prog.exec]
    cases act c s with
    | none => rfl
    | some v => exact congrArg (c :: ·) (ih v.1 v.2)

/-- The commands of two programs in sequence. -/
theorem Logs.bind {s₁ s' : σ} {L L' : List C} {a : α} {b : β} (h : Logs act p s L a s₁)
    (h' : Logs act (f a) s₁ L' b s') : Logs act (p >>= f) s (L ++ L') b s' := by
  constructor
  · rw [exec_bind, h.exec]
    exact h'.exec
  · rw [trace_bind, h.trace, h.exec]
    exact congrArg (L ++ ·) h'.trace

/-- A run's commands are those of its parts. -/
theorem mem_trace_bind (h : c ∈ (p >>= f).trace act s) :
    c ∈ p.trace act s ∨ ∃ a s', p.exec act s = some (a, s') ∧ c ∈ (f a).trace act s' := by
  rw [trace_bind, List.mem_append] at h
  refine h.imp_right fun h => ?_
  cases he : p.exec act s with
  | none => simp [he] at h
  | some r =>
    rw [he] at h
    exact ⟨r.1, r.2, rfl, h⟩

theorem call_mem_trace (c : C) (s : σ) : c ∈ (Prog.call c : Prog C R (R c)).trace act s := by
  unfold Prog.call Prog.trace
  exact List.mem_cons_self

theorem mem_trace_call {d : C} (h : d ∈ (Prog.call c : Prog C R (R c)).trace act s) : d = c := by
  unfold Prog.call Prog.trace at h
  rcases List.mem_cons.mp h with h | h
  · exact h
  · cases hc : act c s with
    | none => simp [hc] at h
    | some v =>
      rw [hc] at h
      cases h

/-- The run of `p` from `s` comes to `q` at `s'`: it issues the commands of
`q`, and returns only if `q` does. -/
structure Enters (act : (c : C) → σ → Option (R c × σ)) (p : Prog C R α) (s : σ)
    (q : Prog C R β) (s' : σ) : Prop where
  trace : ∀ c, c ∈ q.trace act s' → c ∈ p.trace act s
  exec : q.exec act s' = none → p.exec act s = none

theorem Enters.refl (p : Prog C R α) (s : σ) : Enters act p s p s := ⟨fun _ hc => hc, fun h => h⟩

/-- A sequence begins with its first part. -/
theorem Enters.first : Enters act (p >>= f) s p s where
  trace := by
    intro c hc
    rw [trace_bind]
    exact List.mem_append_left _ hc
  exec := by
    intro hnone
    rw [exec_bind, hnone]
    rfl

/-- What is entered once the first part has returned. -/
theorem Enters.after {γ : Type} {q : Prog C R γ} {a : α} {s₁ s' : σ}
    (he : p.exec act s = some (a, s₁)) (h : Enters act (f a) s₁ q s') :
    Enters act (p >>= f) s q s' where
  trace := by
    intro c hc
    rw [trace_bind, he]
    exact List.mem_append_right _ (h.trace c hc)
  exec := by
    intro hnone
    rw [exec_seq he]
    exact h.exec hnone

theorem Enters.trans {γ : Type} {p' : Prog C R β} {q : Prog C R γ} {s₁ s' : σ}
    (h : Enters act p s p' s₁) (h' : Enters act p' s₁ q s') : Enters act p s q s' :=
  ⟨fun c hc => h.trace c (h'.trace c hc), fun hnone => h.exec (h'.exec hnone)⟩

/-- A program of commands that change nothing changes nothing. -/
theorem Only.exec_same {still : C → Prop}
    (hstill : ∀ {c s v s'}, still c → act c s = some (v, s') → s' = s) :
    ∀ {p : Prog C R α} {s s' : σ} {a : α}, p.Only still → p.exec act s = some (a, s') → s' = s := by
  intro p
  induction p with
  | ret b =>
    intro s s' a _ he
    cases he
    rfl
  | op c k ih =>
    intro s s' a hp he
    rw [Prog.exec] at he
    cases hc : act c s with
    | none => simp [hc] at he
    | some r =>
      rw [hc] at he
      exact (ih r.1 (hp.2 r.1) he).trans (hstill hp.1 hc)

-- ==== from start to end

def Within (act : (c : C) → σ → Option (R c × σ)) (rel : σ → σ → Prop) (p : Prog C R α) : Prop :=
  ∀ s a s', p.exec act s = some (a, s') → rel s s'

theorem Within.pure (hrefl : ∀ s, rel s s) (a : α) : Within act rel (Pure.pure a : Prog C R α) := by
  intro s b s' he
  cases he
  exact hrefl s

theorem Within.call {c : C} (h : ∀ s v s', act c s = some (v, s') →
    rel s s') : Within act rel (Prog.call c : Prog C R (R c)) := by
  intro s v s' he
  rw [exec_call] at he
  exact h s v s' he

/-- A transitive relation is kept in sequence. -/
theorem Within.bind (htrans : ∀ {s s' s''}, rel s s' → rel s' s'' → rel s s'')
    (hp : Within act rel p) (hf : ∀ a, Within act rel (f a)) : Within act rel (p >>= f) := by
  intro s b s' he
  obtain ⟨a, s₁, hpe, hfe⟩ := exec_bind_some he
  exact htrans (hp s a s₁ hpe) (hf a s₁ b s' hfe)

theorem Within.ite {b : Prop} {_ : Decidable b} {q : Prog C R α} (hp : Within act rel p)
    (hq : Within act rel q) : Within act rel (if b then p else q) := by
  split
  · exact hp
  · exact hq

theorem Within.mono (hp : Within act rel p)
    (h : ∀ s s', rel s s' → rel' s s') : Within act rel' p :=
  fun s a s' he => h s s' (hp s a s' he)

/-- A program of commands that change nothing. -/
theorem Only.within {still : C → Prop}
    (hstill : ∀ {c s v s'}, still c → act c s = some (v, s') → s' = s)
    (hp : p.Only still) (hrefl : ∀ s, rel s s) : Within act rel p := by
  intro s a s' he
  rw [Only.exec_same hstill hp he]
  exact hrefl s

end Prog

end Resume
