/-
Programs as resumptions, and rely-guarantee reasoning about them.

# Programs

A program is a tree of commands: it has returned, or it is about to run
one command and continues with its answer. A state type and a partial
meaning `act` of the commands (`none`: blocked, or stopped for good) give
two readings: `exec` runs a program alone, and a pool of programs runs
one command of one program at a time.

# Reasoning

`Env.Ok p s Q` says of a program among others, at state `s`: whatever the
others do within `rely`, every command it runs is within `guar`, and when
it returns it does so with `Q`. `Triple` is `Ok` from an assertion; the
rules are one per constructor and one for sequencing. With nobody else
around (`Env.solo`, `Env.alone`) a triple is a statement about `exec`.

Commands may be restricted to the states in which `ok` holds, as the
steps of a guarded transition system are.
-/
import Mathlib.Tactic.Common

namespace Resume

/-- Commands `C` with answers `R`. -/
inductive Prog (C : Type) (R : C → Type) (α : Type) : Type
  | ret (a : α) : Prog C R α
  | op (c : C) (k : R c → Prog C R α) : Prog C R α

variable {C : Type} {R : C → Type} {σ α β : Type}

namespace Prog

def andThen : Prog C R α → (α → Prog C R β) → Prog C R β
  | .ret a, f => f a
  | .op c k, f => .op c fun v => (k v).andThen f

instance : Monad (Prog C R) where
  pure := .ret
  bind := andThen

/-- One command. -/
def call (c : C) : Prog C R (R c) := .op c .ret

@[simp] theorem ret_bind (a : α) (f : α → Prog C R β) : (Prog.ret a : Prog C R α) >>= f = f a := rfl

@[simp] theorem pure_bind (a : α) (f : α → Prog C R β) : (pure a : Prog C R α) >>= f = f a := rfl

@[simp] theorem call_bind (c : C) (f : R c → Prog C R β) :
    (Prog.call c : Prog C R (R c)) >>= f = .op c f := rfl

@[simp] theorem op_bind (c : C) (k : R c → Prog C R α) (f : α → Prog C R β) :
    (Prog.op c k : Prog C R α) >>= f = .op c fun v => k v >>= f := rfl

theorem bind_pure (p : Prog C R α) : p >>= pure = p := by
  induction p with
  | ret a => rfl
  | op c k ih => exact congrArg (Prog.op c) (funext ih)

theorem bind_assoc {γ : Type} (p : Prog C R α) (f : α → Prog C R β) (g : β → Prog C R γ) :
    p >>= f >>= g = p >>= fun a => f a >>= g := by
  induction p with
  | ret a => rfl
  | op c k ih => exact congrArg (Prog.op c) (funext ih)

/-- Run alone. -/
def exec (act : (c : C) → σ → Option (R c × σ)) : Prog C R α → σ → Option (α × σ)
  | .ret a, s => some (a, s)
  | .op c k, s =>
    match act c s with
    | none => none
    | some (v, s') => (k v).exec act s'

variable {act : (c : C) → σ → Option (R c × σ)}

theorem exec_pure (a : α) (s : σ) : (pure a : Prog C R α).exec act s = some (a, s) := rfl

theorem exec_call (c : C) (s : σ) : (Prog.call c : Prog C R (R c)).exec act s = act c s := by
  unfold call
  rw [exec]
  cases act c s <;> rfl

/-- Sequencing runs one program after the other. -/
theorem exec_bind (p : Prog C R α) (f : α → Prog C R β) (s : σ) :
    (p >>= f).exec act s = (p.exec act s).bind fun r => (f r.1).exec act r.2 := by
  induction p generalizing s with
  | ret a => rfl
  | op c k ih =>
    rw [op_bind, exec, exec]
    cases act c s with
    | none => rfl
    | some r => exact ih r.1 r.2

/-- The first part has returned. -/
theorem exec_seq {p : Prog C R α} {f : α → Prog C R β} {s s' : σ} {a : α}
    (h : p.exec act s = some (a, s')) : (p >>= f).exec act s = (f a).exec act s' := by
  rw [exec_bind, h, Option.bind_some]

/-- A sequence that returns has returned from its first part. -/
theorem exec_bind_some {p : Prog C R α} {f : α → Prog C R β} {s s' : σ}
    {b : β} (h : (p >>= f).exec act s = some (b, s')) :
    ∃ a s₁, p.exec act s = some (a, s₁) ∧ (f a).exec act s₁ = some (b, s') := by
  rw [exec_bind, Option.bind_eq_some_iff] at h
  obtain ⟨⟨a, s₁⟩, hp, hf⟩ := h
  exact ⟨a, s₁, hp, hf⟩

/-- Every command of the program is one of `P`. -/
def Only (P : C → Prop) : Prog C R α → Prop
  | .ret _ => True
  | .op c k => P c ∧ ∀ v, (k v).Only P

theorem Only.bind {P : C → Prop} {p : Prog C R α} {f : α → Prog C R β}
    (hp : p.Only P) (hf : ∀ a, (f a).Only P) : (p >>= f).Only P := by
  induction p with
  | ret a => exact hf a
  | op c k ih => exact ⟨hp.1, fun v => ih v (hp.2 v)⟩

theorem Only.ite {P : C → Prop} {b : Prop} {_ : Decidable b} {p q : Prog C R α} (hp : p.Only P)
    (hq : q.Only P) : (if b then p else q).Only P := by
  split
  · exact hp
  · exact hq

end Prog

/-- The world a program runs in: the meaning of the commands, when they
may be run, what others may do at any time, and what the program itself
may do. -/
structure Env (C : Type) (R : C → Type) (σ : Type) where
  act : (c : C) → σ → Option (R c × σ)
  ok : C → σ → Prop
  rely : σ → σ → Prop
  guar : σ → σ → Prop
  refl : ∀ s, rely s s
  trans : ∀ s s' s'', rely s s' → rely s' s'' → rely s s''

namespace Env

def Ok (E : Env C R σ) : Prog C R α → σ → (α → σ → Prop) → Prop
  | .ret a, s, Q => ∀ s', E.rely s s' → Q a s'
  | .op c k, s, Q => ∀ s', E.rely s s' → E.ok c s' →
      ∀ v s'', E.act c s' = some (v, s'') → E.guar s' s'' ∧ E.Ok (k v) s'' Q

/-- `A` survives what the others do. -/
def Stable (E : Env C R σ) (A : σ → Prop) : Prop := ∀ s s', A s → E.rely s s' → A s'

def Triple (E : Env C R σ) (A : σ → Prop) (p : Prog C R α) (B : α → σ → Prop) : Prop :=
  ∀ s, A s → E.Ok p s B

variable {E : Env C R σ}
variable {A : σ → Prop} {B : α → σ → Prop} {p : Prog C R α} {s s' : σ} {c : C}

-- ==== Ok

theorem Ok.conseq {Q Q' : α → σ → Prop} (hQ : ∀ a s, Q a s → Q' a s) :
    ∀ {p : Prog C R α} {s : σ}, E.Ok p s Q → E.Ok p s Q' := by
  intro p
  induction p with
  | ret a => exact fun h s' hr => hQ a s' (h s' hr)
  | op c k ih =>
    intro s h s' hr hok v s'' hact
    obtain ⟨hg, hk⟩ := h s' hr hok v s'' hact
    exact ⟨hg, ih v hk⟩

theorem Ok.bind {f : α → Prog C R β} {Q : β → σ → Prop} :
    ∀ {p : Prog C R α} {s : σ}, E.Ok p s (fun a s' => E.Ok (f a) s' Q) → E.Ok (p >>= f) s Q := by
  intro p
  induction p with
  | ret a => exact fun h => h _ (E.refl _)
  | op c k ih =>
    intro s h s' hr hok v s'' hact
    obtain ⟨hg, hk⟩ := h s' hr hok v s'' hact
    exact ⟨hg, ih v hk⟩

-- ==== triples

/-- A program that returns at once. -/
theorem Triple.ret {a : α} (hA : E.Stable A) (h : ∀ s, A s → B a s) : E.Triple A (.ret a) B :=
  fun s hs s' hr => h s' (hA s s' hs hr)

/-- One command and what follows it. -/
theorem Triple.op {k : R c → Prog C R α} {M : R c → σ → Prop} (hA : E.Stable A)
    (hstep : ∀ s v s', A s → E.ok c s → E.act c s = some (v, s') → E.guar s s' ∧ M v s')
    (hk : ∀ v, E.Triple (M v) (k v) B) : E.Triple A (.op c k) B := by
  intro s hs s' hr hok v s'' hact
  obtain ⟨hg, hM⟩ := hstep s' v s'' (hA s s' hs hr) hok hact
  exact ⟨hg, hk v s'' hM⟩

/-- A command on its own. -/
theorem Triple.call {B : R c → σ → Prop} (hA : E.Stable A) (hB : ∀ v, E.Stable (B v))
    (hstep : ∀ s v s', A s → E.ok c s → E.act c s = some (v, s') →
      E.guar s s' ∧ B v s') : E.Triple A (Prog.call c) B :=
  Triple.op hA hstep fun v => .ret (hB v) fun _ h => h

/-- A program after another. -/
theorem Triple.bind {f : α → Prog C R β} {Q : β → σ → Prop} (hp : E.Triple A p B)
    (hf : ∀ a, E.Triple (B a) (f a) Q) : E.Triple A (p >>= f) Q :=
  fun s hs => .bind ((hp s hs).conseq fun a s' h => hf a s' h)

theorem Triple.conseq {A' : σ → Prop} {B' : α → σ → Prop} (h : E.Triple A p B)
    (hA : ∀ s, A' s → A s) (hB : ∀ a s, B a s → B' a s) : E.Triple A' p B' :=
  fun s hs => (h s (hA s hs)).conseq hB

/-- The postcondition may be weakened. -/
theorem Triple.post {B' : α → σ → Prop} (h : E.Triple A p B) (hB : ∀ a s, B a s → B' a s) :
    E.Triple A p B' :=
  h.conseq (fun _ hs => hs) hB

/-- A fact that does not depend on the state may be pulled out. -/
theorem Triple.assume {P : Prop} (h : P → E.Triple A p B) :
    E.Triple (fun s => P ∧ A s) p B := fun s hs => h hs.1 s hs.2

/-- It is enough to start from each state by itself. -/
theorem Triple.each (h : ∀ s, A s → E.Triple (fun s' => s' = s) p B) : E.Triple A p B :=
  fun s hs => h s hs s rfl

/-- So may one that the assertion implies. -/
theorem Triple.implied {P : Prop} (hP : ∀ s, A s → P) (h : P → E.Triple A p B) :
    E.Triple A p B := fun s hs => h (hP s hs) s hs

theorem Triple.exists {ι : Type} {A : ι → σ → Prop}
    (h : ∀ i, E.Triple (A i) p B) : E.Triple (fun s => ∃ i, A i s) p B :=
  fun s ⟨i, hs⟩ => h i s hs

theorem Stable.and {B : σ → Prop} (hA : E.Stable A) (hB : E.Stable B) :
    E.Stable fun s => A s ∧ B s :=
  fun s s' h hr => ⟨hA s s' h.1 hr, hB s s' h.2 hr⟩

theorem Stable.exists {ι : Type} {A : ι → σ → Prop}
    (h : ∀ i, E.Stable (A i)) : E.Stable fun s => ∃ i, A i s :=
  fun s s' ⟨i, hs⟩ hr => ⟨i, h i s s' hs hr⟩

theorem stable_const (P : Prop) : E.Stable fun _ => P := fun _ _ h _ => h

-- ==== solo

/-- Nobody else, and no restriction; `guar` is what the program does. -/
def solo (act : (c : C) → σ → Option (R c × σ)) (guar : σ → σ → Prop) : Env C R σ where
  act := act
  ok := fun _ _ => True
  rely := fun s s' => s' = s
  guar := guar
  refl := fun _ => rfl
  trans := fun _ _ _ h h' => h'.trans h

variable {act : (c : C) → σ → Option (R c × σ)} {guar : σ → σ → Prop} {a : α}

theorem stable_solo (A : σ → Prop) : (solo act guar).Stable A := by
  rintro s _ h rfl
  exact h

theorem Triple.exec_solo {p : Prog C R α} (h : (solo act guar).Triple A p B)
    {s' : σ} (hA : A s) (he : p.exec act s = some (a, s')) : B a s' := by
  have hok : ∀ {p : Prog C R α} {s s' : σ} {a : α},
      (solo act guar).Ok p s B → p.exec act s = some (a, s') → B a s' := by
    intro p
    induction p with
    | ret b =>
      intro s s' a h he
      cases he
      exact h _ rfl
    | op c k ih =>
      intro s s' a h he
      unfold Prog.exec at he
      cases hc : act c s with
      | none => simp [hc] at he
      | some r =>
        rw [hc] at he
        exact ih r.1 (h s rfl trivial r.1 r.2 hc).2 he
  exact hok (h s hA) he

theorem Triple.solo_ret (h : ∀ s, A s → B a s) : (solo act guar).Triple A (.ret a) B :=
  Triple.ret (stable_solo A) h

theorem Triple.solo_call {B : R c → σ → Prop}
    (h : ∀ s v s', A s → act c s = some (v, s') → guar s s' ∧ B v s') :
    (solo act guar).Triple A (Prog.call c) B :=
  Triple.call (stable_solo A) (fun v => stable_solo (B v)) fun s v s' hA _ hact => h s v s' hA hact

/-- A program that has returned. -/
theorem Triple.returned (h : (solo act guar).Triple (fun x => x = s) (.ret a) B) : B a s :=
  h s rfl s rfl

/-- One command of a program. -/
theorem Triple.next {s' : σ} {v : R c} {k : R c → Prog C R α}
    (h : (solo act guar).Triple (fun x => x = s) (.op c k) B) (hact : act c s = some (v, s')) :
    guar s s' ∧ (solo act guar).Triple (fun x => x = s') (k v) B := by
  obtain ⟨hg, hk⟩ := h s rfl s rfl trivial v s' hact
  refine ⟨hg, ?_⟩
  rintro x rfl
  exact hk

/-- A program that changes nothing does what it does alone. -/
theorem Triple.reads (hrefl : ∀ s, guar s s) {still : C → Prop}
    (hstill : ∀ {c s v s'}, still c → act c s = some (v, s') → s' = s) {p : Prog C R α}
    (hp : p.Only still) (s₀ : σ) : (solo act guar).Triple (fun s => s = s₀) p fun a s =>
      s = s₀ ∧ p.exec act s₀ = some (a, s₀) := by
  induction p with
  | ret a => exact .solo_ret fun s hs => ⟨hs, rfl⟩
  | op c k ih =>
    refine .op (M := fun v s => act c s₀ = some (v, s₀) ∧ s = s₀)
      (stable_solo _) ?_ fun v => .assume ?_
    · rintro s v s' rfl - hact
      have hs := hstill hp.1 hact
      subst hs
      exact ⟨hrefl _, hact, rfl⟩
    · intro hact
      refine (ih v (hp.2 v)).conseq (fun _ hs => hs) ?_
      rintro a s ⟨hs, he⟩
      refine ⟨hs, ?_⟩
      rw [Prog.exec, hact]
      exact he

-- ==== alone

/-- Nobody else, and no restriction. -/
def alone (act : (c : C) → σ → Option (R c × σ)) : Env C R σ := solo act fun _ _ => True

/-- With nobody else a triple speaks of the run. -/
theorem Triple.exec {act : (c : C) → σ → Option (R c × σ)} (h : (alone act).Triple A p B) {a : α}
    (hA : A s) (he : p.exec act s = some (a, s')) : B a s' :=
  h.exec_solo hA he

end Env

end Resume
