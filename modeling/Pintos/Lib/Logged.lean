/-
Programs that log what they touch and may stop: state, a write-only log
and an error, over arbitrary types.

# Reading a program off

A program is described at a start state by five things: what its log
must satisfy for every entry to be good (`A`), whether it comes back at
all (`G`), and with which value and state. `Spec` ties the five to the
run; it is closed under sequencing (`Spec.bind`) and under bounded loops
(`Spec.mapRange`), so a client gives one `Spec` per primitive and reads
the rest off the shape of its programs.

The log keeps the entry at which a program stops: `A` of a program that
stops half way is about everything up to that entry, which is why the
second conjunct of a sequence is guarded by the first one's `G`.
-/
import Mathlib.Data.List.Range

/-- One run: the log it adds, the state it ends in, and its result. -/
structure LoggedRun (ι σ ε α : Type) where
  log : List ι
  state : σ
  result : Except ε α

/-- A program with log entries `ι`, state `σ` and errors `ε`. -/
def Logged (ι σ ε α : Type) : Type := σ → LoggedRun ι σ ε α

namespace Logged

variable {ι σ ε α β γ : Type}

def ret (a : α) : Logged ι σ ε α := fun s => ⟨[], s, .ok a⟩

def andThen (p : Logged ι σ ε α) (f : α → Logged ι σ ε β) : Logged ι σ ε β := fun s =>
  match (p s).result with
  | .error e => ⟨(p s).log, (p s).state, .error e⟩
  | .ok a => ⟨(p s).log ++ (f a (p s).state).log, (f a (p s).state).state, (f a (p s).state).result⟩

instance : Monad (Logged ι σ ε) where
  pure := ret
  bind := andThen

/-- Stop with an error. -/
def stop (e : ε) : Logged ι σ ε α := fun s => ⟨[], s, .error e⟩

/-- Run `op` at `lo, lo + 1, …`, `n` times in all. -/
def mapRange (op : Nat → Logged ι σ ε α) (lo : Nat) : Nat → Logged ι σ ε (List α)
  | 0 => pure []
  | n + 1 => do
      let a ← op lo
      let rest ← mapRange op (lo + 1) n
      pure (a :: rest)

-- ==== laws

theorem bind_ok {p : Logged ι σ ε α} {f : α → Logged ι σ ε β} {s : σ} {a : α}
    (h : (p s).result = .ok a) : (p >>= f) s = ⟨(p s).log ++ (f a (p s).state).log,
      (f a (p s).state).state, (f a (p s).state).result⟩ := by
  show andThen p f s = _
  unfold andThen
  rw [h]

theorem bind_error {p : Logged ι σ ε α} {f : α → Logged ι σ ε β} {s : σ} {e : ε}
    (h : (p s).result = .error e) : (p >>= f) s = ⟨(p s).log, (p s).state, .error e⟩ := by
  show andThen p f s = _
  unfold andThen
  rw [h]

@[simp] theorem pure_bind (a : α) (f : α → Logged ι σ ε β) :
    (pure a : Logged ι σ ε α) >>= f = f a := rfl

@[simp] theorem bind_pure (p : Logged ι σ ε α) : p >>= pure = p := by
  funext s
  cases h : (p s).result with
  | ok a =>
    rw [bind_ok h]
    show LoggedRun.mk ((p s).log ++ []) _ (Except.ok a) = _
    rw [List.append_nil, ← h]
    rfl
  | error e => rw [bind_error h, ← h]

theorem bind_assoc (p : Logged ι σ ε α) (f : α → Logged ι σ ε β) (g : β → Logged ι σ ε γ) :
    p >>= f >>= g = p >>= fun a => f a >>= g := by
  funext s
  cases h : (p s).result with
  | error e => rw [bind_error h, bind_error (e := e) (by rw [bind_error h]), bind_error h]
  | ok a =>
    cases hf : (f a (p s).state).result with
    | error e =>
      rw [bind_error (e := e) (by rw [bind_ok h]; exact hf), bind_ok h, bind_ok h, bind_error hf]
    | ok b =>
      rw [bind_ok (a := b) (by rw [bind_ok h]; exact hf), bind_ok h, bind_ok h, bind_ok hf]
      simp only [List.append_assoc]

/-- A pass over a range is a pass over its first part and one over the
rest. -/
theorem mapRange_add (op : Nat → Logged ι σ ε α) (lo a b : Nat) :
    mapRange op lo (a + b) = (do
      let xs ← mapRange op lo a
      let ys ← mapRange op (lo + a) b
      pure (xs ++ ys)) := by
  induction a generalizing lo with
  | zero =>
    rw [Nat.zero_add, Nat.add_zero]
    exact (bind_pure _).symm
  | succ a ih =>
    rw [Nat.add_right_comm a 1 b]
    show (op lo >>= fun x => mapRange op (lo + 1) (a + b) >>= fun rest => pure (x :: rest)) = _
    rw [ih]
    show _ = (op lo >>= fun x => mapRange op (lo + 1) a >>= fun rest => pure (x :: rest)) >>= _
    simp only [bind_assoc, pure_bind, List.cons_append]
    rw [Nat.add_right_comm lo 1 a, Nat.add_assoc lo a 1]

-- ==== predicates

/-- Every entry of the log has `P`. -/
def Logs (P : ι → Prop) (p : Logged ι σ ε α) (s : σ) : Prop := ∀ i ∈ (p s).log, P i

/-- The run stops with `e`. -/
def Fails (e : ε) (p : Logged ι σ ε α) (s : σ) : Prop := (p s).result = .error e

/-- The run returns `a` in state `t`. -/
def Gives (p : Logged ι σ ε α) (s : σ) (a : α) (t : σ) : Prop :=
  (p s).result = .ok a ∧ (p s).state = t

variable {P : ι → Prop} {e : ε} {p : Logged ι σ ε α} {f : α → Logged ι σ ε β} {s t u : σ}
  {U Q : Nat → Prop} {lo mid hi : Nat} {A G A' G' : Prop} {v : α} {w : β}

theorem logs_bind : Logs P (p >>= f) s ↔ Logs P p s ∧ ∀ a t, Gives p s a t → Logs P (f a) t := by
  unfold Logs Gives
  cases h : (p s).result with
  | error e' =>
    rw [bind_error h]
    simp
  | ok a =>
    rw [bind_ok h]
    simp only [List.mem_append, Except.ok.injEq]
    constructor
    · intro hall
      refine ⟨fun i hi => hall i (.inl hi), ?_⟩
      rintro a' t ⟨rfl, rfl⟩ i hi
      exact hall i (.inr hi)
    · rintro ⟨hp, hf⟩ i (hi | hi)
      · exact hp i hi
      · exact hf a _ ⟨rfl, rfl⟩ i hi

theorem fails_bind : Fails e (p >>= f) s ↔
    Fails e p s ∨ ∃ a t, Gives p s a t ∧ Fails e (f a) t := by
  unfold Fails Gives
  cases h : (p s).result with
  | error e' =>
    rw [bind_error h]
    simp
  | ok a =>
    rw [bind_ok h]
    constructor
    · exact fun hf => .inr ⟨a, _, ⟨rfl, rfl⟩, hf⟩
    · rintro (hp | ⟨a', t, ⟨ha, rfl⟩, hf⟩)
      · cases hp
      · cases ha
        exact hf

theorem gives_bind {b : β} {t : σ} : Gives (p >>= f) s b t ↔
    ∃ a u, Gives p s a u ∧ Gives (f a) u b t := by
  unfold Gives
  cases h : (p s).result with
  | error e' =>
    rw [bind_error h]
    simp
  | ok a =>
    rw [bind_ok h]
    constructor
    · exact fun hf => ⟨a, _, ⟨rfl, rfl⟩, hf⟩
    · rintro ⟨a', u, ⟨ha, rfl⟩, hf⟩
      cases ha
      exact hf

-- ==== progress

/-- From `lo` below `hi`, everything is `U` as far as `Q` lets one get:
up to and including the first that is not `Q`. -/
def Upto (U Q : Nat → Prop) (lo hi : Nat) : Prop :=
  ∀ i, lo ≤ i → i < hi → (∀ j, lo ≤ j → j < i → Q j) → U i

def Through (Q : Nat → Prop) (lo hi : Nat) : Prop := ∀ i, lo ≤ i → i < hi → Q i

theorem upto_nil : Upto U Q lo lo := fun _ h1 h2 => absurd h2 (not_lt.mpr h1)

theorem through_nil : Through Q lo lo := fun _ h1 h2 => absurd h2 (not_lt.mpr h1)

theorem upto_cons (h : lo < hi) : Upto U Q lo hi ↔ U lo ∧ (Q lo → Upto U Q (lo + 1) hi) := by
  constructor
  · intro hall
    refine ⟨hall lo le_rfl h (fun j h1 h2 => absurd h2 (not_lt.mpr h1)), ?_⟩
    intro h0 i h1 h2 hQ
    refine hall i (by omega) h2 (fun j hj hji => ?_)
    rcases Nat.eq_or_lt_of_le hj with rfl | hlt
    · exact h0
    · exact hQ j hlt hji
  · rintro ⟨hU, hrest⟩ i h1 h2 hQ
    rcases Nat.eq_or_lt_of_le h1 with rfl | hlt
    · exact hU
    · exact hrest (hQ lo le_rfl hlt) i hlt h2 (fun j hj => hQ j (by omega))

theorem through_cons (h : lo < hi) : Through Q lo hi ↔ Q lo ∧ Through Q (lo + 1) hi := by
  constructor
  · exact fun hall => ⟨hall lo le_rfl h, fun i h1 h2 => hall i (by omega) h2⟩
  · rintro ⟨h0, hrest⟩ i h1 h2
    rcases Nat.eq_or_lt_of_le h1 with rfl | hlt
    · exact h0
    · exact hrest i hlt h2

theorem Upto.mono (h : Upto U Q lo hi) (hmid : mid ≤ hi) : Upto U Q lo mid :=
  fun i h1 h2 => h i h1 (lt_of_lt_of_le h2 hmid)

theorem Through.mono (h : Through Q lo hi) (hmid : mid ≤ hi) : Through Q lo mid :=
  fun i h1 h2 => h i h1 (lt_of_lt_of_le h2 hmid)

/-- Where being `U` is enough to get on, everything is `U`. -/
theorem Upto.through (h : Upto U Q lo hi) (hUQ : ∀ i, U i → Q i) : Through U lo hi := by
  intro i
  induction i using Nat.strong_induction_on with
  | _ i ih =>
    intro h1 h2
    exact h i h1 h2 fun j hj hji => hUQ j (ih j hji hj (by omega))

/-- Where nothing stops, everything is `U`. -/
theorem Upto.of_through (h : Upto U Q lo hi) (hQ : Through Q lo hi) : Through U lo hi :=
  fun i h1 h2 => h i h1 h2 fun j hj hji => hQ j hj (by omega)

-- ==== specs

/-- At `s` the program logs only `P` entries iff `A`, returns iff `G`, and
then `v` in state `t`; it never stops with `e`. -/
structure Spec (P : ι → Prop) (e : ε) (p : Logged ι σ ε α) (s : σ)
    (A G : Prop) (v : α) (t : σ) : Prop where
  logs : Logs P p s ↔ A
  gives : ∀ x u, Gives p s x u ↔ G ∧ x = v ∧ u = t
  runs : ¬Fails e p s

theorem Spec.congr (h : Spec P e p s A G v t) (hA : A ↔ A') (hG : G ↔ G') :
    Spec P e p s A' G' v t :=
  ⟨h.logs.trans hA, fun x u => (h.gives x u).trans (and_congr_left' hG), h.runs⟩

theorem Spec.pure : Spec P e (Pure.pure v : Logged ι σ ε α) s True True v s where
  logs := ⟨fun _ => trivial, nofun⟩
  gives := by
    intro x u
    constructor
    · rintro ⟨hx, hu⟩
      injection hx with hx
      exact ⟨trivial, hx.symm, hu.symm⟩
    · rintro ⟨-, rfl, rfl⟩
      exact ⟨rfl, rfl⟩
  runs := nofun

section

variable (h : Spec P e p s A G v t)

include h

/-- What follows a described program. -/
theorem Spec.logs_then : Logs P (p >>= f) s ↔ A ∧ (G → Logs P (f v) t) := by
  rw [logs_bind, h.logs]
  constructor
  · rintro ⟨hA, hf⟩
    exact ⟨hA, fun hG => hf v t ((h.gives v t).mpr ⟨hG, rfl, rfl⟩)⟩
  · rintro ⟨hA, hf⟩
    refine ⟨hA, fun a u hg => ?_⟩
    obtain ⟨hG, rfl, rfl⟩ := (h.gives a u).mp hg
    exact hf hG

theorem Spec.fails_then : Fails e (p >>= f) s ↔ G ∧ Fails e (f v) t := by
  rw [fails_bind]
  constructor
  · rintro (hp | ⟨a, u, hg, hf⟩)
    · exact absurd hp h.runs
    · obtain ⟨hG, rfl, rfl⟩ := (h.gives a u).mp hg
      exact ⟨hG, hf⟩
  · rintro ⟨hG, hf⟩
    exact .inr ⟨v, t, (h.gives v t).mpr ⟨hG, rfl, rfl⟩, hf⟩

theorem Spec.bind (hf : Spec P e (f v) t A' G' w u) :
    Spec P e (p >>= f) s (A ∧ (G → A')) (G ∧ G') w u where
  logs := by rw [h.logs_then, hf.logs]
  gives := by
    intro x u'
    rw [gives_bind]
    constructor
    · rintro ⟨a, u₁, hp, hg⟩
      obtain ⟨hG, rfl, rfl⟩ := (h.gives a u₁).mp hp
      obtain ⟨hG', hx, hu⟩ := (hf.gives x u').mp hg
      exact ⟨⟨hG, hG'⟩, hx, hu⟩
    · rintro ⟨⟨hG, hG'⟩, hx, hu⟩
      exact ⟨v, t, (h.gives v t).mpr ⟨hG, rfl, rfl⟩, (hf.gives x u').mpr ⟨hG', hx, hu⟩⟩
  runs := by
    rw [h.fails_then]
    exact fun hg => hf.runs hg.2

/-- A second pass that touches nothing new. -/
theorem Spec.again (hf : Spec P e (f v) t A' G' w u) (hA : A → G → A') (hG : G → G') :
    Spec P e (p >>= f) s A G w u :=
  (h.bind hf).congr ⟨fun hb => hb.1, fun ha => ⟨ha, hA ha⟩⟩ ⟨fun hb => hb.1, fun hg => ⟨hg, hG hg⟩⟩

end

/-- A loop, from the description of one round. -/
theorem Spec.mapRange (op : Nat → Logged ι σ ε α) (U Q : Nat → Prop)
    (val : Nat → α) (st : Nat → σ) (n : Nat) :
    ∀ lo : Nat, (∀ i, lo ≤ i → i < lo + n →
      Spec P e (op i) (st i) (U i) (Q i) (val i) (st (i + 1))) →
    Spec P e (Logged.mapRange op lo n) (st lo) (Upto U Q lo (lo + n))
      (Through Q lo (lo + n)) ((List.range' lo n).map val)
      (st (lo + n)) := by
  induction n with
  | zero =>
    intro lo _
    exact Spec.pure.congr (iff_of_true trivial upto_nil) (iff_of_true trivial through_nil)
  | succ n ih =>
    intro lo hop
    have h0 := hop lo le_rfl (by omega)
    have hrest := ih (lo + 1) (fun i h1 h2 => hop i (by omega) (by omega))
    have h := h0.bind (f := fun a => Logged.mapRange op (lo + 1) n >>=
      fun rest => Pure.pure (a :: rest))
      (hrest.again Spec.pure (fun _ _ => trivial) (fun _ => trivial))
    rw [Nat.add_right_comm lo 1 n, Nat.add_assoc lo n 1] at h
    exact h.congr (upto_cons (by omega)).symm (through_cons (by omega)).symm

end Logged
