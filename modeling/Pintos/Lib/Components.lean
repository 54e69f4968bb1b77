/-
The components of a list between delimiters.

`components` are the non-empty pieces. A list that has any is what comes
before its last component, that component, and delimiters (`LastWord`);
the part before is empty or ends with a delimiter, so its components are
the others.
-/
import Mathlib.Data.List.Induction

namespace Components

open List

variable {α : Type}

/-- The non-empty pieces between the elements that satisfy `p`. -/
def components (p : α → Bool) (l : List α) : List (List α) :=
  (l.splitOnP p).filter fun w => !w.isEmpty

variable {p : α → Bool} {a b w ds l q : List α} {d : α}

theorem components_nil : components p [] = [] := by simp [components, splitOnP_nil]

theorem components_append (hd : p d = true) :
    components p (a ++ d :: b) = components p a ++ components p b := by
  unfold components
  rw [splitOnP_append_cons _ _ hd, filter_append]

theorem components_cons (hd : p d = true) : components p (d :: b) = components p b := by
  have h := components_append (a := []) (b := b) hd
  rwa [components_nil, nil_append, nil_append] at h

theorem components_word (hw : ∀ c ∈ w, p c = false) (hne : w ≠ []) : components p w = [w] := by
  unfold components
  rw [splitOnP_eq_singleton hw]
  simp [hne]

/-- Delimiters at the end add nothing. -/
theorem components_delims (hds : ∀ d ∈ ds, p d = true) :
    components p (a ++ ds) = components p a := by
  induction ds generalizing a with
  | nil => rw [append_nil]
  | cons d ds ih =>
    have hrest := ih (a := []) fun c hc => hds c (mem_cons_of_mem d hc)
    rw [nil_append, components_nil] at hrest
    rw [components_append (hds d mem_cons_self), hrest, append_nil]

/-- Nor do delimiters in front. -/
theorem components_append_left (hds : ∀ d ∈ ds, p d = true) :
    components p (ds ++ a) = components p a := by
  induction ds with
  | nil => rfl
  | cons d ds ih =>
    rw [cons_append, components_cons (hds d mem_cons_self)]
    exact ih fun c hc => hds c (mem_cons_of_mem d hc)

/-- A list by its last component. -/
structure LastWord (p : α → Bool) (l q w ds : List α) : Prop where
  eq : l = q ++ (w ++ ds)
  before : q = [] ∨ ∃ q' d, q = q' ++ [d] ∧ p d = true
  ne : w ≠ []
  word : ∀ c ∈ w, p c = false
  delims : ∀ d ∈ ds, p d = true

theorem LastWord.components (h : LastWord p l q w ds) :
    components p l = Components.components p q ++ [w] := by
  have hend : Components.components p (w ++ ds) = [w] := by
    rw [components_delims h.delims, components_word h.word h.ne]
  rw [h.eq]
  rcases h.before with rfl | ⟨q', d, rfl, hd⟩
  · rw [nil_append, hend, components_nil, nil_append]
  · rw [append_assoc, singleton_append, components_append hd,
      hend, components_append hd, components_nil, append_nil]

/-- The word goes on. -/
theorem LastWord.snoc (h : LastWord p l q w []) {c : α}
    (hc : p c = false) : LastWord p (l ++ [c]) q (w ++ [c]) [] where
  eq := by
    rw [h.eq]
    simp
  before := h.before
  ne := by simp
  word := by
    intro x hx
    rcases mem_append.mp hx with hx | hx
    · exact h.word x hx
    · rw [mem_singleton.mp hx]
      exact hc
  delims := nofun

/-- One more delimiter. -/
theorem LastWord.delim (h : LastWord p l q w ds) {d : α}
    (hd : p d = true) : LastWord p (l ++ [d]) q w (ds ++ [d]) where
  eq := by
    rw [h.eq]
    simp
  before := h.before
  ne := h.ne
  word := h.word
  delims := by
    intro x hx
    rcases mem_append.mp hx with hx | hx
    · exact h.delims x hx
    · rw [mem_singleton.mp hx]
      exact hd

/-- A list is empty, all delimiters, or has a last component. -/
theorem exists_lastWord (p : α → Bool) (l : List α) :
    (∀ d ∈ l, p d = true) ∨ ∃ q w ds, LastWord p l q w ds := by
  induction l using List.reverseRecOn with
  | nil => exact .inl nofun
  | append_singleton l c ih =>
    cases hc : p c with
    | true =>
      rcases ih with hall | ⟨q, w, ds, h⟩
      · refine .inl fun d hd => ?_
        rcases mem_append.mp hd with hd | hd
        · exact hall d hd
        · rw [mem_singleton.mp hd]
          exact hc
      · exact .inr ⟨q, w, _, h.delim hc⟩
    | false =>
      refine .inr ?_
      -- the component begins here, or goes on
      have hnew : l = [] ∨ (∃ q' d, l = q' ++ [d] ∧ p d = true) →
          ∃ q w ds, LastWord p (l ++ [c]) q w ds := fun hl =>
        ⟨l, [c], [], by simp, hl, by simp, by simpa using hc, nofun⟩
      rcases ih with hall | ⟨q, w, ds, h⟩
      · refine hnew ?_
        rcases eq_nil_or_concat l with rfl | ⟨q', d, rfl⟩
        · exact .inl rfl
        · exact .inr ⟨q', d, by simp, hall d (by simp)⟩
      · rcases eq_nil_or_concat ds with rfl | ⟨ds', d, rfl⟩
        · exact ⟨q, _, [], h.snoc hc⟩
        · refine hnew (.inr ⟨q ++ (w ++ ds'), d, ?_, ?_⟩)
          · rw [h.eq]
            simp
          · exact h.delims d (by simp)

theorem exists_lastWord_of_ne_nil (h : components p l ≠ []) : ∃ q w ds, LastWord p l q w ds := by
  refine (exists_lastWord p l).resolve_left fun hall => h ?_
  have hnone := components_delims (a := []) hall
  rwa [components_nil, nil_append] at hnone

end Components
