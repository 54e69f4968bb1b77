/-
The ordered-list operations of `lib/kernel/list.c`, at the level of
sequences: `list_insert_ordered`, `list_sort` and `list_max`, each over
an arbitrary element type and an arbitrary `less`.

`list_sort` is the source's natural merge sort, pass by pass: a pass
cuts the list into maximal nondecreasing runs and merges them pairwise,
and passes repeat while more than one run came out. The fuel of the
outer loop is the length of the list; a pass never outputs more runs
than there are elements and every further pass merges at least two of
them.
-/
import Mathlib.Data.List.Perm.Basic

namespace Pintos

open List

variable {α : Type}
variable {less : α → α → Bool} {l : List α}

/-- No later element is less than an earlier one. -/
abbrev Nondecreasing (less : α → α → Bool) (l : List α) : Prop :=
  l.Pairwise fun x y => less y x = false

-- ==== ordered insertion

/-- `list_insert_ordered`: before the first element the new one is less
than, at the end when there is none. -/
def listInsertOrdered (less : α → α → Bool) (elem : α) : List α → List α
  | [] => [elem]
  | e :: rest =>
    if less elem e then elem :: e :: rest
    else e :: listInsertOrdered less elem rest

theorem listInsertOrdered_perm (less : α → α → Bool) (a : α) (l : List α) :
    (listInsertOrdered less a l).Perm (a :: l) := by
  induction l with
  | nil => exact List.Perm.refl _
  | cons e rest ih =>
    unfold listInsertOrdered
    split
    · exact List.Perm.refl _
    · exact (ih.cons e).trans (List.Perm.swap a e rest)

@[simp] theorem mem_listInsertOrdered {a b : α} :
    b ∈ listInsertOrdered less a l ↔ b = a ∨ b ∈ l := by
  rw [(listInsertOrdered_perm less a l).mem_iff, mem_cons]

/-- Inserting into a nondecreasing list keeps it so, provided `less` is
asymmetric and its negation is transitive (a strict weak order). -/
theorem listInsertOrdered_sorted (hasymm : ∀ a b, less a b = true → less b a = false)
    (htrans : ∀ a b c, less b a = false → less c b = false → less c a = false) (a : α)
    (hl : Nondecreasing less l) : Nondecreasing less (listInsertOrdered less a l) := by
  induction l with
  | nil => exact pairwise_singleton _ _
  | cons e rest ih =>
    obtain ⟨he, hrest⟩ := pairwise_cons.mp hl
    unfold listInsertOrdered
    split
    next hlt =>
      have hae : less e a = false := hasymm a e hlt
      refine pairwise_cons.mpr ⟨?_, hl⟩
      intro y hy
      rcases mem_cons.mp hy with rfl | hy
      · exact hae
      · exact htrans a e y hae (he y hy)
    next hnlt =>
      refine pairwise_cons.mpr ⟨?_, ih hrest⟩
      intro y hy
      rcases mem_listInsertOrdered.mp hy with rfl | hy
      · exact Bool.eq_false_iff.mpr hnlt
      · exact he y hy

section Keys

variable {key : α → Int} (hless : ∀ a b, less a b = true ↔ key a < key b)

include hless

theorem not_less_iff_key (a b : α) : less b a = false ↔ key a ≤ key b := by
  rw [Bool.eq_false_iff, Ne, hless]
  omega

/-- The order by a key is a strict weak order. -/
theorem less_asymm_key (a b : α) (hab : less a b = true) : less b a = false := by
  rw [hless] at hab
  rw [not_less_iff_key hless]
  omega

theorem less_trans_key (a b c : α) (hba : less b a = false)
    (hcb : less c b = false) : less c a = false := by
  rw [not_less_iff_key hless] at hba hcb ⊢
  omega

/-- Insertion by a key keeps the list sorted by it. -/
theorem listInsertOrdered_sorted_key (a : α) (hl : l.Pairwise fun x y => key x ≤ key y) :
    (listInsertOrdered less a l).Pairwise fun x y => key x ≤ key y := by
  have hl' : Nondecreasing less l := hl.imp fun hab => (not_less_iff_key hless _ _).mpr hab
  exact (listInsertOrdered_sorted (less_asymm_key hless)
    (less_trans_key hless) a hl').imp fun hab => (not_less_iff_key hless _ _).mp hab

end Keys

-- ==== list_sort

/-- `find_end_of_run`, started at `prev`: the elements that continue the
nondecreasing run, and the rest of the list. -/
def findEndOfRun (less : α → α → Bool) (prev : α) : List α → List α × List α
  | [] => ([], [])
  | a :: rest =>
    if less a prev then ([], a :: rest)
    else
      let (run, tail) := findEndOfRun less a rest
      (a :: run, tail)

/-- The inner half of `inplace_merge`: elements of the second run move in
front of `a` while they are less than it, then `rest` merges on. -/
def mergeBefore (less : α → α → Bool) (a : α) (rest : List α → List α) : List α → List α
  | [] => a :: rest []
  | b :: bs =>
    if less b a then b :: mergeBefore less a rest bs
    else a :: rest (b :: bs)

/-- `inplace_merge` of two runs. -/
def inplaceMerge (less : α → α → Bool) : List α → List α → List α
  | [], bs => bs
  | a :: as, bs => mergeBefore less a (inplaceMerge less as) bs

/-- One pass of `list_sort`: merge adjacent runs pairwise, counting the
runs that come out. The fuel bounds the number of pairs. -/
def mergePass (less : α → α → Bool) : Nat → List α → List α × Nat
  | 0, l => (l, 0)
  | _, [] => ([], 0)
  | n + 1, a :: rest =>
    match findEndOfRun less a rest with
    | (run, []) => (a :: run, 1)
    | (run, b :: rest₁) =>
      let (run₂, rest₂) := findEndOfRun less b rest₁
      let (out, cnt) := mergePass less n rest₂
      (inplaceMerge less (a :: run) (b :: run₂) ++ out, cnt + 1)

/-- `list_sort`: passes until at most one run comes out. -/
def listSortLoop (less : α → α → Bool) : Nat → List α → List α
  | 0, l => l
  | n + 1, l =>
    match mergePass less l.length l with
    | (l', cnt) => if 1 < cnt then listSortLoop less n l' else l'

def listSort (less : α → α → Bool) (l : List α) : List α := listSortLoop less l.length l

theorem findEndOfRun_append (less : α → α → Bool) (prev : α) (l : List α) :
    (findEndOfRun less prev l).1 ++ (findEndOfRun less prev l).2 = l := by
  induction l generalizing prev with
  | nil => rfl
  | cons a rest ih =>
    unfold findEndOfRun
    split
    · rfl
    · exact congrArg (a :: ·) (ih a)

theorem inplaceMerge_perm (less : α → α → Bool) (as bs : List α) :
    (inplaceMerge less as bs).Perm (as ++ bs) := by
  induction as generalizing bs with
  | nil => exact List.Perm.refl _
  | cons a as ih =>
    show (mergeBefore less a (inplaceMerge less as) bs).Perm (a :: as ++ bs)
    induction bs with
    | nil => exact (ih []).cons a
    | cons b bs ihb =>
      unfold mergeBefore
      split
      · exact (ihb.cons b).trans perm_middle.symm
      · exact (ih (b :: bs)).cons a

section Keeping

variable {R : List α → List α → Prop} (hrefl : ∀ l, R l l)
  (htrans : ∀ {l₁ l₂ l₃}, R l₁ l₂ → R l₂ l₃ → R l₁ l₃)
  (happ : ∀ {l₁ l₂ l₃ l₄}, R l₁ l₂ → R l₃ l₄ → R (l₁ ++ l₃) (l₂ ++ l₄))
  (hmerge : ∀ a rest bs, R (inplaceMerge less (a :: (findEndOfRun less a rest).1) bs)
    (a :: (findEndOfRun less a rest).1 ++ bs))

include hrefl happ hmerge

/-- A pass keeps what merging runs keeps. -/
theorem mergePass_keeps (n : Nat) (l : List α) : R (mergePass less n l).1 l := by
  induction n generalizing l with
  | zero => exact hrefl l
  | succ n ih =>
    cases l with
    | nil => exact hrefl []
    | cons a rest =>
      have hrun := findEndOfRun_append less a rest
      have hm := hmerge a rest
      unfold mergePass
      split
      next run h =>
        rw [h, append_nil] at hrun
        exact hrun ▸ hrefl _
      next run b rest₁ h =>
        rw [h] at hrun hm
        have hrun2 := findEndOfRun_append less b rest₁
        have hp := happ (hm (b :: (findEndOfRun less b rest₁).1)) (ih (findEndOfRun less b rest₁).2)
        rw [append_assoc, cons_append, cons_append, hrun2, hrun] at hp
        exact hp

include htrans

/-- So does the sort. -/
theorem listSort_keeps (l : List α) : R (listSort less l) l := by
  have key : ∀ n (l : List α), R (listSortLoop less n l) l := by
    intro n
    induction n with
    | zero => exact hrefl
    | succ n ih =>
      intro l
      have hp := mergePass_keeps hrefl happ hmerge l.length l
      unfold listSortLoop
      split
      next l' cnt h =>
        rw [h] at hp
        split
        · exact htrans (ih l') hp
        · exact hp
  exact key _ l

end Keeping

theorem mergePass_perm (less : α → α → Bool) (n : Nat) (l : List α) :
    (mergePass less n l).1.Perm l :=
  mergePass_keeps Perm.refl Perm.append (fun _ _ => inplaceMerge_perm less _) n l

theorem listSort_perm (less : α → α → Bool) (l : List α) : (listSort less l).Perm l :=
  listSort_keeps Perm.refl Perm.trans Perm.append (fun _ _ => inplaceMerge_perm less _) l

/-- A list without a descent is one run. -/
theorem findEndOfRun_sorted {prev : α} (hl : Nondecreasing less (prev :: l)) :
    findEndOfRun less prev l = (l, []) := by
  induction l generalizing prev with
  | nil => rfl
  | cons a rest ih =>
    obtain ⟨hprev, hrest⟩ := pairwise_cons.mp hl
    unfold findEndOfRun
    rw [hprev a (mem_cons_self ..), ih hrest]
    rfl

/-- `list_sort` leaves a list without a descent as it is, one pass being
enough to see it. -/
theorem listSort_of_sorted (hl : Nondecreasing less l) : listSort less l = l := by
  cases l with
  | nil => rfl
  | cons a rest =>
    unfold listSort listSortLoop mergePass
    simp [findEndOfRun_sorted hl]

section Sorting

variable (hasymm : ∀ a b, less a b = true → less b a = false)
variable (htrans : ∀ a b c, less b a = false → less c b = false → less c a = false)

include htrans in
/-- What `find_end_of_run` cuts off is a run. -/
theorem findEndOfRun_pairwise (prev : α) (l : List α) :
    Nondecreasing less (prev :: (findEndOfRun less prev l).1) := by
  induction l generalizing prev with
  | nil => exact pairwise_singleton _ _
  | cons a rest ih =>
    unfold findEndOfRun
    split
    · exact pairwise_singleton _ _
    next hnlt =>
      have ha : less a prev = false := Bool.eq_false_iff.mpr hnlt
      refine pairwise_cons.mpr ⟨?_, ih a⟩
      intro y hy
      rcases mem_cons.mp hy with rfl | hy
      · exact ha
      · exact htrans prev a y ha ((pairwise_cons.mp (ih a)).1 y hy)

/-- A run at the front of the list is part of what it cuts off. -/
theorem length_le_findEndOfRun {prev : α} {run : List α} (hrun : Nondecreasing less (prev :: run)) :
    run.length ≤ (findEndOfRun less prev (run ++ l)).1.length := by
  induction run generalizing prev with
  | nil => exact Nat.zero_le _
  | cons a run ih =>
    obtain ⟨hprev, hrest⟩ := pairwise_cons.mp hrun
    have hle := ih hrest
    rw [cons_append, findEndOfRun, hprev a (mem_cons_self ..)]
    exact Nat.succ_le_succ hle

include hasymm htrans in
theorem inplaceMerge_sorted {as bs : List α} (has : Nondecreasing less as)
    (hbs : Nondecreasing less bs) : Nondecreasing less (inplaceMerge less as bs) := by
  induction as generalizing bs with
  | nil => exact hbs
  | cons a as ih =>
    obtain ⟨ha, has'⟩ := pairwise_cons.mp has
    show (mergeBefore less a (inplaceMerge less as) bs).Pairwise _
    have hfirst {bs : List α} (hle : (∀ y ∈ bs, less y a = false)) y
        (hy : y ∈ inplaceMerge less as bs) : less y a = false := by
      rcases mem_append.mp ((inplaceMerge_perm less as bs).mem_iff.mp hy) with hy | hy
      · exact ha y hy
      · exact hle y hy
    induction bs with
    | nil =>
      refine pairwise_cons.mpr ⟨hfirst (by simp), ?_⟩
      exact ih has' List.Pairwise.nil
    | cons b bs ihb =>
      obtain ⟨hb, hbs'⟩ := pairwise_cons.mp hbs
      unfold mergeBefore
      split
      next hlt =>
        refine pairwise_cons.mpr ⟨?_, ihb hbs'⟩
        intro y hy
        have hab : less a b = false := hasymm b a hlt
        have hmem := (inplaceMerge_perm less (a :: as) bs).mem_iff.mp hy
        rcases mem_append.mp hmem with hy | hy
        · rcases mem_cons.mp hy with rfl | hy
          · exact hab
          · exact htrans b a y hab (ha y hy)
        · exact hb y hy
      next hnlt =>
        have hba : less b a = false := Bool.eq_false_iff.mpr hnlt
        refine pairwise_cons.mpr ⟨hfirst ?_, ih has' hbs⟩
        intro y hy
        rcases mem_cons.mp hy with rfl | hy
        · exact hba
        · exact htrans a b y hba (hb y hy)

/-- Neither is less than the other. -/
def tied (less : α → α → Bool) (x y : α) : Bool := !less x y && !less y x

include htrans in
theorem tied_not_less {x y z : α} (hy : tied less x y = true)
    (hz : tied less x z = true) : less y z = false := by
  simp only [tied, Bool.and_eq_true, Bool.not_eq_true'] at hy hz
  exact htrans z x y hz.1 hy.2

include htrans in
/-- Merging moves an element only past larger ones, so that elements that
are tied stay in order. -/
theorem inplaceMerge_tied {as bs : List α} (x : α) (has : Nondecreasing less as) :
    (inplaceMerge less as bs).filter (tied less x)
      = as.filter (tied less x) ++ bs.filter (tied less x) := by
  induction as generalizing bs with
  | nil => rfl
  | cons a as ih =>
    obtain ⟨ha, has'⟩ := pairwise_cons.mp has
    show (mergeBefore less a (inplaceMerge less as) bs).filter _ = _
    induction bs with
    | nil =>
      rw [mergeBefore, filter_cons, ih has', filter_cons]
      split <;> rfl
    | cons b bs ihb =>
      unfold mergeBefore
      split
      next hlt =>
        rw [filter_cons, ihb, filter_cons (x := b)]
        split
        next hb =>
          have hnone : (a :: as).filter (tied less x) = [] := by
            refine filter_eq_nil_iff.mpr fun y hy hty => ?_
            have hya : less y a = false := by
              rcases mem_cons.mp hy with rfl | hy
              · exact tied_not_less htrans hty hty
              · exact ha y hy
            have hby := tied_not_less htrans hb hty
            rw [htrans a y b hya hby] at hlt
            cases hlt
          rw [hnone]
          rfl
        next => rfl
      next =>
        rw [filter_cons, ih has', filter_cons (x := a)]
        split <;> rfl

/-- The number of elements in the first run of a list. -/
def firstRun (less : α → α → Bool) : List α → Nat
  | [] => 0
  | a :: rest => (findEndOfRun less a rest).1.length + 1

include htrans in
theorem sorted_of_firstRun (h : l.length ≤ firstRun less l) : Nondecreasing less l := by
  cases l with
  | nil => exact List.Pairwise.nil
  | cons a rest =>
    have happ := findEndOfRun_append less a rest
    have hlen := congrArg List.length happ
    have hrun := findEndOfRun_pairwise htrans a rest
    simp only [firstRun, length_cons, length_append] at h hlen
    have hnil : (findEndOfRun less a rest).2 = [] := eq_nil_of_length_eq_zero (by omega)
    rw [hnil, append_nil] at happ
    rwa [happ] at hrun

/-- The output of a pass over more than one run. -/
theorem mergePass_pair {a b : α} {rest run rest₁ : List α} (n : Nat)
    (h : findEndOfRun less a rest = (run, b :: rest₁)) :
    mergePass less (n + 1) (a :: rest)
      = (inplaceMerge less (a :: run) (b :: (findEndOfRun less b rest₁).1)
          ++ (mergePass less n (findEndOfRun less b rest₁).2).1,
        (mergePass less n (findEndOfRun less b rest₁).2).2 + 1) := by
  rw [mergePass, h]

/-- A pass without output runs had nothing to do. -/
theorem mergePass_zero {n : Nat} (hn : l.length ≤ n)
    (h : (mergePass less n l).2 = 0) : (mergePass less n l).1 = [] := by
  cases n with
  | zero => exact eq_nil_of_length_eq_zero (Nat.le_zero.mp hn)
  | succ n =>
    cases l with
    | nil => rfl
    | cons a rest =>
      unfold mergePass at h
      split at h <;> cases h

include hasymm htrans in
/-- A pass that counts more than one run leaves a longer first run than
there was, the first two being merged; otherwise the list is sorted. -/
theorem mergePass_firstRun {n : Nat} (hn : l.length ≤ n) :
    if 1 < (mergePass less n l).2
    then firstRun less l < firstRun less (mergePass less n l).1
    else Nondecreasing less (mergePass less n l).1 := by
  cases n with
  | zero =>
    have hl : l = [] := eq_nil_of_length_eq_zero (Nat.le_zero.mp hn)
    exact hl ▸ List.Pairwise.nil
  | succ n =>
    cases l with
    | nil => exact List.Pairwise.nil
    | cons a rest =>
      have happ := findEndOfRun_append less a rest
      have hrun := findEndOfRun_pairwise htrans a rest
      rcases h : findEndOfRun less a rest with ⟨run, _ | ⟨b, rest₁⟩⟩
      · rw [mergePass, h]
        rw [h] at hrun
        exact hrun
      · rw [mergePass_pair n h]
        rw [h] at hrun happ
        have happ2 := findEndOfRun_append less b rest₁
        have hm := inplaceMerge_sorted hasymm htrans hrun (findEndOfRun_pairwise htrans b rest₁)
        have hlen := (inplaceMerge_perm less (a :: run)
          (b :: (findEndOfRun less b rest₁).1)).length_eq
        have hfit : (findEndOfRun less b rest₁).2.length ≤ n := by
          have h1 := congrArg List.length happ
          have h2 := congrArg List.length happ2
          simp only [length_cons, length_append] at h1 h2 hn
          omega
        split
        next hcnt =>
          cases hout : inplaceMerge less (a :: run) (b :: (findEndOfRun less b rest₁).1) with
          | nil =>
            rw [hout] at hlen
            cases hlen
          | cons x xs =>
            rw [hout] at hm hlen
            have hle := length_le_findEndOfRun (l := (mergePass less n
              (findEndOfRun less b rest₁).2).1) hm
            simp only [length_cons, length_append] at hlen
            simp only [firstRun, cons_append, h]
            omega
        next hcnt =>
          have hout := mergePass_zero hfit (by simpa using hcnt)
          simpa only [hout, append_nil] using hm

include hasymm htrans in
/-- `list_sort` sorts. Its outer loop does not run out of fuel, because
every turn that is followed by another makes the first run longer. -/
theorem listSort_sorted (l : List α) : Nondecreasing less (listSort less l) := by
  have key : ∀ n (l : List α), l.length ≤ n + firstRun less l →
      Nondecreasing less (listSortLoop less n l) := by
    intro n
    induction n with
    | zero =>
      intro l hl
      rw [Nat.zero_add] at hl
      exact sorted_of_firstRun htrans hl
    | succ n ih =>
      intro l hl
      have hlen := (mergePass_perm less l.length l).length_eq
      have hpass := mergePass_firstRun hasymm htrans (Nat.le_refl l.length)
      unfold listSortLoop
      split
      next l' cnt h =>
        rw [h] at hpass hlen
        split
        next hcnt =>
          rw [if_pos hcnt] at hpass
          have hlt : firstRun less l < firstRun less l' := hpass
          have hlen' : l'.length = l.length := hlen
          exact ih l' (by omega)
        next hcnt =>
          rw [if_neg hcnt] at hpass
          exact hpass
  exact key _ l (Nat.le_add_right _ _)

include htrans in
/-- `list_sort` is stable: the elements tied with any `x` come out in the
order they went in. -/
theorem listSort_tied (l : List α) (x : α) :
    (listSort less l).filter (tied less x) = l.filter (tied less x) := by
  refine listSort_keeps (R := fun l₁ l₂ => l₁.filter (tied less x) = l₂.filter (tied less x))
    (fun _ => rfl) Eq.trans (fun h1 h2 => ?_) (fun a rest bs => ?_) l
  · rw [filter_append, filter_append, h1, h2]
  · rw [inplaceMerge_tied htrans x (findEndOfRun_pairwise htrans a rest), filter_append]

/-- `is_sorted`, over the whole list. -/
def isSorted (less : α → α → Bool) : List α → Bool
  | a :: b :: rest => !less b a && isSorted less (b :: rest)
  | _ => true

/-- A pass with the assertions of its merges. `none` is one that fails, or
a pass that does not end in so many turns. -/
def assertedPass (less : α → α → Bool) : Nat → List α → Option (List α × Nat)
  | _, [] => some ([], 0)
  | 0, _ :: _ => none
  | n + 1, a :: rest =>
    match findEndOfRun less a rest with
    | (run, []) => some (a :: run, 1)
    | (run, b :: rest₁) =>
      let (run₂, rest₂) := findEndOfRun less b rest₁
      if isSorted less (a :: run) && isSorted less (b :: run₂) then
        (assertedPass less n rest₂).map fun r =>
          (inplaceMerge less (a :: run) (b :: run₂) ++ r.1, r.2 + 1)
      else none

/-- `list_sort` with its assertions, for so many passes. -/
def assertedSort (less : α → α → Bool) : Nat → List α → Option (List α)
  | 0, _ => none
  | n + 1, l =>
    (assertedPass less l.length l).bind fun r =>
      if 1 < r.2 then assertedSort less n r.1
      else if isSorted less r.1 then some r.1 else none

theorem isSorted_of_pairwise (hl : Nondecreasing less l) : isSorted less l = true := by
  fun_induction isSorted less l with
  | case1 a b rest ih =>
    obtain ⟨ha, hrest⟩ := pairwise_cons.mp hl
    simp [ha b mem_cons_self, ih hrest]
  | case2 => rfl

include htrans in
theorem assertedPass_eq {n : Nat} (hn : l.length ≤ n) :
    assertedPass less n l = some (mergePass less n l) := by
  induction n generalizing l with
  | zero =>
    obtain rfl : l = [] := eq_nil_of_length_eq_zero (Nat.le_zero.mp hn)
    rfl
  | succ n ih =>
    cases l with
    | nil => rfl
    | cons a rest =>
      have hrun := findEndOfRun_pairwise htrans a rest
      have happ := congrArg List.length (findEndOfRun_append less a rest)
      rcases h : findEndOfRun less a rest with ⟨run, _ | ⟨b, rest₁⟩⟩
      · rw [assertedPass, mergePass, h]
      · have hrun2 := findEndOfRun_pairwise htrans b rest₁
        have happ2 := congrArg List.length (findEndOfRun_append less b rest₁)
        rw [h] at hrun happ
        simp only [length_cons, length_append] at hn happ happ2
        rw [mergePass_pair n h, assertedPass, h]
        simp [isSorted_of_pairwise hrun, isSorted_of_pairwise hrun2,
          ih (l := (findEndOfRun less b rest₁).2) (by omega)]

include hasymm htrans in
/-- As many passes as the first run leaves elements behind it, and one. -/
theorem assertedSort_eq {n : Nat} (hn : l.length ≤ n + firstRun less l) :
    assertedSort less (n + 1) l = some (listSortLoop less n l) := by
  induction n generalizing l with
  | zero =>
    have hl := sorted_of_firstRun htrans (Nat.zero_add _ ▸ hn)
    have hpass : mergePass less l.length l = (l, min 1 l.length) := by
      cases l with
      | nil => rfl
      | cons a rest => simp [mergePass, findEndOfRun_sorted hl]
    have hone : ¬1 < min 1 l.length := by omega
    simp [assertedSort, assertedPass_eq htrans (Nat.le_refl _), hpass, hone,
      isSorted_of_pairwise hl, listSortLoop]
  | succ n ih =>
    have hlen := (mergePass_perm less l.length l).length_eq
    have hpass := mergePass_firstRun hasymm htrans (Nat.le_refl l.length)
    rw [assertedSort, assertedPass_eq htrans (Nat.le_refl _), Option.bind_some, listSortLoop]
    generalize mergePass less l.length l = r at hlen hpass ⊢
    obtain ⟨l', cnt⟩ := r
    dsimp only at hlen hpass ⊢
    split at hpass
    next hcnt =>
      rw [if_pos hcnt, if_pos hcnt]
      exact ih (by omega)
    next hcnt => rw [if_neg hcnt, if_neg hcnt, if_pos (isSorted_of_pairwise hpass)]

/-- `list_sort` comes to its end with every assertion on the way true, and
leaves the same elements in order, those that are tied as they were. -/
theorem list_sort_stable {α : Type} {less : α → α → Bool}
    (hasymm : ∀ a b, less a b = true → less b a = false)
    (htrans : ∀ a b c, less b a = false → less c b = false → less c a = false) (l : List α) :
    ∃ n, assertedSort less n l = some (listSort less l) ∧ (listSort less l).Perm l ∧
      ((listSort less l).Pairwise fun x y => less y x = false) ∧
      ∀ x, (listSort less l).filter (tied less x) = l.filter (tied less x) :=
  ⟨l.length + 1, assertedSort_eq hasymm htrans (Nat.le_add_right _ _), listSort_perm less l,
    listSort_sorted hasymm htrans l, listSort_tied htrans l⟩

theorem list_sort_stable_pairs :
    ∃ n, assertedSort (fun a b : Nat × Nat => decide (a.1 < b.1)) n [(2, 0), (1, 0), (2, 1), (1, 1)]
      = some [(1, 0), (1, 1), (2, 0), (2, 1)] := by
  obtain ⟨n, hn, -⟩ := @list_sort_stable _ (fun a b : Nat × Nat => decide (a.1 < b.1))
    (by simp only [decide_eq_true_eq, decide_eq_false_iff_not]; omega)
    (by simp only [decide_eq_false_iff_not]; omega) [(2, 0), (1, 0), (2, 1), (1, 1)]
  exact ⟨n, hn⟩

include hasymm htrans in
/-- The front of the sorted list is the first of the least elements. -/
theorem listSort_front {t : α} {rest : List α} (h : listSort less l = t :: rest) :
    ∃ before after, l = before ++ t :: after ∧
      (∀ u ∈ before, less t u = true) ∧ (∀ u ∈ after, less u t = false) ∧
      rest.Perm (before ++ after) := by
  have hself : tied less t t = true := by
    have hirr : less t t = false := by
      cases htt : less t t with
      | false => rfl
      | true => exact (htt.symm.trans (hasymm t t htt))
    simp [tied, hirr]
  have hfront := listSort_tied htrans l t
  rw [h, filter_cons_of_pos hself, eq_comm, filter_eq_cons_iff] at hfront
  obtain ⟨before, after, rfl, hbefore, -, -⟩ := hfront
  have hperm : (t :: rest).Perm (before ++ t :: after) := h ▸ listSort_perm less _
  have hle u (hu : u ∈ before ++ t :: after) : less u t = false := by
    rcases mem_cons.mp (hperm.mem_iff.mpr hu) with rfl | hu
    · exact tied_not_less htrans hself hself
    · have hs := listSort_sorted hasymm htrans (before ++ t :: after)
      rw [h] at hs
      exact (pairwise_cons.mp hs).1 u hu
  refine ⟨before, after, rfl, ?_, ?_, ?_⟩
  · intro u hu
    have hnt := hbefore u hu
    have hut := hle u (mem_append_left _ hu)
    simpa [tied, hut] using hnt
  · intro u hu
    exact hle u (mem_append_right _ (mem_cons_of_mem _ hu))
  · exact (hperm.trans perm_middle).cons_inv

end Sorting

-- ==== list_max

/-- `list_max`: the first of the largest elements. -/
def listMax (less : α → α → Bool) : List α → Option α
  | [] => none
  | a :: rest => some (rest.foldl (fun m e => if less m e then e else m) a)

theorem listMax_eq_none : listMax less l = none ↔ l = [] := by
  cases l with
  | nil | cons a rest => simp [listMax]

/-- By a key, `list_max` is an element with the largest. -/
theorem listMax_spec {key : α → Int} (hless : ∀ a b, less a b = true ↔ key a < key b) {x : α}
    (h : listMax less l = some x) : x ∈ l ∧ ∀ y ∈ l, key y ≤ key x := by
  have hfold : ∀ (rest : List α) (a : α),
      let m := rest.foldl (fun m e => if less m e then e else m) a
      (m = a ∨ m ∈ rest) ∧ key a ≤ key m ∧ ∀ y ∈ rest, key y ≤ key m := by
    intro rest
    induction rest with
    | nil => exact fun a => ⟨.inl rfl, Int.le_refl _, by simp⟩
    | cons e rest ih =>
      intro a
      obtain ⟨hmem, hle, hall⟩ := ih (if less a e then e else a)
      have hpick : key a ≤ key (if less a e then e else a)
          ∧ key e ≤ key (if less a e then e else a) := by
        by_cases hae : less a e = true
        · have := (hless a e).mp hae
          rw [if_pos hae]
          omega
        · have := mt (hless a e).mpr hae
          rw [if_neg hae]
          omega
      refine ⟨?_, Int.le_trans hpick.1 hle, ?_⟩
      · rcases hmem with h | h
        · rw [foldl_cons, h]
          split
          · exact .inr (mem_cons_self ..)
          · exact .inl rfl
        · exact .inr (mem_cons_of_mem _ h)
      · intro y hy
        rcases mem_cons.mp hy with rfl | hy
        · exact Int.le_trans hpick.2 hle
        · exact hall y hy
  cases l with
  | nil => cases h
  | cons a rest =>
    obtain ⟨hmem, hle, hall⟩ := hfold rest a
    have hx := Option.some.inj h
    rw [hx] at hmem hle hall
    refine ⟨mem_cons.mpr hmem, ?_⟩
    intro y hy
    rcases mem_cons.mp hy with rfl | hy
    · exact hle
    · exact hall y hy

end Pintos
