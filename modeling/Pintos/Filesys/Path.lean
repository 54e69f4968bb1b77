/-
How a path is split into a directory and a name.

`get_name` runs `strtok_r` over a copy of the path and keeps the last
token. `filesys_create`, `filesys_open` and `filesys_remove` take the
directory part to be what is left of the path when as many characters as
the name has are cut off its end. The two agree as long as the name is at
the end: with slashes behind it the cut falls into them and into the name.

A string is the list of its characters before the null byte, over any
type of characters. `strtok_r` ends each token with a null byte in the
copy; the token that is returned is the string found there, and
`*save_ptr` the string behind it.
-/
import Mathlib.Data.List.TakeWhile
import Mathlib.Data.List.Basic
import Pintos.Lib.Components

namespace Pintos.Path

open Components List

variable {α : Type} [BEq α]

-- ==== strtok_r

/-- `strchr (delimiters, c) != NULL`, for a character of the string. -/
def isDelimiter (delimiters : List α) (c : α) : Bool := delimiters.contains c

/-- Skip any delimiters at the current position. -/
def skipDelimiters (delimiters : List α) : List α → List α
  | [] => []
  | c :: s =>
    if isDelimiter delimiters c then skipDelimiters delimiters s
    else c :: s

/-- Skip any non-delimiters: the characters skipped, and the string from
there on. -/
def scanToken (delimiters : List α) : List α → List α × List α
  | [] => ([], [])
  | c :: s =>
    if isDelimiter delimiters c then ([], c :: s)
    else
      let (token, rest) := scanToken delimiters s
      (c :: token, rest)

/-- The token and the string at `*save_ptr`; `none` for `NULL`. -/
def strtokR (delimiters s : List α) : Option (List α × List α) :=
  match skipDelimiters delimiters s with
  | [] => none
  | c :: s' =>
    let (token, rest) := scanToken delimiters (c :: s')
    -- past the delimiter, or still at the end of the string
    some (token, rest.tail)

def tokenLoop (delimiters : List α) : Nat → List α → List (List α)
  | 0, _ => []
  | fuel + 1, s =>
    match strtokR delimiters s with
    | none => []
    | some (token, save) => token :: tokenLoop delimiters fuel save

/-- The tokens that repeated calls of `strtok_r` return. -/
def tokens (delimiters s : List α) : List (List α) := tokenLoop delimiters (s.length + 1) s

/-- The loop of `get_name`; `prev` is `prev_token`. -/
def getNameLoop (slash : α) : Nat → List α → List α → List α
  | 0, _, prev => prev
  | fuel + 1, s, prev =>
    match strtokR [slash] s with
    | none => prev
    | some (token, save) => getNameLoop slash fuel save token

def getName (slash : α) (path : List α) : List α := getNameLoop slash (path.length + 1) path []

/-- `strlcpy (dir_path, path, strlen (path) - strlen (file_name) + 1)`. -/
def dirPath (slash : α) (path : List α) : List α :=
  path.take (path.length - (getName slash path).length)

variable {delimiters s : List α}

theorem skipDelimiters_eq (delimiters s : List α) :
    skipDelimiters delimiters s = s.dropWhile (isDelimiter delimiters) := by
  induction s with
  | nil => rfl
  | cons c s ih => rw [skipDelimiters, ih, dropWhile_cons]

theorem scanToken_eq (delimiters s : List α) : scanToken delimiters s =
    (s.takeWhile (!isDelimiter delimiters ·), s.dropWhile (!isDelimiter delimiters ·)) := by
  induction s with
  | nil => rfl
  | cons c s ih =>
    rw [scanToken, ih, takeWhile_cons, dropWhile_cons]
    cases isDelimiter delimiters c <;> rfl

/-- There are only delimiters, or delimiters, a token, and what follows it. -/
theorem strtokR_cases (delimiters s : List α) :
    strtokR delimiters s = none ∧ (∀ d ∈ s, isDelimiter delimiters d = true) ∨
    ∃ ds token rest, strtokR delimiters s = some (token, rest.tail) ∧ s = ds ++ (token ++ rest) ∧
      (∀ d ∈ ds, isDelimiter delimiters d = true) ∧ token ≠ [] ∧
      (∀ c ∈ token, isDelimiter delimiters c = false) ∧
      ∀ d ∈ rest.head?, isDelimiter delimiters d = true := by
  unfold strtokR
  rw [skipDelimiters_eq]
  split
  next hs => exact .inl ⟨rfl, dropWhile_eq_nil_iff.mp hs⟩
  next c s' hs =>
    have hc : isDelimiter delimiters c = false := by
      simpa [hs] using head?_dropWhile_not (isDelimiter delimiters) s
    rw [scanToken_eq]
    refine .inr ⟨s.takeWhile (isDelimiter delimiters), _, _, rfl, ?_, fun d => mem_takeWhile_imp,
      ?_, fun d hd => by simpa using mem_takeWhile_imp hd, fun d hd => ?_⟩
    · rw [takeWhile_append_dropWhile, ← hs, takeWhile_append_dropWhile]
    · simp [hc]
    · have := head?_dropWhile_not (!isDelimiter delimiters ·) (c :: s')
      rw [hd] at this
      simpa using this

theorem strtokR_none (h : strtokR delimiters s = none) :
    components (isDelimiter delimiters) s = [] := by
  rcases strtokR_cases delimiters s with ⟨-, hall⟩ | ⟨ds, token, rest, hsome, -⟩
  · rw [← nil_append s, components_delims hall, components_nil]
  · cases h.symm.trans hsome

/-- A token is the first component, and the saved string has the rest. -/
theorem strtokR_some {token save : List α} (h : strtokR delimiters s = some (token, save)) :
    components (isDelimiter delimiters) s =
        token :: components (isDelimiter delimiters) save ∧
      save.length < s.length := by
  rcases strtokR_cases delimiters s with
    ⟨hnone, -⟩ | ⟨ds, token, rest, hsome, rfl, hds, hne, hword, hrest⟩
  · cases h.symm.trans hnone
  · cases h.symm.trans hsome
    have hpos := length_pos_of_ne_nil hne
    rw [components_append_left hds]
    cases rest with
    | nil =>
      rw [append_nil, components_word hword hne, tail_nil, components_nil, length_append]
      exact ⟨rfl, Nat.lt_add_left _ hpos⟩
    | cons d rest =>
      rw [components_append (hrest d rfl), components_word hword hne]
      refine ⟨rfl, ?_⟩
      simp only [length_append, length_cons, tail_cons]
      omega

theorem tokens_eq (delimiters s : List α) :
    tokens delimiters s = components (isDelimiter delimiters) s := by
  have hloop (fuel : Nat) (s : List α) (hs : s.length < fuel) :
      tokenLoop delimiters fuel s = components (isDelimiter delimiters) s := by
    induction fuel generalizing s with
    | zero => cases hs
    | succ fuel ih =>
      unfold tokenLoop
      split
      next hnone => rw [strtokR_none hnone]
      next token save hsome =>
        obtain ⟨hcomp, hlen⟩ := strtokR_some hsome
        rw [hcomp, ih save (by omega)]
  exact hloop _ s (Nat.lt_succ_self _)

/-- The loop ends with the last token. -/
theorem getName_eq (slash : α) (path : List α) :
    getName slash path = (components (isDelimiter [slash]) path).getLastD [] := by
  have hloop (fuel : Nat) (s prev : List α) (hs : s.length < fuel) :
      getNameLoop slash fuel s prev = (components (isDelimiter [slash]) s).getLastD prev := by
    induction fuel generalizing s prev with
    | zero => cases hs
    | succ fuel ih =>
      unfold getNameLoop
      split
      next hnone => rw [strtokR_none hnone, getLastD_nil]
      next token save hsome =>
        obtain ⟨hcomp, hlen⟩ := strtokR_some hsome
        rw [ih save token (by omega), hcomp, getLastD_cons]
  exact hloop _ path [] (Nat.lt_succ_self _)

-- ==== agreement

/-- The components of a path. -/
abbrev parts (path : List Char) : List (List Char) := components (isDelimiter ['/']) path

theorem isSlash {c : Char} : isDelimiter ['/'] c = true ↔ c = '/' := by simp [isDelimiter]

section Agreement

variable {path q w ds : List Char}

section

variable (h : LastWord (isDelimiter ['/']) path q w ds)

include h

theorem LastWord.getName : getName '/' path = w := by
  rw [getName_eq, h.components]
  simp

/-- The directory part is what is before the name, and as many of the
next characters as there are slashes at the end. -/
theorem LastWord.dirPath : dirPath '/' path = q ++ (w ++ ds).take ds.length := by
  have hlen : path.length - w.length = q.length + ds.length := by
    rw [h.eq]
    simp only [length_append]
    omega
  unfold Path.dirPath
  rw [LastWord.getName h, hlen, h.eq, take_append,
    take_of_length_le (Nat.le_add_right _ _), Nat.add_sub_cancel_left]

/-- With slashes behind the name, a piece of it is one component more. -/
theorem LastWord.dirPath_parts
    (hds : ds ≠ []) : parts (Path.dirPath '/' path) = parts q ++ [w.take ds.length] := by
  rw [LastWord.dirPath h, take_append]
  have hcut : LastWord (isDelimiter ['/'])
      (q ++ (w.take ds.length ++ ds.take (ds.length - w.length))) q
      (w.take ds.length) (ds.take (ds.length - w.length)) := by
    refine ⟨rfl, h.before, ?_, fun c hc => h.word c (mem_of_mem_take hc),
      fun d hd => h.delims d (mem_of_mem_take hd)⟩
    have := h.ne
    simp [hds, this]
  exact hcut.components

theorem LastWord.ends_with_slash : path.getLast? = some '/' ↔ ds ≠ [] := by
  rw [h.eq]
  rcases eq_nil_or_concat ds with rfl | ⟨ds', d, rfl⟩
  · obtain ⟨w', c, rfl⟩ := (eq_nil_or_concat w).resolve_left h.ne
    have hc := h.word c (by simp)
    simp only [concat_eq_append, append_nil, ← append_assoc, getLast?_append,
      getLast?_singleton, ne_eq, not_true, iff_false]
    rintro heq
    cases heq
    cases hc
  · have hd := isSlash.mp (h.delims d (by simp))
    simp [hd]

/-- A cut at the end leaves the beginning, and a name does not begin with
a slash. -/
theorem LastWord.absolute : (Path.dirPath '/' path).head? = some '/' ↔ path.head? = some '/' := by
  rw [LastWord.dirPath h, h.eq]
  cases q with
  | cons c q => exact Iff.rfl
  | nil =>
    obtain ⟨c, w', rfl⟩ := exists_cons_of_ne_nil h.ne
    have hc : c ≠ '/' := fun heq => by
      have hword := h.word c mem_cons_self
      simp [isSlash.mpr heq] at hword
    cases ds with
    | nil | cons d ds => simp [hc]

end

/-- For a path with a component: `dir_path` and the name have the
components of the path, in this order, just when the path does not end
with a slash, and `dir_path` is absolute just when the path is. Then the
directory that `get_dir` is asked for is named by all components but the
last, and the name is the last. -/
theorem path_split_agrees (path : List Char) (h : parts path ≠ []) :
    (parts path = parts (dirPath '/' path) ++ [getName '/' path] ↔ path.getLast? ≠ some '/') ∧
    ((dirPath '/' path).head? = some '/' ↔ path.head? = some '/') ∧ (path.getLast? ≠ some '/' →
      tokens ['/'] (dirPath '/' path) = (parts path).dropLast ∧
      (parts path).getLast? = some (getName '/' path)) := by
  obtain ⟨q, w, ds, hlast⟩ := exists_lastWord_of_ne_nil h
  have hparts : parts path = parts q ++ [w] := hlast.components
  have hname := LastWord.getName hlast
  have hdir := LastWord.dirPath hlast
  have hends := LastWord.ends_with_slash hlast
  have hnone : ds = [] → dirPath '/' path = q := by
    rintro rfl
    rw [hdir]
    simp
  refine ⟨⟨fun hagree hslash => ?_, fun hslash => ?_⟩, ?_, fun hslash => ?_⟩
  · -- one component too many
    rw [LastWord.dirPath_parts hlast (hends.mp hslash), hparts, hname] at hagree
    have hlen := congrArg List.length hagree
    simp at hlen
  · rw [hnone (not_not.mp fun hds => hslash (hends.mpr hds)), hparts, hname]
  · exact LastWord.absolute hlast
  · rw [tokens_eq, hname, hparts, hnone (not_not.mp fun hds => hslash (hends.mpr hds))]
    simp

end Agreement

theorem path_split_agrees_double_slash :
    parts "//a//b".toList = parts (dirPath '/' "//a//b".toList) ++ [getName '/' "//a//b".toList] :=
  (path_split_agrees "//a//b".toList (by decide)).1.mpr (by decide)

/-- With a slash behind the name, the name is looked for in itself. -/
theorem trailing_slash_disagrees :
    parts "a/b/".toList = ["a".toList, "b".toList] ∧
      getName '/' "a/b/".toList = "b".toList ∧
      dirPath '/' "a/b/".toList = "a/b".toList ∧
      parts "a/b/".toList ≠ parts (dirPath '/' "a/b/".toList) ++ [getName '/' "a/b/".toList] := by
  decide

end Pintos.Path
