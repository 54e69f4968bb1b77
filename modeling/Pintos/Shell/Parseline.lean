/-
`parseline`: how the shell cuts a command line into arguments.

The pointer `buf` into the copy of the line is what is left of the line
behind it. Writing a null byte over the delimiter ends the argument that
starts at `buf`; the loop goes on behind it and never looks back, so an
argument is the text between the two. `argv` is the list of the pointers
stored so far, and a store behind the end of the caller's array is `none`.

Nothing but the line bounds the index: the null pointer behind 128
arguments is already stored outside (`argv_overflows`). `parseline` is
exact below that number and not from there on (`parseline_exact`).
-/
import Mathlib.Data.List.Basic

namespace Pintos.Shell

open List

/-- `MAXLINE`. -/
def maxLine : Nat := 1024

/-- `MAXARGS`, the size of the array `argv` in `eval`. -/
def maxArgs : Nat := 128

/-- `strchr`, as the text in front of the first `c` and what follows it. -/
def strchr (c : Char) : List Char → Option (List Char × List Char)
  | [] => none
  | x :: buf =>
    if x = c then some ([], buf)
    else (strchr c buf).map fun (arg, rest) => (x :: arg, rest)

/-- Ignore spaces. -/
def skipSpaces (buf : List Char) : List Char := buf.dropWhile (· = ' ')

/-- The argument at `buf` and what follows its delimiter. -/
def delim : List Char → Option (List Char × List Char)
  | '\'' :: buf => strchr '\'' buf
  | buf => strchr ' ' buf

theorem strchr_none : strchr c buf = none ↔ c ∉ buf := by
  fun_induction strchr c buf <;> grind [Option.map_eq_none_iff]

theorem strchr_some : strchr c buf = some (arg, rest) ↔ c ∉ arg ∧ buf = arg ++ c :: rest := by
  induction buf generalizing arg with
  | nil => simp [strchr]
  | cons x buf ih =>
    rw [strchr]
    split
    case isTrue h => cases arg <;> simp_all
    case isFalse h => cases arg <;> grind [Option.map_eq_some_iff]

theorem delim_length (h : delim buf = some (arg, rest)) :
    (skipSpaces rest).length < buf.length := by
  have hskip := (dropWhile_sublist (l := rest) (· = ' ')).length_le
  unfold delim at h
  split at h <;> rw [(strchr_some.1 h).2] <;> grind [skipSpaces]

/-- `argv[argc++] = buf` or `argv[argc] = NULL`: a store at index `argc`. -/
def storeArg (argv : List (List Char)) (k : Option α) : Option α :=
  if argv.length < maxArgs then k else none

/-- The loop that builds the argv list. -/
def buildArgv (argv : List (List Char)) (buf : List Char) : Option (List (List Char)) :=
  match _h : delim buf with
  | none => some argv
  | some (arg, rest) => storeArg argv (buildArgv (argv ++ [arg]) (skipSpaces rest))
termination_by buf.length
decreasing_by exact delim_length _h

/-- The end of `parseline`, once the null pointer is stored. -/
def returned (argv : List (List Char)) : Bool × List (List Char) :=
  match argv.getLast? with
  | none => (true, [])
  | some arg => if arg.head? = some '&' then (true, argv.dropLast) else (false, argv)

/-- `parseline`: what it returns, and `argv` up to the null pointer. -/
def parseline (cmdline : List Char) : Option (Bool × List (List Char)) :=
  -- `strcpy` into an array of `MAXLINE` bytes, the null byte included
  if cmdline.length < maxLine then
    (buildArgv [] (skipSpaces (cmdline.dropLast ++ [' ']))).bind fun argv =>
      storeArg argv (some (returned argv))
  else none

-- ==== the arguments of a line

/-- `args` are the arguments of the text of a line. -/
inductive Arguments : List Char → List (List Char) → Prop
  | nil : Arguments [] []
  | space : Arguments text args → Arguments (' ' :: text) args
  /-- A run of other characters than the space, as long as it can be. -/
  | run : (∀ x ∈ c :: arg, x ≠ ' ') → c ≠ '\'' → (∀ x ∈ text.head?, x = ' ') →
      Arguments text args → Arguments (c :: arg ++ text) ((c :: arg) :: args)
  | quoted : '\'' ∉ arg → Arguments text args →
      Arguments ('\'' :: arg ++ '\'' :: text) (arg :: args)
  | unterminated : '\'' ∉ text → Arguments ('\'' :: text) []

/-- What the shell makes of the arguments: the value returned and `argv`. -/
inductive Parsed : List (List Char) → Bool → List (List Char) → Prop
  | blank : Parsed [] true []
  | background : Parsed (args ++ ['&' :: arg]) true args
  | foreground : arg.head? ≠ some '&' → Parsed (args ++ [arg]) false (args ++ [arg])

theorem exists_arguments (text : List Char) : ∃ args, Arguments text args := by
  induction hn : text.length using Nat.strongRecOn generalizing text with
  | ind n ih =>
    subst hn
    cases text with
    | nil => exact ⟨[], .nil⟩
    | cons c text =>
      by_cases hspace : c = ' '
      · obtain ⟨args, hargs⟩ := ih _ (by simp) text rfl
        exact ⟨args, hspace ▸ .space hargs⟩
      by_cases hquote : c = '\''
      · subst hquote
        cases h : strchr '\'' text with
        | none => exact ⟨[], .unterminated (strchr_none.1 h)⟩
        | some cut =>
          obtain ⟨harg, rfl⟩ := strchr_some.1 h
          obtain ⟨args, hargs⟩ := ih _ (by grind) cut.2 rfl
          exact ⟨_, .quoted harg hargs⟩
      · cases h : strchr ' ' text with
        | none =>
          have hrun := strchr_none.1 h
          refine ⟨[c :: text], ?_⟩
          simpa using Arguments.run (c := c) (by grind) hquote (by simp) .nil
        | some cut =>
          obtain ⟨harg, rfl⟩ := strchr_some.1 h
          obtain ⟨args, hargs⟩ := ih _ (by grind) (' ' :: cut.2) rfl
          exact ⟨_, .run (by grind) hquote (by simp) hargs⟩

/-- One round of the loop stores one argument. -/
theorem buildArgv_cons (h : delim buf = some (arg, rest))
    (ih : ∀ {argv : List (List Char)}, argv.length ≤ maxArgs →
      buildArgv argv (skipSpaces rest) =
        if (argv ++ args).length ≤ maxArgs then some (argv ++ args) else none) :
    buildArgv argv buf =
      if (argv ++ arg :: args).length ≤ maxArgs then some (argv ++ arg :: args) else none := by
  rw [buildArgv]
  split <;> simp_all
  rw [storeArg]
  split
  · rw [ih (by simp; omega)]
    simp [Nat.add_assoc, Nat.add_comm 1]
  · rw [if_neg (by omega)]

theorem buildArgv_eq (h : Arguments text args) (hargv : argv.length ≤ maxArgs) :
    buildArgv argv (skipSpaces (text ++ [' '])) =
      if (argv ++ args).length ≤ maxArgs then some (argv ++ args) else none := by
  induction h generalizing argv with
  | nil => simp [skipSpaces, buildArgv, delim, strchr, hargv]
  | space _ ih => simpa [skipSpaces] using ih hargv
  | @run c arg text args hrun hquote hend _ ih =>
    -- the space at the end of the line ends a last argument
    obtain ⟨rest, hrest⟩ : ∃ rest, text ++ [' '] = ' ' :: rest := by cases text <;> simp_all
    have hskip : skipSpaces (c :: arg ++ text ++ [' ']) = c :: arg ++ ' ' :: rest := by
      simp_all [skipSpaces]
    have hcut : delim (c :: arg ++ ' ' :: rest) = some (c :: arg, rest) := by
      rw [delim.eq_def]
      split
      · simp_all
      · exact strchr_some.2 ⟨fun h => hrun _ h rfl, rfl⟩
    have hsame : skipSpaces rest = skipSpaces (text ++ [' ']) := by simp [hrest, skipSpaces]
    rw [hskip]
    exact buildArgv_cons hcut (hsame ▸ ih)
  | @quoted arg text args harg _ ih =>
    have hskip : skipSpaces ('\'' :: arg ++ '\'' :: text ++ [' ']) =
        '\'' :: (arg ++ '\'' :: (text ++ [' '])) := by
      simp [skipSpaces]
    rw [hskip]
    exact buildArgv_cons (strchr_some.2 ⟨harg, rfl⟩) ih
  | @unterminated text htext =>
    have hcut : delim ('\'' :: (text ++ [' '])) = none := strchr_none.2 (by simpa using htext)
    rw [show skipSpaces ('\'' :: text ++ [' ']) = '\'' :: (text ++ [' ']) from rfl, buildArgv]
    split <;> simp_all

theorem parseline_eq (h : Arguments text args) (hlen : text.length + 1 < maxLine) :
    parseline (text ++ ['\n']) =
      (if args.length ≤ maxArgs then some args else none).bind fun argv =>
        storeArg argv (some (returned argv)) := by
  have hargv : buildArgv [] (skipSpaces (text ++ [' '])) = _ := buildArgv_eq h (by decide)
  rw [parseline, if_pos (by simpa using hlen), dropLast_concat, hargv, nil_append]

/-- Fewer than `MAXARGS` arguments leave room for the null pointer. -/
theorem parseline_few (hargs : Arguments text args) (hlen : text.length + 1 < maxLine)
    (hfew : args.length < maxArgs) : parseline (text ++ ['\n']) = some (returned args) := by
  rw [parseline_eq hargs hlen, if_pos (Nat.le_of_lt hfew), Option.bind_some, storeArg, if_pos hfew]

/-- With more of them a store goes outside the array. -/
theorem parseline_many (hargs : Arguments text args) (hlen : text.length + 1 < maxLine)
    (hmany : maxArgs ≤ args.length) : parseline (text ++ ['\n']) = none := by
  rw [parseline_eq hargs hlen]
  split
  · rw [Option.bind_some, storeArg, if_neg (Nat.not_lt.mpr hmany)]
  · rfl

/-- What `parseline` returns is what the shell should make of the arguments. -/
theorem returned_parsed (args : List (List Char)) :
    Parsed args (returned args).1 (returned args).2 := by
  rcases args.eq_nil_or_concat' with rfl | ⟨front, arg, rfl⟩
  · exact .blank
  · by_cases hamp : arg.head? = some '&'
    · obtain ⟨arg, rfl⟩ := head?_eq_some_iff.1 hamp
      simpa [returned] using Parsed.background
    · simpa [returned, hamp] using Parsed.foreground hamp

/-- `parseline` is exact on the lines with fewer than `MAXARGS` arguments,
and on no others. -/
theorem parseline_exact (text : List Char) (hlen : text.length + 1 < maxLine) :
    (∃ args, Arguments text args) ∧ ∀ args, Arguments text args →
      ((∃ bg argv, parseline (text ++ ['\n']) = some (bg, argv) ∧ Parsed args bg argv) ↔
        args.length < maxArgs) := by
  refine ⟨exists_arguments text, fun args hargs => ⟨?_, fun hfew => ?_⟩⟩
  · rintro ⟨bg, argv, hline, -⟩
    by_contra hmany
    rw [parseline_many hargs hlen (Nat.le_of_not_lt hmany)] at hline
    cases hline
  · exact ⟨_, _, parseline_few hargs hlen hfew, returned_parsed args⟩

theorem parseline_exact_quoted :
    ∃ bg argv, parseline ['\'', ' ', '\'', '&', '\n'] = some (bg, argv) ∧
      Parsed [[' '], ['&']] bg argv :=
  ((parseline_exact ['\'', ' ', '\'', '&'] (by decide)).2 _
    (@Arguments.quoted [' '] _ _ (by decide)
      (@Arguments.run '&' [] [] _ (by simp) (by decide) (by simp) .nil))).mpr (by decide)

theorem arguments_replicate (n : Nat) :
    Arguments (replicate n ['x', ' ']).flatten (replicate n ['x']) := by
  induction n with
  | zero => exact .nil
  | succ n ih => exact @Arguments.run 'x' [] _ _ (by simp) (by decide) (by simp) (.space ih)

/-- 128 arguments: the null pointer is stored in `argv[128]`. -/
theorem argv_overflows :
    ∃ text, text.length + 1 < maxLine ∧ Arguments text (replicate maxArgs ['x']) ∧
      parseline (text ++ ['\n']) = none := by
  have hlen : ∀ n, (replicate n ['x', ' ']).flatten.length = n * 2 := by simp
  have hline : (replicate maxArgs ['x', ' ']).flatten.length + 1 < maxLine := by
    rw [hlen]
    decide
  refine ⟨_, hline, arguments_replicate maxArgs, ?_⟩
  exact parseline_many (arguments_replicate maxArgs) hline (by simp)

end Pintos.Shell
