/-
The promises of `lib/stdio.c` about its formatted output, over the model
of `Stdio.lean`.

- The buffer: `vsnprintf` is `__vprintf` with an output function that
  counts every character and stores the first of them. A run of it is a
  fold over the output, and its invariant is a closed form
  (`vsnprintfHelper_run`).
- The format: the pointer of `__vprintf` and `parse_conversion`, here the
  bytes from it to the end of the array the format is in. The terminator
  is one of them, and a read with none left is `none`. What the pointer
  skips does not depend on the arguments, and is what `parseConversion`
  consumes (`skipConversion_eq`).
-/
import Mathlib.Data.List.GetD
import Pintos.Data.Stdio

namespace Pintos.Stdio

open List Option

-- ==== the buffer

/-- `struct vsnprintf_aux`, with the memory `p` points into. -/
structure VsnprintfAux where
  p : Nat
  length : Int
  maxLength : Int
  mem : Nat → UInt8

/-- `vsnprintf_helper`: every character is counted, in an `int`; those
below the limit are stored. -/
def vsnprintfHelper (aux : VsnprintfAux) (c : UInt8) : VsnprintfAux :=
  let counted := { aux with length := (aux.length + 1).bmod (2 ^ 32) }
  if aux.length < aux.maxLength then
    { counted with p := aux.p + 1, mem := fun a => if a = aux.p then c else aux.mem a }
  else counted

/-- `vsnprintf`: the value it returns, and the memory it leaves. -/
def vsnprintf (buffer bufSize : Nat) (format : Bytes) (args : List Arg) (mem : Nat → UInt8) :
    Int × (Nat → UInt8) :=
  let maxLength : Nat := if 0 < bufSize then bufSize - 1 else 0
  let aux := (vprintf format args).foldl vsnprintfHelper
    ⟨buffer, 0, (maxLength : Int).bmod (2 ^ 32), mem⟩
  (aux.length, fun a => if 0 < bufSize ∧ a = aux.p then 0 else aux.mem a)

/-- A memory with the bytes `l` stored from `p` on. -/
def place (mem : Nat → UInt8) (p : Nat) (l : Bytes) (a : Nat) : UInt8 :=
  if p ≤ a then l.getD (a - p) (mem a) else mem a

variable {mem : Nat → UInt8} {p : Nat}

theorem place_snoc (l : Bytes) (c : UInt8) (a : Nat) :
    place mem p (l ++ [c]) a = if a = p + l.length then c else place mem p l a := by
  unfold place
  split
  · rename_i ha
    rcases Nat.lt_trichotomy (a - p) l.length with h | h | h
    · rw [if_neg (by omega), getD_append _ _ _ _ h]
    · rw [if_pos (by omega), h]
      simp
    · rw [if_neg (by omega), getD_eq_default _ _ h.le, getD_eq_default]
      rw [length_append, length_singleton]
      exact h
  · rw [if_neg (by omega)]

theorem place_outside {l : Bytes} {a : Nat} (ha : a < p ∨ p + l.length ≤ a) :
    place mem p l a = mem a := by
  unfold place
  split
  · exact getD_eq_default _ _ (by omega)
  · rfl

theorem place_inside {l : Bytes} {i : Nat} (hi : i < l.length) :
    place mem p l (p + i) = l.get ⟨i, hi⟩ := by
  unfold place
  rw [if_pos (Nat.le_add_right p i), Nat.add_sub_cancel_left]
  exact getD_eq_getElem _ _ hi

theorem bmod_of_small {n : Nat} (hn : n < 2 ^ 31) : (n : Int).bmod (2 ^ 32) = n :=
  Int.bmod_eq_of_le (by omega) (by omega)

/-- After the output `out` the helper has counted all of it and stored
what the limit lets through. -/
theorem vsnprintfHelper_run (maxLength : Nat) (out : Bytes) (hout : out.length < 2 ^ 31) :
    out.foldl vsnprintfHelper ⟨p, 0, maxLength, mem⟩ =
      ⟨p + min out.length maxLength, out.length, maxLength, place mem p (out.take maxLength)⟩ := by
  induction out using List.reverseRecOn with
  | nil =>
    simp
    funext a
    exact (place_outside (by simp; omega)).symm
  | append_singleton out c ih =>
    rw [length_append, length_singleton] at hout
    have hcount : ((out.length : Int) + 1).bmod (2 ^ 32) = ((out.length + 1 : Nat) : Int) :=
      bmod_of_small hout
    rw [foldl_append, ih (by omega), foldl_cons, foldl_nil, vsnprintfHelper]
    simp only [hcount, Nat.cast_lt, length_append, length_singleton]
    split
    · rename_i hlt
      rw [take_of_length_le hlt.le, take_of_length_le (by simpa using hlt),
        min_eq_left hlt.le, min_eq_left hlt]
      exact congrArg (VsnprintfAux.mk _ _ _) (funext fun a => (place_snoc out c a).symm)
    · rename_i hge
      rw [take_append_of_le_length (by omega), Nat.min_eq_right (by omega),
        Nat.min_eq_right (by omega)]

/-- The call in closed form: the length of the whole output, and a memory
that differs from the old one by what `snprintf` leaves in the buffer. -/
theorem vsnprintf_eq (buffer : Nat) {bufSize : Nat} (format : Bytes) (args : List Arg)
    (mem : Nat → UInt8) (hsize : bufSize < 2 ^ 31) (hout : (vprintf format args).length < 2 ^ 31) :
    vsnprintf buffer bufSize format args mem =
      (((vprintf format args).length : Int), place mem buffer (snprintf bufSize format args)) := by
  unfold vsnprintf snprintf
  generalize vprintf format args = out at hout
  split
  · rename_i hpos
    simp only [bmod_of_small (show bufSize - 1 < 2 ^ 31 by omega), vsnprintfHelper_run _ _ hout]
    refine congrArg (Prod.mk _) (funext fun a => ?_)
    rw [place_snoc, length_take, Nat.min_comm]
    simp [hpos]
  · rename_i hpos
    simp only [bmod_of_small (show 0 < 2 ^ 31 by omega), vsnprintfHelper_run _ _ hout]
    simp [hpos]

/-- `vsnprintf` writes the buffer only, returns the length of the complete
output, and leaves in the buffer as much of it as fits, terminated. -/
theorem vsnprintf_bounded (buffer bufSize : Nat) (format : Bytes) (args : List Arg)
    (mem : Nat → UInt8) (hsize : bufSize < 2 ^ 31) (hout : (vprintf format args).length < 2 ^ 31) :
    let out := vprintf format args
    let r := vsnprintf buffer bufSize format args mem
    r.1 = out.length ∧
    (∀ a, a < buffer ∨ buffer + bufSize ≤ a → r.2 a = mem a) ∧
    (0 < bufSize →
      (∀ i (hi : i < out.length), i < bufSize - 1 → r.2 (buffer + i) = out.get ⟨i, hi⟩) ∧
      r.2 (buffer + min out.length (bufSize - 1)) = 0) := by
  rw [vsnprintf_eq buffer format args mem hsize hout]
  have hlen : (snprintf bufSize format args).length ≤ bufSize := by
    unfold snprintf
    split
    · simp
      omega
    · exact Nat.zero_le _
  refine ⟨rfl, fun a ha => place_outside (by omega), fun hpos => ?_⟩
  unfold snprintf
  rw [if_pos hpos]
  generalize vprintf format args = out
  simp only [place_snoc, length_take, Nat.add_left_cancel_iff]
  refine ⟨fun i hi hlt => ?_, if_pos (Nat.min_comm ..)⟩
  rw [if_neg (by omega), place_inside (by rw [length_take]; omega)]
  exact getElem_take

theorem vsnprintf_bounded_cut : (vsnprintf 8 3 (lit "%d") [.int 421] fun _ => 7).1 = 3 ∧
    (vsnprintf 8 3 (lit "%d") [.int 421] fun _ => 7).2 10 = 0 := by
  have h := vsnprintf_bounded 8 3 (lit "%d") [.int 421] (fun _ => 7) (by decide) (by decide)
  exact ⟨h.1, (h.2.2 (by decide)).2⟩

-- ==== the format pointer

/-- The flag characters of `parse_conversion`. -/
def skipFlags : Bytes → Option Bytes
  | [] => none
  | c :: p => if c ∈ lit "-+ #0'" then skipFlags p else some (c :: p)

def skipDigits : Bytes → Option Bytes
  | [] => none
  | c :: p => if isdigit c then skipDigits p else some (c :: p)

def skipNumber : Bytes → Option Bytes
  | [] => none
  | c :: p => if c = ch '*' then some p else skipDigits (c :: p)

def skipPrecision : Bytes → Option Bytes
  | [] => none
  | c :: p => if c = ch '.' then skipNumber p else some (c :: p)

/-- The second letter of `hh` and `ll`. -/
def skipSecond (c : UInt8) : Bytes → Option Bytes
  | [] => none
  | d :: p => some (if d = c then p else d :: p)

def skipType : Bytes → Option Bytes
  | [] => none
  | c :: p =>
    if c = ch 'h' then skipSecond c p
    else if c = ch 'j' then some p
    else if c = ch 'l' then skipSecond c p
    else if c = ch 't' then some p
    else if c = ch 'z' then some p
    else some (c :: p)

/-- `parse_conversion`, as far as it moves the pointer. -/
def skipConversion (p : Bytes) : Option Bytes :=
  (((skipFlags p).bind skipNumber).bind skipPrecision).bind skipType

theorem skipFlags_eq (s : Bytes) (f : Flags) :
    skipFlags (s ++ [0]) = some ((parseFlags s f).2 ++ [0]) := by
  fun_induction parseFlags s f with
  | case1 => rfl
  | _ => simp [skipFlags, lit, *]

theorem skipDigits_eq (s : Bytes) (n : Int) :
    skipDigits (s ++ [0]) = some ((parseDigits s n).2 ++ [0]) := by
  fun_induction parseDigits s n with
  | case1 => rfl
  | _ => simp [skipDigits, *]

theorem skipNumber_eq (s : Bytes) (args : List Arg) :
    skipNumber (s ++ [0]) = some ((parseNumber s args).2.1 ++ [0]) := by
  cases s with
  | nil => rfl
  | cons c s =>
    unfold parseNumber
    by_cases hc : c = ch '*'
    · simp [skipNumber, hc]
    · simpa [skipNumber, hc] using skipDigits_eq (c :: s) 0

theorem skipSecond_eq {c : UInt8} (hc : c ≠ 0) (s : Bytes) : skipSecond c (s ++ [0]) =
    some ((if s.head? = some c then s.tail else s) ++ [0]) := by
  cases s with
  | nil => simp [skipSecond, hc.symm]
  | cons d s =>
    simp only [skipSecond, cons_append, head?_cons, some_inj, tail_cons]
    split <;> rfl

theorem skipType_eq (s : Bytes) : skipType (s ++ [0]) = some ((parseType s).2 ++ [0]) := by
  cases s with
  | nil => rfl
  | cons c s =>
    have hh := skipSecond_eq (show ch 'h' ≠ 0 by decide) s
    have hl := skipSecond_eq (show ch 'l' ≠ 0 by decide) s
    simp only [parseType, cons_append, skipType]
    split_ifs <;> simp_all

theorem skipPrecision_eq (s : Bytes) (args : List Arg) : skipPrecision (s ++ [0]) =
    some ((if s.head? = some (ch '.') then (parseNumber s.tail args).2.1 else s) ++ [0]) := by
  cases s with
  | nil => rfl
  | cons c s =>
    simp only [skipPrecision, cons_append, head?_cons, some_inj, tail_cons]
    split
    · exact skipNumber_eq s args
    · rfl

/-- What `parse_conversion` leaves of the format is where its pointer
stops, whatever the arguments. -/
theorem skipConversion_eq (s : Bytes) (args : List Arg) :
    skipConversion (s ++ [0]) = some ((parseConversion s args).2.1 ++ [0]) := by
  unfold skipConversion parseConversion
  rw [skipFlags_eq s {}, bind_some, skipNumber_eq _ args, bind_some,
    skipPrecision_eq _ (parseNumber (parseFlags s {}).2 args).2.2, bind_some, skipType_eq]
  simp only
  split <;> rfl

/-- A round of the loop of `__vprintf`, as far as it moves the pointer; at
the terminator it moves no more. -/
def scanRound : Bytes → Option Bytes
  | [] => none
  | c :: p =>
    if c = 0 then some (c :: p)
    else if c ≠ ch '%' then some p
    else
      match p with
      | [] => none
      | d :: q => if d = ch '%' then some q else (skipConversion p).bind List.tail?

/-- Where `n` rounds take the pointer. -/
def scan : Nat → Bytes → Option Bytes
  | 0, p => some p
  | n + 1, p => (scanRound p).bind (scan n)

/-- Each `%` of the format is followed by another or by a specification
with its conversion letter: none is cut off by the end. -/
inductive Complete : Bytes → Prop
  | nil : Complete []
  | char {c : UInt8} {s : Bytes} (hz : c ≠ 0) (hc : c ≠ ch '%') (h : Complete s) : Complete (c :: s)
  | percent {s : Bytes} (h : Complete s) : Complete (ch '%' :: ch '%' :: s)
  | conversion {s rest : Bytes} {l : UInt8} (hs : s.head? ≠ some (ch '%'))
    (hl : (parseConversion s []).2.1 = l :: rest) (h : Complete rest) : Complete (ch '%' :: s)

theorem scanRound_conversion {s : Bytes} (hs : s.head? ≠ some (ch '%')) :
    scanRound (ch '%' :: (s ++ [0])) = ((parseConversion s []).2.1 ++ [0]).tail? := by
  have hskip := skipConversion_eq s []
  cases s with
  | nil => rfl
  | cons d s =>
    have hd : d ≠ ch '%' := fun h => hs (congrArg some h)
    have hz : ch '%' ≠ 0 := by decide
    rw [cons_append] at hskip
    simp [scanRound, hz, hd, hskip]

theorem scanRound_char {c : UInt8} (hz : c ≠ 0) (hc : c ≠ ch '%') (s : Bytes) :
    scanRound (c :: s) = some s := by
  simp [scanRound, hz, hc]

/-- A pointer beyond the terminator does not come back to it. -/
theorem scan_beyond (n : Nat) : scan n [] ≠ some [0] := by cases n <;> simp [scan, scanRound]

/-- A run that ends on the terminator met complete specifications only. -/
theorem complete_of_scan {n : Nat} {format : Bytes}
    (h : scan n (format ++ [0]) = some [0]) : Complete format := by
  induction n generalizing format with
  | zero =>
    cases format with
    | nil => exact .nil
    | cons c s => simp [scan] at h
  | succ n ih =>
    rcases format with _ | ⟨c, s⟩
    · exact .nil
    unfold scan at h
    rw [cons_append] at h
    by_cases hz : c = 0
    · subst hz
      exact ih h
    by_cases hc : c = ch '%'
    · subst hc
      by_cases hs : s.head? = some (ch '%')
      · obtain ⟨t, rfl⟩ := head?_eq_some_iff.mp hs
        exact .percent (ih h)
      · rw [scanRound_conversion hs] at h
        cases hl : (parseConversion s []).2.1 with
        | nil =>
          rw [hl] at h
          exact absurd h (scan_beyond n)
        | cons l rest =>
          rw [hl] at h
          exact .conversion hs hl (ih h)
    · rw [scanRound_char hz hc] at h
      exact .char hz hc (ih h)

/-- The pointer of `__vprintf` comes to rest on the terminator, with no
byte beyond it read, exactly when no specification is cut off. -/
theorem vprintf_reads_within (format : Bytes) :
    (∃ n, scan n (format ++ [0]) = some [0]) ↔ Complete format := by
  constructor
  · intro ⟨n, hn⟩
    exact complete_of_scan hn
  · intro h
    induction h with
    | nil => exact ⟨0, rfl⟩
    | char hz hc h ih =>
      obtain ⟨n, hn⟩ := ih
      refine ⟨n + 1, ?_⟩
      rw [scan, cons_append, scanRound_char hz hc]
      exact hn
    | percent h ih =>
      obtain ⟨n, hn⟩ := ih
      exact ⟨n + 1, hn⟩
    | conversion hs hl h ih =>
      obtain ⟨n, hn⟩ := ih
      refine ⟨n + 1, ?_⟩
      rw [scan, cons_append, scanRound_conversion hs, hl]
      exact hn

/-- A single `%`: the conversion letter is the terminator, the increment
of the loop steps over it, and the next test reads beyond. -/
theorem vprintf_reads_beyond :
    scan 1 (lit "%" ++ [0]) = some [] ∧ scan 2 (lit "%" ++ [0]) = none := by
  decide

end Pintos.Stdio
