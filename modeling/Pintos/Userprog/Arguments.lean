/-
How the arguments of a program get onto its stack.

# What is modelled

`process_execute` copies the command line, `load` copies it again, counts
its tokens and then saves them, and `setup_stack` puts them on a zeroed
page below `PHYS_BASE`. Every store through the stack pointer is logged.
`Found` says which of the other steps of `load` go well. Addresses are
integers: 4095 characters cannot take the stack pointer from `PHYS_BASE`
to 0. The array of addresses that `setup_stack` keeps on the kernel's own
stack is left out.

# The picture

`setup_stack` only ever pushes. So the stack is, from `esp` up to
`PHYS_BASE`, the bytes pushed, the latest first, and these are the bytes
stored to (`Shows`). The layout is read off that list, and the page is
left when the list is longer than a page.
-/
import Pintos.Filesys.Path
import Pintos.Userprog.UserMemory
import Mathlib.Data.List.GetD

namespace Pintos.Arguments

open Components Pintos.Path List
open Syscall (littleEndian physBase pgSize)

-- ==== the stack

structure Stack where
  esp : Int
  mem : Int → UInt8
  /-- The addresses stored to. -/
  stores : List Int

/-- The stack pointer is decremented and `bs` stored from there on. -/
def Stack.push (bs : List UInt8) (st : Stack) : Stack where
  esp := st.esp - bs.length
  mem a :=
    if st.esp - bs.length ≤ a ∧ a < st.esp then
      bs.getD (a - (st.esp - bs.length)).toNat 0
    else st.mem a
  stores := (List.range bs.length).map (fun k : Nat => st.esp - bs.length + k) ++ st.stores

/-- A string and its null byte, as `strlcpy` copies them. -/
def cString (t : List Char) : List UInt8 := t.map (fun c => UInt8.ofNat c.toNat) ++ [0]

/-- A 32-bit word in memory. -/
def word (w : Int) : List UInt8 :=
  [w, w / 256, w / 65536, w / 16777216].map fun b => UInt8.ofNat b.toNat

def readWord (mem : Int → UInt8) (a : Int) : Nat :=
  littleEndian ((List.range 4).map fun k : Nat => mem (a + k))

/-- The new page, with `*esp = PHYS_BASE`. -/
def Stack.top : Stack := ⟨physBase, fun _ => 0, []⟩

/-- The loop that pushes the arguments, the last one first, and `argv_addr`. -/
def pushArgs (argv : List (List Char)) (st : Stack) : Stack × List Int :=
  argv.foldr (fun t r =>
    let st := r.1.push (cString t)
    (st, st.esp :: r.2)) (st, [])

/-- The loop that aligns the stack pointer; three rounds are enough. -/
def wordAlign : Nat → Stack → Stack
  | 0, st => st
  | fuel + 1, st =>
    if st.esp % 4 = 0 then st else wordAlign fuel (st.push [0])

/-- The loop that pushes the addresses, the last one first. -/
def pushAddrs (addrs : List Int) (st : Stack) : Stack :=
  addrs.foldr (fun a st => st.push (word a)) st

/-- `setup_stack`, once the page is there. -/
def setupStack (argv : List (List Char)) : Stack :=
  let (st, argvAddr) := pushArgs argv .top
  let st := (wordAlign 3 st).push (word 0)
  let st := pushAddrs argvAddr st
  let st := st.push (word st.esp)
  let st := st.push (word argv.length)
  st.push (word 0)

-- ==== load

/-- What `strlcpy` copies into a buffer of `size` bytes. -/
def strlcpy (s : List Char) (size : Nat) : List Char := s.take (size - 1)

/-- Which steps of `load` go well: the page directory, the page for the
copy, the memory for `argv`, opening the file, its headers and segments,
and the page of the stack. -/
structure Found where
  pagedir : Bool
  copy : Bool
  vector : Bool
  opened : Bool
  executable : Bool
  stackPage : Bool
  deriving DecidableEq

/-- Whether `load` succeeds, and the user stack. -/
def load (found : Found) (fileName : List Char) : Bool × Stack :=
  if !found.pagedir || !found.copy then (false, .top)
  else
    let argc := (tokens [' '] (strlcpy fileName pgSize)).length
    -- `malloc (0)` is a null pointer
    if argc == 0 || !found.vector then (false, .top)
    else
      let argv := tokens [' '] (strlcpy fileName pgSize)
      if !found.opened || !found.executable || !found.stackPage then (false, .top)
      else (true, setupStack argv)

/-- `process_execute`, with a page for the new thread, and the `load` of
that thread. Without a token the assertion on the name in `init_thread`
fails, and the kernel panics. -/
def execute (found : Found) (fileName : List Char) : Option (Bool × Stack) :=
  match strtokR [' '] (strlcpy fileName pgSize) with
  | none => none
  | some _ => some (load found (strlcpy fileName pgSize))

-- ==== tokens

/-- The arguments of a command line: the words of its first 4095
characters. -/
def arguments (line : List Char) : List (List Char) :=
  components (isDelimiter [' ']) (line.take 4095)

def Found.all (found : Found) : Bool :=
  found.pagedir && found.copy && found.vector && found.opened && found.executable && found.stackPage

/-- `load` gets to the stack, or fails before; with nothing to run the
kernel panics. -/
theorem execute_eq (found : Found) (line : List Char) :
    execute found line =
      if arguments line = [] then none
      else if found.all = true then some (true, setupStack (arguments line))
      else some (false, .top) := by
  have hsame : tokens [' '] (strlcpy (strlcpy line pgSize) pgSize) = arguments line := by
    rw [tokens_eq, strlcpy, strlcpy, take_take]
    rfl
  unfold execute load
  split
  next hnone => exact (if_pos (strtokR_none hnone)).symm
  next token save hsome =>
    have hne : arguments line ≠ [] := by
      unfold arguments
      rw [show line.take 4095 = strlcpy line pgSize from rfl, (strtokR_some hsome).1]
      exact cons_ne_nil _ _
    rw [hsame, if_neg hne]
    generalize arguments line = argv at hne
    obtain ⟨_ | _, _ | _, _ | _, _ | _, _ | _, _ | _⟩ := found <;> cases argv <;> trivial

-- ==== the bytes pushed

/-- From `esp` up to `PHYS_BASE` there are the bytes `bs`, all stored. -/
structure Shows (st : Stack) (bs : List UInt8) : Prop where
  esp : st.esp + bs.length = physBase
  mem : ∀ k < bs.length, st.mem (st.esp + k) = bs.getD k 0
  stores : ∀ a, a ∈ st.stores ↔ st.esp ≤ a ∧ a < physBase

variable {st : Stack} {bs pre post : List UInt8}

theorem Shows.top : Shows .top [] := by
  refine ⟨by simp [Stack.top], fun k hk => absurd hk (Nat.not_lt_zero k), ?_⟩
  intro a
  simp [Stack.top]

theorem Shows.push (h : Shows st bs) (cs : List UInt8) : Shows (st.push cs) (cs ++ bs) := by
  have hesp := h.esp
  refine ⟨?_, fun k hk => ?_, fun a => ?_⟩
  · simp only [Stack.push, length_append]
    omega
  · simp only [Stack.push]
    rw [length_append] at hk
    by_cases hlt : k < cs.length
    · rw [if_pos (by omega), getD_append _ _ _ _ hlt]
      congr 1
      omega
    · rw [if_neg (by omega), getD_append_right _ _ _ _ (by omega),
        ← h.mem (k - cs.length) (by omega)]
      congr 1
      omega
  · simp only [Stack.push, mem_append, mem_map, mem_range, h.stores a]
    constructor
    · rintro (⟨k, hk, rfl⟩ | hk) <;> omega
    · intro ha
      by_cases hlt : a < st.esp
      · exact .inl ⟨(a - (st.esp - cs.length)).toNat, by omega, by omega⟩
      · exact .inr ⟨by omega, ha.2⟩

/-- The arguments one after the other. -/
def strings (argv : List (List Char)) : List UInt8 := argv.flatMap cString

theorem Shows.pushArgs (argv : List (List Char)) :
    Shows (pushArgs argv .top).1 (strings argv) ∧
      (pushArgs argv .top).2.length = argv.length ∧
      ∀ i < argv.length, (Arguments.pushArgs argv .top).2[i]? =
        some (physBase - (strings (argv.drop i)).length : Int) := by
  induction argv with
  | nil => exact ⟨.top, rfl, fun i hi => absurd hi (Nat.not_lt_zero i)⟩
  | cons t argv ih =>
    obtain ⟨hshows, hlen, haddr⟩ := ih
    have hpush := hshows.push (cString t)
    refine ⟨hpush, congrArg (· + 1) hlen, fun i hi => ?_⟩
    cases i with
    | zero =>
      have hesp : (Arguments.pushArgs (t :: argv) .top).1.esp +
        (strings (t :: argv)).length = physBase := hpush.esp
      exact congrArg some (by rw [← hesp]; exact (Int.add_sub_cancel _ _).symm)
    | succ i => exact haddr i (Nat.lt_of_succ_lt_succ hi)

theorem Shows.wordAlign : ∀ (fuel : Nat) {st : Stack} {bs : List UInt8},
    Shows st bs → (st.esp % 4).toNat ≤ fuel →
    Shows (wordAlign fuel st) (List.replicate (st.esp % 4).toNat 0 ++ bs) ∧
      (Arguments.wordAlign fuel st).esp % 4 = 0 := by
  intro fuel
  induction fuel with
  | zero =>
    intro st bs h hfuel
    have h0 : st.esp % 4 = 0 := by omega
    exact ⟨h0 ▸ h, h0⟩
  | succ fuel ih =>
    intro st bs h hfuel
    unfold Arguments.wordAlign
    split
    next h0 => exact ⟨h0 ▸ h, h0⟩
    next h0 =>
      have hesp : (st.push [0]).esp = st.esp - 1 := rfl
      obtain ⟨h1, h2⟩ := ih (h.push [0]) (by rw [hesp]; omega)
      have hn : (st.esp % 4).toNat = ((st.push [0]).esp % 4).toNat + 1 := by
        omega
      rw [hn, replicate_succ', append_assoc]
      exact ⟨h1, h2⟩

theorem Shows.pushAddrs (h : Shows st bs) (addrs : List Int) :
    Shows (pushAddrs addrs st) (addrs.flatMap word ++ bs) := by
  induction addrs with
  | nil => exact h
  | cons a addrs ih =>
    exact ih.push (word a)

-- ==== setup_stack

/-- The space that the arguments take, with the padding, the pointers and
the three words below them. -/
def room (argv : List (List Char)) : Nat :=
  4 * (((strings argv).length + 3) / 4) + 4 * (argv.length + 1) + 12

theorem length_word (w : Int) : (word w).length = 4 := rfl

theorem length_flatMap_word (ws : List Int) : (ws.flatMap word).length = 4 * ws.length := by
  induction ws with
  | nil => rfl
  | cons w ws ih =>
    rw [flatMap_cons, length_append, ih, length_word, length_cons]
    omega

/-- The words at the stack pointer. -/
def words (esp : Int) (addrs : List Int) : List Int :=
  0 :: addrs.length :: (esp + 12) :: (addrs ++ [0])

/-- The stack as `setup_stack` leaves it. -/
theorem setupStack_shows (argv : List (List Char)) : ∃ (addrs : List Int) (pad : Nat),
    addrs.length = argv.length ∧
    (∀ i < argv.length, addrs[i]? = some (physBase - (strings (argv.drop i)).length : Int)) ∧
    Shows (setupStack argv) ((words (setupStack argv).esp addrs).flatMap word ++
      (List.replicate pad 0 ++ strings argv)) ∧
    (setupStack argv).esp % 4 = 0 ∧
    (setupStack argv).esp + room argv = physBase := by
  obtain ⟨hargs, hlen, haddr⟩ := Shows.pushArgs argv
  obtain ⟨halign, h4⟩ := hargs.wordAlign 3 (by omega)
  have hvec := (halign.push (word 0)).pushAddrs (pushArgs argv .top).2
  generalize hv : pushAddrs (pushArgs argv .top).2 _ = v at hvec
  have hdef : setupStack argv = ((v.push (word v.esp)).push (word argv.length)).push (word 0) := by
    rw [← hv]
    rfl
  have h12 : v.esp = (setupStack argv).esp + 12 := by
    rw [hdef]
    show v.esp = v.esp - 4 - 4 - 4 + 12
    omega
  have hst := ((hvec.push (word v.esp)).push (word argv.length)).push (word 0)
  rw [← hdef, h12, ← hlen] at hst
  have htop := hst.esp
  have hpad := halign.esp
  have hbase : physBase = 3221225472 := rfl
  refine ⟨_, _, hlen, haddr, by simpa [words] using hst, ?_⟩
  simp only [length_append, length_flatMap_word, hlen, length_word, length_replicate] at htop hpad
  unfold room
  omega

-- ==== the page

/-- Every store is in the stack page if and only if the kernel does not
get to the stack or the arguments leave room for themselves. -/
theorem stores_in_page_iff (found : Found) (line : List Char) :
    (∀ r ∈ execute found line, ∀ a ∈ r.2.stores, (physBase : Int) - pgSize ≤ a ∧ a < physBase) ↔
    found.all = false ∨ arguments line = [] ∨ room (arguments line) ≤ pgSize := by
  rw [execute_eq]
  by_cases hnone : arguments line = []
  · rw [if_pos hnone]
    exact iff_of_true nofun (.inr (.inl hnone))
  rw [if_neg hnone]
  by_cases hall : found.all = true
  · obtain ⟨_, _, _, _, hst, _, hroom⟩ := setupStack_shows (arguments line)
    have hpos : 0 < room (arguments line) := by
      unfold room
      omega
    rw [if_pos hall]
    constructor
    · intro h
      have := h _ rfl _ ((hst.stores _).2 ⟨Int.le_refl _, by omega⟩)
      exact .inr (.inr (by omega))
    · rintro (h | h | h) r hr a ha
      · simp [hall] at h
      · exact absurd h hnone
      · cases hr
        have := (hst.stores a).1 ha
        omega
  · rw [if_neg hall]
    refine iff_of_true ?_ (.inl (Bool.eq_false_iff.2 hall))
    rintro r ⟨⟩ a ha
    cases ha

/-- 681 arguments of one character: the pointers do not fit below them. -/
theorem stores_below_page : ((execute ⟨true, true, true, true, true, true⟩
      ((List.replicate 680 ['a', ' ']).flatten ++ ['a'])).any fun r => r.2.stores.any
        (fun a => decide (a < (physBase : Int) - pgSize))) = true := by
  decide +kernel

-- ==== the layout

/-- `t` and its null byte are at `a`. -/
def CString (mem : Int → UInt8) (a : Int) (t : List Char) : Prop :=
  ∀ k < t.length + 1, mem (a + k) = (cString t).getD k 0

/-- `argv[i]`. -/
def pointer (st : Stack) (i : Nat) : Int := readWord st.mem (st.esp + 12 + 4 * i)

/-- What `main` finds. The words at `esp` come first, then the arguments,
one after the other. -/
structure Layout (st : Stack) (argv : List (List Char)) : Prop where
  returnAddress : readWord st.mem st.esp = 0
  argc : readWord st.mem (st.esp + 4) = argv.length
  vector : (readWord st.mem (st.esp + 8) : Int) = st.esp + 12
  null : readWord st.mem (st.esp + 12 + 4 * argv.length) = 0
  args : ∀ i t, argv[i]? = some t → CString st.mem (pointer st i) t
  aligned : st.esp % 4 = 0
  bottom : (physBase : Int) - pgSize ≤ st.esp
  above : ∀ i < argv.length, st.esp + 16 + 4 * argv.length ≤ pointer st i
  apart : ∀ i j t, argv[i]? = some t → i < j → j < argv.length →
    pointer st i + (t.length + 1) ≤ pointer st j
  below : ∀ i t, argv[i]? = some t → pointer st i + (t.length + 1) ≤ physBase

variable {a : Int} {i : Nat} {argv : List (List Char)}

theorem Shows.read (h : Shows st (pre ++ (bs ++ post))) (ha : a = st.esp + pre.length) :
    ∀ k < bs.length, st.mem (a + k) = bs.getD k 0 := by
  intro k hk
  have hmem := h.mem (pre.length + k) (by
    rw [length_append, length_append]
    omega)
  rw [getD_append_right _ _ _ _ (by omega), Nat.add_sub_cancel_left, getD_append _ _ _ _ hk] at hmem
  rw [ha, Int.add_assoc]
  exact hmem

theorem Shows.readWord {ws : List Int} (h : Shows st (ws.flatMap word ++ post)) {w : Int}
    (hi : ws[i]? = some w) (ha : a = st.esp + 4 * i)
    (h0 : 0 ≤ w) (hw : w < 4294967296) : (readWord st.mem a : Int) = w := by
  obtain ⟨hlt, rfl⟩ := List.getElem?_eq_some_iff.1 hi
  rw [← take_append_drop i ws, flatMap_append, drop_eq_getElem_cons hlt,
    flatMap_cons, append_assoc, append_assoc] at h
  have hread : ∀ k : Nat, k < 4 → st.mem (a + k) = (word ws[i]).getD k 0 :=
    h.read (by rw [length_flatMap_word, length_take]; omega)
  unfold Arguments.readWord
  rw [map_congr_left fun k hk => hread k (mem_range.1 hk)]
  show (littleEndian (word ws[i]) : Int) = ws[i]
  simp only [word, littleEndian, map_cons, map_nil, UInt8.toNat_ofNat']
  omega

theorem length_cString (t : List Char) : (cString t).length = t.length + 1 := by simp [cString]

theorem strings_drop {t : List Char} (h : argv[i]? = some t) :
    strings (argv.drop i) = cString t ++ strings (argv.drop (i + 1)) := by
  obtain ⟨hi, rfl⟩ := List.getElem?_eq_some_iff.1 h
  rw [drop_eq_getElem_cons hi]
  rfl

theorem length_strings_drop (argv : List (List Char)) {j : Nat} (h : i ≤ j) :
    (strings (argv.drop j)).length ≤ (strings (argv.drop i)).length := by
  obtain ⟨k, rfl⟩ := Nat.exists_eq_add_of_le h
  rw [← drop_drop]
  generalize argv.drop i = l
  conv_rhs => rw [← take_append_drop k l]
  rw [strings, strings, flatMap_append, length_append]
  omega

theorem setupStack_layout (hroom : room argv ≤ pgSize) : Layout (setupStack argv) argv := by
  obtain ⟨addrs, pad, hlen, haddr, hst, h4, htop⟩ := setupStack_shows argv
  have hbase : physBase = 3221225472 := rfl
  have hpage : pgSize = 4096 := rfl
  unfold room at hroom htop
  have hle : ∀ i, (strings (argv.drop i)).length ≤ (strings argv).length :=
    fun i => length_strings_drop argv (Nat.zero_le i)
  have hptr i (hi : i < argv.length) :
      pointer (setupStack argv) i = physBase - (strings (argv.drop i)).length := by
    have hword : (words (setupStack argv).esp addrs)[3 + i]? =
        some (physBase - (strings (argv.drop i)).length : Int) := by
      rw [← haddr i hi, Nat.add_comm]
      exact getElem?_append_left (by omega)
    exact hst.readWord hword (by push_cast; omega) (by have := hle i; omega) (by omega)
  constructor
  case returnAddress =>
    have := hst.readWord (i := 0) rfl (Int.add_zero _).symm (by omega) (by omega)
    omega
  case argc =>
    have := hst.readWord (i := 1) (a := (setupStack argv).esp + 4) rfl rfl (by omega) (by omega)
    omega
  case vector => exact hst.readWord (i := 2) rfl rfl (by omega) (by omega)
  case null =>
    have hword : (words (setupStack argv).esp addrs)[3 + argv.length]? = some 0 := by
      rw [← hlen, Nat.add_comm]
      exact getElem?_concat_length
    have := hst.readWord (a := (setupStack argv).esp + 12 + 4 * argv.length)
      hword (by push_cast; omega) (by omega) (by omega)
    omega
  case args =>
    intro i t ht k hk
    have hi := (List.getElem?_eq_some_iff.1 ht).1
    have hsplit : strings argv = strings (argv.take i) ++
        (cString t ++ strings (argv.drop (i + 1))) := by
      rw [← strings_drop ht, strings, strings, strings, ← flatMap_append, take_append_drop]
    have hesp := hst.esp
    rw [hptr i hi]
    rw [hsplit, ← append_assoc, ← append_assoc] at hst
    refine hst.read ?_ k (by rw [length_cString]; exact hk)
    rw [strings_drop ht]
    rw [hsplit] at hesp
    simp only [length_append] at hesp ⊢
    omega
  case aligned => exact h4
  case bottom => omega
  case above =>
    intro i hi
    have := hle i
    rw [hptr i hi]
    omega
  case apart =>
    intro i j t ht hij hj
    have hi := (List.getElem?_eq_some_iff.1 ht).1
    have hlater := length_strings_drop argv (show i + 1 ≤ j from hij)
    rw [hptr i hi, hptr j hj, strings_drop ht, length_append, length_cString]
    omega
  case below =>
    intro i t ht
    rw [hptr i (List.getElem?_eq_some_iff.1 ht).1, strings_drop ht, length_append, length_cString]
    omega

/-- A command line that has room: `load` leaves the stack as the convention
for `main` has it. -/
theorem argument_passing {found : Found} {line : List Char} (hall : found.all = true)
    (hsome : arguments line ≠ []) (hroom : room (arguments line) ≤ pgSize) :
    ∃ st, execute found line = some (true, st) ∧ Layout st (arguments line) := by
  rw [execute_eq, if_neg hsome, if_pos hall]
  exact ⟨_, rfl, setupStack_layout hroom⟩

theorem argument_passing_echo :
    let line := "echo  hello world".toList
    arguments line = ["echo".toList, "hello".toList, "world".toList] ∧
      ∃ st, execute ⟨true, true, true, true, true, true⟩ line = some (true, st) ∧
        Layout st (arguments line) :=
  ⟨by decide, argument_passing rfl (by decide) (by decide)⟩

end Pintos.Arguments
