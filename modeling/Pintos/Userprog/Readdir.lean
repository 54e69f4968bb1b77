/-
`readdir`: one entry of a directory at a time.

`dir_readdir` goes on from `dir->pos` to the next slot in use and copies
its name to the user's buffer. The system call leaves out `.` and `..`: it
looks at the buffer, whether `dir_readdir` has written to it or not, and
asks once or twice more.

`usedFrom` is what remains of the slots in use. One `dir_readdir` takes
the first of them, and says that there is none when there is none; then
the buffer is as the user left it, and the system call may ask again for
nothing. In the slots after the first two there is no `.` and no `..`,
so it is only the first call that leaves something out.
-/
import Pintos.Filesys.Slots

namespace Pintos.Readdir

open Slots List
open Directory (Entry Name entrySize nameMax)

-- ==== the code

def dot : List UInt8 := [46]

def dotDot : List UInt8 := [46, 46]

/-- `strlcpy (name, e.name, NAME_MAX + 1)`. -/
def strlcpyName (name : Raw) (s : List UInt8) : Raw := fun j =>
  let n := min s.length nameMax
  if j < n then s.getD j 0 else if j = n then 0 else name j

/-- `strcmp (name, s) == 0`. -/
def strcmpEq (name : Raw) (s : List UInt8) : Bool :=
  (List.range s.length).all (fun j => name j == s.getD j 0) && name s.length == 0

/-- The loop of `dir_readdir`: the entry found, and `dir->pos`. -/
def nextLoop (c : List UInt8) : Nat → Nat → Raw → Option Raw × Nat
  | 0, pos, _ => (none, pos)
  | fuel + 1, pos, e =>
    let (n, e) := readEntry c pos e
    if n = entrySize then
      if inUse e then (some e, pos + entrySize)
      else nextLoop c fuel (pos + entrySize) e
    else (none, pos)

def nextEntry (c : List UInt8) (pos : Nat) : Option Raw × Nat :=
  nextLoop c (c.length + 1) pos fun _ => 0

/-- `dir_readdir`: the result, `dir->pos` and `name`. -/
def dirReaddir (c : List UInt8) (pos : Nat) (name : Raw) : Bool × Nat × Raw :=
  match nextEntry c pos with
  | (some e, pos) => (true, pos, strlcpyName name (entryName e))
  | (none, pos) => (false, pos, name)

/-- `struct file_info`: what `inode_isdir` says of the file's inode, if it
has one, and the position of `dir_temp`. -/
structure FileInfo where
  isdir : Option Bool
  pos : Nat
  deriving DecidableEq, Repr

/-- The system call on what `get_file` returns. -/
def readdir (c : List UInt8) (info : Option FileInfo) (name : Raw) : Bool × Option FileInfo × Raw :=
  match info with
  | none => (false, none, name)
  | some i =>
    if i.isdir = some true then
      let (result, pos, name) := dirReaddir c i.pos name
      if strcmpEq name dot then
        let (_, pos, name) := dirReaddir c pos name
        let (result, pos, name) := dirReaddir c pos name
        (result, some { i with pos := pos }, name)
      else if strcmpEq name dotDot then
        let (result, pos, name) := dirReaddir c pos name
        (result, some { i with pos := pos }, name)
      else (result, some { i with pos := pos }, name)
    else (false, info, name)

/-- What successive calls return: the name in the buffer on true. -/
def readdirs (c : List UInt8) : List Raw → Option FileInfo → List (Option (List UInt8))
  | [], _ => []
  | name :: rest, info =>
    let (result, info, name) := readdir c info name
    (if result then some (cString (nameMax + 1) name) else none) :: readdirs c rest info

-- ==== the slots

/-- The slots in use from slot `i` on. -/
def usedFrom (c : List UInt8) (i : Nat) : List Nat :=
  (List.range' i (c.length / entrySize - i)).filter fun k => inUse (slot c k)

/-- The names to be listed: those in use, in the order of their slots,
`.` and `..` apart. -/
def listed (c : List UInt8) : List (List UInt8) :=
  ((usedFrom c 0).map fun k => entryName (slot c k)).filter fun n => n ≠ dot ∧ n ≠ dotDot

section Slots

variable {c : List UInt8} {i : Nat} {name : Raw}

theorem usedFrom_cons (h : i < c.length / 20) : usedFrom c i =
    if inUse (slot c i) then i :: usedFrom c (i + 1)
    else usedFrom c (i + 1) := by
  have hlen : c.length / entrySize - i = c.length / entrySize - (i + 1) + 1 := by
    unfold entrySize
    omega
  unfold usedFrom
  rw [hlen, range'_succ, filter_cons]

theorem usedFrom_end (h : c.length / 20 ≤ i) : usedFrom c i = [] := by
  have hlen : c.length / entrySize - i = 0 := by
    unfold entrySize
    omega
  unfold usedFrom
  rw [hlen]
  rfl

theorem mem_usedFrom {k : Nat} (h : k ∈ usedFrom c i) :
    i ≤ k ∧ k < c.length / 20 ∧ inUse (slot c k) = true := by
  unfold usedFrom entrySize at h
  obtain ⟨hmem, hu⟩ := mem_filter.mp h
  rw [mem_range'_1] at hmem
  exact ⟨hmem.1, by omega, hu⟩

/-- One `dir_readdir` takes the first slot of those that remain. -/
theorem nextLoop_spec (c : List UInt8) (fuel i : Nat) (e : Raw)
    (hfuel : c.length / 20 < i + fuel) (hle : i ≤ c.length / 20) :
    match usedFrom c i with
      | [] => nextLoop c fuel (20 * i) e = (none, 20 * (c.length / 20))
      | k :: rest => (∃ e', nextLoop c fuel (20 * i) e = (some e', 20 * (k + 1)) ∧
            entryName e' = entryName (slot c k)) ∧
          rest = usedFrom c (k + 1) := by
  induction fuel generalizing i e with
  | zero => exact absurd hfuel (by omega)
  | succ fuel ih =>
    unfold nextLoop
    dsimp only
    by_cases hi : i < c.length / 20
    · obtain ⟨hn, he⟩ := readEntry_slot hi e
      generalize (readEntry c (20 * i) e).2 = e₁ at he
      rw [if_pos hn, usedFrom_cons hi, inUse_congr he]
      by_cases hu : inUse (slot c i) = true
      · rw [if_pos hu, if_pos hu]
        exact ⟨⟨e₁, rfl, entryName_congr he⟩, rfl⟩
      · rw [if_neg hu, if_neg hu]
        exact ih (i + 1) e₁ (by omega) (by omega)
    · have hend : i = c.length / 20 := by omega
      rw [if_neg (readEntry_end (not_lt.mp hi) e), usedFrom_end (not_lt.mp hi), hend]

theorem dirReaddir_none (hi : i ≤ c.length / 20) (h : usedFrom c i = []) (name : Raw) :
    dirReaddir c (20 * i) name = (false, 20 * (c.length / 20), name) := by
  have hspec := nextLoop_spec c (c.length + 1) i (fun _ => 0) (by omega) hi
  rw [h] at hspec
  unfold dirReaddir nextEntry
  rw [hspec]

theorem dirReaddir_some {k : Nat} {rest : List Nat}
    (hi : i ≤ c.length / 20) (h : usedFrom c i = k :: rest) (name : Raw) :
    dirReaddir c (20 * i) name =
        (true, 20 * (k + 1), strlcpyName name (entryName (slot c k))) ∧
      usedFrom c (k + 1) = rest ∧ i ≤ k ∧ k + 1 ≤ c.length / 20 := by
  have hspec := nextLoop_spec c (c.length + 1) i (fun _ => 0) (by omega) hi
  obtain ⟨hik, hk, -⟩ := mem_usedFrom (c := c) (i := i) (k := k) (h ▸ mem_cons_self)
  rw [h] at hspec
  obtain ⟨⟨e, he, hname⟩, hrest⟩ := hspec
  refine ⟨?_, hrest.symm, hik, hk⟩
  unfold dirReaddir nextEntry
  rw [he, ← hname]

theorem nextLoop_none {fuel pos pos' : Nat} {e : Raw} (hfuel : c.length < pos + 20 * fuel)
    (h : nextLoop c fuel pos e = (none, pos')) : c.length < pos' + 20 := by
  induction fuel generalizing pos e with
  | zero =>
    cases h
    omega
  | succ fuel ih =>
    unfold nextLoop at h
    dsimp only at h
    split at h
    next hn =>
      split at h
      next => cases h
      next => exact ih (by unfold entrySize; omega) h
    next hn =>
      cases h
      unfold readEntry entrySize at hn
      dsimp only at hn
      omega

/-- Where there was no entry, there is none the next time. -/
theorem nextEntry_none {pos pos' : Nat} (h : nextEntry c pos = (none, pos')) :
    nextEntry c pos' = (none, pos') := by
  have hshort := nextLoop_none (by omega) h
  unfold nextEntry nextLoop readEntry entrySize
  exact if_neg (by omega)

end Slots

-- ==== the buffer

section Buffer

variable {name : Raw} {s : List UInt8}

theorem nul_not_mem_entryName (e : Raw) : 0 ∉ entryName e := by
  intro h
  have hall := all_eq_true.mp all_takeWhile 0 h
  simp at hall

theorem strlcpyName_byte (hlen : s.length ≤ nameMax) (j : Nat) :
    strlcpyName name s j = if j < s.length then s.getD j 0
      else if j = s.length then 0 else name j := by
  unfold strlcpyName
  rw [min_eq_left hlen]

/-- The buffer holds the name. -/
theorem cString_strlcpyName (h0 : 0 ∉ s) (hlen : s.length ≤ nameMax) :
    cString (nameMax + 1) (strlcpyName name s) = s := by
  refine cString_eq h0 (Nat.lt_succ_of_le hlen) (fun j hj => ?_) ?_
  · rw [strlcpyName_byte hlen, if_pos hj]
  · rw [strlcpyName_byte hlen, if_neg (lt_irrefl _), if_pos rfl]

/-- `strcmp` compares the string in the buffer. -/
theorem cString_of_strcmpEq (h : strcmpEq name s = true) (h0 : 0 ∉ s)
    (hlen : s.length ≤ nameMax) : cString (nameMax + 1) name = s := by
  unfold strcmpEq at h
  rw [Bool.and_eq_true, all_eq_true, beq_iff_eq] at h
  refine cString_eq h0 (Nat.lt_succ_of_le hlen) (fun j hj => ?_) h.2
  exact beq_iff_eq.mp (h.1 j (mem_range.mpr hj))

theorem strcmpEq_strlcpyName {s' : List UInt8} (h0 : 0 ∉ s)
    (hlen : s.length ≤ nameMax) (h0' : 0 ∉ s') (hlen' : s'.length ≤ nameMax)
    (hne : s ≠ s') : strcmpEq (strlcpyName name s) s' = false := by
  refine Bool.eq_false_iff.mpr fun h => hne ?_
  have hs := cString_of_strcmpEq h h0' hlen'
  rw [cString_strlcpyName h0 hlen] at hs
  exact hs

theorem strcmpEq_self (hlen : s.length ≤ nameMax) : strcmpEq (strlcpyName name s) s = true := by
  unfold strcmpEq
  rw [Bool.and_eq_true, all_eq_true]
  refine ⟨fun j hj => ?_, ?_⟩
  · rw [strlcpyName_byte hlen, if_pos (mem_range.mp hj)]
    exact beq_self_eq_true _
  · rw [strlcpyName_byte hlen, if_neg (lt_irrefl _), if_pos rfl]
    rfl

end Buffer

-- ==== the calls

/-- A directory that has its first two entries. -/
structure Dotted (c : List UInt8) : Prop where
  wf : Wf (entries c)
  slots : 2 ≤ c.length / entrySize
  first : inUse (slot c 0) = true ∧ entryName (slot c 0) = dot
  second : inUse (slot c 1) = true ∧ entryName (slot c 1) = dotDot

variable {c : List UInt8} {i k : Nat}

theorem Dotted.name (h : Dotted c) (hk : k < c.length / 20) (hu : inUse (slot c k) = true) :
    (entryName (slot c k)).length ≤ nameMax := by
  have hget := (entries_getElem? (c := c) (i := k)).trans (if_pos hk)
  have hlen := (h.wf.named k _ hget hu).2
  rwa [show (decode (slot c k)).name.length = (entryName (slot c k)).length
    from length_map _] at hlen

theorem Dotted.distinct (h : Dotted c) {k l : Nat} (hk : k < c.length / 20) (hl : l < c.length / 20)
    (hu : inUse (slot c k) = true) (hu' : inUse (slot c l) = true)
    (heq : entryName (slot c k) = entryName (slot c l)) : k = l :=
  h.wf.distinct k l _ _
    ((entries_getElem? (c := c) (i := k)).trans (if_pos hk))
    ((entries_getElem? (c := c) (i := l)).trans (if_pos hl)) hu hu'
    (congrArg chars heq)

/-- The other names are others. -/
theorem Dotted.other (h : Dotted c) (hk : k ∈ usedFrom c 2) :
    entryName (slot c k) ≠ dot ∧ entryName (slot c k) ≠ dotDot := by
  obtain ⟨h2, hlt, hu⟩ := mem_usedFrom hk
  constructor
  · intro heq
    have := h.distinct hlt (by omega) hu h.first.1 (heq.trans h.first.2.symm)
    omega
  · intro heq
    have := h.distinct hlt (by omega) hu h.second.1 (heq.trans h.second.2.symm)
    omega

theorem usedFrom_subset {j : Nat} (hij : i ≤ j) (hk : k ∈ usedFrom c j) : k ∈ usedFrom c i := by
  obtain ⟨hjk, hlt, hu⟩ := mem_usedFrom hk
  unfold usedFrom entrySize
  rw [mem_filter, mem_range'_1]
  exact ⟨⟨by omega, by omega⟩, hu⟩

/-- Nothing is left: the buffer may make the call ask again, in vain. -/
theorem readdir_none (hi : i ≤ c.length / 20) (h : usedFrom c i = [])
    (name : Raw) : ∃ name', readdir c (some ⟨some true, 20 * i⟩) name =
      (false, some ⟨some true, 20 * (c.length / 20)⟩, name') := by
  have hend : usedFrom c (c.length / 20) = [] := usedFrom_end le_rfl
  have hagain := dirReaddir_none le_rfl hend name
  unfold readdir
  dsimp only
  rw [if_pos rfl, dirReaddir_none hi h name]
  rw [hagain]
  rw [hagain]
  split
  · exact ⟨name, rfl⟩
  · split <;> exact ⟨name, rfl⟩

section

variable (h : Dotted c)

include h

/-- The next name, after the first two slots. -/
theorem Dotted.readdir_some {rest : List Nat} (h2 : 2 ≤ i) (hi : i ≤ c.length / 20)
    (hused : usedFrom c i = k :: rest) (name : Raw) : readdir c (some ⟨some true, 20 * i⟩) name =
      (true, some ⟨some true, 20 * (k + 1)⟩, strlcpyName name (entryName (slot c k))) := by
  obtain ⟨hread, -, -, -⟩ := dirReaddir_some hi hused name
  have hmem : k ∈ usedFrom c i := by
    rw [hused]
    exact mem_cons_self
  obtain ⟨-, hlt, hu⟩ := mem_usedFrom hmem
  obtain ⟨hdot, hdotDot⟩ := h.other (usedFrom_subset h2 hmem)
  have h0 := nul_not_mem_entryName (slot c k)
  have hlen := h.name hlt hu
  unfold readdir
  dsimp only
  rw [if_pos rfl, hread]
  rw [strcmpEq_strlcpyName h0 hlen (by decide) (by decide) hdot, if_neg Bool.false_ne_true,
    strcmpEq_strlcpyName h0 hlen (by decide) (by decide) hdotDot, if_neg Bool.false_ne_true]

/-- The two first slots come first. -/
theorem Dotted.used : usedFrom c 0 = 0 :: 1 :: usedFrom c 2 := by
  have hslots : 2 ≤ c.length / 20 := h.slots
  rw [usedFrom_cons (by omega), if_pos h.first.1, usedFrom_cons (by omega), if_pos h.second.1]

/-- The first call finds `.`, goes over `..` and on to the next. -/
theorem Dotted.readdir_first (name : Raw) :
    ∃ name₁, readdir c (some ⟨some true, 20 * 0⟩) name =
      ((dirReaddir c (20 * 2) name₁).1,
        some ⟨some true, (dirReaddir c (20 * 2) name₁).2.1⟩,
        (dirReaddir c (20 * 2) name₁).2.2) := by
  have hslots : 2 ≤ c.length / 20 := h.slots
  have hone : usedFrom c 1 = 1 :: usedFrom c 2 := by
    rw [usedFrom_cons (by omega), if_pos h.second.1]
  obtain ⟨hread1, -⟩ := dirReaddir_some (by omega) h.used name
  rw [h.first.2] at hread1
  obtain ⟨hread2, -⟩ := dirReaddir_some (by omega) hone (strlcpyName name dot)
  refine ⟨strlcpyName (strlcpyName name dot) (entryName (slot c 1)), ?_⟩
  unfold readdir
  dsimp only
  rw [if_pos rfl, hread1]
  rw [strcmpEq_self (by decide), if_pos rfl, hread2]

/-- One call, before or after the first two slots have been left out. -/
theorem Dotted.call (hi : i ≤ c.length / 20) (hstart : i = 0 ∨ 2 ≤ i) (name : Raw) :
    (usedFrom c (max i 2) = [] → ∃ name',
      readdir c (some ⟨some true, 20 * i⟩) name =
        (false, some ⟨some true, 20 * (c.length / 20)⟩, name')) ∧
    ∀ k rest, usedFrom c (max i 2) = k :: rest → ∃ name',
      readdir c (some ⟨some true, 20 * i⟩) name =
        (true, some ⟨some true, 20 * (k + 1)⟩, strlcpyName name' (entryName (slot c k))) := by
  have hslots : 2 ≤ c.length / 20 := h.slots
  rcases hstart with rfl | h2
  · obtain ⟨name₁, hfirst⟩ := h.readdir_first name
    rw [hfirst]
    refine ⟨fun hnone => ?_, fun k rest hsome => ?_⟩
    · rw [dirReaddir_none hslots hnone]
      exact ⟨name₁, rfl⟩
    · rw [(dirReaddir_some hslots hsome name₁).1]
      exact ⟨name₁, rfl⟩
  · rw [max_eq_left h2]
    exact ⟨fun hnone => readdir_none hi hnone name, fun k rest hsome =>
      ⟨name, h.readdir_some h2 hi hsome name⟩⟩

/-- A run of calls lists the names that remain, and then nothing. -/
theorem Dotted.readdirs (names : List Raw) (i : Nat) (hi : i ≤ c.length / 20)
    (hstart : i = 0 ∨ 2 ≤ i) :
    readdirs c names (some ⟨some true, 20 * i⟩) = (List.range names.length).map fun m =>
      ((usedFrom c (max i 2)).map fun k => entryName (slot c k))[m]? := by
  induction names generalizing i with
  | nil => exact rfl
  | cons name names ih =>
    have hslots : 2 ≤ c.length / 20 := h.slots
    obtain ⟨hnone, hsome⟩ := h.call hi hstart name
    unfold Readdir.readdirs
    rw [length_cons, range_succ_eq_map, map_cons, map_map]
    cases hused : usedFrom c (max i 2) with
    | nil =>
      obtain ⟨name', hcall⟩ := hnone hused
      rw [hcall]
      dsimp only
      rw [ih _ le_rfl (.inr hslots), max_eq_left hslots, usedFrom_end le_rfl]
      rfl
    | cons k rest =>
      obtain ⟨name', hcall⟩ := hsome k rest hused
      have hmem : k ∈ usedFrom c (max i 2) := by
        rw [hused]
        exact mem_cons_self
      obtain ⟨hik, hlt, hu⟩ := mem_usedFrom hmem
      obtain ⟨-, hrest, -, -⟩ := dirReaddir_some (by omega : max i 2 ≤ c.length / 20) hused name
      rw [hcall]
      dsimp only
      rw [ih (k + 1) hlt (.inr (by omega)), max_eq_left (by omega), hrest,
        cString_strlcpyName (nul_not_mem_entryName _) (h.name hlt hu)]
      rfl

theorem Dotted.listed : listed c = (usedFrom c 2).map fun k => entryName (slot c k) := by
  unfold Readdir.listed
  rw [h.used, map_cons, map_cons, h.first.2, h.second.2,
    filter_cons_of_neg (by decide), filter_cons_of_neg (by decide), filter_eq_self]
  intro n hn
  obtain ⟨k, hk, rfl⟩ := mem_map.mp hn
  exact decide_eq_true (h.other hk)

/-- Successive calls of `readdir` on a descriptor just opened, with
anything in the buffer each time, return the names of the directory in
the order of their slots, each once, and false from then on. -/
theorem readdir_lists_each_once (names : List Raw) :
    readdirs c names (some ⟨some true, 0⟩) =
        (List.range names.length).map (fun m => (listed c)[m]?) ∧
      (listed c).Nodup := by
  constructor
  · rw [h.listed]
    exact h.readdirs names 0 (Nat.zero_le _) (.inl rfl)
  · rw [h.listed]
    refine (nodup_map_iff_inj_on ?_).mpr fun k hk l hl heq => ?_
    · exact (nodup_range').filter _
    · obtain ⟨-, hk, hu⟩ := mem_usedFrom hk
      obtain ⟨-, hl, hu'⟩ := mem_usedFrom hl
      exact h.distinct hk hl hu hu' heq

end

/-- `.`, `..`, and a slot that is free again between two names. -/
def reused : List UInt8 :=
  let junk : Raw := fun _ => 255
  let c := (dirAdd [] dot 7 junk .full).2
  let c := (dirAdd c dotDot 1 junk .full).2
  let c := (dirAdd c [97] 8 junk .full).2
  let c := (dirAdd c [98] 9 junk .full).2
  let c := (dirAdd c [99] 10 junk .full).2
  (dirRemove c [98] true .full).2

theorem reused_reachable : Transition.Reach Blank step Call.legal reused := by
  have hadd : ∀ {c} name sector, 0 ∉ name → sector < 4294967296 →
      Transition.Reach Blank step Call.legal c →
      Transition.Reach Blank step Call.legal (dirAdd c name sector (fun _ => 255) .full).2 :=
    fun name sector hname hs h => .step (.add name sector (fun _ => 255) .full) h ⟨hname, hs⟩ rfl
  have hblank : Blank [] := nofun
  refine .step (.remove [98] true .full) ?_ trivial rfl
  refine hadd [99] 10 (by decide) (by decide) ?_
  refine hadd [98] 9 (by decide) (by decide) ?_
  refine hadd [97] 8 (by decide) (by decide) ?_
  refine hadd dotDot 1 (by decide) (by decide) ?_
  exact hadd dot 7 (by decide) (by decide) (.init hblank)

/-- Two names and then nothing, with `.` left in the buffer each time. -/
theorem readdir_lists_each_once_reused :
    readdirs reused (List.replicate 4 fun j => if j = 0 then 46 else 0)
      (some ⟨some true, 0⟩) = [some [97], some [99], none, none] := by
  have hdotted : Dotted reused :=
    { wf := wf_reachable reused_reachable
      slots := by decide +kernel
      first := by decide +kernel
      second := by decide +kernel }
  have hlisted : listed reused = [[97], [99]] := by decide +kernel
  rw [(readdir_lists_each_once hdotted _).1, hlisted]
  rfl

end Pintos.Readdir
