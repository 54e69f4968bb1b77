/-
`devices/partition.c`: the partitions of a disk, and the block layer over
them.

# Reading the model

A sector number is a `UInt32`, as `block_sector_t` is, so that sums of
sector numbers wrap. What the scan leaves behind is the list of its calls
of `found_partition`; which of them register a partition depends on the
device only. The lines it prints, and the names it gives, are left out.
`Except.error` is a scan that is still going when its fuel is used up,
with the calls so far; `none` from the block layer is a panic.

# The tables

`read_partition_table` reads sector 0 whatever sector it was asked for, so
the tables behind an extended entry are never seen: the scan finds the
first table again in their place. `wantedTable` is the function that reads
the sector it is asked for. The two agree where no extended entry is of
the disk. Where one is, what the scan does is settled by the size and the
first table, and what it should do is not.
-/
import Pintos.Filesys.Block

namespace Pintos.Disk

open List Option

open Inode (Block)

-- ==== tables

/-- A block device: its size in sectors and their bytes. -/
structure Device where
  size : UInt32
  data : UInt32 → Block

/-- A little-endian word at a byte offset. -/
def wordAt (b : Block) (ofs : Nat) : UInt32 :=
  (b ofs).toUInt32 + 256 * (b (ofs + 1)).toUInt32
    + 65536 * (b (ofs + 2)).toUInt32 + 16777216 * (b (ofs + 3)).toUInt32

/-- `struct partition_table_entry`, less the fields nobody reads. -/
structure Entry where
  type : UInt8
  offset : UInt32
  size : UInt32
  deriving DecidableEq

def entry (pt : Block) (i : Nat) : Entry :=
  ⟨pt (446 + 16 * i + 4), wordAt pt (446 + 16 * i + 8), wordAt pt (446 + 16 * i + 12)⟩

/-- The four entries of a table. -/
def entries (pt : Block) : List Entry := (List.range 4).map (entry pt)

/-- The signature is 0xaa55. -/
def signed (pt : Block) : Bool := pt 510 == 0x55 && pt 511 == 0xaa

inductive Kind where
  | empty | extended | partition
  deriving DecidableEq

def Entry.kind (e : Entry) : Kind :=
  if e.size = 0 ∨ e.type = 0 then .empty
  else if e.type = 0x05 ∨ e.type = 0x0f ∨ e.type = 0x85 ∨ e.type = 0xc5
  then .extended else .partition

-- ==== the scan

/-- A call of `found_partition`. -/
structure Call where
  type : UInt8
  start : UInt32
  size : UInt32
  partNr : Nat
  deriving DecidableEq

structure Scan where
  partNr : Nat
  calls : List Call
  deriving DecidableEq

/-- A partition in the table of `sector`. -/
def Scan.found (s : Scan) (sector : UInt32) (e : Entry) : Scan :=
  ⟨s.partNr + 1, s.calls ++ [⟨e.type, e.offset + sector, e.size, s.partNr + 1⟩]⟩

/-- One round of the loop; `down` reads a table further down. -/
def round (down : UInt32 → UInt32 → Scan → Except Scan Scan)
    (sector primary : UInt32) (s : Scan) (e : Entry) : Except Scan Scan :=
  match e.kind with
  | .empty => .ok s
  | .extended =>
    if sector = 0 then down e.offset e.offset s
    else down (e.offset + primary) primary s
  | .partition => .ok (s.found sector e)

/-- What is done with the table in `pt`. -/
def parse (down : UInt32 → UInt32 → Scan → Except Scan Scan)
    (sector primary : UInt32) (pt : Block) (s : Scan) : Except Scan Scan :=
  if signed pt then (entries pt).foldlM (round down sector primary) s
  else .ok s

/-- `read_partition_table`. -/
def readPartitionTable (d : Device) : Nat → UInt32 → UInt32 → Scan → Except Scan Scan
  | 0, _, _, s => .error s
  | fuel + 1, sector, primary, s =>
    if d.size ≤ sector then .ok s
    else parse (readPartitionTable d fuel) sector primary (d.data 0) s

/-- The same, from the sector that is meant. -/
def wantedTable (d : Device) : Nat → UInt32 → UInt32 → Scan → Except Scan Scan
  | 0, _, _, s => .error s
  | fuel + 1, sector, primary, s =>
    if d.size ≤ sector then .ok s
    else parse (wantedTable d fuel) sector primary (d.data sector) s

/-- `partition_scan`. -/
def partitionScan (d : Device) (fuel : Nat) : Except Scan Scan :=
  readPartitionTable d fuel 0 0 ⟨0, []⟩

/-- The calls for the partitions among `es`, numbered from `nr` on. -/
def callsFor (sector : UInt32) : Nat → List Entry → List Call
  | _, [] => []
  | nr, e :: es =>
    if e.kind = .partition then
      ⟨e.type, e.offset + sector, e.size, nr + 1⟩ :: callsFor sector (nr + 1) es
    else callsFor sector nr es

/-- The loop, where the extended entries add nothing. -/
theorem foldlM_round {down : UInt32 → UInt32 → Scan → Except Scan Scan} {sector primary : UInt32}
    {es : List Entry} (hext : ∀ e ∈ es, e.kind = .extended →
      ∀ s, round down sector primary s e = .ok s) (s : Scan) :
    es.foldlM (round down sector primary) s
      = .ok ⟨s.partNr + (callsFor sector s.partNr es).length,
        s.calls ++ callsFor sector s.partNr es⟩ := by
  induction es generalizing s with
  | nil =>
    rw [callsFor, append_nil]
    rfl
  | cons e es ih =>
    obtain ⟨he, hes⟩ := forall_mem_cons.mp hext
    rw [foldlM_cons]
    unfold callsFor
    cases hk : e.kind with
    | empty =>
      have hround : round down sector primary s e = .ok s := by
        unfold round
        rw [hk]
      rw [hround]
      exact ih hes s
    | extended =>
      rw [he hk]
      exact ih hes s
    | partition =>
      have hround : round down sector primary s e = .ok (s.found sector e) := by
        unfold round
        rw [hk]
      rw [hround]
      refine (ih hes (s.found sector e)).trans ?_
      simp [Scan.found, add_assoc, add_comm]

/-- The calls for the first table. -/
def primaryCalls (d : Device) : List Call :=
  if 0 < d.size ∧ signed (d.data 0) then callsFor 0 0 (entries (d.data 0))
  else []

/-- The first table, where its extended entries add nothing. -/
theorem parse_primary {d : Device} {down : UInt32 → UInt32 → Scan → Except Scan Scan}
    (hext : signed (d.data 0) = true → ∀ e ∈ entries (d.data 0), e.kind = .extended →
      ∀ s, down e.offset e.offset s = .ok s) :
    (if d.size ≤ 0 then .ok ⟨0, []⟩ else parse down 0 0 (d.data 0) ⟨0, []⟩) =
      Except.ok ⟨(primaryCalls d).length, primaryCalls d⟩ := by
  unfold primaryCalls parse
  by_cases hs : d.size ≤ 0
  · simp [hs, UInt32.not_lt.mpr hs]
  by_cases hsig : signed (d.data 0) = true
  · have hround : ∀ e ∈ entries (d.data 0), e.kind = .extended →
        ∀ s, round down 0 0 s e = .ok s := by
      intro e he hk s
      unfold round
      rw [hk]
      exact hext hsig e he hk s
    rw [foldlM_round hround]
    simp [hs, hsig, UInt32.not_le.mp hs]
  · simp [hs, hsig]

/-- The chain of tables is finite, with the calls of `s` to be made. -/
def Ends (d : Device) (s : Scan) : Prop := ∃ n, wantedTable d n 0 0 ⟨0, []⟩ = .ok s

/-- `partition_scan` ends, with the calls of `s`. -/
def Scans (d : Device) (s : Scan) : Prop := ∃ n, partitionScan d n = .ok s

/-- The scan meets an extended entry that is of the disk. -/
def Reads (d : Device) : Prop :=
  signed (d.data 0) = true ∧ ∃ e ∈ entries (d.data 0), e.kind = .extended ∧ e.offset < d.size

-- ==== fuel

/-- More of the tables further down. -/
def Below (down down' : UInt32 → UInt32 → Scan → Except Scan Scan) : Prop :=
  ∀ a b s r, down a b s = .ok r → down' a b s = .ok r

theorem parse_mono {down down' : UInt32 → UInt32 → Scan → Except Scan Scan}
    (h : Below down down') {sector primary : UInt32} {pt : Block} {s r : Scan}
    (hr : parse down sector primary pt s = .ok r) : parse down' sector primary pt s = .ok r := by
  have hround (s r : Scan) (e : Entry) (hr : round down sector primary s e = .ok r) :
      round down' sector primary s e = .ok r := by
    unfold round at hr ⊢
    cases hk : e.kind with
    | empty => simpa [hk] using hr
    | partition => simpa [hk] using hr
    | extended =>
      rw [hk] at hr
      dsimp only at hr ⊢
      split at hr
      next hs =>
        rw [if_pos hs]
        exact h _ _ _ _ hr
      next hs =>
        rw [if_neg hs]
        exact h _ _ _ _ hr
  have hfold (es : List Entry) (s : Scan) (hr : es.foldlM (round down sector primary) s = .ok r) :
      es.foldlM (round down' sector primary) s = .ok r := by
    induction es generalizing s with
    | nil => exact hr
    | cons e es ih =>
      rw [foldlM_cons] at hr ⊢
      cases he : round down sector primary s e with
      | error x =>
        rw [he] at hr
        cases hr
      | ok s' =>
        rw [he] at hr
        rw [hround s s' e he]
        exact ih s' hr
  unfold parse at hr ⊢
  split at hr
  next hsig =>
    rw [if_pos hsig]
    exact hfold _ s hr
  next hsig =>
    rw [if_neg hsig]
    exact hr

section

variable {d : Device} {p : UInt32 → Block} {T : Nat → UInt32 → UInt32 → Scan → Except Scan Scan}
  (hzero : ∀ a b s, T 0 a b s = .error s) (hsucc : ∀ n a b s, T (n + 1) a b s =
    if d.size ≤ a then .ok s else parse (T n) a b (p a) s)

include hzero hsucc

/-- Both functions find with more fuel what they found with less. -/
theorem table_mono {n m : Nat} (h : n ≤ m) : Below (T n) (T m) := by
  induction n generalizing m with
  | zero =>
    intro a b s r hr
    rw [hzero] at hr
    cases hr
  | succ n ih =>
    obtain ⟨m, rfl⟩ : ∃ k, m = k + 1 := ⟨m - 1, by omega⟩
    intro a b s r hr
    rw [hsucc] at hr ⊢
    split at hr
    next hs =>
      rw [if_pos hs]
      exact hr
    next hs =>
      rw [if_neg hs]
      exact parse_mono (ih (Nat.le_of_succ_le_succ h)) hr

theorem table_unique {a b : UInt32} {s r r' : Scan} (h : ∃ n, T n a b s = .ok r)
    (h' : ∃ n, T n a b s = .ok r') : r = r' := by
  obtain ⟨n, hn⟩ := h
  obtain ⟨m, hm⟩ := h'
  have hn := table_mono hzero hsucc (le_max_left n m) _ _ _ _ hn
  rw [table_mono hzero hsucc (le_max_right n m) _ _ _ _ hm] at hn
  cases hn
  rfl

end

theorem Scans.unique {d : Device} {s s' : Scan} (h : Scans d s) (h' : Scans d s') : s = s' :=
  table_unique (p := fun _ => d.data 0) (fun _ _ _ => rfl) (fun _ _ _ _ => rfl) h h'

theorem Ends.unique {d : Device} {s s' : Scan} (h : Ends d s) (h' : Ends d s') : s = s' :=
  table_unique (p := d.data) (fun _ _ _ => rfl) (fun _ _ _ _ => rfl) h h'

-- ==== the tables that are not read

/-- What the scan does depends on the first table alone. -/
theorem readPartitionTable_congr {d d' : Device} (hsize : d'.size = d.size)
    (hdata : d'.data 0 = d.data 0) (fuel : Nat) :
    readPartitionTable d' fuel = readPartitionTable d fuel := by
  induction fuel with
  | zero => rfl
  | succ fuel ih =>
    funext sector primary s
    unfold readPartitionTable
    rw [hsize, hdata, ih]

theorem Scans.congr {d d' : Device} {s : Scan} (h : Scans d s) (hsize : d'.size = d.size)
    (hdata : d'.data 0 = d.data 0) : Scans d' s := by
  obtain ⟨n, hn⟩ := h
  refine ⟨n, ?_⟩
  rw [partitionScan, readPartitionTable_congr hsize hdata]
  exact hn

/-- The device with the same first table, and `rest` in every other sector. -/
def Device.redraw (d : Device) (rest : UInt32 → Block) : Device :=
  { d with data x := if x = 0 then d.data 0 else rest x }

theorem Device.redraw_data (d : Device) (rest : UInt32 → Block) {x : UInt32} (hx : x ≠ 0) :
    (d.redraw rest).data x = rest x :=
  if_neg hx

/-- A disk with an entry of the given type in its first table, and a
partition in a table in sector 1. -/
def disk (type : UInt8) : Device where
  size := 8
  data sector ofs :=
    let bytes : List (Nat × UInt8) :=
      if sector = 0 then [(450, type), (454, 1), (458, 7)]
      else if sector = 1 then [(450, 0x21), (454, 1), (458, 2)] else []
    ((bytes ++ [(510, 0x55), (511, 0xaa)]).lookup ofs).getD 0

/-- Every round of a loop that ended has ended. -/
theorem foldlM_ok_mem {f : Scan → Entry → Except Scan Scan} {es : List Entry} {s r : Scan}
    (h : es.foldlM f s = .ok r) {e : Entry} (he : e ∈ es) : ∃ s' r', f s' e = .ok r' := by
  induction es generalizing s with
  | nil => cases he
  | cons e' es ih =>
    rw [foldlM_cons] at h
    cases hf : f s e' with
    | error x =>
      rw [hf] at h
      cases h
    | ok s' =>
      rw [hf] at h
      rcases mem_cons.mp he with rfl | he
      · exact ⟨s, s', hf⟩
      · exact ih h he

/-- A first table that is behind itself is no finite chain. -/
theorem Ends.offset_ne {d : Device} {s : Scan} (h : Ends d s) (hsize : 0 < d.size)
    (hsig : signed (d.data 0) = true) {e : Entry} (he : e ∈ entries (d.data 0))
    (hk : e.kind = .extended) : e.offset ≠ 0 := by
  intro hzero
  have hnever (n : Nat) (s r : Scan) : wantedTable d n 0 0 s ≠ .ok r := by
    induction n generalizing s r with
    | zero => nofun
    | succ n ih =>
      intro hr
      unfold wantedTable parse at hr
      rw [if_neg (UInt32.not_le.mpr hsize), if_pos hsig] at hr
      obtain ⟨s', r', hround⟩ := foldlM_ok_mem hr he
      unfold round at hround
      rw [hk, hzero] at hround
      exact ih s' r' hround
  obtain ⟨n, hn⟩ := h
  exact hnever n _ _ hn

/-- The loop, where an extended entry adds `a` calls if it is at `o`, and
none if it is not. -/
theorem foldlM_round_length {down : UInt32 → UInt32 → Scan → Except Scan Scan}
    {sector primary o : UInt32} {a : Nat} {es : List Entry} (hext : ∀ e ∈ es, e.kind = .extended →
      ∀ s, ∃ r, round down sector primary s e = .ok r ∧
        r.calls.length = s.calls.length + if e.offset = o then a else 0) (s : Scan) :
    ∃ r, es.foldlM (round down sector primary) s = .ok r ∧
      r.calls.length = s.calls.length + es.countP (·.kind = .partition) +
        a * es.countP fun e => e.kind = .extended ∧ e.offset = o := by
  induction es generalizing s with
  | nil => exact ⟨s, rfl, rfl⟩
  | cons e es ih =>
    obtain ⟨he, hes⟩ := forall_mem_cons.mp hext
    have hround : ∃ r, round down sector primary s e = .ok r ∧ r.calls.length =
        s.calls.length + (if e.kind = .partition then 1 else 0) +
          if e.kind = .extended ∧ e.offset = o then a else 0 := by
      cases hk : e.kind with
      | empty => exact ⟨s, by simp [round, hk], by simp⟩
      | partition => exact ⟨s.found sector e, by simp [round, hk], by simp [Scan.found]⟩
      | extended =>
        obtain ⟨r, hr, hlen⟩ := he hk s
        exact ⟨r, hr, by simpa using hlen⟩
    obtain ⟨r, hr, hlen⟩ := hround
    obtain ⟨r', hr', hlen'⟩ := ih hes r
    rw [foldlM_cons, hr]
    refine ⟨r', hr', ?_⟩
    rw [hlen', hlen, countP_cons, countP_cons, mul_add, mul_ite, mul_one, mul_zero]
    simp only [decide_eq_true_eq]
    omega

/-- What is meant, where the table at `o` adds `a` calls and the others are
empty. -/
theorem Ends.redraw {d : Device} {s : Scan} (h : Ends d s) (hsize : 0 < d.size)
    (hsig : signed (d.data 0) = true) {o : UInt32} (ho : o < d.size) {b : Block} {a : Nat}
    (hb : ∀ down sector s, ∃ r, parse down sector sector b s = .ok r ∧
      r.calls.length = s.calls.length + a) :
    ∃ r, Ends (d.redraw fun x => if x = o then b else fun _ => 0) r ∧
      r.calls.length = (entries (d.data 0)).countP (·.kind = .partition) +
        a * (entries (d.data 0)).countP fun e => e.kind = .extended ∧ e.offset = o := by
  let rest (x : UInt32) : Block := if x = o then b else fun _ => 0
  have hround : ∀ e ∈ entries (d.data 0), e.kind = .extended → ∀ s,
      ∃ r, round (wantedTable (d.redraw rest) 1) 0 0 s e = .ok r ∧
        r.calls.length = s.calls.length + if e.offset = o then a else 0 := by
    intro e he hk s
    unfold round wantedTable
    rw [hk, d.redraw_data rest (h.offset_ne hsize hsig he hk)]
    dsimp only [rest]
    rw [if_pos rfl]
    by_cases heq : e.offset = o
    · obtain ⟨r, hr, hlen⟩ := hb (wantedTable (d.redraw rest) 0) e.offset s
      refine ⟨r, ?_, by rw [hlen, if_pos heq]⟩
      rw [if_pos heq]
      exact (if_neg (UInt32.not_le.mpr (heq ▸ ho))).trans hr
    · refine ⟨s, ?_, by simp [heq]⟩
      rw [if_neg heq]
      exact ite_self _
  obtain ⟨r, hr, hlen⟩ := foldlM_round_length hround ⟨0, []⟩
  refine ⟨r, ⟨2, ?_⟩, by simpa using hlen⟩
  unfold wantedTable parse
  exact (if_neg (UInt32.not_le.mpr hsize)).trans ((if_pos hsig).trans hr)

/-- One partition. -/
theorem parse_one (down : UInt32 → UInt32 → Scan → Except Scan Scan) (sector : UInt32) (s : Scan) :
    ∃ r, parse down sector sector ((disk 0).data 1) s = .ok r ∧
      r.calls.length = s.calls.length + 1 := by
  have hes : entries ((disk 0).data 1) = [⟨0x21, 1, 2⟩, ⟨0, 0, 0⟩, ⟨0, 0, 0⟩, ⟨0, 0, 0⟩] := by
    decide +kernel
  have hsig : signed ((disk 0).data 1) = true := by decide +kernel
  refine ⟨s.found sector ⟨0x21, 1, 2⟩, ?_, by simp [Scan.found]⟩
  unfold parse
  rw [if_pos hsig, hes]
  rfl

/-- Without an extended entry that is of the disk, the scan ends, and makes
the calls for the first table. -/
theorem scan_primary {d : Device} (h : ¬Reads d) (fuel : Nat) :
    partitionScan d (fuel + 2) = .ok ⟨(primaryCalls d).length, primaryCalls d⟩ ∧
      wantedTable d (fuel + 2) 0 0 ⟨0, []⟩ = .ok ⟨(primaryCalls d).length, primaryCalls d⟩ := by
  have hout {e : Entry} (hsig : signed (d.data 0) = true) (he : e ∈ entries (d.data 0))
      (hk : e.kind = .extended) : d.size ≤ e.offset :=
    UInt32.not_lt.mp fun hlt => h ⟨hsig, e, he, hk, hlt⟩
  refine ⟨parse_primary ?_, parse_primary ?_⟩
  · intro hsig e he hk s
    exact if_pos (hout hsig he hk)
  · intro hsig e he hk s
    exact if_pos (hout hsig he hk)

/-- Of a disk with a finite chain of tables, the size and the first table
settle whether `partition_scan` can be relied on. If no extended entry of
that table is of the disk, the scan ends and does what it is meant to do,
with the calls for the first table in order. If one is, some content of the
other sectors has a finite chain that the scan does not follow. -/
theorem scan_finds_primary {d : Device} (hfin : ∃ s, Ends d s) :
    ((∀ d' : Device, d'.size = d.size → d'.data 0 = d.data 0 →
        ∀ s, Ends d' s → Scans d' s) ↔ ¬Reads d) ∧
      (¬Reads d → ∀ fuel, partitionScan d (fuel + 2) =
        .ok ⟨(primaryCalls d).length, primaryCalls d⟩) := by
  obtain ⟨s, hs⟩ := hfin
  refine ⟨⟨?_, ?_⟩, fun h fuel => (scan_primary h fuel).1⟩
  · rintro hall ⟨hsig, e, he, hk, ho⟩
    have hsize : 0 < d.size := UInt32.lt_of_le_of_lt (UInt32.zero_le ..) ho
    obtain ⟨r, hr, hlen⟩ := hs.redraw hsize hsig ho (b := fun _ => 0) (a := 0)
      fun _ _ s => ⟨s, rfl, rfl⟩
    obtain ⟨r', hr', hlen'⟩ := hs.redraw hsize hsig ho parse_one
    -- the scan makes the same calls on both
    have hsame := (hall (d.redraw _) rfl rfl r hr).unique
      ((hall (d.redraw _) rfl rfl r' hr').congr rfl rfl)
    have hpos : 0 < (entries (d.data 0)).countP
        fun e' => e'.kind = .extended ∧ e'.offset = e.offset :=
      countP_pos_iff.mpr ⟨e, he, by simp [hk]⟩
    rw [← hsame] at hlen'
    omega
  · intro h d' hsize hdata s' hs'
    have h' : ¬Reads d' := by
      unfold Reads
      rw [hsize, hdata]
      exact h
    have hsame := hs'.unique ⟨2, (scan_primary h' 0).2⟩
    exact ⟨2, hsame ▸ (scan_primary h' 0).1⟩

/-- A partition, and an extended entry past the end of the disk. -/
theorem scan_finds_primary_past_end :
    let d : Device := { size := 8, data := fun _ ofs => ([(450, 0x21), (454, 1), (458, 7),
      (466, 0x05), (470, 9), (474, 1), (510, 0x55), (511, 0xaa)].lookup ofs).getD 0 }
    ¬Reads d ∧ partitionScan d 2 = .ok ⟨1, [⟨0x21, 1, 7, 1⟩]⟩ := by
  intro d
  have hends : wantedTable d 2 0 0 ⟨0, []⟩ = .ok ⟨1, [⟨0x21, 1, 7, 1⟩]⟩ := by decide +kernel
  have hout : ¬Reads d := by
    unfold Reads
    decide +kernel
  exact ⟨hout, ((scan_finds_primary ⟨_, 2, hends⟩).2 hout 0).trans (by decide +kernel)⟩

/-- The table of the extended entry, whatever sector it is taken for. -/
theorem parse_extended {down : UInt32 → UInt32 → Scan → Except Scan Scan} {sector primary : UInt32}
    {s : Scan} (h : (if sector = 0 then down 1 1 s else down (1 + primary) primary s) = .error s) :
    parse down sector primary ((disk 0x05).data 0) s = .error s := by
  have hes : entries ((disk 0x05).data 0)
      = [⟨5, 1, 7⟩, ⟨0, 0, 0⟩, ⟨0, 0, 0⟩, ⟨0, 0, 0⟩] := by decide +kernel
  have hsig : signed ((disk 0x05).data 0) = true := by decide +kernel
  unfold parse
  rw [if_pos hsig, hes]
  exact congrArg (Except.bind · _) h

/-- From sector 1 the scan goes to sector 2, and from there to sector 2. -/
theorem scan_stuck (fuel : Nat) (s : Scan) :
    readPartitionTable (disk 0x05) fuel 1 1 s = .error s ∧
      readPartitionTable (disk 0x05) fuel 2 1 s = .error s := by
  induction fuel with
  | zero => exact ⟨rfl, rfl⟩
  | succ fuel ih => exact ⟨parse_extended ih.2, parse_extended ih.2⟩

/-- The partition in the second table is not found, and the scan does not
end. -/
theorem scan_never_ends :
    wantedTable (disk 0x05) 3 0 0 ⟨0, []⟩ = .ok ⟨1, [⟨0x21, 2, 2, 1⟩]⟩ ∧
      ∀ fuel, partitionScan (disk 0x05) fuel = .error ⟨0, []⟩ := by
  refine ⟨by decide +kernel, ?_⟩
  intro fuel
  cases fuel with
  | zero => rfl
  | succ fuel => exact parse_extended (scan_stuck fuel _).1

-- ==== partitions as block devices

inductive BlockType where
  | kernel | filesys | scratch | swap | raw | foreign
  deriving DecidableEq

/-- `struct partition` and the `struct block` that is registered for it. -/
structure Partition where
  type : BlockType
  start : UInt32
  size : UInt32
  deriving DecidableEq

/-- The type of a partition as a block device. -/
def blockType (type : UInt8) : BlockType :=
  if type = 0x20 then .kernel else if type = 0x21 then .filesys
  else if type = 0x22 then .scratch else if type = 0x23 then .swap else .foreign

/-- `found_partition`. -/
def foundPartition (d : Device) (c : Call) : Option Partition :=
  if d.size ≤ c.start then none
  else if c.start + c.size < c.start ∨ d.size < c.start + c.size then none
  else some ⟨blockType c.type, c.start, c.size⟩

/-- What a scan has registered, be it over or not. -/
def registered (d : Device) : Except Scan Scan → List Partition
  | .ok s | .error s => s.calls.filterMap (foundPartition d)

/-- `check_sector`. -/
def checkSector (size sector : UInt32) : Option Unit :=
  if size ≤ sector then none else some ()

/-- `block_read` and `block_write` on the disk. -/
def Device.read (d : Device) (sector : UInt32) : Option Block := do
  checkSector d.size sector
  return d.data sector

def Device.write (d : Device) (sector : UInt32) (b : Block) : Option Device := do
  checkSector d.size sector
  return { d with data := Function.update d.data sector b }

/-- `block_read` and `block_write` on a partition: `partition_read` and
`partition_write`, and the assertion on foreign partitions. -/
def Partition.read (d : Device) (p : Partition) (sector : UInt32) : Option Block := do
  checkSector p.size sector
  d.read (p.start + sector)

def Partition.write (d : Device) (p : Partition) (sector : UInt32) (b : Block) : Option Device := do
  checkSector p.size sector
  if p.type = .foreign then none else d.write (p.start + sector) b

theorem foundPartition_fits {d : Device} {c : Call} {p : Partition}
    (h : foundPartition d c = some p) : p.start.toNat + p.size.toNat ≤ d.size.toNat := by
  unfold foundPartition at h
  obtain ⟨hstart, h⟩ := ite_none_left_eq_some.mp h
  obtain ⟨hend, ⟨⟩⟩ := ite_none_left_eq_some.mp h
  simp only [not_or, UInt32.not_lt, UInt32.le_iff_toNat_le, UInt32.toNat_add] at hstart hend
  have hn := c.size.toNat_lt
  dsimp only
  omega

theorem checkSector_some {size sector : UInt32} :
    checkSector size sector = some () ↔ sector < size := by
  rw [checkSector, ite_none_left_eq_some, UInt32.not_le]
  exact and_iff_left rfl

/-- Whatever is on the disk, the partitions registered lie on it, and a
sector that a partition lets through is the disk's at the partition's
start, within the disk's size. -/
theorem partitions_confined {d : Device} {fuel : Nat} {p : Partition}
    (hp : p ∈ registered d (partitionScan d fuel)) :
    p.start.toNat + p.size.toNat ≤ d.size.toNat ∧
      ∀ sector, checkSector p.size sector = some () →
        (p.start + sector).toNat = p.start.toNat + sector.toNat ∧
        p.start + sector < d.size ∧
        p.read d sector = some (d.data (p.start + sector)) ∧
        ∀ b, p.write d sector b = if p.type = .foreign then none else some
          { d with data := Function.update d.data (p.start + sector) b } := by
  have hfound : ∃ c, foundPartition d c = some p := by
    unfold registered at hp
    split at hp <;> exact (mem_filterMap.mp hp).imp fun _ h => h.2
  obtain ⟨c, hc⟩ := hfound
  have hfits := foundPartition_fits hc
  refine ⟨hfits, ?_⟩
  intro sector hsector
  have hlt := UInt32.lt_iff_toNat_lt.mp (checkSector_some.mp hsector)
  have hsum : (p.start + sector).toNat = p.start.toNat + sector.toNat := by
    have hd := d.size.toNat_lt
    rw [UInt32.toNat_add]
    omega
  have hin : p.start + sector < d.size := by
    rw [UInt32.lt_iff_toNat_lt, hsum]
    omega
  have hcheck := checkSector_some.mpr hin
  refine ⟨hsum, hin, ?_, fun b => ?_⟩
  · simp [Partition.read, Device.read, hsector, hcheck]
  · simp [Partition.write, Device.write, hsector, hcheck]

theorem partitions_confined_one :
    ∃ p ∈ registered (disk 0x21) (partitionScan (disk 0x21) 1),
      p.type = .filesys ∧ p.start + 6 < (disk 0x21).size := by
  have hp : ⟨.filesys, 1, 7⟩ ∈ registered (disk 0x21) (partitionScan (disk 0x21) 1) := by
    decide +kernel
  exact ⟨_, hp, rfl, ((partitions_confined hp).2 6 rfl).2.1⟩

end Pintos.Disk
