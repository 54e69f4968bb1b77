/-
Readers of a file that grows.

One thread writes to an open file, call after call, and any number of
calls of `inode_read_at` are under way. The writer runs one command at a
time and can be interrupted at each; a reader is interrupted at every
`block_read`. The file keeps two lengths, so that a reader does not see
the blocks that have been allocated and zeroed but not yet written: bytes
are handed out below `eof`, and `eof` is published last.

# What is promised

A byte that a write has added, in its range and at or past the `eof`
before it (`Added`), is handed out only as the writer supplied it
(`Supplied`), and no byte is handed out from the largest `eof` published
so far on.

# What goes wrong

`byte_to_sector` takes a position equal to `length` for one of the file.
A reader that asks for it in the indirect or the double indirect part goes
to sleep in the `block_read` of an index block that is not there, before
it looks at `eof`. When the writer publishes a greater `eof` meanwhile, the
reader wakes up, finds its position below `eof`, and reads the sector that
the block it was given has at that place: `stray_reader_stale` is such a
run, with sector 0 as the index block and as the data.

With a file system in which each write finds its space and no such reader
is overtaken (`calm`), the promise holds in every run. The writer's part
is the triple `Opened.inodeWriteAt`, for the condition on bytes that the
log of the writes gives (`Told`); the readers' part is `Reading`.
-/
import Pintos.Filesys.ReadAt
import Pintos.Lib.Transition

namespace Pintos.Extension

open Inode Resume Env Transition List Option

-- ==== the system

/-- A call of `inode_write_at`, with the end of file before it. -/
structure Write where
  offset : Nat
  size : Nat
  buf : Nat → UInt8
  before : Int

/-- A call of `inode_read_at`. -/
structure Call where
  start : Nat
  reader : Reader

structure World where
  fs : Fs
  /-- The open inode. -/
  file : Nat
  /-- What is left of the current write. -/
  writer : P Nat
  log : List Write
  calls : List Call
  /-- The largest `eof` that the inode in memory has had. -/
  published : Int

inductive Action
  | begin (junk : Nat → Block) (buf : Nat → UInt8) (size offset : Nat)
  | write
  | read (size offset : Nat)
  | advance (u : Nat)

/-- `inode_write_at` is called. -/
def World.begin (w : World) (junk : Nat → Block) (buf : Nat → UInt8)
    (size offset : Nat) : Option World :=
  match w.writer with
  | .ret _ => some { w with
      writer := inodeWriteAt junk w.file buf size offset
      log := ⟨offset, size, buf, eof (w.fs.inode w.file).data⟩ :: w.log }
  | .op _ _ => none

/-- The writer runs a command. -/
def World.write (w : World) : Option World :=
  match w.writer with
  | .ret _ => none
  | .op c k => (w.fs.act 0 c).map fun x => { w with
      fs := x.2
      writer := k x.1
      published := max w.published (eof (x.2.inode w.file).data) }

/-- `inode_read_at` is called. -/
def World.read (w : World) (size offset : Nat) : World :=
  { w with calls := w.calls ++ [⟨offset, look w.file ⟨size, offset, []⟩ w.fs⟩] }

/-- Reader `u` wakes up. -/
def World.advance (w : World) (u : Nat) : Option World :=
  match w.calls[u]? with
  | none => none
  | some c => (c.reader.advance w.file w.fs).map fun a => { w with
      calls := w.calls.set u { c with reader := a } }

def step : Action → World → Option World
  | .begin junk buf size offset, w => w.begin junk buf size offset
  | .write, w => w.write
  | .read size offset, w => some (w.read size offset)
  | .advance u, w => w.advance u

/-- A regular file is open on a sound file system, and nothing has been
asked of it yet. -/
structure Start (w : World) : Prop where
  opened : ∃ live I, 0 ∈ live ∧ I ∈ live ∧ Opened live I w.file none w.fs
  writer : w.writer = .ret 0
  log : w.log = []
  calls : w.calls = []
  published : w.published = eof (w.fs.inode w.file).data

/-- Every write finds its space. -/
def roomy : Action → World → Prop
  | .begin _ _ size offset, w => Fits 32 w.file size offset w.fs
  | .write, _ | .read _ _, _ | .advance _, _ => True

instance : ∀ (a : Action) (w : World), Decidable (roomy a w)
  | .begin _ _ size offset, w => inferInstanceAs (Decidable (Fits 32 w.file size offset w.fs))
  | .write, _ | .read _ _, _ | .advance _, _ => .isTrue trivial

/-- A reader that walks the index in vain stays past the end of file `e`. -/
def keepsOff (e : Int) (a : Reader) : Bool :=
  match a.strays with
  | some o => decide (e ≤ o)
  | none => true

/-- The inode that is about to be loaded does not end past a reader that
walks the index in vain. -/
def unhurried (w : World) : Bool :=
  match w.writer with
  | .op (.load r) _ => w.calls.all fun c =>
    keepsOff (eof (w.fs.disk (w.fs.inode r).sector)) c.reader
  | _ => true

/-- Every write finds its space, and no reader is overtaken. -/
def calm : Action → World → Prop
  | .write, w => unhurried w = true
  | a, w => roomy a w

instance : ∀ (a : Action) (w : World), Decidable (calm a w)
  | .begin j b size offset, w => inferInstanceAs (Decidable (roomy (.begin j b size offset) w))
  | .write, w => inferInstanceAs (Decidable (unhurried w = true))
  | .read _ _, _ | .advance _, _ => .isTrue trivial

-- ==== the promise

def Write.covers (x : Write) (p : Nat) : Prop := x.offset ≤ p ∧ p < x.offset + x.size

instance (x : Write) (p : Nat) : Decidable (x.covers p) := inferInstanceAs (Decidable (_ ∧ _))

/-- One of the writes has added byte `p` to the file. -/
def Added (log : List Write) (p : Nat) : Prop := ∃ x ∈ log, x.covers p ∧ x.before ≤ p

/-- The writer has asked for `b` at byte `p`. -/
def Supplied (log : List Write) (p : Nat) (b : UInt8) : Prop :=
  ∃ x ∈ log, x.covers p ∧ b = x.buf (p - x.offset)

/-- What a byte that is handed out must be. -/
def Told (log : List Write) (p : Nat) (b : UInt8) : Prop := Added log p → Supplied log p b

/-- The bytes handed out so far are as promised. -/
def Faithful (w : World) : Prop :=
  ∀ c ∈ w.calls, ∀ j b, c.reader.got[j]? = some b →
    ((c.start + j : Nat) : Int) < w.published ∧ Told w.log (c.start + j) b

-- ==== the invariant

section Log

variable {log : List Write} {x : Write} {p : Nat} {b : UInt8}

/-- Below the end of file before it a write changes nothing. -/
theorem Told.cons (h : Told log p b) (hp : (p : Int) < x.before) : Told (x :: log) p b := by
  rintro ⟨y, hy, hcov, hold⟩
  rcases mem_cons.mp hy with rfl | hy
  · omega
  · obtain ⟨z, hz, hcov, hb⟩ := h ⟨y, hy, hcov, hold⟩
    exact ⟨z, mem_cons_of_mem x hz, hcov, hb⟩

/-- The bytes that a write supplies. -/
theorem Told.own (hcov : x.covers p) : Told (x :: log) p (x.buf (p - x.offset)) :=
  fun _ => ⟨x, mem_cons_self, hcov, rfl⟩

/-- Nothing is said about bytes that no write has covered. -/
theorem Told.gap (h : ∀ y ∈ log, ¬ y.covers p) : Told log p b := by
  rintro ⟨y, hy, hcov, -⟩
  exact absurd hcov (h y hy)

theorem Pub.cons {r : Nat} {fs : Fs} (h : Pub (Told log) r fs)
    (hbefore : x.before = eof (fs.inode r).data) : Pub (Told (x :: log)) r fs :=
  ⟨h.cap, h.order, fun p hp => (h.bytes p hp).cons (by omega)⟩

theorem Reading.cons {r start : Nat} {fs : Fs} {a : Reader} (h : Reading (Told log) r start fs a)
    (hbefore : x.before = eof (fs.inode r).data) : Reading (Told (x :: log)) r start fs a := by
  refine ⟨h.sound, h.place, fun j b hj => ?_⟩
  obtain ⟨hlt, hb⟩ := h.bytes j b hj
  exact ⟨hlt, hb.cons (by omega)⟩

end Log

/-- Between two writes. -/
structure Rest (live : List Nat) (I r : Nat) (log : List Write) (fs : Fs) : Prop where
  opened : Opened live I r none fs
  ends : ∀ x ∈ log, ((x.offset + x.size : Nat) : Int) ≤ eof (fs.inode r).data

structure Inv (live : List Nat) (I : Nat) (w : World) : Prop where
  pub : Pub (Told w.log) w.file w.fs
  writer : (solo (Fs.act 0) (Publishes (Told w.log) w.file)).Triple
    (fun s => s = w.fs) w.writer fun _ => Rest live I w.file w.log
  calls : ∀ c ∈ w.calls, Reading (Told w.log) w.file c.start w.fs c.reader
  published : w.published = eof (w.fs.inode w.file).data

variable {live : List Nat} {I r size offset : Nat} {w w' : World} {fs : Fs} {c : Cmd}

theorem Inv.faithful (h : Inv live I w) : Faithful w := by
  intro c hc j b hj
  rw [h.published]
  exact (h.calls c hc).bytes j b hj

theorem Inv.start (hw : Start w) (h : Opened live I w.file none w.fs) : Inv live I w := by
  obtain ⟨owner, hst⟩ := h.laid
  refine ⟨⟨(h.onDisk hst).mapped.cap, h.order, fun p _ => ?_⟩, ?_, ?_, hw.published⟩
  · rw [hw.log]
    exact .gap nofun
  · rw [hw.writer, hw.log]
    refine .solo_ret ?_
    rintro s rfl
    exact ⟨h, nofun⟩
  · rw [hw.calls]
    exact nofun

/-- A write leaves the file as the next one needs it. -/
theorem Rest.inodeWriteAt {log : List Write} (h : Rest live I r log fs) (h0 : 0 ∈ live)
    (hI : I ∈ live) (junk : Nat → Block) (buf : Nat → UInt8) (hfits : Fits 32 r size offset fs)
    {x : Write} (hx : x = ⟨offset, size, buf, eof (fs.inode r).data⟩) :
    (solo (Fs.act 0) (Publishes (Told (x :: log)) r)).Triple
      (fun s => s = fs) (inodeWriteAt junk r buf size offset)
      fun _ => Rest live I r (x :: log) := by
  refine (h.opened.inodeWriteAt h0 hI hfits ?_ ?_).post ?_
  · intro p h1 h2
    rw [hx]
    exact Told.own ⟨h1, h2⟩
  · intro p v h1 h2
    refine Told.gap fun y hy hcov => ?_
    obtain ⟨h3, h4⟩ := hcov
    rcases mem_cons.mp hy with rfl | hy
    · rw [hx] at h3
      exact absurd h3 (not_le.mpr h2)
    · have := h.ends y hy
      omega
  · rintro n s ⟨-, hs, hend, hmore⟩
    refine ⟨hs, fun y hy => ?_⟩
    rcases mem_cons.mp hy with rfl | hy
    · rw [hx]
      exact hend
    · exact le_trans (h.ends y hy) hmore

/-- A write begins. -/
theorem Inv.begin (h : Inv live I w) (h0 : 0 ∈ live) (hI : I ∈ live) {junk : Nat → Block}
    {buf : Nat → UInt8} (hfits : Fits 32 w.file size offset w.fs)
    (hstep : w.begin junk buf size offset = some w') : Inv live I w' := by
  unfold World.begin at hstep
  split at hstep
  case h_2 => cases hstep
  case h_1 n hidle =>
    cases hstep
    have hrest := h.writer
    rw [hidle] at hrest
    obtain ⟨x, hx⟩ : ∃ x : Write, x = ⟨offset, size, buf, eof (w.fs.inode w.file).data⟩ := ⟨_, rfl⟩
    have hbefore : x.before = eof (w.fs.inode w.file).data := by rw [hx]
    rw [← hx]
    exact ⟨Pub.cons h.pub hbefore, hrest.returned.inodeWriteAt h0 hI junk buf hfits hx,
      fun c hc => Reading.cons (h.calls c hc) hbefore, h.published⟩

/-- Nothing is done to the pointers of `r`. -/
theorem setInode_data {r' : Nat} {i : MemInode} (h : i.data = (fs.inode r').data) :
    ((fs.setInode r' i).inode r).data = (fs.inode r).data := by
  unfold Fs.setInode
  dsimp only
  split
  case isTrue hr => rw [h, hr]
  case isFalse => rfl

/-- Only `load` touches the inode in memory. -/
theorem act_data {t : Tid} {v : Ret c} {fs' : Fs} (h : fs.act t c = some (v, fs')) (r : Nat)
    (hload : ∀ r', c ≠ .load r') : (fs'.inode r).data = (fs.inode r).data := by
  cases c with
  | load r' => exact absurd rfl (hload r')
  | blockRead x => rw [(act_blockRead h).2]
  | blockWrite x b =>
    rw [act_blockWrite h]
    rfl
  | inode r' => rw [(act_inode h).2]
  | scanAndFlip | setFree x | bitmapWrite | mapFile | findOpen x | unlist x =>
    cases h
    rfl
  | assertUsed x | assert b =>
    obtain ⟨-, ⟨⟩⟩ := ite_none_right_eq_some.mp h
    rfl
  | acquire r' | release r' =>
    obtain ⟨-, ⟨⟩⟩ := ite_none_right_eq_some.mp h
    exact setInode_data rfl
  | reopen r' | newInode x | dropRef r' =>
    cases h
    exact setInode_data rfl

/-- A reader that walks the index in vain is not overtaken. -/
theorem unhurried_eof (h : unhurried w = true) {k : Ret c → P Nat} (hnext : w.writer = .op c k)
    {v : Ret c} (hact : w.fs.act 0 c = some (v, fs)) {d : Call} (hd : d ∈ w.calls) {o : Nat}
    (ho : d.reader.strays = some o) (hold : eof (w.fs.inode w.file).data ≤ o) :
    eof (fs.inode w.file).data ≤ o := by
  by_cases hload : ∃ r, c = .load r
  · obtain ⟨r, rfl⟩ := hload
    rw [act_load hact]
    by_cases hr : w.file = r
    · unfold unhurried at h
      rw [hnext] at h
      have hoff := all_eq_true.mp h d hd
      unfold keepsOff at hoff
      rw [ho] at hoff
      rw [hr, setInode_self]
      exact of_decide_eq_true hoff
    · unfold Fs.setInode
      dsimp only
      rw [if_neg hr]
      exact hold
  · rw [act_data hact w.file fun r hr => hload ⟨r, hr⟩]
    exact hold

/-- The writer runs a command. -/
theorem Inv.write (h : Inv live I w) (hcalm : unhurried w = true)
    (hstep : w.write = some w') : Inv live I w' := by
  unfold World.write at hstep
  split at hstep
  case h_1 => cases hstep
  case h_2 c k hnext =>
    obtain ⟨⟨v, fs⟩, hact, rfl⟩ := map_eq_some_iff.mp hstep
    have hwriter := h.writer
    rw [hnext] at hwriter
    obtain ⟨hpub, hrest⟩ := hwriter.next hact
    refine ⟨hpub.pub h.pub, hrest, fun c' hc' => ?_, ?_⟩
    · exact (h.calls c' hc').onward hpub.onward hpub.eof fun o ho hold =>
        unhurried_eof hcalm hnext hact hc' ho hold
    · rw [h.published]
      exact max_eq_right hpub.eof

theorem Inv.read (h : Inv live I w) (size offset : Nat) : Inv live I (w.read size offset) := by
  refine ⟨h.pub, h.writer, fun c hc => ?_, h.published⟩
  rcases mem_append.mp hc with hc | hc
  · exact h.calls c hc
  · cases mem_singleton.mp hc
    exact Reading.begin h.pub size

theorem Inv.advance (h : Inv live I w) {u : Nat}
    (hstep : w.advance u = some w') : Inv live I w' := by
  unfold World.advance at hstep
  split at hstep
  case h_1 => cases hstep
  case h_2 c hc =>
    obtain ⟨a, ha, rfl⟩ := map_eq_some_iff.mp hstep
    refine ⟨h.pub, h.writer, fun c' hc' => ?_, h.published⟩
    rcases mem_or_eq_of_mem_set hc' with hc' | rfl
    · exact h.calls c' hc'
    · exact (h.calls c (mem_of_getElem? hc)).advance h.pub ha

/-- In every run in which each write finds its space and no stray reader
is overtaken, the bytes handed out are as promised. -/
theorem added_bytes_are_supplied {w : World} (h : Reach Start step calm w) : Faithful w := by
  have hinv : ∃ live I, 0 ∈ live ∧ I ∈ live ∧ Inv live I w := by
    refine Reach.induct (P := fun w => ∃ live I, 0 ∈ live ∧ I ∈ live ∧ Inv live I w) ?_ ?_ w h
    · intro w hw
      obtain ⟨live, I, h0, hI, hopen⟩ := hw.opened
      exact ⟨live, I, h0, hI, .start hw hopen⟩
    · rintro a w w' - ⟨live, I, h0, hI, hw⟩ hok hstep
      refine ⟨live, I, h0, hI, ?_⟩
      cases a with
      | begin junk buf size offset => exact hw.begin h0 hI hok hstep
      | write => exact hw.write hok hstep
      | read size offset =>
        cases hstep
        exact hw.read size offset
      | advance u => exact hw.advance hstep
  obtain ⟨live, I, -, -, hw⟩ := hinv
  exact hw.faithful

-- ==== two runs

/-- A device of 20 sectors with an empty file, whose inode is in sector
2; the inode is open. -/
def emptyFile : Fs where
  size := 20
  disk := fun _ => zeros
  freeMap := ⟨20, fun _ => 7⟩
  mapFile := true
  stored := ⟨20, fun _ => 7⟩
  inode := fun _ =>
    { sector := 2, openCnt := 1, removed := false, denyWriteCnt := 0
      data := zeros, lock := none }
  count := 1
  openInodes := [0]

/-- Only the inodes have sectors. -/
def headersOf (live : List Nat) : Owner := fun x => if x ∈ live then some (x, .header) else none

section Empty

variable {live : List Nat} {x J : Nat}

theorem headersOf_eq {z : Nat × Slot} (h : headersOf live x = some z) :
    x ∈ live ∧ z = (x, .header) := by
  unfold headersOf at h
  split at h
  case isTrue hx => exact ⟨hx, (some.inj h).symm⟩
  case isFalse => cases h

theorem blocks_zeros : blocks zeros = 0 := by decide

theorem shaped_zeros (d : Nat → Block) : Shaped 32 d (headersOf live) J zeros (blocks zeros) := by
  rw [blocks_zeros]
  refine ⟨?_, ?_, ?_⟩
  · exact ⟨by omega, fun i hi => absurd hi (by omega), fun h => absurd h (by omega),
      fun h => absurd h (by omega), fun k h => absurd h (by omega)⟩
  · exact ⟨fun _ _ _ => rfl, fun _ => rfl, fun _ => rfl, fun h => absurd h (by omega)⟩
  · refine ⟨fun x i hx => ?_, fun x slot hx hslot => ?_⟩
    · cases (headersOf_eq hx).2
    · cases (headersOf_eq hx).2
      cases hslot

theorem opened_emptyFile : Opened [0, 2] 2 0 none emptyFile where
  sector := rfl
  data := rfl
  regular := rfl
  allowed := rfl
  lock := rfl
  start := by decide
  order := by decide
  laid := by
    refine ⟨headersOf [0, 2], ⟨by decide, rfl, ?_, ?_, ?_, ?_⟩,
      shaped_zeros _, fun J _ _ => shaped_zeros _⟩
    · intro x z hx
      rcases mem_pair.mp (headersOf_eq hx).1 with rfl | rfl
      · decide
      · decide
    · intro x y z hx hy
      have h := (headersOf_eq hx).2.symm.trans (headersOf_eq hy).2
      exact (Prod.mk.inj h).1
    · intro I hI
      exact if_pos hI
    · intro I _
      exact (shaped_zeros _).mapped

end Empty

/-- Nothing has been asked yet. -/
def idle : World where
  fs := emptyFile
  file := 0
  writer := .ret 0
  log := []
  calls := []
  published := 0

theorem start_idle : Start idle where
  opened := ⟨[0, 2], 2, by decide, by decide, opened_emptyFile⟩
  writer := rfl
  log := rfl
  calls := rfl
  published := by decide

/-- The writer writes `size` bytes `b` at `offset`, in `n` commands. -/
def writing (b : UInt8) (size offset n : Nat) : List Action :=
  .begin (fun _ => zeros) (fun _ => b) size offset :: .replicate n .write

theorem reach_of_idle (ok : Action → World → Prop) [∀ a w, Decidable (ok a w)] (acts : List Action)
    (P : World → Prop) (hrun : ∃ w ∈ runAll (guarded step ok) acts idle, P w) :
    ∃ w, Reach Start step ok w ∧ P w :=
  Reach.of_runAll (.init start_idle) acts P hrun

/-- `Added` and `Supplied` can be computed. -/
def isAdded (log : List Write) (p : Nat) : Bool :=
  log.any fun x => decide (x.covers p ∧ x.before ≤ p)

def isSupplied (log : List Write) (p : Nat) (b : UInt8) : Bool :=
  log.any fun x => decide (x.covers p ∧ b = x.buf (p - x.offset))

variable {log : List Write} {p : Nat} {b : UInt8}

theorem isAdded_iff : isAdded log p = true ↔ Added log p := by simp [isAdded, Added]

theorem isSupplied_iff : isSupplied log p b = true ↔ Supplied log p b := by
  simp [isSupplied, Supplied]

/-- Some reader that began at `p` has got `bytes` from there on. -/
def hasGot (w : World) (p : Nat) (bytes : List UInt8) : Bool :=
  w.calls.any fun c => c.start == p && c.reader.got == bytes

theorem hasGot_iff {w : World} {bytes : List UInt8} :
    hasGot w p bytes = true ↔ ∃ c ∈ w.calls, c.start = p ∧ c.reader.got = bytes := by
  simp [hasGot]

/-- A reader of three bytes finds one and sleeps on its sector; a write
adds two more; the reader goes on and returns all three. -/
theorem written_byte_read : ∃ w, Reach Start step calm w ∧
    (∃ c ∈ w.calls, c.start = 0 ∧ c.reader.got = [7, 9, 9]) ∧
    Added w.log 2 ∧ Faithful w := by
  obtain ⟨w, hw, hgot, hadded⟩ := reach_of_idle calm
    (writing 7 1 0 19 ++ [.read 3 0] ++ writing 9 2 1 15 ++ [.advance 0, .advance 0])
    (fun w => hasGot w 0 [7, 9, 9] = true ∧ isAdded w.log 2 = true) (by decide +kernel)
  exact ⟨w, hw, hasGot_iff.mp hgot, isAdded_iff.mp hadded, added_bytes_are_supplied hw⟩

/-- A reader at the end of a file of ten blocks waits for the index block
that the file does not have; a byte 7 is written there and published; the
reader returns a byte of sector 0. Every write has found its space. -/
theorem stray_reader_stale : ∃ w, Reach Start step roomy w ∧
    (∃ c ∈ w.calls, c.start = 5120 ∧ c.reader.got = [0]) ∧
    Added w.log 5120 ∧ ¬ Supplied w.log 5120 0 ∧ ¬ Faithful w := by
  obtain ⟨w, hw, hgot, hadded, hnot⟩ := reach_of_idle roomy
    (writing 1 5120 0 81 ++ [.read 1 5120] ++ writing 7 1 5120 24 ++ [.advance 0, .advance 0])
    (fun w => hasGot w 5120 [0] = true ∧ isAdded w.log 5120 = true ∧
      isSupplied w.log 5120 0 ≠ true) (by decide +kernel)
  obtain ⟨c, hc, hstart, hbytes⟩ := hasGot_iff.mp hgot
  have hadded := isAdded_iff.mp hadded
  rw [Ne, isSupplied_iff] at hnot
  refine ⟨w, hw, ⟨c, hc, hstart, hbytes⟩, hadded, hnot, fun h => hnot ?_⟩
  obtain ⟨-, htold⟩ := h c hc 0 0 (hbytes ▸ rfl)
  rw [hstart] at htold
  exact htold hadded

end Pintos.Extension
