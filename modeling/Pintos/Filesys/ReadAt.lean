/-
`inode_read_at`, one `block_read` at a time.

A reader can be put to sleep in every `block_read`: on an index block, in
`byte_to_sector`, and on a data sector, in the loop. What it does in
between it does at one go. `Reader` is where it sleeps, with what it has
in its variables there: in `byte_to_sector` the pointers as they were when
the walk began, in the loop the chunk as the end of file was when the walk
ended.

`rest` is the program that is left to run, and `settle` runs the accesses
to memory up to the next `block_read`: the machine is the program
`inodeReadAt`, seen in this way (`reader_simulates`).

A reader is sound (`Reading`) when the walk it is in leads to the block it
is looking for, unless that block lies past the end of the file, and when
the sector that it is about to read is that block.
-/
import Pintos.Filesys.WriteAt

namespace Pintos.Inode

open Resume List

-- ==== the machine

/-- The variables of the loop. -/
structure Request where
  size : Nat
  offset : Nat
  got : List UInt8

/-- Where a reader sleeps, or what it has returned. -/
inductive Reader
  | indirect (q : Request) (data : Block)
  | double (q : Request) (data : Block)
  | inner (q : Request) (data buffer : Block)
  | fetch (q : Request) (sector chunk : Nat)
  | done (got : List UInt8)

/-- `byte_to_sector` has returned. -/
def found (r : Nat) (q : Request) (sector : Nat) (fs : Fs) : Reader :=
  let chunk := chunkSize q.size (eof (fs.inode r).data - q.offset) (q.offset % sectorSize)
  if chunk = 0 then .done q.got else .fetch q sector chunk

/-- The head of the loop. -/
def look (r : Nat) (q : Request) (fs : Fs) : Reader :=
  let data := (fs.inode r).data
  let n := q.offset / sectorSize
  if q.size = 0 then .done q.got
  else if (q.offset : Int) ≤ length data then
    if n < directNum then found r q (word data n) fs
    else if n < blocksInIndirect + directNum then .indirect q data
    else .double q data
  else found r q noSector fs

/-- The chunk has been copied to the caller. -/
def Request.next (q : Request) (b : Block) (chunk : Nat) : Request where
  size := q.size - chunk
  offset := q.offset + chunk
  got := q.got ++ (List.range chunk).map fun j => b (q.offset % sectorSize + j)

/-- The entry of the double indirect block for block `n`. -/
def outerIndex (n : Nat) : Nat := (n - directNum - blocksInIndirect) / blocksInIndirect

def innerIndex (n : Nat) : Nat := (n - directNum - blocksInIndirect) % blocksInIndirect

/-- The sector that the reader waits for. -/
def Reader.awaits : Reader → Option Nat
  | .indirect _ data => some (word data 10)
  | .double _ data => some (word data 11)
  | .inner q _ buffer => some (word buffer (outerIndex (q.offset / sectorSize)))
  | .fetch _ sector _ => some sector
  | .done _ => none

/-- It has been read. -/
def Reader.wake (r : Nat) (b : Block) (fs : Fs) : Reader → Reader
  | .indirect q _ => found r q (word b (q.offset / sectorSize - directNum)) fs
  | .double q data => .inner q data b
  | .inner q _ _ => found r q (word b (innerIndex (q.offset / sectorSize))) fs
  | .fetch q _ chunk => look r (q.next b chunk) fs
  | .done got => .done got

/-- A `block_read` past the end of the device stops the kernel. -/
def Reader.advance (r : Nat) (fs : Fs) (a : Reader) : Option Reader :=
  match a.awaits with
  | some x => if x < fs.size then some (a.wake r (fs.disk x) fs) else none
  | none => none

/-- The bytes that it has copied to the caller. -/
def Reader.got : Reader → List UInt8
  | .indirect q _ | .double q _ | .inner q _ _ | .fetch q _ _ => q.got
  | .done got => got

-- ==== the program

/-- The accesses to memory, up to the next command. -/
def settle {α : Type} (fs : Fs) : P α → P α
  | .op (.inode r) k => settle fs (k (fs.inode r))
  | .op c k => .op c k
  | .ret a => .ret a

/-- The loop from the head on. -/
def Request.rest (r : Nat) (q : Request) : P (List UInt8) := do
  let bytes ← readLoop r q.size q.size q.offset
  pure (q.got ++ bytes)

/-- The loop after `byte_to_sector`. -/
def Request.restFrom (r : Nat) (q : Request) (sector : Nat) : P (List UInt8) := do
  let i ← getInode r
  let chunk := chunkSize q.size (eof i.data - q.offset) (q.offset % sectorSize)
  if chunk = 0 then pure q.got
  else do
    let b ← blockRead sector
    (q.next b chunk).rest r

/-- What a reader has still to do. -/
def Reader.rest (r : Nat) : Reader → P (List UInt8)
  | .indirect q data => do
      let buffer ← blockRead (word data 10)
      q.restFrom r (word buffer (q.offset / sectorSize - directNum))
  | .double q data => do
      let buffer ← blockRead (word data 11)
      let buffer2 ← blockRead (word buffer (outerIndex (q.offset / sectorSize)))
      q.restFrom r (word buffer2 (innerIndex (q.offset / sectorSize)))
  | .inner q _ buffer => do
      let buffer2 ← blockRead (word buffer (outerIndex (q.offset / sectorSize)))
      q.restFrom r (word buffer2 (innerIndex (q.offset / sectorSize)))
  | .fetch q sector chunk => do
      let b ← blockRead sector
      (q.next b chunk).rest r
  | .done got => pure got

variable {r start sector x : Nat} {q : Request} {fs fs' : Fs} {V : Nat → UInt8 → Prop} {a : Reader}
  {data : Block}

theorem settle_getInode {α : Type} (f : MemInode → P α) :
    settle fs (getInode r >>= f) = settle fs (f (fs.inode r)) := rfl

/-- More fuel than there is to read changes nothing. -/
theorem readLoop_fuel (r : Nat) : ∀ (fuel size offset : Nat), size ≤ fuel →
    readLoop r fuel size offset = readLoop r size size offset := by
  intro fuel
  induction fuel using Nat.strongRecOn with
  | ind fuel ih =>
    intro size offset hle
    obtain _ | size := size
    · cases fuel <;> rfl
    obtain _ | fuel := fuel
    · omega
    unfold readLoop
    rw [if_neg (Nat.succ_ne_zero size), if_neg (Nat.succ_ne_zero size)]
    refine congrArg _ (funext fun sector => congrArg _ (funext fun i => ?_))
    dsimp only
    split
    case isTrue => rfl
    case isFalse hchunk =>
      refine congrArg _ (funext fun b => ?_)
      rw [ih fuel (by omega) _ _ (by omega), ← ih size (by omega)]
      omega

/-- A round of the loop. -/
theorem Request.rest_eq (hsize : q.size ≠ 0) :
    q.rest r = byteToSector r q.offset >>= q.restFrom r := by
  obtain ⟨size, offset, got⟩ := q
  obtain _ | size := size
  · exact absurd rfl hsize
  unfold Request.rest readLoop
  rw [if_neg hsize, Prog.bind_assoc]
  refine congrArg _ (funext fun sector => ?_)
  rw [Prog.bind_assoc]
  refine congrArg _ (funext fun i => ?_)
  dsimp only
  split
  case isTrue => rw [Prog.pure_bind, append_nil]
  case isFalse hchunk =>
    rw [Prog.bind_assoc]
    refine congrArg _ (funext fun b => ?_)
    unfold Request.rest Request.next
    rw [readLoop_fuel r size _ _ (by omega), Prog.bind_assoc]
    refine congrArg _ (funext fun bytes => ?_)
    rw [Prog.pure_bind, append_assoc]

theorem settle_restFrom (sector : Nat) :
    settle fs (q.restFrom r sector) = (found r q sector fs).rest r := by
  unfold Request.restFrom found
  rw [settle_getInode]
  dsimp only
  split
  case isTrue => rfl
  case isFalse => rfl

theorem settle_rest : settle fs (q.rest r) = (look r q fs).rest r := by
  unfold look
  by_cases hsize : q.size = 0
  · rw [if_pos hsize]
    unfold Request.rest
    rw [hsize]
    show (pure (q.got ++ []) : P _) = _
    rw [append_nil]
    rfl
  rw [if_neg hsize, Request.rest_eq hsize]
  unfold byteToSector
  rw [Prog.bind_assoc, settle_getInode]
  split
  case isFalse => exact settle_restFrom noSector
  case isTrue =>
    unfold followPointers
    split
    case isTrue => exact settle_restFrom _
    case isFalse =>
      split
      case isTrue => rfl
      case isFalse => rfl

theorem Reader.advance_inv {a a' : Reader} (h : a.advance r fs = some a') : ∃ x, a.awaits = some x ∧
      x < fs.size ∧ a' = a.wake r (fs.disk x) fs := by
  unfold Reader.advance at h
  split at h
  case h_1 x hx =>
    obtain ⟨hlt, ⟨⟩⟩ := Option.ite_none_right_eq_some.mp h
    exact ⟨x, hx, hlt, rfl⟩
  case h_2 => cases h

/-- A call goes to sleep where the machine says, and so does a reader that
goes on, whatever the others have made of the file system meanwhile. -/
theorem reader_simulates (r size offset : Nat) (fs : Fs) :
    settle fs (inodeReadAt r size offset) = (look r ⟨size, offset, []⟩ fs).rest r ∧
    ∀ a a' : Reader, a.advance r fs = some a' → ∃ x k, a.rest r = .op (.blockRead x) k ∧
      x < fs.size ∧ settle fs (k (fs.disk x)) = a'.rest r := by
  constructor
  · rw [← settle_rest]
    exact congrArg (settle fs) (Prog.bind_pure _).symm
  intro a a' h
  obtain ⟨x, hx, hlt, rfl⟩ := Reader.advance_inv h
  cases a with
  | done got => cases hx
  | indirect q data =>
    cases hx
    exact ⟨_, _, rfl, hlt, settle_restFrom _⟩
  | double q data =>
    cases hx
    exact ⟨_, _, rfl, hlt, rfl⟩
  | inner q data buffer =>
    cases hx
    exact ⟨_, _, rfl, hlt, settle_restFrom _⟩
  | fetch q sector chunk =>
    cases hx
    exact ⟨_, _, rfl, hlt, settle_rest⟩

-- ==== soundness

/-- The call of a reader that has not returned. -/
def Reader.request : Reader → Option Request
  | .indirect q _ | .double q _ | .inner q _ _ | .fetch q _ _ => some q
  | .done _ => none

/-- The offset asked for, when the pointers do not lead to its block. -/
def Request.strays (q : Request) (data : Block) : Option Nat :=
  if blocks data ≤ q.offset / 512 then some q.offset else none

/-- The offset of a reader that walks the index in vain. -/
def Reader.strays : Reader → Option Nat
  | .indirect q data | .double q data | .inner q data _ => q.strays data
  | .fetch _ _ _ | .done _ => none

/-- The walk leads to the block, unless it is past the end of the file. -/
structure Walk (r : Nat) (q : Request) (data : Block) (fs : Fs) : Prop where
  copied : Copied r data fs
  leads : q.offset / 512 < blocks data ∨ eof (fs.inode r).data ≤ q.offset

def Reader.Sound (r : Nat) (fs : Fs) : Reader → Prop
  | .indirect q data => Walk r q data fs ∧ 10 ≤ q.offset / 512 ∧ q.offset / 512 < 138
  | .double q data => Walk r q data fs ∧ 138 ≤ q.offset / 512
  | .inner q data buffer => Walk r q data fs ∧ 138 ≤ q.offset / 512 ∧
      (q.offset / 512 < blocks data →
        word buffer (outerIndex (q.offset / 512)) =
          word (fs.disk (word data 11)) (outerIndex (q.offset / 512)))
  | .fetch q sector chunk => IsBlock r (q.offset / 512) sector fs ∧
      ((q.offset + chunk : Nat) : Int) ≤ eof (fs.inode r).data ∧
      q.offset % 512 + chunk ≤ 512
  | .done _ => True

/-- A reader that began at `start`, and what it has got so far. -/
structure Reading (V : Nat → UInt8 → Prop) (r start : Nat) (fs : Fs) (a : Reader) : Prop where
  sound : a.Sound r fs
  place : ∀ q, a.request = some q → q.offset = start + q.got.length
  bytes : ∀ j b, a.got[j]? = some b →
    ((start + j : Nat) : Int) < eof (fs.inode r).data ∧ V (start + j) b

theorem outerIndex_eq (n : Nat) : outerIndex n = (n - 138) / 128 := by
  unfold outerIndex directNum blocksInIndirect
  rw [Nat.sub_sub]

theorem innerIndex_eq (n : Nat) : innerIndex n = (n - 138) % 128 := by
  unfold innerIndex directNum blocksInIndirect
  rw [Nat.sub_sub]

/-- A chunk ends by the end of file and by the end of the sector. -/
theorem chunkSize_le {size ofs : Nat} {left : Int} :
    (chunkSize size left ofs : Int) ≤ max left 0 ∧ chunkSize size left ofs ≤ 512 - ofs := by
  unfold chunkSize sectorSize
  omega

theorem found_sound (h : IsBlock r (q.offset / 512) sector fs ∨ eof (fs.inode r).data ≤ q.offset) :
    (found r q sector fs).Sound r fs := by
  unfold found sectorSize
  dsimp only
  split
  case isTrue => trivial
  case isFalse hchunk =>
    obtain ⟨h1, h2⟩ := @chunkSize_le q.size (q.offset % 512) (eof (fs.inode r).data - q.offset)
    exact ⟨h.resolve_right (by omega), by omega, by omega⟩

theorem look_sound (hcap : blocks (fs.inode r).data ≤ 16522)
    (horder : eof (fs.inode r).data ≤ length (fs.inode r).data) : (look r q fs).Sound r fs := by
  have hwalk : Walk r q (fs.inode r).data fs := by
    refine ⟨Copied.refl r fs, ?_⟩
    by_cases hlt : (q.offset : Int) < eof (fs.inode r).data
    · exact .inl (block_lt hcap (lt_of_lt_of_le hlt horder))
    · exact .inr (not_lt.mp hlt)
  unfold look directNum blocksInIndirect sectorSize
  by_cases hsize : q.size = 0
  · rw [if_pos hsize]
    trivial
  rw [if_neg hsize]
  generalize length (fs.inode r).data = len at horder ⊢
  split
  next hlen =>
    by_cases h1 : q.offset / 512 < 10
    · rw [if_pos h1]
      refine found_sound (hwalk.leads.imp_left fun hk => ⟨hk, ?_⟩)
      exact if_pos h1
    rw [if_neg h1]
    by_cases h2 : q.offset / 512 < 128 + 10
    · rw [if_pos h2]
      exact ⟨hwalk, by omega, by omega⟩
    · rw [if_neg h2]
      exact ⟨hwalk, by omega⟩
  next hlen => exact found_sound (.inr (by omega))

/-- The block that a walk ends with. -/
theorem Walk.found (h : Walk r q data fs)
    (hx : q.offset / 512 < blocks data → blockOf fs.disk data (q.offset / 512) = x) :
    (found r q x fs).Sound r fs := by
  refine found_sound (h.leads.imp_left fun hk => ?_)
  rw [← hx hk]
  exact ⟨lt_of_lt_of_le hk h.copied.1, h.copied.2.blockOf_eq hk⟩

/-- A reader wakes up. -/
theorem Reader.Sound.wake (h : a.Sound r fs)
    (hx : a.awaits = some x) (hcap : blocks (fs.inode r).data ≤ 16522)
    (horder : eof (fs.inode r).data ≤ length (fs.inode r).data) :
    (a.wake r (fs.disk x) fs).Sound r fs := by
  cases a with
  | done got => cases hx
  | indirect q data =>
    obtain ⟨hwalk, h1, h2⟩ := h
    cases hx
    refine hwalk.found fun hk => ?_
    unfold blockOf
    rw [if_neg (by omega), if_pos h2]
    rfl
  | double q data =>
    obtain ⟨hwalk, h1⟩ := h
    cases hx
    exact ⟨hwalk, h1, fun _ => rfl⟩
  | inner q data buffer =>
    obtain ⟨hwalk, h1, hbuf⟩ := h
    cases hx
    refine hwalk.found fun hk => ?_
    have hbuf := hbuf hk
    rw [outerIndex_eq] at hbuf
    unfold blockOf
    rw [if_neg (by omega), if_neg (by omega), ← hbuf, ← outerIndex_eq, ← innerIndex_eq]
    rfl
  | fetch q sector chunk => exact look_sound hcap horder

theorem Request.strays_eq (q : Request)
    (h : blocks data ≤ q.offset / 512) : q.strays data = some q.offset :=
  if_pos h

/-- The writer goes on under a walk. -/
theorem Walk.onward (h : Walk r q data fs) (ho : Onward r fs fs')
    (hstray : blocks data ≤ q.offset / 512 →
      eof (fs.inode r).data ≤ q.offset → eof (fs'.inode r).data ≤ q.offset) :
    Walk r q data fs' := by
  refine ⟨h.copied.onward ho, ?_⟩
  by_cases hk : q.offset / 512 < blocks data
  · exact .inl hk
  · exact .inr (hstray (not_lt.mp hk) (h.leads.resolve_left hk))

/-- The writer goes on, without publishing what a stray reader is at. -/
theorem Reader.Sound.onward (h : a.Sound r fs) (ho : Onward r fs fs')
    (heof : eof (fs.inode r).data ≤ eof (fs'.inode r).data)
    (hstray : ∀ o, a.strays = some o → eof (fs.inode r).data ≤ o → eof (fs'.inode r).data ≤ o) :
    a.Sound r fs' := by
  cases a with
  | done got => trivial
  | indirect q data | double q data =>
    exact ⟨h.1.onward ho fun hk => hstray _ (q.strays_eq hk), h.2⟩
  | inner q data buffer =>
    obtain ⟨hwalk, h1, hbuf⟩ := h
    refine ⟨hwalk.onward ho fun hk => hstray _ (q.strays_eq hk), h1, fun hk => ?_⟩
    have hf := ho.follows.older hwalk.copied.2 hwalk.copied.1
    rw [hbuf hk, outerIndex_eq]
    exact (hf.double _ (by omega)).symm
  | fetch q sector chunk => exact ⟨h.1.onward ho, le_trans h.2.1 heof, h.2.2⟩

/-- The reader is at the request, or has returned what it had. -/
structure Reader.At (q : Request) (a : Reader) : Prop where
  got : a.got = q.got
  request : ∀ q', a.request = some q' → q' = q

theorem found_at : (found r q sector fs).At q := by
  unfold found
  dsimp only
  split
  case isTrue => exact ⟨rfl, nofun⟩
  case isFalse => exact ⟨rfl, fun _ h => by cases h; rfl⟩

theorem look_at : (look r q fs).At q := by
  unfold look
  dsimp only
  split
  case isTrue => exact ⟨rfl, nofun⟩
  case isFalse =>
    split
    case isFalse => exact found_at
    case isTrue =>
      split
      case isTrue => exact found_at
      case isFalse =>
        split
        case isTrue => exact ⟨rfl, fun _ h => by cases h; rfl⟩
        case isFalse => exact ⟨rfl, fun _ h => by cases h; rfl⟩

/-- What has been copied stays copied. -/
theorem Reader.At.reading (h : a.At q) (hsound : a.Sound r fs)
    (hplace : q.offset = start + q.got.length) (hbytes : ∀ j b, q.got[j]? = some b →
      ((start + j : Nat) : Int) < eof (fs.inode r).data ∧ V (start + j) b) :
    Reading V r start fs a := by
  refine ⟨hsound, fun q' hq => ?_, ?_⟩
  · rw [h.request q' hq]
    exact hplace
  · rw [h.got]
    exact hbytes

/-- A call begins. -/
theorem Reading.begin (hpub : Pub V r fs) (size : Nat) :
    Reading V r start fs (look r ⟨size, start, []⟩ fs) :=
  look_at.reading (look_sound hpub.cap hpub.order) rfl nofun

/-- The chunk that a reader has fetched. -/
theorem Reader.Sound.bytes {chunk : Nat} (h : (Reader.fetch q sector chunk).Sound r fs)
    (hpub : Pub V r fs) {j : Nat} (hj : j < chunk) : ((q.offset + j : Nat) : Int) < eof
    (fs.inode r).data ∧ V (q.offset + j) (fs.disk sector (q.offset % 512 + j)) := by
  obtain ⟨⟨hk, hx⟩, heof, hofs⟩ := h
  have hlt : ((q.offset + j : Nat) : Int) < eof (fs.inode r).data := by omega
  refine ⟨hlt, ?_⟩
  have hbyte := hpub.bytes (q.offset + j) hlt
  have hdiv : (q.offset + j) / 512 = q.offset / 512 := by omega
  have hmod : (q.offset + j) % 512 = q.offset % 512 + j := by omega
  unfold fileByte at hbyte
  rw [hdiv, hmod, hx] at hbyte
  exact hbyte

/-- A reader goes on. -/
theorem Reading.advance {a' : Reader} (h : Reading V r start fs a) (hpub : Pub V r fs)
    (hstep : a.advance r fs = some a') : Reading V r start fs a' := by
  obtain ⟨x, hx, -, rfl⟩ := Reader.advance_inv hstep
  have hsound := h.sound.wake hx hpub.cap hpub.order
  cases a with
  | done got => cases hx
  | indirect q data => exact found_at.reading hsound (h.place q rfl) h.bytes
  | double q data => exact ⟨hsound, h.place, h.bytes⟩
  | inner q data buffer => exact found_at.reading hsound (h.place q rfl) h.bytes
  | fetch q sector chunk =>
    cases hx
    have hplace := h.place q rfl
    refine look_at.reading hsound ?_ fun j b hj => ?_
    · unfold Request.next
      dsimp only
      rw [length_append, length_map, length_range]
      omega
    · have hj : (q.got ++ (List.range chunk).map fun j =>
          fs.disk x (q.offset % 512 + j))[j]? = some b := hj
      by_cases hlt : j < q.got.length
      · rw [getElem?_append_left hlt] at hj
        exact h.bytes j b hj
      · -- a byte of the chunk just fetched
        rw [getElem?_append_right (not_lt.mp hlt), getElem?_map, Option.map_eq_some_iff] at hj
        obtain ⟨i, hi, rfl⟩ := hj
        obtain ⟨hlen, rfl⟩ := List.getElem?_eq_some_iff.mp hi
        rw [length_range] at hlen
        rw [getElem_range]
        have hbyte := h.sound.bytes hpub hlen
        have hpos : q.offset + (j - q.got.length) = start + j := by omega
        rw [hpos] at hbyte
        exact hbyte

/-- The writer goes on. -/
theorem Reading.onward (h : Reading V r start fs a) (ho : Onward r fs fs')
    (heof : eof (fs.inode r).data ≤ eof (fs'.inode r).data)
    (hstray : ∀ o, a.strays = some o → eof (fs.inode r).data ≤ o → eof (fs'.inode r).data ≤ o) :
    Reading V r start fs' a := by
  refine ⟨h.sound.onward ho heof hstray, h.place, fun j b hj => ?_⟩
  obtain ⟨hlt, hv⟩ := h.bytes j b hj
  exact ⟨lt_of_lt_of_le hlt heof, hv⟩

end Pintos.Inode
