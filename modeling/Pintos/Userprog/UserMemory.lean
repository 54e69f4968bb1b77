/-
The kernel's accesses to user memory: `check_esp`, single bytes, words,
strings and buffers.

# What is modelled

Addresses are 32 bits wide and wrap. A page of user space is present if
the process's page directory maps it; a page above `PHYS_BASE` is present
if the kernel maps it, and reading or writing it from the kernel works.
A kernel access to a page that is not present, or a kernel write to a
read-only page, enters `page_fault` with the kernel's code segment, and
`kill` panics (`fault`). Every address is logged before it is accessed,
including the one that faults.

Memory is indexed by virtual address; no two of the ranges one call
touches are aliases of one frame.
-/
import Pintos.Lib.Logged
import Mathlib.Data.List.TakeWhile

namespace Pintos.Syscall

open Logged

abbrev Addr := Nat

abbrev Mem := Addr → UInt8

/-- `PHYS_BASE`. -/
def physBase : Nat := 0xC0000000

/-- `PGSIZE`. -/
def pgSize : Nat := 4096

def wrap (a : Nat) : Nat := a % 4294967296

/-- A 32-bit word as an `int`. -/
def signed (w : Nat) : Int := Int.bmod w 4294967296

/-- `pg_no`. -/
def pgNo (a : Addr) : Nat := a / pgSize

/-- The page directory of the process, page by page. -/
structure PageDir where
  mapped : Nat → Bool
  writable : Nat → Bool
  /-- The kernel's pages, above `PHYS_BASE`. -/
  kernel : Nat → Bool

namespace PageDir

/-- In a page of user space that is mapped. -/
def user (pd : PageDir) (a : Addr) : Bool := decide (a < physBase) && pd.mapped (pgNo a)

/-- A read does not fault. -/
def present (pd : PageDir) (a : Addr) : Bool :=
  if a < physBase then pd.mapped (pgNo a) else pd.kernel (pgNo a)

/-- A write does not fault. -/
def writes (pd : PageDir) (a : Addr) : Bool :=
  pd.present a && (decide (physBase ≤ a) || pd.writable (pgNo a))

/-- The test of `check_esp`. -/
def valid (pd : PageDir) (a : Addr) : Bool :=
  !(a == 0 || !decide (a < physBase) || !pd.mapped (pgNo a))

end PageDir

/-- How a call can end other than by returning. -/
inductive Stop where
  /-- The process terminates with this status. -/
  | exit (status : Int)
  /-- `page_fault` in the kernel: PANIC. -/
  | fault (a : Addr)
  /-- `shutdown_power_off`. -/
  | powerOff
  /-- A scan for a NUL that never ends. -/
  | hang
  deriving DecidableEq, Repr

abbrev UM := Logged Addr Mem Stop

-- ==== primitives

def checkEsp (pd : PageDir) (a : Addr) : UM Unit :=
  if pd.valid a then pure () else stop (.exit (-1))

def load (pd : PageDir) (a : Addr) : UM UInt8 := fun m =>
  if pd.present a then ⟨[a], m, .ok (m a)⟩ else ⟨[a], m, .error (.fault a)⟩

def store (pd : PageDir) (a : Addr) (v : UInt8) : UM Unit := fun m =>
  if pd.writes a then ⟨[a], fun b => if b = a then v else m b, .ok ()⟩
  else ⟨[a], m, .error (.fault a)⟩

/-- The bytes from `a` on, read one after the other. -/
def loadBytes (pd : PageDir) (a : Addr) : Nat → Nat → UM (List UInt8) :=
  mapRange fun i => load pd (wrap (a + i))

/-- The bytes `val lo, val (lo + 1), …` written from `a + lo` on. -/
def storeBytes (pd : PageDir) (a : Addr) (val : Nat → UInt8) : Nat → Nat → UM (List Unit) :=
  mapRange fun i => store pd (wrap (a + i)) (val i)

def littleEndian : List UInt8 → Nat
  | [] => 0
  | b :: rest => b.toNat + 256 * littleEndian rest

/-- `* (uint32_t *) a`. -/
def word (pd : PageDir) (a : Addr) : UM Nat := do
  let bytes ← loadBytes pd a 0 4
  pure (littleEndian bytes)

def strlenFrom (pd : PageDir) (a : Addr) : Nat → Nat → UM Nat
  | 0, _ => stop .hang
  | fuel + 1, i => do
      let b ← load pd (wrap (a + i))
      if b = 0 then pure i else strlenFrom pd a fuel (i + 1)

/-- After `2 ^ 32` bytes without a NUL the scan has been everywhere. -/
def strlen (pd : PageDir) (a : Addr) : UM Nat := strlenFrom pd a 4294967296 0

/-- `strlcpy` from a user string to a kernel buffer of `size` bytes. -/
def strlcpy (pd : PageDir) (src : Addr) (size : Nat) : UM (List UInt8) := do
  let len ← strlen pd src
  if 0 < size then loadBytes pd src 0 (min len (size - 1)) else pure []

-- ==== what they touch

/-- The accesses from `a` on, `n` of them, of which those that satisfy `Q`
do not fault: as far as they get, they stay in mapped user pages. -/
def Reaches (pd : PageDir) (Q : Addr → Bool) (a : Addr) (n : Nat) : Prop :=
  Upto (fun i => pd.user (wrap (a + i)) = true) (fun i => Q (wrap (a + i)) = true) 0 n

/-- None of the `n` accesses from `a` on faults. -/
def Runs (Q : Addr → Bool) (a : Addr) (n : Nat) : Prop :=
  Through (fun i => Q (wrap (a + i)) = true) 0 n

/-- The NUL of the string at `a` is its byte `n`. -/
def Ends (m : Mem) (a : Addr) (n : Nat) : Prop :=
  m (wrap (a + n)) = 0 ∧ ∀ i, i < n → m (wrap (a + i)) ≠ 0

def wordAt (m : Mem) (a : Addr) : Nat :=
  littleEndian ((List.range' 0 4).map fun i => m (wrap (a + i)))

/-- The memory after the first `i` of a run of stores. -/
def stored (m : Mem) (a : Addr) (val : Nat → UInt8) : Nat → Mem
  | 0 => m
  | i + 1 => fun b =>
    if b = wrap (a + i) then val i else stored m a val i b

/-- Nothing but mapped user addresses are touched, and the process is not
terminated with −1 on the way. -/
abbrev Touches (pd : PageDir) {α : Type} (p : UM α) (m : Mem)
    (A G : Prop) (v : α) (t : Mem) : Prop :=
  Spec (fun a => pd.user a = true) (.exit (-1)) p m A G v t

variable {pd : PageDir} {m : Mem} {a n : Nat}

theorem present_of_user (h : pd.user a = true) : pd.present a = true := by
  unfold PageDir.user at h
  unfold PageDir.present
  simp only [Bool.and_eq_true, decide_eq_true_eq] at h
  rw [if_pos h.1, h.2]

theorem user_of_valid (h : pd.valid a = true) : pd.user a = true := by
  unfold PageDir.valid at h
  unfold PageDir.user
  simp at h
  simp [h.1.2, h.2]

theorem present_of_writes (h : pd.writes a = true) : pd.present a = true := by
  exact (Bool.and_eq_true .. ▸ h).1

/-- One access, which may fault. -/
theorem access_touches {α : Type} {p : UM α} {ok : Bool} {v : α} {t : Mem} (hp : p m =
      if ok then ⟨[a], t, .ok v⟩ else ⟨[a], m, .error (.fault a)⟩) :
    Touches pd p m (pd.user a = true) (ok = true) v t := by
  refine ⟨?_, ?_, ?_⟩
  · unfold Logs
    rw [hp]
    split <;> simp
  · intro x u
    unfold Gives
    rw [hp]
    split
    case isTrue h => simp [h, eq_comm]
    case isFalse h => simp [h]
  · unfold Fails
    rw [hp]
    split <;> simp

theorem load_touches : Touches pd (load pd a) m (pd.user a = true)
    (pd.present a = true) (m a) m := access_touches rfl

theorem store_touches {v : UInt8} : Touches pd (store pd a v) m (pd.user a = true)
    (pd.writes a = true) () (fun b => if b = a then v else m b) := access_touches rfl

theorem loadBytes_touches : Touches pd (loadBytes pd a 0 n) m (Reaches pd pd.present a n)
    (Runs pd.present a n) ((List.range' 0 n).map fun i => m (wrap (a + i))) m := by
  have h := Spec.mapRange (fun i => load pd (wrap (a + i))) _ _ _
    (fun _ => m) n 0 fun _ _ _ => load_touches
  rwa [Nat.zero_add] at h

theorem storeBytes_touches {val : Nat → UInt8} :
    Touches pd (storeBytes pd a val 0 n) m (Reaches pd pd.writes a n)
      (Runs pd.writes a n) ((List.range' 0 n).map fun _ => ())
      (stored m a val n) := by
  have h := Spec.mapRange (fun i => store pd (wrap (a + i)) (val i)) _ _ _
    (stored m a val) n 0 fun _ _ _ => store_touches
  rwa [Nat.zero_add] at h

theorem word_touches : Touches pd (word pd a) m (Reaches pd pd.present a 4)
    (Runs pd.present a 4) (wordAt m a) m :=
  loadBytes_touches.again Spec.pure (fun _ _ => trivial) (fun _ => trivial)

/-- Reads that stay in user pages do not fault. -/
theorem Reaches.runs (h : Reaches pd pd.present a n) : Runs pd.present a n := fun i h1 h2 =>
  present_of_user (h.through (fun _ => present_of_user) i h1 h2)

-- ==== strings

/-- The program reads the bytes from `a + lo` on below `a + hi`, as far as
they are mapped. -/
def Walks {α : Type} (pd : PageDir) (p : UM α) (m : Mem) (a : Addr) (lo hi : Nat) (v : α) : Prop :=
  Touches pd p m (Upto (fun x => pd.user (wrap (a + x)) = true)
    (fun x => pd.present (wrap (a + x)) = true) lo hi)
    (Through (fun x => pd.present (wrap (a + x)) = true) lo hi) v m

section

variable {α : Type} {f : UInt8 → UM α} {v : α} {i hi : Nat}

theorem Walks.last (hf : Touches pd (f (m (wrap (a + i)))) m True True v m) :
    Walks pd (load pd (wrap (a + i)) >>= f) m a i (i + 1) v := by
  refine (load_touches.bind hf).congr ?_ ?_
  · rw [upto_cons (Nat.lt_succ_self i)]
    exact and_congr_right' (forall_congr' fun _ => iff_of_true trivial upto_nil)
  · rw [through_cons (Nat.lt_succ_self i)]
    exact and_congr_right' (iff_of_true trivial through_nil)

theorem Walks.cons (hlt : i < hi) (hf : Walks pd (f (m (wrap (a + i)))) m a (i + 1) hi v) :
    Walks pd (load pd (wrap (a + i)) >>= f) m a i hi v := by
  refine (load_touches.bind hf).congr ?_ ?_
  · rw [upto_cons hlt]
  · rw [through_cons hlt]

end

theorem strlenFrom_touches (hn : Ends m a n) (fuel i : Nat) (h1 : i ≤ n) (h2 : n < i + fuel) :
    Walks pd (strlenFrom pd a fuel i) m a i (n + 1) n := by
  induction fuel generalizing i with
  | zero => omega
  | succ fuel ih =>
    rcases Nat.eq_or_lt_of_le h1 with rfl | hlt
    · -- the NUL
      refine .last ?_
      rw [if_pos hn.1]
      exact .pure
    · refine .cons (Nat.lt_succ_of_lt hlt) ?_
      rw [if_neg (hn.2 i hlt)]
      exact ih (i + 1) hlt (by omega)

/-- A string has its NUL within the address space. -/
theorem Ends.lt (hn : Ends m a n) : n < 4294967296 := by
  apply Nat.lt_of_not_le
  intro hle
  refine hn.2 (n - 4294967296) (by omega) ?_
  have : wrap (a + (n - 4294967296)) = wrap (a + n) := by
    unfold wrap
    omega
  rw [this]
  exact hn.1

theorem strlen_touches (hn : Ends m a n) : Touches pd (strlen pd a) m
    (Reaches pd pd.present a (n + 1)) (Runs pd.present a (n + 1)) n m := by
  have hlt := hn.lt
  exact strlenFrom_touches hn 4294967296 0 (Nat.zero_le n) (by omega)

theorem Ends.unique {k : Nat} (hn : Ends m a n) (hk : Ends m a k) : n = k := by
  rcases Nat.lt_trichotomy n k with h | h | h
  · exact absurd hn.1 (hk.2 n h)
  · exact h
  · exact absurd hk.1 (hn.2 k h)

end Pintos.Syscall
