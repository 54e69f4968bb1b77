/-
When does a system call stay inside the user's mapped pages?

`check_esp` tests one address, the calls touch ranges: the four bytes of
a word, a string up to its NUL, the bytes of a buffer that are moved. The
first byte of each range is the one that was tested, so a range can only
go wrong in a page after its first (`Inside`). Below, each function gets
its `Touches` description, in terms of `Reaches`; with a checked first
byte, `Reaches` and `Inside` are the same (`reaches_iff_inside`), and the
characterisation of `Confined` follows.
-/
import Pintos.Userprog.Syscall
import Mathlib.Algebra.Group.Nat.Defs
import Mathlib.Data.Nat.Find

namespace Pintos.Syscall

open Logged List
open Slots (Raw entryName)
open Readdir (nextEntry nextEntry_none dot dotDot)

-- ==== conditions

/-- As far as the accesses get, those outside the page of `a` are to
mapped user pages. -/
def Inside (pd : PageDir) (Q : Addr → Bool) (a : Addr) (n : Nat) : Prop :=
  Upto (fun i => pgNo (wrap (a + i)) ≠ pgNo a →
    pd.user (wrap (a + i)) = true) (fun i => Q (wrap (a + i)) = true) 0 n

/-- The bytes a transfer moves: all that the limit leaves, or the whole
sectors of it when there is no bounce buffer. -/
def moved (bounce : Bool) (limit pos size : Nat) : Nat :=
  if bounce then min size (limit - pos)
  else if pos % 512 = 0 then min size (limit - pos) / 512 * 512
  else 0

/-- The name that one more `dir_readdir` stores. -/
def oneName (c : List UInt8) (pos : Nat) : List Raw := (nextEntry c pos).1.toList

/-- The names that two more of them store. -/
def twoNames (c : List UInt8) (pos : Nat) : List Raw :=
  oneName c pos ++ oneName c (nextEntry c pos).2

/-- The names that `readdir` stores over that of `e`, its first one. -/
def laterNames (c : List UInt8) (e : Raw) (pos : Nat) : List Raw :=
  if text e = dot then twoNames c pos
  else if text e = dotDot then oneName c pos
  else []

/-- The bytes that `strcmp` with a literal reads from `a + i` on. -/
def cmpLen (m : Mem) (a : Addr) : List UInt8 → Nat → Nat
  | [], _ => 1
  | c :: rest, i =>
    if m (wrap (a + i)) ≠ 0 ∧ m (wrap (a + i)) = c then
      1 + cmpLen m a rest (i + 1)
    else 1

def cmpEq (m : Mem) (a : Addr) : List UInt8 → Nat → Bool
  | [], i => m (wrap (a + i)) == 0
  | c :: rest, i =>
    if m (wrap (a + i)) ≠ 0 ∧ m (wrap (a + i)) = c then
      cmpEq m a rest (i + 1)
    else false

/-- The bytes `readdir` looks at when no entry is left. -/
def lookLen (m : Mem) (a : Addr) : Nat :=
  if cmpEq m a dot 0 then cmpLen m a dot 0
  else max (cmpLen m a dot 0) (cmpLen m a dotDot 0)

section Conditions

-- `R Q a n` says that `n` accesses from `a` on, which fault where `Q` is
-- false, are good; the conditions are read with `Reaches` and with `Inside`
variable (R : (Addr → Bool) → Addr → Nat → Prop)

def OnString (pd : PageDir) (m : Mem) (a : Addr) : Prop := ∃ n, Ends m a n ∧ R pd.present a (n + 1)

def OnNames (pd : PageDir) (a : Addr) : List Raw → Prop
  | [] => True
  | e :: rest => R pd.writes a ((text e).length + 1) ∧
      (Runs pd.writes a ((text e).length + 1) → OnNames pd a rest)

/-- What the call does with its pointer is good. -/
def Call.On (k : Kernel) (m : Mem) (c : Call) (arg : Nat → Nat) : Prop :=
  match c with
  | .sysExec => k.page = true → OnString R k.pd m (arg 1)
  | .sysCreate | .sysRemove | .sysMkdir | .sysOpen | .sysChdir => OnString R k.pd m (arg 1)
  | .sysRead => ∀ f, k.getFile (signed (arg 1)) = some f →
      R k.pd.writes (arg 2) (moved k.bounce f.eof f.pos (signed (arg 3)).toNat)
  | .sysWrite =>
    if signed (arg 1) = 1 then R k.pd.present (arg 2) (arg 3)
    else ∀ f, k.getFile (signed (arg 1)) = some f → signed (arg 1) ≠ 0 →
      f.isdir = false → f.denyWrite = false →
        R k.pd.present (arg 2) (moved k.bounce
          (f.grown (signed (arg 3))).toNat f.pos (signed (arg 3)).toNat)
  | .sysReaddir => ∀ f, k.getFile (signed (arg 1)) = some f →
      f.isdir = true →
        match nextEntry f.entries f.dirPos with
        | (none, _) => R k.pd.present (arg 2) (lookLen m (arg 2))
        | (some e, pos) => OnNames R k.pd (arg 2) (e :: laterNames f.entries e pos)
  | _ => True

end Conditions

/-- The call itself ends in `exit (-1)`. -/
def Call.Rejects (k : Kernel) (c : Call) (arg : Nat → Nat) : Prop :=
  match c with
  | .sysExit => signed (arg 1) = -1
  | .sysFilesize | .sysSeek | .sysTell | .sysClose | .sysIsdir
  | .sysInumber | .sysRead => k.getFile (signed (arg 1)) = none
  | .sysWrite => signed (arg 1) = 0 ∨ signed (arg 1) ≠ 1 ∧ k.getFile (signed (arg 1)) = none
  | _ => False

/-- The word in slot `i`. -/
def argAt (m : Mem) (esp : Addr) (i : Nat) : Nat := wordAt m (slotAt esp i)

section Checks

variable (pd : PageDir) (m : Mem) (esp : Addr)

/-- One of the checks fails, and none of the words read before it
faults. -/
def Refuses : List Check → Prop
  | [] => False
  | .slot i :: rest => pd.valid (slotAt esp i) = false ∨ Refuses rest
  | .pointer i :: rest => Runs pd.present (slotAt esp i) 4 ∧
      (pd.valid (argAt m esp i) = false ∨ Refuses rest)

/-- All of the checks pass, and none of the words faults. -/
def Passes : List Check → Prop
  | [] => True
  | .slot i :: rest => pd.valid (slotAt esp i) = true ∧ Passes rest
  | .pointer i :: rest => Runs pd.present (slotAt esp i) 4 ∧
      pd.valid (argAt m esp i) = true ∧ Passes rest

end Checks

/-- The process is terminated with −1: a check fails, or the call rejects
its descriptor, or it is `exit (-1)`; and the words read up to there do
not fault. -/
def Refused (k : Kernel) (m : Mem) (esp : Addr) : Prop :=
  k.pd.valid esp = false ∨ Runs k.pd.present esp 4 ∧
    ∃ c, Call.ofNumber (wordAt m esp) = some c ∧
      (Refuses k.pd m esp c.checks ∨ Passes k.pd m esp c.checks ∧
        (∀ i, 1 ≤ i → i < 1 + c.argc → Runs k.pd.present (slotAt esp i) 4) ∧
        c.Rejects k (argAt m esp))

/-- No argument word, string or buffer of the call runs over the end of a
page into one that is not a mapped user page. -/
def Contained (k : Kernel) (m : Mem) (esp : Addr) : Prop :=
  Inside k.pd k.pd.present esp 4 ∧
    ∀ c, Call.ofNumber (wordAt m esp) = some c →
      (∀ i, 1 ≤ i → i < 1 + c.argc → Inside k.pd k.pd.present (slotAt esp i) 4) ∧
      c.On (Inside k.pd) k m (argAt m esp)

-- ==== ranges

variable {pd : PageDir} {m t : Mem} {a n limit pos size chunk : Nat} {bounce : Bool} {k : Kernel}
  {α : Type} {A : Prop} {p : UM α} {v : α}

/-- With a checked first byte, only the pages after its own matter. -/
theorem reaches_iff_inside {Q : Addr → Bool} (hv : pd.valid a = true) :
    Reaches pd Q a n ↔ Inside pd Q a n := by
  have ha := user_of_valid hv
  unfold PageDir.user at ha
  simp only [Bool.and_eq_true, decide_eq_true_eq] at ha
  constructor
  · exact fun h i h1 h2 hQ _ => h i h1 h2 hQ
  · intro h i h1 h2 hQ
    by_cases hpage : pgNo (wrap (a + i)) = pgNo a
    · -- `PHYS_BASE` is the start of a page
      have hlt : wrap (a + i) < physBase := by
        unfold pgNo pgSize at hpage
        have hlow : a < 3221225472 := ha.1
        unfold physBase
        omega
      unfold PageDir.user
      rw [hpage, ha.2, decide_eq_true hlt]
      rfl
    · exact h i h1 h2 hQ hpage

theorem moved_step (hchunk : chunk = min size (min (limit - pos) (512 - pos % 512)))
    (hcopy : (pos % 512 = 0 ∧ chunk = 512) ∨ bounce = true) :
    moved bounce limit pos size = chunk + moved bounce limit (pos + chunk) (size - chunk) := by
  unfold moved
  cases bounce with
  | true =>
    simp only [if_true]
    omega
  | false =>
    simp only [Bool.false_eq_true, or_false, if_false] at hcopy ⊢
    obtain ⟨hofs, hfull⟩ := hcopy
    rw [if_pos hofs, if_pos (by omega)]
    omega

theorem moved_stop (hchunk : chunk = min size (min (limit - pos) (512 - pos % 512)))
    (hstop : chunk = 0 ∨ ¬((pos % 512 = 0 ∧ chunk = 512) ∨ bounce = true)) :
    moved bounce limit pos size = 0 := by
  unfold moved
  cases bounce with
  | true =>
    simp only [or_true, not_true, or_false, if_true] at hstop ⊢
    omega
  | false =>
    simp only [Bool.false_eq_true, or_false, if_false] at hstop ⊢
    split
    · omega
    · rfl

/-- The sector-by-sector copy is one pass over the buffer. -/
theorem transfer_eq {β : Type} (op : Nat → UM β) (bounce : Bool)
    (limit offset : Nat) : ∀ fuel size done, size ≤ fuel →
    transfer op bounce limit offset fuel size done = (do
      let _ ← mapRange op done (moved bounce limit (offset + done) size)
      pure (done + moved bounce limit (offset + done) size)) := by
  intro fuel
  induction fuel with
  | zero =>
    intro size done hle
    have : moved bounce limit (offset + done) size = 0 := moved_stop rfl (.inl (by omega))
    rw [this]
    rfl
  | succ fuel ih =>
    intro size done hle
    unfold transfer
    simp only
    generalize hchunk : min size (min (limit - (offset + done))
      (512 - (offset + done) % 512)) = chunk
    split
    case isTrue h0 =>
      rw [moved_stop hchunk.symm (.inl h0)]
      rfl
    case isFalse h0 =>
      split
      case isTrue hcopy =>
        rw [ih _ _ (by omega), moved_step hchunk.symm hcopy, mapRange_add,
          add_assoc offset done chunk]
        simp only [bind_assoc, pure_bind, add_assoc]
      case isFalse hcopy =>
        rw [moved_stop hchunk.symm (.inr hcopy)]
        rfl

-- ==== strings

/-- Without a NUL the scan runs out of user space. -/
theorem strlenFrom_endless (fuel i : Nat) (hne : ∀ x, i ≤ x → x < i + fuel → m (wrap (a + x)) ≠ 0) :
    (Logs (fun b => pd.user b = true) (strlenFrom pd a fuel i) m →
        ∀ x, i ≤ x → x < i + fuel → pd.user (wrap (a + x)) = true) ∧
      ¬Fails (.exit (-1)) (strlenFrom pd a fuel i) m ∧
      ∀ v t, ¬Gives (strlenFrom pd a fuel i) m v t := by
  induction fuel generalizing i with
  | zero => exact ⟨fun _ x h1 h2 => absurd h2 (by omega), nofun, nofun⟩
  | succ fuel ih =>
    have hnext : (if m (wrap (a + i)) = 0 then pure i
        else strlenFrom pd a fuel (i + 1)) = strlenFrom pd a fuel (i + 1) :=
      if_neg (hne i le_rfl (by omega))
    obtain ⟨hlogs, hruns, hgives⟩ := ih (i + 1) (fun x h1 h2 => hne x (by omega) (by omega))
    unfold strlenFrom
    rw [load_touches.logs_then, load_touches.fails_then, hnext]
    refine ⟨?_, fun h => hruns h.2, ?_⟩
    · rintro ⟨hu, hrest⟩ x h1 h2
      rcases Nat.eq_or_lt_of_le h1 with rfl | hlt
      · exact hu
      · exact hlogs (hrest (present_of_user hu)) x hlt (by omega)
    · intro v t hg
      obtain ⟨b, u, hb, hg⟩ := gives_bind.mp hg
      obtain ⟨-, rfl, rfl⟩ := (load_touches.gives b u).mp hb
      rw [hnext] at hg
      exact hgives v t hg

/-- The program reads the string of length `n` at `a`, and nothing else. -/
def Scans {α : Type} (pd : PageDir) (p : UM α) (m : Mem) (a : Addr) (n : Nat) (v : α) : Prop :=
  Touches pd p m (Reaches pd pd.present a (n + 1)) (Runs pd.present a (n + 1)) v m

/-- A program that starts by measuring a user string, and reads nothing
but the string. -/
theorem onString_iff {α : Type} {f : Nat → UM α}
    (h : ∀ n, Ends m a n → ∃ v, Scans pd (strlen pd a >>= f) m a n v) :
    (Logs (fun b => pd.user b = true) (strlen pd a >>= f) m ↔ OnString (Reaches pd) pd m a) ∧
    ¬Fails (.exit (-1)) (strlen pd a >>= f) m := by
  by_cases hends : ∃ n, Ends m a n
  · obtain ⟨n, hn⟩ := hends
    obtain ⟨v, hv⟩ := h n hn
    refine ⟨?_, hv.runs⟩
    rw [hv.logs]
    constructor
    · exact fun hr => ⟨n, hn, hr⟩
    · rintro ⟨n', hn', hr⟩
      rw [hn.unique hn']
      exact hr
  · have hne : ∀ x, 0 ≤ x → x < 0 + 4294967296 → m (wrap (a + x)) ≠ 0 := by
      intro x _ _ h0
      -- the first NUL would end the string
      have hex : ∃ x, m (wrap (a + x)) = 0 := ⟨x, h0⟩
      exact hends ⟨Nat.find hex, Nat.find_spec hex, fun i hi => Nat.find_min hex hi⟩
    obtain ⟨hlogs, hruns, hgives⟩ := @strlenFrom_endless pd m a _ 0 hne
    constructor
    · constructor
      · intro hall
        rw [logs_bind] at hall
        have hall := hlogs hall.1
        -- one of the addresses is `PHYS_BASE`
        have hx := hall (wrap (physBase + (4294967296 - wrap a)))
          (Nat.zero_le _) (by unfold wrap; omega)
        have heq : wrap (a + wrap (physBase + (4294967296 - wrap a))) = physBase := by
          unfold wrap physBase
          omega
        rw [heq] at hx
        cases hx
      · rintro ⟨n, hn, -⟩
        exact absurd ⟨n, hn⟩ hends
    · rw [fails_bind]
      rintro (hf | ⟨x, t, hg, -⟩)
      · exact hruns hf
      · exact hgives x t hg

/-- Whatever is done with the result. -/
theorem touches_map {α β : Type} {p : UM α} {t : Mem} {A G : Prop} {v : α}
    (h : Touches pd p m A G v t) (g : α → β) :
    Touches pd (p >>= fun x => pure (g x)) m A G (g v) t :=
  h.again Spec.pure (fun _ _ => trivial) (fun _ => trivial)

/-- Reading the string again, in part or as a whole. -/
theorem strlcpy_touches (pd : PageDir) (hn : Ends m a n) (size : Nat) :
    ∃ v, Scans pd (strlcpy pd a size) m a n v := by
  by_cases hs : 0 < size
  · have hrest : Touches pd (if 0 < size then loadBytes pd a 0 (min n (size - 1)) else pure []) m
        (Reaches pd pd.present a (min n (size - 1))) (Runs pd.present a (min n (size - 1)))
        ((List.range' 0 (min n (size - 1))).map fun i => m (wrap (a + i))) m := by
      rw [if_pos hs]
      exact loadBytes_touches
    exact ⟨_, (strlen_touches hn).again hrest
      (fun h _ => h.mono (by omega)) (fun h => h.mono (by omega))⟩
  · have hrest : Touches pd (if 0 < size then loadBytes pd a 0
        (min n (size - 1)) else pure []) m True True [] m := by
      rw [if_neg hs]
      exact .pure
    exact ⟨_, (strlen_touches hn).again hrest (fun _ _ => trivial) (fun _ => trivial)⟩

/-- A program that measures the string and goes on with it reads no more
than what follows does. -/
theorem strlen_then {α : Type} {f : Nat → UM α} {v : α} (hn : Ends m a n)
    (hf : Scans pd (f n) m a n v) : Scans pd (strlen pd a >>= f) m a n v :=
  (strlen_touches hn).again hf (fun h _ => h) id

theorem getName_touches (pd : PageDir) (hn : Ends m a n) :
    ∃ v, Scans pd (getName pd a) m a n v := by
  obtain ⟨s, hs⟩ := strlcpy_touches pd hn (n + 1)
  exact ⟨_, strlen_then hn (strlen_then hn (touches_map hs _))⟩

theorem splitPath_touches (pd : PageDir) (hn : Ends m a n) :
    ∃ v, Scans pd (splitPath pd a) m a n v := by
  obtain ⟨name, hname⟩ := getName_touches pd hn
  obtain ⟨s, hs⟩ := strlcpy_touches pd hn (n - name.length + 1)
  exact ⟨_, hname.again (strlen_then hn (strlen_then hn (touches_map hs _))) (fun h _ => h) id⟩

theorem copyPath_touches (pd : PageDir) (hn : Ends m a n) :
    ∃ v, Scans pd (copyPath pd a) m a n v := by
  obtain ⟨s, hs⟩ := strlcpy_touches pd hn (n + 1)
  exact ⟨_, strlen_then hn (strlen_then hn hs)⟩

-- ==== the calls

/-- What a call does through its pointer, and when it ends in
`exit (-1)`. -/
structure Does (k : Kernel) (p : UM Unit) (m : Mem) (A F : Prop) : Prop where
  logs : Logs (fun b => k.pd.user b = true) p m ↔ A
  fails : Fails (.exit (-1)) p m ↔ F

/-- It does not end so. -/
abbrev Within (k : Kernel) (p : UM Unit) (m : Mem) (A : Prop) : Prop := Does k p m A False

theorem Does.congr {p : UM Unit} {A' F F' : Prop} (h : Does k p m A F)
    (hA : A ↔ A') (hF : F ↔ F') : Does k p m A' F' :=
  ⟨h.logs.trans hA, h.fails.trans hF⟩

theorem Within.congr {p : UM Unit} {A' : Prop} (h : Within k p m A) (hA : A ↔ A') :
    Within k p m A' := Does.congr h hA Iff.rfl

theorem Within.pure : Within k (Pure.pure ()) m True :=
  ⟨⟨fun _ => trivial, nofun⟩, iff_of_false nofun id⟩

theorem does_stop (e : Stop) : Does k (stop e) m True (e = .exit (-1)) :=
  ⟨iff_of_true nofun trivial, Except.error.injEq .. ▸ Iff.rfl⟩

theorem Does.bind {f : α → UM Unit} {G A' F : Prop} (h : Touches k.pd p m A G v t)
    (hf : Does k (f v) t A' F) : Does k (p >>= f) m (A ∧ (G → A')) (G ∧ F) :=
  ⟨by rw [h.logs_then, hf.logs], by rw [h.fails_then, hf.fails]⟩

theorem Within.bind {f : α → UM Unit} {G A' : Prop} (h : Touches k.pd p m A G v t)
    (hf : Within k (f v) t A') : Within k (p >>= f) m (A ∧ (G → A')) :=
  (Does.bind h hf).congr Iff.rfl (iff_of_false And.right id)

/-- After a program that touches nothing else and does come back. -/
theorem Within.free {f : α → UM Unit} (h : Touches k.pd p m True True v t)
    (hf : Within k (f v) t A) : Within k (p >>= f) m A :=
  (Within.bind h hf).congr (by simp)

/-- A described program, with its result thrown away. -/
theorem Within.ofTouches {G : Prop} (h : Touches k.pd p m A G v t) :
    Within k (p >>= fun _ => Pure.pure ()) m A := by
  refine (Within.bind h Within.pure).congr ?_
  exact and_iff_left fun _ => trivial

/-- A program that starts by measuring its string and reads nothing else. -/
theorem within_string {p : UM Unit} (hp : ∃ f, p = strlen k.pd a >>= f)
    (h : ∀ n, Ends m a n → ∃ v, Scans k.pd p m a n v) :
    Within k p m (OnString (Reaches k.pd) k.pd m a) := by
  obtain ⟨f, rfl⟩ := hp
  exact ⟨(onString_iff h).1, iff_of_false (onString_iff h).2 id⟩

/-- The same for a program whose result is thrown away. -/
theorem within_scan (hp : ∃ f, p = strlen k.pd a >>= f)
    (h : ∀ n, Ends m a n → ∃ v, Scans k.pd p m a n v) :
    Within k (p >>= fun _ => pure ()) m (OnString (Reaches k.pd) k.pd m a) := by
  refine within_string ?_ fun n hn => ?_
  · obtain ⟨f, rfl⟩ := hp
    exact ⟨_, bind_assoc _ _ _⟩
  · obtain ⟨v, hv⟩ := h n hn
    exact ⟨(), touches_map hv _⟩

theorem create_within : Within k (create k a) m (OnString (Reaches k.pd) k.pd m a) := by
  refine within_scan ?_ fun n hn => splitPath_touches k.pd hn
  unfold splitPath getName
  simp only [bind_assoc]
  exact ⟨_, rfl⟩

theorem chdir_within : Within k (chdir k a) m (OnString (Reaches k.pd) k.pd m a) :=
  within_scan ⟨_, rfl⟩ fun _ hn => copyPath_touches k.pd hn

theorem openCall_within : Within k (openCall k a) m (OnString (Reaches k.pd) k.pd m a) := by
  refine within_string ⟨_, rfl⟩ fun n hn => ?_
  by_cases h0 : n = 0
  · refine ⟨(), (strlen_touches hn).again ?_ (fun _ _ => trivial) (fun _ => trivial)⟩
    rw [if_pos h0]
    exact .pure
  · refine ⟨(), strlen_then hn ?_⟩
    rw [if_neg h0]
    obtain ⟨v, hv⟩ := splitPath_touches k.pd hn
    exact touches_map hv _

theorem exec_within : Within k (exec k a) m (k.page = true → OnString (Reaches k.pd) k.pd m a) := by
  unfold exec
  cases k.page with
  | false => exact Within.pure.congr (by simp)
  | true =>
    refine .congr (within_string ⟨_, bind_assoc _ _ _⟩ fun n hn => ?_) (by simp)
    obtain ⟨v, hv⟩ := strlcpy_touches k.pd hn pgSize
    cases k.page' with
    | false => exact ⟨(), touches_map hv _⟩
    | true => exact ⟨(), hv.again (touches_map hv _) (fun h _ => h) id⟩

theorem inodeReadAt_touches (k : Kernel) (m : Mem) (f : OpenFile) (a : Nat) (size : Int) :
    ∃ v t, Touches k.pd (inodeReadAt k f a size) m
      (Reaches k.pd k.pd.writes a (moved k.bounce f.eof f.pos size.toNat))
      (Runs k.pd.writes a (moved k.bounce f.eof f.pos size.toNat)) v t := by
  unfold inodeReadAt
  rw [transfer_eq _ _ _ _ _ _ _ le_rfl]
  exact ⟨_, _, touches_map (storeBytes_touches (a := a)) _⟩

theorem inodeWriteAt_touches (k : Kernel) (m : Mem) {f : OpenFile}
    (a : Nat) (size : Int) (hd : f.denyWrite = false) :
    ∃ v t, Touches k.pd (inodeWriteAt k f a size) m
      (Reaches k.pd k.pd.present a (moved k.bounce (f.grown size).toNat f.pos size.toNat))
      (Runs k.pd.present a (moved k.bounce (f.grown size).toNat f.pos size.toNat)) v t := by
  unfold inodeWriteAt
  rw [hd, transfer_eq _ _ _ _ _ _ _ le_rfl]
  exact ⟨_, _, touches_map (loadBytes_touches (a := a)) _⟩

-- ==== readdir

/-- A store keeps the bytes it does not reach. -/
theorem stored_at {val : Nat → UInt8} {n : Nat} (hn : n ≤ 4294967296) {i : Nat} (hi : i < n) :
    stored m a val n (wrap (a + i)) = val i := by
  induction n with
  | zero => omega
  | succ n ih =>
    show (if wrap (a + i) = wrap (a + n) then val n else _) = _
    split
    case isTrue h =>
      have : i = n := by
        unfold wrap at h
        omega
      rw [this]
    case isFalse h =>
      refine ih (by omega) ?_
      have : i ≠ n := by
        rintro rfl
        exact h rfl
      omega

theorem strcmpFrom_touches (pd : PageDir) (m : Mem) (a : Nat) (b : List UInt8) (i : Nat) :
    Walks pd (strcmpFrom pd a b i) m a i (i + cmpLen m a b i) (cmpEq m a b i) := by
  induction b generalizing i with
  | nil => exact .last Spec.pure
  | cons c rest ih =>
    unfold strcmpFrom cmpLen cmpEq
    split
    next hc =>
      refine .cons (by omega) ?_
      rw [if_pos hc, ← add_assoc i 1]
      exact ih (i + 1)
    next hc =>
      refine .last ?_
      rw [if_neg hc]
      exact .pure

theorem strcmp_touches {pd : PageDir} {b : List UInt8} :
    Touches pd (strcmpFrom pd a b 0) m (Reaches pd pd.present a (cmpLen m a b 0))
      (Runs pd.present a (cmpLen m a b 0)) (cmpEq m a b 0) m := by
  have h := strcmpFrom_touches pd m a b 0
  rwa [zero_add] at h

/-- `strcmp` reads at most up to a NUL. -/
theorem cmpLen_le {n : Nat} (h0 : m (wrap (a + n)) = 0) (b : List UInt8) (i : Nat) (hi : i ≤ n) :
    i + cmpLen m a b i ≤ n + 1 := by
  induction b generalizing i with
  | nil =>
    unfold cmpLen
    omega
  | cons c rest ih =>
    unfold cmpLen
    split
    case isTrue h =>
      have : i ≠ n := by
        rintro rfl
        exact h.1 h0
      have := ih (i + 1) (by omega)
      omega
    case isFalse => omega

/-- `strcmp` of a string in memory with a literal. -/
theorem cmpEq_eq (b text : List UInt8) (i : Nat) (htext : ∀ x ∈ text, x ≠ 0) (hb : ∀ x ∈ b, x ≠ 0)
    (hm : ∀ j, j < text.length + 1 → m (wrap (a + (i + j))) = text.getD j 0) :
    cmpEq m a b i = decide (text = b) := by
  induction b generalizing text i with
  | nil =>
    have h0 := hm 0 (by omega)
    rw [add_zero] at h0
    unfold cmpEq
    rw [h0]
    cases text with
    | nil => rfl
    | cons t rest => simp [htext t (mem_cons_self ..)]
  | cons c rest ih =>
    have h0 := hm 0 (by omega)
    rw [add_zero] at h0
    unfold cmpEq
    rw [h0]
    cases text with
    | nil => simp
    | cons t more =>
      have ht := htext t (mem_cons_self ..)
      by_cases htc : t = c
      · rw [if_pos ⟨ht, htc⟩, ih more (i + 1) (fun x hx => htext x (mem_cons_of_mem _ hx))
          (fun x hx => hb x (mem_cons_of_mem _ hx)) ?_]
        · simp [htc]
        · intro j hj
          have := hm (j + 1) (by simp only [length_cons]; omega)
          rw [getD_cons_succ] at this
          rw [← this, add_assoc i 1 j, add_comm 1 j]
      · simp [htc]

theorem text_ne_zero (e : Raw) : ∀ x ∈ text e, x ≠ 0 := by
  intro x hx
  have hx := mem_takeWhile_imp (mem_of_mem_take hx)
  simpa using hx

theorem text_length (e : Raw) : (text e).length ≤ 14 := by
  unfold text
  rw [length_take]
  exact min_le_left ..

/-- After the store of a name. -/
theorem cmpEq_stored (e : Raw) (b : List UInt8) (hb : ∀ x ∈ b, x ≠ 0) :
    cmpEq (stored m a (textByte e) ((text e).length + 1)) a b 0 = decide (text e = b) := by
  refine cmpEq_eq b (text e) 0 (text_ne_zero e) hb ?_
  intro j hj
  have := text_length e
  rw [zero_add, stored_at (by omega) hj]
  rfl

variable {c : List UInt8} {e : Raw} {pos pos' : Nat}

/-- What `dir_readdir` does to the name. -/
theorem dirReaddir_none (h : nextEntry c pos = (none, pos')) :
    Touches pd (dirReaddir pd a c pos) m True True pos' m := by
  unfold dirReaddir
  rw [h]
  exact .pure

theorem dirReaddir_some (h : nextEntry c pos = (some e, pos')) :
    Touches pd (dirReaddir pd a c pos) m (Reaches pd pd.writes a ((text e).length + 1))
      (Runs pd.writes a ((text e).length + 1)) pos'
      (stored m a (textByte e) ((text e).length + 1)) := by
  unfold dirReaddir
  rw [h]
  exact touches_map storeBytes_touches _

/-- `dir_readdir`, and what follows it. -/
theorem nextName_within {f : Nat → UM Unit} {names : List Raw} (c : List UInt8) (pos : Nat)
    (hf : ∀ m, Within k (f (nextEntry c pos).2) m (OnNames (Reaches k.pd) k.pd a names)) :
    Within k (dirReaddir k.pd a c pos >>= f) m
      (OnNames (Reaches k.pd) k.pd a (oneName c pos ++ names)) := by
  unfold oneName
  rcases h : nextEntry c pos with ⟨_ | e, pos'⟩
  · rw [h] at hf
    exact .free (dirReaddir_none h) (hf _)
  · rw [h] at hf
    exact .bind (dirReaddir_some h) (hf _)

/-- `dir_readdir` as the last thing `readdir` does. -/
theorem lastReaddir_within (c : List UInt8) (pos : Nat) :
    Within k (dirReaddir k.pd a c pos >>= fun _ => pure ()) m
      (OnNames (Reaches k.pd) k.pd a (oneName c pos)) := by
  rw [← append_nil (oneName c pos)]
  exact nextName_within c pos fun _ => .pure

/-- The comparisons, and what follows the one that succeeds. -/
theorem skipDots_within {A G A' G' : Prop} {b b' : Bool}
    (hdot : Touches k.pd (strcmpFrom k.pd a dot 0) m A G b m)
    (hdots : Touches k.pd (strcmpFrom k.pd a dotDot 0) m A' G' b' m) :
    Within k (skipDots k.pd a c pos) m (A ∧ (G →
      if b then OnNames (Reaches k.pd) k.pd a (twoNames c pos)
      else A' ∧ (G' → OnNames (Reaches k.pd) k.pd a (if b' then oneName c pos else [])))) := by
  refine .bind hdot ?_
  cases b with
  | true => exact nextName_within c pos fun _ => lastReaddir_within c _
  | false =>
    refine .bind hdots ?_
    cases b' with
    | true => exact lastReaddir_within c pos
    | false => exact .pure

/-- Reading on while the bytes last read are mapped. -/
theorem look_iff {c c' : Nat} {eq : Bool} :
    (Reaches k.pd k.pd.present a c ∧ (Runs k.pd.present a c →
      (if eq then True else Reaches k.pd k.pd.present a c'))) ↔
    Reaches k.pd k.pd.present a (if eq then c else max c c') := by
  cases eq with
  | true => simp
  | false =>
    simp only [Bool.false_eq_true, if_false]
    constructor
    · rintro ⟨hc, hc'⟩
      have hu := hc.through (fun _ => present_of_user)
      have hu' := (hc' hc.runs).through (fun _ => present_of_user)
      intro i h1 h2 _
      rcases lt_or_ge i c with hi | hi
      · exact hu i h1 hi
      · exact hu' i h1 (by omega)
    · intro h
      exact ⟨h.mono (le_max_left ..), fun _ => h.mono (le_max_right ..)⟩

/-- When no entry is left, the old contents of the buffer are looked at. -/
theorem skipDots_none (h : nextEntry c pos = (none, pos)) : Within k (skipDots k.pd a c pos) m
    (Reaches k.pd k.pd.present a (lookLen m a)) := by
  have hone : oneName c pos = [] := by
    unfold oneName
    rw [h]
    rfl
  have htwo : twoNames c pos = [] := by
    unfold twoNames
    rw [h]
    rw [hone]
    rfl
  refine (skipDots_within strcmp_touches strcmp_touches).congr (Iff.trans ?_ look_iff)
  simp [hone, htwo, OnNames]

/-- Once a name is stored, the comparisons stay within it. -/
theorem skipDots_some (e : Raw) (hA : Reaches k.pd k.pd.writes a ((text e).length + 1))
    (hG : Runs k.pd.writes a ((text e).length + 1)) :
    Within k (skipDots k.pd a c pos)
      (stored m a (textByte e) ((text e).length + 1))
      (OnNames (Reaches k.pd) k.pd a (laterNames c e pos)) := by
  have hlen := text_length e
  have hnul : stored m a (textByte e) ((text e).length + 1) (wrap (a + (text e).length)) = 0 := by
    rw [stored_at (by omega) (Nat.lt_succ_self _)]
    unfold textByte
    simp
  have hcmp (b : List UInt8) (hb : (∀ x ∈ b, x ≠ 0)) :
      Touches k.pd (strcmpFrom k.pd a b 0) (stored m a (textByte e) ((text e).length + 1)) True
        True (decide (text e = b)) (stored m a (textByte e) ((text e).length + 1)) := by
    have hle := cmpLen_le hnul b 0 (Nat.zero_le _)
    rw [← cmpEq_stored e b hb]
    refine strcmp_touches.congr (iff_of_true ?_ trivial) (iff_of_true ?_ trivial)
    · exact fun i h1 h2 _ => hA.of_through hG i h1 (by omega)
    · exact fun i h1 h2 => present_of_writes (hG i h1 (by omega))
  refine (skipDots_within (hcmp dot (by simp [dot])) (hcmp dotDot (by simp [dotDot]))).congr ?_
  unfold laterNames
  by_cases h : text e = dot <;> simp [h]

-- ==== the handler

/-- A call that refuses a descriptor which is not open. -/
theorem does_file {fd : Int} {body : OpenFile → UM Unit} {A : OpenFile → Prop}
    (h : ∀ f, Within k (body f) m (A f)) :
    Does k (match k.getFile fd with
      | none => stop (.exit (-1))
      | some f => body f) m (∀ f, k.getFile fd = some f → A f) (k.getFile fd = none) := by
  cases k.getFile fd with
  | none => exact (does_stop _).congr (iff_of_true trivial nofun) (iff_of_true rfl rfl)
  | some f => exact Does.congr (h f) (by simp) (iff_of_false id nofun)

theorem read_does (fd : Int) (size : Nat) : Does k (read k fd a size) m
    (∀ f, k.getFile fd = some f → Reaches k.pd k.pd.writes a
      (moved k.bounce f.eof f.pos (signed size).toNat)) (k.getFile fd = none) :=
  does_file fun f => by
    obtain ⟨v, t, ht⟩ := inodeReadAt_touches k m f a (signed size)
    exact .ofTouches ht

/-- `file_write` on an open file. -/
theorem fileWrite_within (f : OpenFile) (size : Int) :
    Within k (if f.isdir then pure () else do
        let _ ← inodeWriteAt k f a size
        pure ()) m
      (f.isdir = false → f.denyWrite = false → Reaches k.pd k.pd.present a
        (moved k.bounce (f.grown size).toNat f.pos size.toNat)) := by
  cases hdir : f.isdir with
  | true => exact Within.pure.congr (by simp)
  | false =>
    cases hdeny : f.denyWrite with
    | true =>
      unfold inodeWriteAt
      rw [hdeny]
      exact Within.pure.congr (by simp)
    | false =>
      obtain ⟨v, t, ht⟩ := inodeWriteAt_touches k m a size hdeny
      exact (Within.ofTouches ht).congr (by simp)

theorem write_does (fd : Int) (size : Nat) : Does k (write k fd a size) m
    (if fd = 1 then Reaches k.pd k.pd.present a size
      else ∀ f, k.getFile fd = some f → fd ≠ 0 →
        f.isdir = false → f.denyWrite = false →
          Reaches k.pd k.pd.present a (moved k.bounce
            (f.grown (signed size)).toNat f.pos (signed size).toNat))
    (fd = 0 ∨ fd ≠ 1 ∧ k.getFile fd = none) := by
  unfold write
  split
  next h1 => exact Does.congr (Within.ofTouches loadBytes_touches) Iff.rfl (by simp [h1])
  rename_i h1
  by_cases h0 : fd = 0
  · rw [if_neg (not_not.mpr h0)]
    exact (does_stop _).congr (iff_of_true trivial fun _ _ h => absurd h0 h) (by simp [h0])
  · rw [if_pos h0]
    exact (does_file fun f => fileWrite_within f (signed size)).congr
      (by simp [h0]) (by simp [h0, h1])

theorem readdir_within (fd : Int) : Within k (readdir k fd a) m
    (∀ f, k.getFile fd = some f → f.isdir = true →
      match nextEntry f.entries f.dirPos with
      | (none, _) => Reaches k.pd k.pd.present a (lookLen m a)
      | (some e, pos) => OnNames (Reaches k.pd) k.pd a (e :: laterNames f.entries e pos)) := by
  unfold readdir
  cases hf : k.getFile fd with
  | none => exact Within.pure.congr (iff_of_true trivial nofun)
  | some f =>
    cases hdir : f.isdir with
    | false =>
      simp only [hdir, Bool.false_eq_true, if_false]
      refine Within.pure.congr (iff_of_true trivial ?_)
      rintro f' ⟨⟩ h
      simp [hdir] at h
    | true =>
      simp only [hdir, if_true, Option.some.injEq, forall_eq', forall_const]
      rcases h : nextEntry f.entries f.dirPos with ⟨_ | e, pos⟩
      · exact .free (dirReaddir_none h) (skipDots_none (nextEntry_none h))
      · have ht : Touches k.pd (dirReaddir k.pd a f.entries f.dirPos) m _ _ _ _ := dirReaddir_some h
        constructor
        · rw [ht.logs_then]
          exact and_congr_right fun hA => forall_congr' fun hG => (skipDots_some e hA hG).logs
        · rw [ht.fails_then]
          exact iff_of_false (fun h =>
            (skipDots_within strcmp_touches strcmp_touches).fails.mp h.2) id

theorem Call.run_does (c : Call) (arg : Nat → Nat) :
    Does k (c.run k arg) m (c.On (Reaches k.pd) k m arg) (c.Rejects k arg) := by
  cases c
  case sysHalt => exact (does_stop _).congr Iff.rfl (iff_of_false nofun id)
  case sysExit => exact (does_stop _).congr Iff.rfl (by rw [Stop.exit.injEq]; rfl)
  case sysWait => exact Within.pure
  case sysExec => exact exec_within
  case sysCreate | sysRemove | sysMkdir => exact create_within
  case sysOpen => exact openCall_within
  case sysChdir => exact chdir_within
  case sysReaddir => exact readdir_within _
  case sysRead => exact read_does _ _
  case sysWrite => exact write_does _ _
  all_goals
    exact (does_file fun _ => .pure).congr (iff_of_true (fun _ _ => trivial) trivial) Iff.rfl

/-- A call looks at its own arguments only. -/
theorem Call.run_congr (c : Call) {arg arg' : Nat → Nat}
    (h : ∀ i, 1 ≤ i → i < 1 + c.argc → arg i = arg' i) : c.run k arg = c.run k arg' := by
  cases c <;> simp only [Call.run] <;>
    simp only [Call.argc] at h <;>
    first
      | rw [h 1 (by omega) (by omega), h 2 (by omega) (by omega), h 3 (by omega) (by omega)]
      | rw [h 1 (by omega) (by omega), h 2 (by omega) (by omega)]
      | rw [h 1 (by omega) (by omega)]

section Handler

variable {k : Kernel} {m : Mem} {esp : Nat} {pd : PageDir} {f : Unit → UM Unit} {a : Nat}
  {A F : Prop}

theorem checkEsp_does (hf : Does k (f ()) m A F) : Does k (checkEsp k.pd a >>= f) m
    (k.pd.valid a = true → A) (k.pd.valid a = false ∨ k.pd.valid a = true ∧ F) := by
  unfold checkEsp
  cases k.pd.valid a with
  | true => exact hf.congr (by simp) (by simp)
  | false => exact ⟨iff_of_true nofun nofun, iff_of_true rfl (.inl rfl)⟩

/-- The words that the checks read are in mapped user pages. -/
def ChecksReach (pd : PageDir) (m : Mem) (esp : Addr) : List Check → Prop
  | [] => True
  | .slot i :: rest => pd.valid (slotAt esp i) = true → ChecksReach pd m esp rest
  | .pointer i :: rest => Reaches pd pd.present (slotAt esp i) 4 ∧
      (pd.valid (argAt m esp i) = true → ChecksReach pd m esp rest)

theorem checkArgs_does (hf : Does k (f ()) m A F) (checks : List Check) :
    Does k (checkArgs k.pd esp checks >>= f) m
      (ChecksReach k.pd m esp checks ∧ (Passes k.pd m esp checks → A))
      (Refuses k.pd m esp checks ∨ Passes k.pd m esp checks ∧ F) := by
  induction checks with
  | nil => exact hf.congr (by simp [ChecksReach, Passes]) (by simp [Refuses, Passes])
  | cons c rest ih =>
    cases c with
    | slot i =>
      unfold checkArgs ChecksReach Refuses Passes
      rw [bind_assoc]
      refine (checkEsp_does ih).congr ?_ ?_ <;> cases k.pd.valid (slotAt esp i) <;> simp
    | pointer i =>
      unfold checkArgs ChecksReach Refuses Passes
      simp only [bind_assoc]
      refine (Does.bind word_touches (checkEsp_does ih)).congr ?_ ?_
      · constructor
        · rintro ⟨hr, h⟩
          exact ⟨⟨hr, fun hv => (h hr.runs hv).1⟩, fun hp => (h hr.runs hp.2.1).2 hp.2.2⟩
        · rintro ⟨⟨hr, hc⟩, hf⟩
          exact ⟨hr, fun hruns hv => ⟨hc hv, fun hp => hf ⟨hruns, hv, hp⟩⟩⟩
      · change _ ∧ (k.pd.valid (argAt m esp i) = false ∨ k.pd.valid (argAt m esp i) = true ∧ _) ↔ _
        cases k.pd.valid (argAt m esp i) <;> simp [and_or_left, and_assoc]

/-- The argument words, and the call with them. -/
theorem args_touches (c : Call) :
    Touches k.pd (mapRange (fun i => word k.pd (slotAt esp i)) 1 c.argc) m
      (Upto (fun i => Reaches k.pd k.pd.present (slotAt esp i) 4)
        (fun i => Runs k.pd.present (slotAt esp i) 4) 1 (1 + c.argc))
      (Through (fun i => Runs k.pd.present (slotAt esp i) 4) 1 (1 + c.argc))
      ((List.range' 1 c.argc).map (argAt m esp)) m :=
  Spec.mapRange (fun i => word k.pd (slotAt esp i)) _ _ _ (fun _ => m)
    c.argc 1 fun _ _ _ => word_touches

theorem run_args (c : Call) :
    c.run k (fun i => ((List.range' 1 c.argc).map (argAt m esp)).getD
      (i - 1) 0) = c.run k (argAt m esp) := by
  apply Call.run_congr
  intro i h1 h2
  rw [getD_eq_getElem?_getD, getElem?_map, getElem?_range' (by omega)]
  simp only [Option.map_some, Option.getD_some, one_mul]
  rw [Nat.add_sub_cancel' h1]

/-- The call whose number is on the stack. -/
theorem call_does (c : Call) :
    Does k (do
        checkArgs k.pd esp c.checks
        let args ← mapRange (fun i => word k.pd (slotAt esp i)) 1 c.argc
        c.run k fun i => args.getD (i - 1) 0) m
      (ChecksReach k.pd m esp c.checks ∧ (Passes k.pd m esp c.checks →
        Through (fun i => Reaches k.pd k.pd.present (slotAt esp i) 4) 1 (1 + c.argc) ∧
        c.On (Reaches k.pd) k m (argAt m esp)))
      (Refuses k.pd m esp c.checks ∨ Passes k.pd m esp c.checks ∧
        (∀ i, 1 ≤ i → i < 1 + c.argc → Runs k.pd.present (slotAt esp i) 4) ∧
        c.Rejects k (argAt m esp)) := by
  have hrun := c.run_does (k := k) (m := m) (argAt m esp)
  rw [← run_args] at hrun
  refine (checkArgs_does (Does.bind (args_touches c) hrun) c.checks).congr ?_ Iff.rfl
  refine and_congr_right fun _ => forall_congr' fun _ => ⟨?_, ?_⟩
  · rintro ⟨hargs, hon⟩
    have hall := hargs.through fun _ h => h.runs
    exact ⟨hall, hon fun i h1 h2 => (hall i h1 h2).runs⟩
  · rintro ⟨hall, hon⟩
    exact ⟨fun i h1 h2 _ => hall i h1 h2, fun _ => hon⟩

/-- The handler terminates the process with −1 exactly when it is to be
refused. -/
theorem handler_does : Does k (syscallHandler k esp) m
    (k.pd.valid esp = true → Reaches k.pd k.pd.present esp 4 ∧
      ∀ c, Call.ofNumber (wordAt m esp) = some c →
        ChecksReach k.pd m esp c.checks ∧
        (Passes k.pd m esp c.checks →
          Through (fun i => Reaches k.pd k.pd.present (slotAt esp i) 4) 1 (1 + c.argc) ∧
          c.On (Reaches k.pd) k m (argAt m esp)))
    (Refused k m esp) := by
  unfold syscallHandler Refused
  cases hc : Call.ofNumber (wordAt m esp) with
  | none =>
    refine (checkEsp_does (Within.bind word_touches (by rw [hc]; exact Within.pure))).congr ?_ ?_
    · simp
    · simp
  | some c =>
    refine (checkEsp_does (Does.bind word_touches (by rw [hc]; exact call_does c))).congr ?_ ?_
    · refine forall_congr' fun _ => and_congr_right fun hesp => ?_
      rw [forall_prop_of_true hesp.runs]
      simp
    · cases k.pd.valid esp <;> simp

-- ==== the characterisation

/-- Every pointer is read from a slot that was checked before it. -/
def ordered : List Nat → List Check → Bool
  | _, [] => true
  | seen, .slot i :: rest => ordered (i :: seen) rest
  | seen, .pointer i :: rest => seen.contains i && ordered seen rest

theorem Call.checks_ordered (c : Call) : ordered [] c.checks = true := by cases c <;> rfl

theorem Call.slot_mem (c : Call) {i : Nat} : Check.slot i ∈ c.checks ↔ 1 ≤ i ∧ i < 1 + c.argc := by
  cases c <;> simp [Call.checks, Call.argc] <;> omega

theorem checksReach_of : ∀ {checks : List Check} {seen : List Nat}, ordered seen checks = true →
    (∀ i ∈ seen, Reaches pd pd.present (slotAt esp i) 4) →
    (∀ i, Check.slot i ∈ checks → pd.valid (slotAt esp i) = true →
      Reaches pd pd.present (slotAt esp i) 4) →
    ChecksReach pd m esp checks := by
  intro checks
  induction checks with
  | nil => exact fun _ _ _ => trivial
  | cons c rest ih =>
    intro seen hord hseen hslots
    have hrest : ∀ i, Check.slot i ∈ rest →
        pd.valid (slotAt esp i) = true → Reaches pd pd.present (slotAt esp i) 4 :=
      fun i hi => hslots i (mem_cons_of_mem _ hi)
    cases c with
    | slot i =>
      intro hv
      refine ih hord ?_ hrest
      intro j hj
      rcases mem_cons.mp hj with rfl | hj
      · exact hslots _ (mem_cons_self ..) hv
      · exact hseen j hj
    | pointer i =>
      unfold ordered at hord
      rw [Bool.and_eq_true, contains_iff_mem] at hord
      exact ⟨hseen i hord.1, fun _ => ih hord.2 hseen hrest⟩

/-- Checks that read mapped words and do not refuse pass. -/
theorem passes_of : ∀ {checks : List Check},
    ChecksReach pd m esp checks → ¬Refuses pd m esp checks → Passes pd m esp checks := by
  intro checks
  induction checks with
  | nil => exact fun _ _ => trivial
  | cons c rest ih =>
    cases c with
    | slot i =>
      intro hreach href
      have hv : pd.valid (slotAt esp i) = true := Bool.not_eq_false _ ▸ fun h => href (.inl h)
      exact ⟨hv, ih (hreach hv) fun h => href (.inr h)⟩
    | pointer i =>
      intro hreach href
      have hruns := hreach.1.runs
      have hv : pd.valid (argAt m esp i) = true :=
        Bool.not_eq_false _ ▸ fun h => href ⟨hruns, .inl h⟩
      exact ⟨hruns, hv, ih (hreach.2 hv) fun h => href ⟨hruns, .inr h⟩⟩

/-- The address that a check tests. -/
def Check.addr (m : Mem) (esp : Addr) : Check → Addr
  | .slot i => slotAt esp i
  | .pointer i => argAt m esp i

theorem Passes.valid : ∀ {checks : List Check},
    Passes pd m esp checks → ∀ c ∈ checks, pd.valid (c.addr m esp) = true := by
  intro checks
  induction checks with
  | nil => exact nofun
  | cons d rest ih =>
    intro hp c hc
    have hd : pd.valid (d.addr m esp) = true ∧ Passes pd m esp rest := by
      cases d with
      | slot i => exact hp
      | pointer i => exact hp.2
    rcases mem_cons.mp hc with rfl | hc
    · exact hd.1
    · exact ih hd.2 c hc

theorem onNames_congr {R R' : (Addr → Bool) → Addr → Nat → Prop} (h : ∀ Q n, R Q a n ↔ R' Q a n) :
    ∀ names, OnNames R pd a names ↔ OnNames R' pd a names := by
  intro names
  induction names with
  | nil => exact Iff.rfl
  | cons e rest ih =>
    unfold OnNames
    rw [h, ih]

/-- A call goes through its checked pointers only. -/
theorem Call.on_congr (c : Call) {R R' : (Addr → Bool) → Addr → Nat → Prop} {arg : Nat → Nat}
    (h : ∀ i, Check.pointer i ∈ c.checks → ∀ Q n, R Q (arg i) n ↔ R' Q (arg i) n) :
    c.On R k m arg ↔ c.On R' k m arg := by
  cases c
  case sysExec | sysCreate | sysRemove | sysMkdir | sysOpen | sysChdir =>
    have h1 := h 1 (by decide)
    simp only [Call.On, OnString, h1]
  case sysRead | sysWrite =>
    have h2 := h 2 (by decide)
    simp only [Call.On, h2]
  case sysReaddir =>
    have h2 := h 2 (by decide)
    refine forall_congr' fun f => forall_congr' fun _ => forall_congr' fun _ => ?_
    rcases nextEntry f.entries f.dirPos with ⟨_ | e, pos⟩
    · exact h2 _ _
    · exact onNames_congr h2 _
  all_goals exact Iff.rfl

/-- A system call is confined exactly when the process is refused, or
nothing that the call touches runs into a page that is not a mapped user
page. -/
theorem syscall_confined_iff (k : Kernel) (m : Mem) (esp : Nat) :
    Confined k m esp ↔ Refused k m esp ∨ Contained k m esp := by
  unfold Confined
  rw [handler_does.fails, handler_does.logs]
  refine or_congr_right' fun href => ?_
  -- not refused: the stack pointer is good
  have hv : k.pd.valid esp = true := Bool.not_eq_false _ ▸ fun h => href (.inl h)
  unfold Contained
  rw [forall_prop_of_true hv, ← reaches_iff_inside hv]
  refine and_congr_right fun hesp => forall_congr' fun c => forall_congr' fun hc => ?_
  have hrefuses : ¬Refuses k.pd m esp c.checks := fun h => href (.inr ⟨hesp.runs, c, hc, .inl h⟩)
  have hon : Passes k.pd m esp c.checks →
      (c.On (Reaches k.pd) k m (argAt m esp) ↔ c.On (Inside k.pd) k m (argAt m esp)) := fun hp =>
    c.on_congr fun i hi Q n => reaches_iff_inside (hp.valid _ hi)
  constructor
  · rintro ⟨hreach, hrest⟩
    have hp := passes_of hreach hrefuses
    obtain ⟨hargs, hcall⟩ := hrest hp
    refine ⟨fun i h1 h2 => ?_, (hon hp).mp hcall⟩
    exact (reaches_iff_inside (hp.valid _ (c.slot_mem.mpr ⟨h1, h2⟩))).mp (hargs i h1 h2)
  · rintro ⟨hargs, hcall⟩
    refine ⟨checksReach_of c.checks_ordered nofun ?_, fun hp => ⟨?_, ?_⟩⟩
    · intro i hi hvi
      obtain ⟨h1, h2⟩ := c.slot_mem.mp hi
      exact (reaches_iff_inside hvi).mpr (hargs i h1 h2)
    · intro i h1 h2
      exact (reaches_iff_inside (hp.valid _ (c.slot_mem.mpr ⟨h1, h2⟩))).mpr (hargs i h1 h2)
    · exact (hon hp).mpr hcall

/-- A process with one code page and one stack page, the last below
`PHYS_BASE`, and a file of two bytes open as descriptor 2. -/
def smallProcess : Kernel where
  pd :=
    { mapped := fun p => p == 0x8048 || p == 0xBFFFF
      writable := fun p => p == 0xBFFFF
      kernel := fun _ => true }
  files := [(2,
    { isdir := false
      pos := 0
      eof := 2
      length := 2
      diskLength := 2
      denyWrite := false
      content := fun _ => 0x41
      entries := []
      dirPos := 0 })]
  page := true
  page' := true
  bounce := true

/-- Four words at the bottom of the stack page. -/
def stackOf (w₀ w₁ w₂ w₃ : Nat) : Mem := fun a =>
  let w := [w₀, w₁, w₂, w₃].getD ((a - 0xBFFFF000) / 4) 0
  if a < 0xBFFFF000 then 0 else UInt8.ofNat (w / 256 ^ (a % 4))

/-- `read (2, 0xBFFFFFFF, 2)` writes the second byte over the kernel's
memory and returns; `write (1, 0x08048FFF, 2)` reads on into a page that
is not mapped, and the kernel panics. -/
theorem syscall_escapes : (¬Confined smallProcess (stackOf 8 2 0xBFFFFFFF 2) 0xBFFFF000 ∧
      Gives (syscallHandler smallProcess 0xBFFFF000)
        (stackOf 8 2 0xBFFFFFFF 2) ()
        (stored (stackOf 8 2 0xBFFFFFFF 2) 0xBFFFFFFF (fun _ => 0x41) 2)) ∧
    ¬Confined smallProcess (stackOf 9 1 0x08048FFF 2) 0xBFFFF000 ∧
      Fails (.fault 0x08049000) (syscallHandler smallProcess 0xBFFFF000)
        (stackOf 9 1 0x08048FFF 2) := by
  have hread : (syscallHandler smallProcess 0xBFFFF000
      (stackOf 8 2 0xBFFFFFFF 2)).result = .ok () := by rfl
  have hwrite : (syscallHandler smallProcess 0xBFFFF000
      (stackOf 9 1 0x08048FFF 2)).result = .error (.fault 0x08049000) := by
    rfl
  refine ⟨⟨?_, hread, rfl⟩, ?_, hwrite⟩
  · rintro (h | h)
    · unfold Fails at h
      simp [hread] at h
    · exact absurd (h 0xC0000000 (by decide +kernel)) (by decide)
  · rintro (h | h)
    · unfold Fails at h
      rw [hwrite] at h
      cases h
    · exact absurd (h 0x08049000 (by decide +kernel)) (by decide)

end Handler

end Pintos.Syscall
