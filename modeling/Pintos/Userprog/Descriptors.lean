/-
The descriptor tables of the processes.

`file_list` is the table: `open` appends the entry it made, with the
thread's next `fd`, and `close` takes out the first entry that has the
`fd` it is given. Beside the file system the state keeps what the code
does not: for every process, the entries its opens made, in order, and
the descriptors it closed. The invariant is that the table is the first
list less the second (`TableOk.table`), and that the opens gave out
2, 3, 4, … (`TableOk.fds`); which entry `get_file` finds follows.

Descriptors are natural numbers here. The counter of a process is two more
than the number of its successful opens, so that it is an `int` for up to
2 ^ 31 - 3 of them; a negative descriptor is in no table.
-/
import Pintos.Userprog.Handles
import Mathlib.Data.List.Nodup

namespace Pintos.Directory

open Transition Function Option

/-- `get_file`. -/
def Proc.getFile (pr : Proc) (fd : Nat) : Option FileInfo := pr.fileList.find? (fun f => f.fd == fd)

/-- The file system, and per process the entries made by `open` and the
descriptors closed. -/
structure Tables where
  fs : Fs
  opened : Nat → List FileInfo
  closed : Nat → List Nat

-- ==== the table of a process

/-- The table of a process that opened `opened` and closed `closed`. -/
structure TableOk (pr : Proc) (opened : List FileInfo) (closed : List Nat) : Prop where
  fd : pr.fd = opened.length + 2
  fds : opened.map FileInfo.fd = List.range' 2 opened.length
  table : pr.exited = false → pr.fileList = opened.filter fun f => decide (f.fd ∉ closed)
  old : ∀ fd ∈ closed, fd < pr.fd

namespace TableOk

variable {pr pr' : Proc} {opened : List FileInfo} {closed : List Nat} {f : FileInfo} {fd : Nat}

theorem fresh (hfd : pr.fd = 2) (hl : pr.fileList = []) : TableOk pr [] [] :=
  ⟨hfd, rfl, fun _ => hl, nofun⟩

variable (h : TableOk pr opened closed)

include h

theorem congr (hfd : pr'.fd = pr.fd)
    (hl : pr'.exited = false → pr.exited = false ∧ pr'.fileList = pr.fileList) :
    TableOk pr' opened closed :=
  ⟨hfd.trans h.fd, h.fds, fun he => (hl he).2.trans (h.table (hl he).1),
    fun n hn => hfd ▸ h.old n hn⟩

theorem nodup : (opened.map FileInfo.fd).Nodup := by
  rw [h.fds]
  exact List.nodup_range'

theorem bounds (hf : f ∈ opened) : 2 ≤ f.fd ∧ f.fd < pr.fd := by
  have hm := List.mem_map_of_mem (f := FileInfo.fd) hf
  rw [h.fds, List.mem_range'_1] at hm
  rw [h.fd]
  omega

theorem entry_eq {g : FileInfo} (hf : f ∈ opened) (hg : g ∈ opened) (he : f.fd = g.fd) : f = g :=
  List.inj_on_of_nodup_map h.nodup hf hg he

/-- The linear search finds the entry that the open of `fd` made, as long
as `fd` is not closed. -/
theorem getFile_iff (he : pr.exited = false) :
    pr.getFile fd = some f ↔ f ∈ opened ∧ f.fd = fd ∧ fd ∉ closed := by
  unfold Proc.getFile
  rw [h.table he]
  constructor
  · intro hf
    have hm := List.mem_filter.mp (List.mem_of_find?_eq_some hf)
    have hfd : f.fd = fd := by simpa using List.find?_some hf
    exact ⟨hm.1, hfd, hfd ▸ of_decide_eq_true hm.2⟩
  · intro hf
    obtain ⟨hm, rfl, hc⟩ := hf
    have hmem : f ∈ opened.filter fun f => decide (f.fd ∉ closed) :=
      List.mem_filter.mpr ⟨hm, decide_eq_true hc⟩
    cases hfind : (opened.filter fun f => decide (f.fd ∉ closed)).find? (fun g => g.fd == f.fd) with
    | none =>
      have := List.find?_eq_none.mp hfind f hmem
      simp at this
    | some g =>
      have hg := List.mem_filter.mp (List.mem_of_find?_eq_some hfind)
      have hgf : g.fd = f.fd := by simpa using List.find?_some hfind
      rw [h.entry_eq hg.1 hm hgf]

theorem push (file : Nat) (dir : Option Nat) :
    TableOk (pr.opened (.fd file dir)) (opened ++ [⟨pr.fd, file, dir⟩]) closed := by
  have hnew : pr.fd ∉ closed := fun hm => Nat.lt_irrefl _ (h.old _ hm)
  refine ⟨?_, ?_, fun he => ?_, fun n hn => Nat.lt_succ_of_lt (h.old n hn)⟩
  · simp [Proc.opened, h.fd]
  · rw [List.map_append, h.fds, List.length_append, List.length_singleton, List.range'_concat, h.fd]
    simp [Nat.add_comm]
  · show pr.fileList ++ _ = _
    rw [h.table he, List.filter_append, List.filter_cons_of_pos (by simpa)]
    rfl

theorem close (he : pr.exited = false) (hf : pr.getFile fd = some f) :
    TableOk { pr with fileList := pr.fileList.erase f } opened (fd :: closed) := by
  obtain ⟨hm, rfl, hc⟩ := (h.getFile_iff he).mp hf
  refine ⟨h.fd, h.fds, fun _ => ?_, fun n hn => ?_⟩
  · have hnd : (opened.filter fun f => decide (f.fd ∉ closed)).Nodup :=
      (List.Nodup.of_map _ h.nodup).filter _
    rw [h.table he, hnd.erase_eq_filter, List.filter_filter]
    refine List.filter_congr fun g hg => ?_
    have hiff : g = f ↔ g.fd = f.fd := ⟨congrArg _, h.entry_eq hg hm⟩
    simp [bne, beq_eq_decide, List.mem_cons, hiff]
  · rcases List.mem_cons.mp hn with rfl | hn
    · exact (h.bounds hm).2
    · exact h.old n hn

end TableOk

-- ==== the system

namespace Tables

def table (x : Fs) (p : Nat) : List FileInfo := ((x.procs[p]?).map Proc.fileList).getD []

/-- One call, and the history after it: an `open` adds the entry it put at
the end of the table, if any, and a `close` that finds its entry the
descriptor. -/
def step (a : Act) (t : Tables) : Option Tables :=
  (Fs.step a t.fs).map fun x => match a with
    | .open p _ _ =>
      { t with
        fs := x
        opened := update t.opened p (t.opened p ++ (table x p).drop (table t.fs p).length) }
    | .close p fd =>
      { t with
        fs := x
        closed := update t.closed p
          (if ((t.fs.proc p).bind (·.getFile fd)).isSome
            then fd :: t.closed p else t.closed p) }
    | _ => { t with fs := x }

def Started (t : Tables) : Prop := t.fs.Mounted ∧ (∀ p, t.opened p = []) ∧ ∀ p, t.closed p = []

def Ok (t : Tables) : Prop :=
  ∀ p, match t.fs.procs[p]? with
    | some pr => TableOk pr (t.opened p) (t.closed p)
    | none => t.opened p = [] ∧ t.closed p = []

variable {t t' : Tables} {a : Act} {p q : Nat} {pr pr' : Proc} {v : Vol}

theorem Ok.proc (h : t.Ok) (hp : t.fs.proc p = some pr) :
    t.fs.procs[p]? = some pr ∧ pr.exited = false ∧ TableOk pr (t.opened p) (t.closed p) := by
  obtain ⟨hp, he⟩ := Fs.proc_some hp
  have := h p
  rw [hp] at this
  exact ⟨hp, he, this⟩

/-- A process `p` with another table and another history; all else as it
was. -/
theorem Ok.setProc (h : t.Ok) {op : List FileInfo} {cl : List Nat} (hp : t.fs.procs[p]? = some pr)
    (hx : t'.fs = t.fs.setProc p pr' v) (hop : t'.opened = update t.opened p op)
    (hcl : t'.closed = update t.closed p cl) (hok : TableOk pr' op cl) : t'.Ok := by
  intro q
  rw [hx, hop, hcl]
  by_cases hq : q = p
  · subst hq
    rw [Fs.procs_setProc hp, update_self, update_self]
    exact hok
  · rw [update_of_ne hq, update_of_ne hq]
    have hget : (t.fs.setProc p pr' v).procs[q]? = t.fs.procs[q]? :=
      List.getElem?_set_ne (Ne.symm hq)
    rw [hget]
    exact h q

theorem Ok.keep (h : t.Ok) (hp : t.fs.procs[p]? = some pr)
    (hok : TableOk pr' (t.opened p) (t.closed p)) : Ok { t with fs := t.fs.setProc p pr' v } :=
  h.setProc hp rfl (update_eq_self ..).symm (update_eq_self ..).symm hok

theorem Ok.exit (h : t.Ok) (hp : t.fs.proc p = some pr) :
    Ok { t with fs := t.fs.exitProc p pr } := by
  obtain ⟨hp', -, hok⟩ := h.proc hp
  refine h.keep hp' (hok.congr rfl fun he => ?_)
  cases he

variable {path : Path} {o : Choices} {fd : Nat}

theorem Ok.opens (h : t.Ok) (hs : t.step (.open p path o) = some t') : t'.Ok := by
  obtain ⟨x, hx, rfl⟩ := map_eq_some_iff.mp hs
  obtain ⟨pr, hp, hx⟩ := bind_eq_some_iff.mp hx
  obtain ⟨⟨r, v⟩, -, hx⟩ := bind_eq_some_iff.mp hx
  cases hx
  obtain ⟨hp', -, hok⟩ := h.proc hp
  refine h.setProc hp' rfl rfl (update_eq_self ..).symm ?_
  simp only [table, Fs.procs_setProc hp', hp', map_some, getD_some]
  cases r with
  | fd file dir => simpa [Proc.opened] using hok.push file dir
  | _ =>
    rw [Proc.opened, List.drop_length, List.append_nil]
    exact hok.congr rfl fun he => ⟨he, rfl⟩

theorem Ok.closes (h : t.Ok) (hs : t.step (.close p fd) = some t') : t'.Ok := by
  obtain ⟨x, hx, rfl⟩ := map_eq_some_iff.mp hs
  obtain ⟨pr, hp, hx⟩ := bind_eq_some_iff.mp hx
  obtain ⟨hp', he, hok⟩ := h.proc hp
  split at hx
  next hnone =>
    cases hx
    have hf : pr.getFile fd = none := hnone
    simp only [hp, bind_some, hf, isSome_none]
    exact h.setProc hp' rfl (update_eq_self ..).symm rfl (hok.congr rfl nofun)
  next f hf =>
    cases hx
    have hf' : pr.getFile fd = some f := hf
    simp only [hp, bind_some, hf', isSome_some, if_true]
    exact h.setProc hp' rfl (update_eq_self ..).symm rfl (hok.close he hf')

theorem Ok.step (h : t.Ok) (hs : t.step a = some t') : t'.Ok := by
  cases a with
  | «open» p path o => exact h.opens hs
  | close p fd => exact h.closes hs
  | create p path size isdir o | remove p path o =>
    obtain ⟨x, hx, rfl⟩ := map_eq_some_iff.mp hs
    obtain ⟨pr, -, hx⟩ := bind_eq_some_iff.mp hx
    obtain ⟨r, -, hx⟩ := bind_eq_some_iff.mp hx
    cases hx
    exact h
  | chdir p path o =>
    obtain ⟨x, hx, rfl⟩ := map_eq_some_iff.mp hs
    obtain ⟨pr, hp, hx⟩ := bind_eq_some_iff.mp hx
    obtain ⟨⟨r, v⟩, -, hx⟩ := bind_eq_some_iff.mp hx
    obtain ⟨hp', -, hok⟩ := h.proc hp
    cases r with
    | none =>
      cases hx
      exact h
    | some d =>
      cases hx
      exact h.keep hp' (hok.congr rfl fun he => ⟨he, rfl⟩)
  | exec p path o =>
    obtain ⟨x, hx, rfl⟩ := map_eq_some_iff.mp hs
    obtain ⟨pr, -, hx⟩ := bind_eq_some_iff.mp hx
    obtain ⟨⟨⟨cwd, file⟩, v⟩, -, hx⟩ := bind_eq_some_iff.mp hx
    cases hx
    intro q
    have hq := h q
    rcases Nat.lt_trichotomy q t.fs.procs.length with hlt | rfl | hgt
    · simpa [List.getElem?_append_left hlt] using hq
    · simp only [List.getElem?_eq_none (Nat.le_refl _)] at hq
      simp only [List.getElem?_concat_length, hq.1, hq.2]
      cases file <;> exact TableOk.fresh rfl rfl
    · have hlen : (t.fs.procs ++ [Proc.started (cwd, file)]).length ≤ q := by
        simpa using Nat.succ_le_of_lt hgt
      rw [List.getElem?_eq_none (Nat.le_of_lt hgt)] at hq
      simpa only [List.getElem?_eq_none hlen] using hq
  | exit p =>
    obtain ⟨x, hx, rfl⟩ := map_eq_some_iff.mp hs
    obtain ⟨pr, hp, hx⟩ := bind_eq_some_iff.mp hx
    cases hx
    exact h.exit hp
  | contents s n =>
    obtain ⟨x, hx, rfl⟩ := map_eq_some_iff.mp hs
    cases hx
    exact h

theorem ok_reachable (hr : Reach Started step anyStep t) : t.Ok := by
  refine Reach.induct ?_ (fun _ _ _ _ h _ hs => h.step hs) t hr
  intro t hb p
  obtain ⟨hm, hop, hcl⟩ := hb
  rw [hop, hcl]
  split
  next pr hp =>
    rw [hm.procs pr (List.mem_of_getElem? hp)]
    exact TableOk.fresh rfl rfl
  next => exact ⟨rfl, rfl⟩

/-- An open or a close of one process leaves the others as they are. -/
theorem procs_other (ha : a = .open p path o ∨ a = .close p fd) (hs : t.step a = some t')
    (hq : q ≠ p) : t'.fs.procs[q]? = t.fs.procs[q]? := by
  have hset : ∀ pr' v, (t.fs.setProc p pr' v).procs[q]? = t.fs.procs[q]? :=
    fun pr' v => List.getElem?_set_ne (Ne.symm hq)
  rcases ha with rfl | rfl
  · obtain ⟨x, hx, rfl⟩ := map_eq_some_iff.mp hs
    obtain ⟨pr, -, hx⟩ := bind_eq_some_iff.mp hx
    obtain ⟨⟨r, v⟩, -, hx⟩ := bind_eq_some_iff.mp hx
    cases hx
    exact hset _ v
  · obtain ⟨x, hx, rfl⟩ := map_eq_some_iff.mp hs
    obtain ⟨pr, -, hx⟩ := bind_eq_some_iff.mp hx
    split at hx <;> cases hx <;> exact hset _ _

/-- The table of a process in any state of any run, after any number of
opens and closes by any processes. -/
theorem descriptor_table (hr : Reach Started step anyStep t) (hp : t.fs.proc p = some pr) :
    (pr.fileList.map FileInfo.fd).Nodup ∧
      (∀ f ∈ pr.fileList, 2 ≤ f.fd ∧ f.fd < pr.fd) ∧
      pr.fd = (t.opened p).length + 2 ∧
      ((t.opened p).map FileInfo.fd).Nodup ∧
      (∀ fd f, pr.getFile fd = some f ↔ f ∈ t.opened p ∧ f.fd = fd ∧ fd ∉ t.closed p) ∧
      (∀ q path o fd a t', a = .open q path o ∨ a = .close q fd →
        t.step a = some t' → p ≠ q →
        t'.fs.procs[p]? = t.fs.procs[p]?) := by
  obtain ⟨-, he, hok⟩ := (ok_reachable hr).proc hp
  have hsub : pr.fileList.Sublist (t.opened p) := by
    rw [hok.table he]
    exact List.filter_sublist
  refine ⟨(hsub.map _).nodup hok.nodup, fun f hf => hok.bounds (hsub.subset hf), hok.fd, hok.nodup,
    fun fd f => hok.getFile_iff he, ?_⟩
  intro q path o fd a t' ha hs hne
  exact procs_other ha hs hne

def start (n : Nat) : Tables := ⟨Fs.formatted n, fun _ => [], fun _ => []⟩

/-- A file is created and opened three times, and the second descriptor is
closed. -/
theorem descriptor_table_after_close :
    ∃ t pr, Reach Started step anyStep t ∧ t.fs.proc 0 = some pr ∧
      pr.getFile 3 = none ∧ (pr.getFile 4).isSome ∧ pr.fd = 5 ∧
      (pr.fileList.map FileInfo.fd).Nodup ∧
      (∀ f ∈ pr.fileList, 2 ≤ f.fd ∧ f.fd < pr.fd) ∧
      ∀ fd f, pr.getFile fd = some f ↔ f ∈ t.opened 0 ∧ f.fd = fd ∧ fd ∉ t.closed 0 := by
  have h0 : Reach Started step anyStep (start 1) :=
    .init ⟨Fs.formatted_mounted 1, fun _ => rfl, fun _ => rfl⟩
  obtain ⟨t, hr, pr, hp, h3, h4, hfd⟩ := h0.of_runAll
    [.create 0 ['a'] 30 false ⟨[], [4, 5]⟩, .open 0 ['a'] ⟨[], []⟩,
      .open 0 ['a'] ⟨[], []⟩, .open 0 ['a'] ⟨[], []⟩, .close 0 3]
    (fun t => ∃ pr ∈ t.fs.proc 0, pr.getFile 3 = none ∧ (pr.getFile 4).isSome ∧ pr.fd = 5)
    (by decide)
  obtain ⟨h1, h2, -, -, h5, -⟩ := descriptor_table hr hp
  exact ⟨t, pr, hr, hp, h3, h4, hfd, h1, h2, h5⟩

end Tables

end Pintos.Directory
