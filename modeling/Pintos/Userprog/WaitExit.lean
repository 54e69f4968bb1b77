/-
The wait/exit protocol over every interleaving of the process system:
what `process_wait` returns, and when a `struct thread` is freed.

# Method

`Hist` says that the log of events tells the truth about the records;
`Keeps` is the frame of one record that the history looks at. With the
invariant of the links, every clause of the protocol is read off a
single state.
-/
import Mathlib.Logic.Relation
import Pintos.Lib.Transition
import Pintos.Userprog.Protocol

namespace Pintos.Process

open Transition List Option

-- ==== the history

/-- The status a thread exits with, once it is on its way out. -/
def Proc.fate (y : Proc) : Option Int :=
  if y.point.phase = .exiting ∨ y.point.phase.past then some y.exitStatus
  else none

/-- What the history sees of a record stays. -/
structure Keeps (y y' : Proc) : Prop where
  fate : y'.fate = y.fate
  freed : y'.point = .freed ↔ y.point = .freed
  past : y.point.phase.past → y'.point.phase.past ∧ y'.tid = y.tid ∧
    y'.creator = y.creator ∧ y'.byExec = y.byExec

variable {y y' : Proc}

theorem Keeps.of_base (hb : Sys.SameBase y y') (htid : y'.tid = y.tid)
    (hstatus : y'.exitStatus = y.exitStatus) : Keeps y y' := by
  refine ⟨?_, ?_, ?_⟩
  · unfold Proc.fate
    rw [hb.point, hstatus]
  · rw [hb.point]
  · intro h
    rw [hb.point]
    exact ⟨h, htid, hb.creator, hb.byExec⟩

/-- Before `thread_exit` the history sees nothing. -/
theorem Keeps.of_early (hy : y.point.phase = .live ∨ y.point.phase = .loading)
    (hy' : y'.point.phase = .live ∨ y'.point.phase = .loading) : Keeps y y' := by
  have hnone {z : Proc} (hz : z.point.phase = .live ∨ z.point.phase = .loading) :
      ¬(z.point.phase = .exiting ∨ z.point.phase.past) := by
    unfold Phase.past
    rcases hz with hz | hz <;> rw [hz] <;> simp
  have hfreed : ∀ {z : Proc},
      z.point.phase = .live ∨ z.point.phase = .loading → z.point ≠ .freed := by
    intro z hz he
    rw [he] at hz
    rcases hz with hz | hz <;> cases hz
  refine ⟨?_, ?_, ?_⟩
  · unfold Proc.fate
    rw [if_neg (hnone hy), if_neg (hnone hy')]
  · exact iff_of_false (hfreed hy') (hfreed hy)
  · exact fun h => absurd (.inr h) (hnone hy)

/-- Inside the loop of `thread_exit` over the children. -/
theorem Keeps.of_exiting (hy : y.point.phase = .exiting) (hy' : y'.point.phase = .exiting)
    (hst : y'.exitStatus = y.exitStatus) : Keeps y y' := by
  have hfreed : ∀ {z : Proc}, z.point.phase = .exiting → z.point ≠ .freed := by
    intro z hz he
    rw [he] at hz
    cases hz
  refine ⟨?_, iff_of_false (hfreed hy') (hfreed hy), ?_⟩
  · unfold Proc.fate
    rw [hy, hy', hst]
  · rw [hy]
    rintro (h | h) <;> cases h

namespace Sys

/-- The log tells the truth about the records. -/
structure Hist (s : Sys) : Prop where
  exited : ∀ t st, .exited t st ∈ s.log ↔ (s.proc t).fate = some st
  reaped : ∀ p pid r, .waitReturned p pid r ∈ s.log → ∃ c, c < s.count ∧
    (s.proc c).creator = p ∧ (s.proc c).byExec = true ∧
    (s.proc c).tid = pid ∧ pid ≠ tidError ∧ (s.proc c).point.phase.past ∧
    (s.proc c).exitStatus = r ∧ 1 ≤ raises c s.log
  frees : ∀ t, s.log.count (.pageFreed t) =
    if (s.proc t).point = .freed then 1 else 0

variable {s s' : Sys} {p c : ThreadId} {pid : Int}

section

variable (hh : Hist s)

include hh

theorem Hist.frame (hlog : s'.log = s.log) (hcount : s.count ≤ s'.count)
    (hkeep : ∀ t, Keeps (s.proc t) (s'.proc t)) : Hist s' := by
  refine ⟨?_, ?_, ?_⟩
  · intro t st
    rw [hlog, (hkeep t).fate]
    exact hh.exited t st
  · intro p pid r he
    rw [hlog] at he ⊢
    obtain ⟨c, hc, hcr, hex, htid, hne, hpast, hst, hr⟩ := hh.reaped p pid r he
    obtain ⟨hpast', htid', hcr', hex'⟩ := (hkeep c).past hpast
    have hfate := (hkeep c).fate
    unfold Proc.fate at hfate
    rw [if_pos (Or.inr hpast), if_pos (.inr hpast')] at hfate
    exact ⟨c, Nat.lt_of_lt_of_le hc hcount, hcr'.trans hcr, hex'.trans hex,
      htid'.trans htid, hne, hpast', (some.inj hfate).trans hst, hr⟩
  · intro t
    rw [hlog, hh.frees t]
    simp only [(hkeep t).freed]

theorem Hist.mod {t : ThreadId} {f : Proc → Proc}
    (hkeep : Keeps (s.proc t) (f (s.proc t))) : Hist (s.mod t f) := by
  refine hh.frame rfl (Nat.le_refl _) fun u => ?_
  by_cases hu : u = t
  · rw [hu, mod_self]
    exact hkeep
  · rw [mod_ne s f hu]
    exact .of_base ⟨rfl, rfl, rfl, rfl, rfl⟩ rfl rfl

/-- A step of `p` on its child `c`. -/
theorem Hist.pair {f g : Proc → Proc} (hne : p ≠ c) (hg : Keeps (s.proc c) (g (s.proc c)))
    (hf : Keeps (s.proc p) (f (s.proc p))) : Hist ((s.mod c g).mod p f) := by
  refine (hh.mod hg).mod ?_
  rw [mod_ne s g hne]
  exact hf

/-- A raise, or a refused wait, is no news about the records. -/
theorem Hist.emit {e : Event}
    (he : (∃ c who, e = .raised c who) ∨ ∃ p pid, e = .waitRefused p pid) :
    Hist (s.emit e) := by
  have hne : (∀ t st, e ≠ .exited t st) ∧ (∀ p pid r, e ≠ .waitReturned p pid r) ∧
      ∀ t, e ≠ .pageFreed t := by
    rcases he with ⟨c, who, rfl⟩ | ⟨p, pid, rfl⟩ <;> simp
  refine ⟨?_, ?_, ?_⟩
  · intro t st
    refine Iff.trans ?_ (hh.exited t st)
    exact ⟨fun h => (mem_cons.mp h).resolve_left (hne.1 t st).symm, mem_cons_of_mem _⟩
  · intro p pid r h
    obtain ⟨c, hc, h1, h2, h3, h4, h5, h6, h7⟩ := hh.reaped p pid r
      ((mem_cons.mp h).resolve_left (hne.2.1 p pid r).symm)
    refine ⟨c, hc, h1, h2, h3, h4, h5, h6, Nat.le_trans h7 ?_⟩
    show raises c s.log ≤ raises c (e :: s.log)
    rw [raises_cons]
    exact Nat.le_add_right _ _
  · intro t
    exact (count_cons_of_ne (hne.2.2 t)).trans (hh.frees t)

theorem Hist.enterExit (status : Int) (hlive : (s.proc p).point.phase = .live) :
    Hist (s.enterExit p status) := by
  have hold : (s.proc p).fate = none := by
    unfold Proc.fate
    rw [hlive]
    rfl
  have hother : ∀ t, t ≠ p → (s.enterExit p status).proc t = s.proc t := fun t ht => if_neg ht
  have hself : (s.enterExit p status).proc p = { s.proc p with
      exitStatus := status, point := .exitKids } := if_pos rfl
  refine ⟨?_, ?_, ?_⟩
  · intro t st
    show .exited t st ∈ .exited p status :: s.log ↔ _
    rw [mem_cons, hh.exited]
    by_cases ht : t = p
    · rw [ht, hself, hold]
      simp [Proc.fate, Point.phase, eq_comm]
    · rw [hother t ht]
      simp [ht]
  · intro q pid r h
    obtain ⟨c, hc, h1, h2, h3, h4, h5, h6, h7⟩ := hh.reaped q pid r
      ((mem_cons.mp h).resolve_left (by simp))
    have hcp : c ≠ p := by
      rintro rfl
      rw [hlive] at h5
      rcases h5 with h5 | h5 <;> cases h5
    rw [← hother c hcp] at h1 h2 h3 h5 h6
    exact ⟨c, hc, h1, h2, h3, h4, h5, h6, h7⟩
  · intro t
    refine (count_cons_of_ne (by simp)).trans ((hh.frees t).trans ?_)
    by_cases ht : t = p
    · rw [ht, hself, if_neg (by rintro he; rw [he] at hlive; cases hlive)]
      rfl
    · rw [hother t ht]

theorem Hist.scheduleTail (hpt : (s.proc p).point = .dying)
    (hs : s.scheduleTail p = some s') : Hist s' := by
  obtain ⟨-, ⟨⟩⟩ := ite_none_left_eq_some.mp hs
  have hself : ((s.goto p .freed).emit (.pageFreed p)).proc p =
      { s.proc p with point := .freed } := if_pos rfl
  have hother : ∀ t, t ≠ p → ((s.goto p .freed).emit (.pageFreed p)).proc t = s.proc t :=
    fun t ht => if_neg ht
  refine ⟨?_, ?_, ?_⟩
  · intro t st
    show .exited t st ∈ .pageFreed p :: s.log ↔ _
    rw [mem_cons, hh.exited]
    by_cases ht : t = p
    · rw [ht, hself]
      unfold Proc.fate
      rw [hpt]
      simp [Point.phase, Phase.past]
    · rw [hother t ht]
      simp
  · intro q pid r h
    obtain ⟨c, hc, h1, h2, h3, h4, h5, h6, h7⟩ := hh.reaped q pid r
      ((mem_cons.mp h).resolve_left (by simp))
    refine ⟨c, hc, ?_⟩
    by_cases hcp : c = p
    · rw [hcp, hself]
      rw [hcp] at h1 h2 h3 h6 h7
      exact ⟨h1, h2, h3, h4, .inr rfl, h6, h7⟩
    · rw [hother c hcp]
      exact ⟨h1, h2, h3, h4, h5, h6, h7⟩
  · intro t
    show List.count _ (.pageFreed p :: s.log) = _
    by_cases ht : t = p
    · rw [ht, hself, count_cons_self, hh.frees, hpt]
      rfl
    · rw [hother t ht, count_cons_of_ne (by simpa using Ne.symm ht)]
      exact hh.frees t

theorem Hist.waitReap {r : Int} (hi : Inv s)
    (hpt : (s.proc p).point = .onChild c (.waitReap pid r)) :
    Hist (s.waitReap p c pid r) := by
  obtain ⟨hcp, hlt, hcc⟩ := hi.owns p c (holds_of_point hpt)
  have hl := hi.linkAt hpt
  have hne : c ≠ p := (Nat.ne_of_lt hlt).symm
  obtain ⟨hpast, hr⟩ := hl.result pid r rfl
  obtain ⟨-, htid, hok⟩ := hl.waits _ pid rfl rfl
  have h := (hh.pair (f := fun x => { x with
      childList := x.childList.erase c, point := .running })
    (g := fun y => { y with exitMutex := y.exitMutex + 1 }) hne.symm
    (.of_base ⟨rfl, rfl, rfl, rfl, rfl⟩ rfl rfl)
    (.of_early (by rw [hpt]; exact .inl rfl) (.inl rfl))).emit
    (e := .raised c (.wait p)) (.inl ⟨_, _, rfl⟩)
  have hproc : (s.waitReap p c pid r).proc c =
      { s.proc c with exitMutex := (s.proc c).exitMutex + 1 } := by
    show (if c = p then _ else if c = c then _ else _) = _
    rw [if_neg hne, if_pos rfl]
  refine ⟨?_, ?_, ?_⟩
  · intro t st
    refine Iff.trans ?_ (h.exited t st)
    exact ⟨fun hm => (mem_cons.mp hm).resolve_left (by simp), mem_cons_of_mem _⟩
  · intro q pid' r' hm
    rcases mem_cons.mp hm with hm | hm
    · injection hm with hq hpid hr'
      refine ⟨c, hcc, ?_⟩
      rw [hproc, hq, hpid, hr']
      refine ⟨hcp, hl.exec (hl.mem _ rfl rfl), htid, hok, hpast, hr.symm, ?_⟩
      show 1 ≤ raises c (.waitReturned p pid r :: .raised c (.wait p) :: s.log)
      rw [raises_cons, raises_cons, if_pos (show Event.raises c (.raised c (.wait p)) = true by
          simp [Event.raises])]
      omega
    · obtain ⟨d, hd, h1, h2, h3, h4, h5, h6, h7⟩ := h.reaped q pid' r' hm
      refine ⟨d, hd, h1, h2, h3, h4, h5, h6, ?_⟩
      show 1 ≤ raises d (.waitReturned p pid r :: .raised c (.wait p) :: s.log)
      rw [raises_cons]
      exact Nat.le_trans h7 (Nat.le_add_right _ _)
  · intro t
    exact (count_cons_of_ne (by simp)).trans (h.frees t)

/-- Every step of the process system keeps the log truthful. -/
theorem Hist.move {a : Act} (hi : Inv s) (hm : Move s a s') : Hist s' := by
  have hbase : ∀ {y y' : Proc}, SameBase y y' → y'.tid = y.tid →
      y'.exitStatus = y.exitStatus → Keeps y y' := .of_base
  cases hm with
  | enter a p ce hpt => exact hh.mod (.of_early (by rw [hpt]; exact .inl rfl) (.inl rfl))
  | alloc p ok hpt =>
    have hold : (s.proc p).point.phase = .live := hpt ▸ rfl
    cases ok with
    | false =>
      unfold Sys.alloc
      rw [if_neg Bool.false_ne_true]
      exact hh.mod (.of_early (.inl hold) (.inl rfl))
    | true =>
      have hb := alloc_birth (hi.born (p := p) (by rw [hpt]; simp))
      refine hh.frame hb.log (by rw [hb.count]; exact Nat.le_succ _) fun t => ?_
      by_cases htp : t = p
      · rw [htp, hb.self]
        exact .of_early (.inl hold) (.inl rfl)
      · by_cases htc : t = s.count
        · rw [htc, hb.new]
          refine .of_early (.inl ?_) ?_
          · rw [(hi.unborn _ (Nat.le_refl _)).1]
            rfl
          · unfold initThread
            simp only
            split
            · exact .inr rfl
            · exact .inl rfl
        · rw [hb.old t htp htc]
          exact hbase ⟨rfl, rfl, rfl, rfl, rfl⟩ rfl rfl
  | load c ok hpt =>
    have hold : (s.proc c).point.phase = .loading := hpt ▸ rfl
    unfold Sys.load
    split
    · exact hh.mod (.of_early (.inr hold) (.inl rfl))
    · exact hh.mod (.of_early (.inr hold) (.inr rfl))
  | wait p pid hpt =>
    unfold Sys.processWait
    split
    case h_1 => exact hh.emit (.inr ⟨_, _, rfl⟩)
    case h_2 c hc =>
      split
      case isTrue => exact hh.emit (.inr ⟨_, _, rfl⟩)
      case isFalse =>
        have hlt := (hi.owns p c (.inl (findChild_eq hc).1)).2.1
        exact hh.pair (Nat.ne_of_lt hlt) (hbase ⟨rfl, rfl, rfl, rfl, rfl⟩ rfl rfl)
          (.of_early (by rw [hpt]; exact .inl rfl) (.inl rfl))
  | enterExit a p status hpt =>
    refine hh.enterExit status ?_
    rcases hpt with hpt | hpt <;> rw [hpt] <;> rfl
  | listChild p c hpt =>
    have hold : (s.proc p).point.phase = .live := hpt ▸ rfl
    unfold Sys.listChild
    split <;> exact hh.mod (.of_early (.inl hold) (.inl rfl))
  | loadDown p c s' hpt hs =>
    obtain ⟨-, hs⟩ := ite_none_right_eq_some.mp hs
    refine some.inj hs ▸ hh.pair (Nat.ne_of_lt (hi.owns p c (holds_of_point hpt)).2.1)
      (hbase ⟨rfl, rfl, rfl, rfl, rfl⟩ rfl rfl) (.of_early (by rw [hpt]; exact .inl rfl) (.inl rfl))
  | checkLoad p c hpt =>
    have hold : (s.proc p).point.phase = .live := hpt ▸ rfl
    unfold Sys.checkLoad
    split <;> exact hh.mod (.of_early (.inl hold) (.inl rfl))
  | createReturn p c hpt => exact hh.mod (.of_early (by rw [hpt]; exact .inl rfl) (.inl rfl))
  | waitDown p c pid s' hpt hs =>
    obtain ⟨-, hs⟩ := ite_none_right_eq_some.mp hs
    refine some.inj hs ▸ hh.pair (Nat.ne_of_lt (hi.owns p c (holds_of_point hpt)).2.1)
      (hbase ⟨rfl, rfl, rfl, rfl, rfl⟩ rfl rfl) (.of_early (by rw [hpt]; exact .inl rfl) (.inl rfl))
  | waitRead p c pid hpt => exact hh.mod (.of_early (by rw [hpt]; exact .inl rfl) (.inl rfl))
  | waitReap p c pid r hpt => exact hh.waitReap hi hpt
  | loadFailed p hpt => exact hh.mod (.of_early (by rw [hpt]; exact .inr rfl) (.inl rfl))
  | exitKids p hpt =>
    unfold Sys.exitKids
    cases hl : (s.proc p).childList with
    | nil => exact hh.mod (.of_exiting (hpt ▸ rfl) rfl rfl)
    | cons c rest =>
      have hlt := (hi.owns p c (.inl (hl ▸ mem_cons_self ..))).2.1
      refine (hh.pair (Nat.ne_of_lt hlt) (hbase ⟨rfl, rfl, rfl, rfl, rfl⟩ rfl rfl)
        (.of_exiting (hpt ▸ rfl) rfl rfl)).emit (.inl ⟨_, _, rfl⟩)
  | exitNotify p hpt =>
    refine hh.mod ⟨?_, ?_, ?_⟩
    · unfold Proc.fate
      rw [hpt]
      rfl
    · rw [hpt]
      simp
    · rw [hpt]
      rintro (h | h) <;> cases h
  | exitDown p s' hpt hs =>
    obtain ⟨-, hs⟩ := ite_none_right_eq_some.mp hs
    refine some.inj hs ▸ hh.mod ⟨?_, ?_, ?_⟩
    · unfold Proc.fate
      rw [hpt]
      rfl
    · rw [hpt]
      simp
    · exact fun _ => ⟨.inr rfl, rfl, rfl, rfl⟩
  | scheduleTail p s' hpt hs => exact hh.scheduleTail hpt hs

end

theorem hist_boot : Hist boot := by
  have hphase t : (boot.proc t).point.phase = .live := by
    unfold boot
    simp only
    split <;> rfl
  refine ⟨?_, ?_, ?_⟩
  · intro t st
    unfold Proc.fate
    rw [hphase]
    exact iff_of_false (not_mem_nil) (by simp [Phase.past])
  · intro q pid r h
    cases h
  · intro t
    rw [if_neg]
    · rfl
    · intro h
      have := hphase t
      rw [h] at this
      cases this

theorem reachable_inv {ok : Act → Sys → Prop} (hr : Reach Booted step ok s) : Inv s ∧ Hist s := by
  refine Reach.induct (P := fun s => Inv s ∧ Hist s) ?_ ?_ s hr
  · rintro s rfl
    exact ⟨inv_boot, hist_boot⟩
  · intro a s s' _ hi _ hs
    have hm := step_move hs
    exact ⟨hi.1.move hm, hi.2.move hi.1 hm⟩

-- ==== what it is for

/-- The wait/exit protocol in one state. -/
structure WaitExitSafe (s : Sys) : Prop where
  /-- A `process_wait` that reaped returned the status its child exited
  with. -/
  result : ∀ p pid r, .waitReturned p pid r ∈ s.log →
    ∃ c, (s.proc c).creator = p ∧ (s.proc c).byExec = true ∧
      (s.proc c).tid = pid ∧ .exited c r ∈ s.log ∧
      ∀ st, .exited c st ∈ s.log → st = r
  /-- A killed thread exits with -1. -/
  killed : ∀ p s', s.step (.kill p) = some s' → .exited p (-1) ∈ s'.log
  /-- A loaded child stays listed until its `exit_mutex` is raised. -/
  listed : ∀ p c, c < s.count → (s.proc c).creator = p → (s.proc c).byExec = true →
    (s.proc c).tid ≠ tidError → (s.proc p).point = .running → raises c s.log = 0 →
    c ∈ (s.proc p).childList
  /-- The first wait for a listed child is not refused: it comes to its
  `sema_down`. -/
  first : ∀ p c, c ∈ (s.proc p).childList → (s.proc p).point = .running →
    ∃ s', s.step (.wait p (s.proc c).tid) = some s' ∧ s'.log = s.log ∧
      (s'.proc p).point = .onChild c (.waitDown (s.proc c).tid)
  /-- Once the child has exited, the wait comes back with its status. -/
  returns : ∀ p c pid, (s.proc p).point = .onChild c (.waitDown pid) →
    (s.proc c).point = .exitWait →
    ∃ s', runAll step [.go p, .go p, .go p] s = some s' ∧
      s'.log = .waitReturned p pid (s.proc c).exitStatus :: .raised c (.wait p) :: s.log
  /-- A second wait for a reaped child is refused at once. -/
  second : ∀ p pid r, .waitReturned p pid r ∈ s.log →
    (s.proc p).point = .running →
    s.step (.wait p pid) = some (s.emit (.waitRefused p pid))
  /-- So is a wait for anything but an own child started by `exec`. -/
  nonchild : ∀ p pid, (∀ c, c < s.count → (s.proc c).creator = p →
      (s.proc c).byExec = true → (s.proc c).tid ≠ pid) →
    (s.proc p).point = .running →
    s.step (.wait p pid) = some (s.emit (.waitRefused p pid))
  /-- Nothing that is listed or still dereferenced has been freed. -/
  alive : ∀ p c, s.holds p c → .pageFreed c ∉ s.log
  raisedOnce : ∀ c, raises c s.log ≤ 1
  freedOnce : ∀ t, s.log.count (.pageFreed t) ≤ 1

theorem wait_refused (hpt : (s.proc p).point = .running)
    (hno : ∀ c ∈ (s.proc p).childList, (s.proc c).tid ≠ pid) :
    s.step (.wait p pid) = some (s.emit (.waitRefused p pid)) := by
  have hfind : s.findChild p pid = none := by
    unfold findChild
    rw [find?_eq_none]
    intro c hc
    simpa using hno c hc
  simp only [Sys.step, at_, hpt, if_true, Sys.processWait, hfind]

/-- What the creator holds of a child while it runs code of its own. -/
theorem Inv.linkRunning (hi : Inv s) (hcc : c < s.count) (hcp : (s.proc c).creator = p)
    (hpt : (s.proc p).point = .running) :
    Link c (c ∈ (s.proc p).childList) none (s.proc c) (raises c s.log) := by
  have hl := hi.link c hcc
  unfold LinkOf at hl
  rw [hcp, hpt] at hl
  exact hl

/-- Two children whose loads did not fail have different `tid`s. -/
theorem Inv.tid_inj (hi : Inv s) {d : ThreadId} (hc : c < s.count) (hd : d < s.count)
    (hne : (s.proc c).tid ≠ tidError) (heq : (s.proc d).tid = (s.proc c).tid) : d = c := by
  have hc' := (hi.link c hc).tid.resolve_left hne
  have hd' := (hi.link d hd).tid.resolve_left (heq ▸ hne)
  exact Int.ofNat_inj.mp (by omega)

theorem wait_accepted (hi : Inv s) (hmem : c ∈ (s.proc p).childList)
    (hpt : (s.proc p).point = .running) : ∃ s', s.step (.wait p (s.proc c).tid) = some s' ∧
      s'.log = s.log ∧ (s'.proc p).point = .onChild c (.waitDown (s.proc c).tid) := by
  obtain ⟨hcp, -, hcc⟩ := hi.owns p c (.inl hmem)
  have hl := hi.linkRunning hcc hcp hpt
  have hne : (s.proc c).tid ≠ tidError := by
    intro ht
    rcases hl.failed hmem ht with h | h <;> cases h
  have hfind : s.findChild p (s.proc c).tid = some c := by
    cases hf : s.findChild p (s.proc c).tid with
    | none => simpa using find?_eq_none.mp hf c hmem
    | some d =>
      obtain ⟨hd, htid⟩ := findChild_eq hf
      exact congrArg some (hi.tid_inj hcc (hi.owns p d (.inl hd)).2.2 hne htid)
  have hwait : ¬(s.proc c).waitedOnce = true := by simp [hl.unwaited_of_listed hmem]
  refine ⟨(s.mod c fun y => { y with waitedOnce := true }).goto p
    (.onChild c (.waitDown (s.proc c).tid)), ?_, rfl, ?_⟩
  · simp only [Sys.step, at_, hpt, if_true, Sys.processWait, hfind, if_neg hwait]
  · rw [goto, mod_self]

/-- Three steps of the waiting thread are enough when the child has
notified it. -/
theorem wait_returns (hi : Inv s) (hpt : (s.proc p).point = .onChild c (.waitDown pid))
    (hpast : (s.proc c).point.phase.past) :
    ∃ s', runAll step [.go p, .go p, .go p] s = some s' ∧
      s'.log = .waitReturned p pid (s.proc c).exitStatus :: .raised c (.wait p) :: s.log := by
  have hpos := (hi.linkAt hpt).wakes pid rfl hpast
  have hne : c ≠ p := (Nat.ne_of_lt (hi.owns p c (holds_of_point hpt)).2.1).symm
  -- the states after the `sema_down` and after the read of the status
  generalize hs1 : (s.mod c fun y => { y with waitMutex := y.waitMutex - 1 }).goto
    p (.onChild c (.waitRead pid)) = s₁
  have h1 : s.step (.go p) = some s₁ := by
    simp only [Sys.step, go, hpt, Sys.waitDown, if_pos hpos, hs1]
  have hpt1 : (s₁.proc p).point = .onChild c (.waitRead pid) := by rw [← hs1, goto, mod_self]
  have hst : (s₁.proc c).exitStatus = (s.proc c).exitStatus := by
    rw [← hs1, goto, mod_ne _ _ hne, mod_self]
  generalize hs2 : s₁.goto p (.onChild c (.waitReap pid (s₁.proc c).exitStatus)) = s₂
  have h2 : s₁.step (.go p) = some s₂ := by simp only [Sys.step, go, hpt1, hs2]
  have hpt2 : (s₂.proc p).point = .onChild c (.waitReap pid (s.proc c).exitStatus) := by
    rw [← hs2, goto, mod_self, hst]
  have h3 : s₂.step (.go p) = some (s₂.waitReap p c pid (s.proc c).exitStatus) := by
    simp only [Sys.step, go, hpt2]
  refine ⟨s₂.waitReap p c pid (s.proc c).exitStatus, ?_, ?_⟩
  · simp only [runAll, h1, h2, h3]
  · rw [← hs2, ← hs1]
    rfl

theorem Inv.waitExitSafe (hi : Inv s) (hh : Hist s) : WaitExitSafe s where
  result := by
    intro p pid r h
    obtain ⟨c, -, hcr, hex, htid, -, hpast, hst, -⟩ := hh.reaped p pid r h
    have hfate : (s.proc c).fate = some r := by
      unfold Proc.fate
      rw [if_pos (.inr hpast), hst]
    refine ⟨c, hcr, hex, htid, (hh.exited c r).mpr hfate, fun st hm => ?_⟩
    rw [hh.exited, hfate] at hm
    exact (some.inj hm).symm
  killed := by
    intro p s' hs
    obtain ⟨-, rfl⟩ := at_eq (p := p) hs
    exact mem_cons_self ..
  listed := by
    intro p c hcc hcp hexec htid hpt hr
    have hl := hi.linkRunning hcc hcp hpt
    refine (hl.kept hexec htid (by simp)).resolve_right ?_
    rw [hr]
    simp
  first := fun p c hmem hpt => wait_accepted hi hmem hpt
  returns := fun p c pid hpt hc => wait_returns hi hpt (by rw [hc]; exact .inl rfl)
  second := by
    intro p pid r h hpt
    obtain ⟨c, hc, hcr, -, htid, hne, -, -, hraise⟩ := hh.reaped p pid r h
    refine wait_refused hpt fun d hd he => ?_
    obtain ⟨hdp, -, hdc⟩ := hi.owns p d (.inl hd)
    have hcd : c = d := hi.tid_inj hdc hc (he ▸ hne) (htid.trans he.symm)
    have hzero := (hi.link d hdc).held (.inl (hdp ▸ hd))
    rw [← hcd] at hzero
    omega
  nonchild := by
    intro p pid hno hpt
    refine wait_refused hpt fun d hd => ?_
    obtain ⟨hdp, -, hdc⟩ := hi.owns p d (.inl hd)
    exact hno d hdc hdp ((hi.link d hdc).exec (hdp ▸ hd))
  alive := by
    intro p c hholds hm
    obtain ⟨hcp, -, hcc⟩ := hi.owns p c hholds
    have hl := hi.link c hcc
    unfold LinkOf at hl
    rw [hcp] at hl
    have hfreed : (s.proc c).point = .freed := by
      by_contra hne
      have hcount := hh.frees c
      rw [if_neg hne] at hcount
      exact count_eq_zero.mp hcount hm
    have hmx := hl.mutex
    rw [hl.held hholds, hfreed] at hmx
    exact absurd hmx (Nat.succ_ne_zero _)
  raisedOnce := by
    intro c
    by_cases hc : c < s.count
    · exact (hi.link c hc).once
    · rw [(hi.unborn c (Nat.not_lt.mp hc)).2.2]
      exact Nat.zero_le 1
  freedOnce := by
    intro t
    rw [hh.frees t]
    split
    · exact Nat.le_refl 1
    · exact Nat.zero_le 1

/-- The wait/exit protocol is safe in every state of every run. -/
theorem wait_exit_protocol {s : Sys} (hr : Reach Booted step anyStep s) : WaitExitSafe s := by
  obtain ⟨hi, hh⟩ := reachable_inv hr
  exact hi.waitExitSafe hh

/-- A full life: the initial thread starts a child and waits for it, the
child exits with 7, is reaped, and its page is freed. -/
theorem wait_exit_protocol_reaped :
    ∃ s, Reach Booted step anyStep s ∧ .waitReturned 0 2 7 ∈ s.log ∧
      .pageFreed 1 ∈ s.log ∧ WaitExitSafe s := by
  have h0 : Reach Booted step anyStep boot := .init rfl
  obtain ⟨s, hr, hret, hfree⟩ := h0.of_runAll
    [.exec 0, .alloc 0 true, .go 0, .load 1 true, .go 0, .go 0, .go 0,
      .wait 0 2, .exit 1 7, .go 1, .go 1, .go 0, .go 0, .go 0, .go 1, .go 1]
    (fun s => .waitReturned 0 2 7 ∈ s.log ∧ .pageFreed 1 ∈ s.log) (by decide)
  exact ⟨s, hr, hret, hfree, wait_exit_protocol hr⟩

/-- The child lists make a forest in every state of every run: a thread is
on one list at most, once, and nobody is their own descendant. -/
theorem children_form_forest {s : Sys} (hr : Reach Booted step anyStep s) :
    (∀ p, (s.proc p).childList.Nodup) ∧
      (∀ p q c, c ∈ (s.proc p).childList → c ∈ (s.proc q).childList → p = q) ∧
      ∀ p, ¬Relation.TransGen (fun p c => c ∈ (s.proc p).childList) p p := by
  have hi := (reachable_inv hr).1
  refine ⟨hi.nodup, fun p q c hp hq => ?_, fun p hp => ?_⟩
  · exact (hi.owns p c (.inl hp)).1.symm.trans (hi.owns q c (.inl hq)).1
  · -- a child is younger than its parent
    exact Nat.lt_irrefl p (@Relation.transGen_minimal _ _ (· < ·) _
      (fun q c hc => (hi.owns q c (.inl hc)).2.1) p p hp)

/-- Thread 0 has started 1 and 2, and 1 has started 3. -/
theorem children_form_forest_three : ∃ s, Reach Booted step anyStep s ∧
    (s.proc 0).childList = [1, 2] ∧ (s.proc 1).childList = [3] ∧
      3 ∉ (s.proc 0).childList ∧ ∀ p ∈ [0, 1], p ∉ (s.proc 3).childList := by
  have h0 : Reach Booted step anyStep boot := .init rfl
  obtain ⟨s, hr, hkids, hgrandkids⟩ := h0.of_runAll
    [.exec 0, .alloc 0 true, .go 0, .load 1 true, .go 0, .go 0, .go 0,
      .exec 0, .exec 1, .alloc 0 true, .alloc 1 true, .go 1, .go 0, .load 3 true,
      .load 2 true, .go 1, .go 0, .go 0, .go 1]
    (fun s => (s.proc 0).childList = [1, 2] ∧ (s.proc 1).childList = [3]) (by decide)
  obtain ⟨-, hone, hcycle⟩ := children_form_forest hr
  have h01 : 1 ∈ (s.proc 0).childList := by simp [hkids]
  have h13 : 3 ∈ (s.proc 1).childList := by simp [hgrandkids]
  refine ⟨s, hr, hkids, hgrandkids, fun h => absurd (hone 0 1 3 h h13) (by decide), ?_⟩
  intro p hp h
  rcases mem_pair.mp hp with rfl | rfl
  · exact hcycle 0 (.head h01 (.head h13 (.single h)))
  · exact hcycle 1 (.head h13 (.single h))

end Sys

end Pintos.Process
