/-
The invariant of the process system, and that every step keeps it.

# Method

A step by `p` touches two links only: the one `p` has with the child it
works on, and the one `p` is the child of.

- `Inv.next` assembles the invariant from those two; `Inv.own`,
  `Inv.work`, `Inv.turn` and `Inv.restage` are its instances for the
  shapes a step can have.
- `Birth` is the exception, `thread_create` making a new record.
- `Move` lists all that a step can do; `Inv.move` is one line per move.
-/
import Pintos.Userprog.Link
import Mathlib.Data.List.Nodup

namespace Pintos.Process

open List Option

-- ==== the invariant

def Event.raises (c : ThreadId) : Event → Bool
  | .raised d _ => d = c
  | _ => false

/-- How often the `exit_mutex` of `c` was raised. -/
def raises (c : ThreadId) (log : List Event) : Nat := log.countP (Event.raises c)

/-- Past the loop of `thread_exit` over `child_list`. -/
def Point.drained : Point → Bool
  | .exitNotify | .exitWait | .dying | .freed => true
  | _ => false

namespace Sys

/-- `p` has `c` in its list or in its hands. -/
def holds (s : Sys) (p c : ThreadId) : Prop :=
  c ∈ (s.proc p).childList ∨ (s.proc p).point.stage c ≠ none

/-- The link of `c` with its creator. -/
def LinkOf (s : Sys) (c : ThreadId) : Prop :=
  Link c (c ∈ (s.proc (s.proc c).creator).childList)
    ((s.proc (s.proc c).creator).point.stage c) (s.proc c) (raises c s.log)

structure Inv (s : Sys) : Prop where
  owns : ∀ p c, s.holds p c → (s.proc c).creator = p ∧ p < c ∧ c < s.count
  nodup : ∀ p, (s.proc p).childList.Nodup
  link : ∀ c, c < s.count → s.LinkOf c
  flag : ∀ p c, (s.proc p).point = .onChild c .created → (s.proc c).byExec = (s.proc p).callingExec
  drained : ∀ p, (s.proc p).point.drained = true → (s.proc p).childList = []
  unborn : ∀ t, s.count ≤ t →
    (s.proc t).point = .unborn ∧ (s.proc t).childList = [] ∧ raises t s.log = 0
  initial : 0 < s.count

variable {s s' : Sys} {p c : ThreadId}

/-- Only threads that were created take steps. -/
theorem Inv.born (hi : Inv s) (hp : (s.proc p).point ≠ .unborn) : p < s.count := by
  by_contra h
  exact hp (hi.unborn p (Nat.not_lt.mp h)).1

/-- The part of a record that a step on a child leaves alone. -/
structure SameBase (y y' : Proc) : Prop where
  point : y'.point = y.point
  childList : y'.childList = y.childList
  callingExec : y'.callingExec = y.callingExec
  creator : y'.creator = y.creator
  byExec : y'.byExec = y.byExec

variable {d : ThreadId} {st : Stage} {pt : Point} {pid : Int} {a : Act}

/-- The assembly of the invariant after a step of `p` that works on at most
one child `d`; a step that works on none takes `d` past the end. -/
theorem Inv.next (hi : Inv s) (hp : (s.proc p).point ≠ .unborn) (hcount : s'.count = s.count)
    (hother : ∀ t, t ≠ p → t ≠ d → s'.proc t = s.proc t) (hd : SameBase (s.proc d) (s'.proc d))
    (hcreator : d < s.count → (s.proc d).creator = p ∧ p < d)
    (hcp : (s'.proc p).creator = (s.proc p).creator) (hep : (s'.proc p).byExec = (s.proc p).byExec)
    (hheld : ∀ c, s'.holds p c → c < s.count)
    (hmem : ∀ c, c ≠ d → (c ∈ (s'.proc p).childList ↔ c ∈ (s.proc p).childList))
    (hstage : ∀ c, c ≠ d → (s'.proc p).point.stage c = (s.proc p).point.stage c)
    (hnodup : (s'.proc p).childList.Nodup) (hflag : ∀ c, (s'.proc p).point ≠ .onChild c .created)
    (hdrained : (s'.proc p).point.drained = true → (s'.proc p).childList = [])
    (hraise : ∀ c, c ≠ d → raises c s'.log = raises c s.log)
    (hfresh : s.count ≤ d → raises d s'.log = 0)
    (hlinkd : d < s.count → Link d (d ∈ (s'.proc p).childList)
      ((s'.proc p).point.stage d) (s'.proc d) (raises d s'.log))
    (hlinkp : ∀ l st n, Link p l st (s.proc p) n → Link p l st (s'.proc p) n) : Inv s' := by
  have hpc : p < s.count := hi.born hp
  -- every record but that of `p` keeps what the other records see of it
  have hbase t (ht : t ≠ p) : SameBase (s.proc t) (s'.proc t) := by
    by_cases htd : t = d
    · subst htd
      exact hd
    · rw [hother t ht htd]
      exact ⟨rfl, rfl, rfl, rfl, rfl⟩
  have hcr t : (s'.proc t).creator = (s.proc t).creator := by
    by_cases ht : t = p
    · rw [ht, hcp]
    · exact (hbase t ht).creator
  have hex t : (s'.proc t).byExec = (s.proc t).byExec := by
    by_cases ht : t = p
    · rw [ht, hep]
    · exact (hbase t ht).byExec
  have hholds q c (hq : q ≠ p) : (s'.holds q c ↔ s.holds q c) := by
    unfold holds
    rw [(hbase q hq).childList, (hbase q hq).point]
  refine ⟨?_, ?_, ?_, ?_, ?_, ?_, hcount ▸ hi.initial⟩
  · intro q c hh
    rw [hcr, hcount]
    by_cases hq : q = p
    · subst hq
      by_cases hcd : c = d
      · subst hcd
        have hlt := hheld c hh
        exact ⟨(hcreator hlt).1, (hcreator hlt).2, hlt⟩
      · refine hi.owns q c ?_
        unfold holds at hh ⊢
        rwa [hmem c hcd, hstage c hcd] at hh
    · exact hi.owns q c ((hholds q c hq).mp hh)
  · intro q
    by_cases hq : q = p
    · exact hq ▸ hnodup
    · rw [(hbase q hq).childList]
      exact hi.nodup q
  · intro c hc
    rw [hcount] at hc
    have hl := hi.link c hc
    unfold LinkOf at hl ⊢
    rw [hcr]
    by_cases hcd : c = d
    · subst hcd
      rw [(hcreator hc).1]
      exact hlinkd hc
    · rw [hraise c hcd]
      by_cases hcp' : (s.proc c).creator = p
      · rw [hcp'] at hl ⊢
        rw [hstage c hcd]
        by_cases hself : c = p
        · subst hself
          have hl' := hlinkp _ _ _ hl
          rw [← propext (hmem c hcd)] at hl'
          exact hl'
        · rw [hother c hself hcd, propext (hmem c hcd)]
          exact hl
      · rw [(hbase _ hcp').childList, (hbase _ hcp').point]
        by_cases hself : c = p
        · subst hself
          exact hlinkp _ _ _ hl
        · rw [hother c hself hcd]
          exact hl
  · intro q c hq
    by_cases hqp : q = p
    · subst hqp
      exact absurd hq (hflag c)
    · rw [(hbase q hqp).point] at hq
      rw [(hbase q hqp).callingExec, hex]
      exact hi.flag q c hq
  · intro q hq
    by_cases hqp : q = p
    · subst hqp
      exact hdrained hq
    · rw [(hbase q hqp).point] at hq
      rw [(hbase q hqp).childList]
      exact hi.drained q hq
  · intro t ht
    rw [hcount] at ht
    have htp : t ≠ p := by
      rintro rfl
      exact absurd hpc (Nat.not_lt.mpr ht)
    rw [(hbase t htp).point, (hbase t htp).childList]
    refine ⟨(hi.unborn t ht).1, (hi.unborn t ht).2.1, ?_⟩
    by_cases htd : t = d
    · subst htd
      exact hfresh ht
    · rw [hraise t htd]
      exact (hi.unborn t ht).2.2

-- ==== the shapes of a step

@[simp] theorem mod_self (s : Sys) (t : ThreadId) (f : Proc → Proc) :
    (s.mod t f).proc t = f (s.proc t) := if_pos rfl

theorem mod_ne (s : Sys) {t u : ThreadId} (f : Proc → Proc) (h : u ≠ t) :
    (s.mod t f).proc u = s.proc u := if_neg h

@[simp] theorem raises_cons (c : ThreadId) (e : Event) (log : List Event) :
    raises c (e :: log) = raises c log + if e.raises c then 1 else 0 :=
  countP_cons ..

/-- An event that raises nothing is invisible to the invariant. -/
theorem Inv.emit (hi : Inv s) {e : Event} (he : ∀ c, e.raises c = false) : Inv (s.emit e) := by
  have hr c : raises c (s.emit e).log = raises c s.log := by
    show raises c (e :: s.log) = _
    rw [raises_cons, he c]
    rfl
  refine ⟨hi.owns, hi.nodup, ?_, hi.flag, hi.drained, ?_, hi.initial⟩
  · intro c hc
    unfold LinkOf
    rw [hr]
    exact hi.link c hc
  · intro t ht
    rw [hr]
    exact hi.unborn t ht

/-- A step of `p` on its own record, away from any child. -/
theorem Inv.own (hi : Inv s) (f : Proc → Proc) (hpt : (s.proc p).point = pt) (hborn : pt ≠ .unborn)
    (hlist : (f (s.proc p)).childList = (s.proc p).childList)
    (hcreator : (f (s.proc p)).creator = (s.proc p).creator)
    (hexec : (f (s.proc p)).byExec = (s.proc p).byExec) (hidle : ∀ c, pt.stage c = none)
    (hidle' : ∀ c, (f (s.proc p)).point.stage c = none)
    (hdrained : (f (s.proc p)).point.drained = true → (s.proc p).childList = [])
    (hlink : ∀ l st n, Link p l st (s.proc p) n → Link p l st (f (s.proc p)) n) :
    Inv (s.mod p f) := by
  subst hpt
  have hpc := hi.born hborn
  have hpd : s.count ≠ p := fun h => absurd hpc (h ▸ Nat.lt_irrefl _)
  have hself := mod_self s p f
  refine .next (p := p) (d := s.count) hi hborn rfl ?_ ?_ ?_ ?_ ?_ ?_ ?_ ?_ ?_ ?_ ?_ ?_ ?_ ?_ ?_
  · exact fun t ht _ => mod_ne s f ht
  · rw [mod_ne s f hpd]
    exact ⟨rfl, rfl, rfl, rfl, rfl⟩
  · exact fun h => absurd h (Nat.lt_irrefl _)
  · rw [hself, hcreator]
  · rw [hself, hexec]
  · intro c hh
    unfold holds at hh
    rw [hself, hlist, hidle'] at hh
    exact (hi.owns p c (hh.imp_right fun h => absurd rfl h)).2.2
  · intro c _
    rw [hself, hlist]
  · intro c _
    rw [hself, hidle, hidle']
  · rw [hself, hlist]
    exact hi.nodup p
  · intro c hc
    have := hidle' c
    rw [hself] at hc
    rw [hc] at this
    simp [Point.stage] at this
  · rw [hself, hlist]
    exact hdrained
  · exact fun c _ => rfl
  · exact fun _ => (hi.unborn s.count (Nat.le_refl _)).2.2
  · exact fun h => absurd h (Nat.lt_irrefl _)
  · rw [hself]
    exact hlink

/-- A step of `p` on a child `d` that it holds. -/
theorem Inv.work {f g : Proc → Proc} (hi : Inv s) (hd : s.holds p d)
    (hs' : s'.proc = ((s.mod d g).mod p f).proc) (hcount : s'.count = s.count)
    (hg : SameBase (s.proc d) (g (s.proc d))) (hborn : (s.proc p).point ≠ .unborn)
    (hcreator : (f (s.proc p)).creator = (s.proc p).creator)
    (hexec : (f (s.proc p)).byExec = (s.proc p).byExec) (hmem : ∀ c, c ≠ d →
      (c ∈ (f (s.proc p)).childList ↔ c ∈ (s.proc p).childList))
    (hstage : ∀ c, c ≠ d → (f (s.proc p)).point.stage c = (s.proc p).point.stage c)
    (hnodup : (f (s.proc p)).childList.Nodup)
    (hflag : ∀ c, (f (s.proc p)).point ≠ .onChild c .created)
    (hdrained : (f (s.proc p)).point.drained = false)
    (hraise : ∀ c, c ≠ d → raises c s'.log = raises c s.log)
    (hlinkd : Link d (d ∈ (s.proc p).childList) ((s.proc p).point.stage d)
        (s.proc d) (raises d s.log) →
      Link d (d ∈ (f (s.proc p)).childList) ((f (s.proc p)).point.stage d)
        (g (s.proc d)) (raises d s'.log))
    (hlinkp : ∀ l st n, Link p l st (s.proc p) n → Link p l st (f (s.proc p)) n) : Inv s' := by
  obtain ⟨hcd, hlt, hdc⟩ := hi.owns p d hd
  have hpd : p ≠ d := Nat.ne_of_lt hlt
  have hp' : s'.proc p = f (s.proc p) := by rw [hs', mod_self, mod_ne s g hpd]
  have hd' : s'.proc d = g (s.proc d) := by rw [hs', mod_ne _ f hpd.symm, mod_self]
  refine .next (p := p) (d := d) hi hborn hcount ?_ ?_ ?_ ?_ ?_ ?_ ?_ ?_ ?_ ?_ ?_ hraise ?_ ?_ ?_
  · intro t htp htd
    rw [hs', mod_ne _ f htp, mod_ne _ g htd]
  · rw [hd']
    exact hg
  · exact fun _ => ⟨hcd, hlt⟩
  · rw [hp', hcreator]
  · rw [hp', hexec]
  · intro c hh
    by_cases hc : c = d
    · exact hc ▸ hdc
    · unfold holds at hh
      rw [hp', hmem c hc, hstage c hc] at hh
      exact (hi.owns p c hh).2.2
  · intro c hc
    rw [hp', hmem c hc]
  · intro c hc
    rw [hp', hstage c hc]
  · rw [hp']
    exact hnodup
  · rw [hp']
    exact hflag
  · rw [hp', hdrained]
    exact nofun
  · exact fun h => absurd hdc (Nat.not_lt.mpr h)
  · intro hlt'
    have hl := hi.link d hlt'
    unfold LinkOf at hl
    rw [hcd] at hl
    rw [hp', hd']
    exact hlinkd hl
  · rw [hp']
    exact hlinkp

-- ==== the steps, one by one

theorem stage_onChild (c d : ThreadId) (st : Stage) :
    (Point.onChild d st).stage c = if d = c then some st else none := rfl

/-- `p` is at a stage of its work on `c`, so it holds `c`. -/
theorem holds_of_point (h : (s.proc p).point = .onChild c st) : s.holds p c := by
  right
  rw [h, stage_onChild, if_pos rfl]
  simp

section

variable (hi : Inv s)

include hi

/-- A move inside one phase, away from any child. -/
theorem Inv.quiet (dst : Point) (ce : Proc → Bool) (hpt : (s.proc p).point = pt)
    (hborn : pt ≠ .unborn) (hidle : ∀ c, pt.stage c = none) (hidle' : ∀ c, dst.stage c = none)
    (hphase : dst.phase = pt.phase) (hdrained : dst.drained = true → (s.proc p).childList = []) :
    Inv (s.mod p fun x => { x with point := dst, callingExec := ce x }) := by
  subst hpt
  exact hi.own _ rfl hborn rfl rfl rfl hidle hidle' hdrained fun _ _ _ h =>
    h.congr hphase rfl rfl rfl rfl rfl rfl rfl

theorem Inv.load (ok : Bool) (hpt : (s.proc c).point = .loading) : Inv (s.load c ok) := by
  have hphase : (s.proc c).point.phase = .loading := hpt ▸ rfl
  unfold Sys.load
  cases ok with
  | true =>
    rw [if_pos rfl]
    refine hi.own _ hpt nofun rfl rfl rfl (fun _ => rfl) (fun _ => rfl) nofun fun l st n h => ?_
    refine h.early ?_ ?_ nofun rfl rfl rfl rfl rfl
    · rw [hphase]
      simp [Phase.past]
    · simp [Phase.past, Point.phase]
  | false =>
    rw [if_neg Bool.false_ne_true]
    refine hi.own _ hpt nofun rfl rfl rfl (fun _ => rfl) (fun _ => rfl) nofun fun l st n h => ?_
    exact (h.fail hphase).congr hphase.symm rfl rfl rfl rfl rfl rfl rfl

theorem Inv.enterExit (status : Int) (hpt : (s.proc p).point = pt) (hborn : pt ≠ .unborn)
    (hidle : ∀ c, pt.stage c = none) (hlive : pt.phase = .live) : Inv (s.enterExit p status) := by
  refine .emit ?_ fun _ => rfl
  refine hi.own _ hpt hborn rfl rfl rfl hidle (fun _ => rfl) nofun fun l st n h => ?_
  refine h.early ?_ ?_ nofun rfl rfl rfl rfl rfl
  · rw [hpt, hlive]
    simp [Phase.past]
  · simp [Phase.past, Point.phase]

theorem Inv.loadFailed (hpt : (s.proc p).point = .loadFailed) : Inv (s.mod p fun y =>
      { y with point := .loadReported, loadMutex := y.loadMutex + 1 }) := by
  refine hi.own _ hpt nofun rfl rfl rfl (fun _ => rfl) (fun _ => rfl) nofun fun l st n h => ?_
  refine h.early ?_ ?_ nofun rfl rfl rfl rfl rfl
  · rw [hpt]
    simp [Phase.past, Point.phase]
  · simp [Phase.past, Point.phase]

theorem Inv.exitNotify (hpt : (s.proc p).point = .exitNotify) : Inv (s.exitNotify p) :=
  hi.own _ hpt nofun rfl rfl rfl (fun _ => rfl) (fun _ => rfl)
    (fun _ => hi.drained p (hpt ▸ rfl)) fun _ _ _ h => h.notify (hpt ▸ rfl)

theorem Inv.exitDown (hpt : (s.proc p).point = .exitWait)
    (hs : s.exitDown p = some s') : Inv s' := by
  obtain ⟨hpos, ⟨⟩⟩ := ite_none_right_eq_some.mp hs
  exact hi.own _ hpt nofun rfl rfl rfl (fun _ => rfl) (fun _ => rfl)
    (fun _ => hi.drained p (hpt ▸ rfl)) fun _ _ _ h => h.down (hpt ▸ rfl) hpos

theorem Inv.scheduleTail (hpt : (s.proc p).point = .dying)
    (hs : s.scheduleTail p = some s') : Inv s' := by
  obtain ⟨-, ⟨⟩⟩ := ite_none_left_eq_some.mp hs
  refine .emit ?_ fun _ => rfl
  exact hi.quiet .freed _ hpt nofun (fun _ => rfl) (fun _ => rfl) rfl
    fun _ => hi.drained p (hpt ▸ rfl)

/-- A raise by `p`, out of `process_wait` or out of its exit loop. -/
theorem Inv.raise {who : Raiser} {rest : Proc → List ThreadId} (hmem : c ∈ (s.proc p).childList)
    (hrest : ∀ d, d ≠ c → (d ∈ rest (s.proc p) ↔ d ∈ (s.proc p).childList))
    (hnodup : (rest (s.proc p)).Nodup) (hc : c ∉ rest (s.proc p)) {dst : Point}
    (hpt : (s.proc p).point = pt) (hborn : pt ≠ .unborn) (hstage : ∀ d, d ≠ c → pt.stage d = none)
    (hload : pt.stage c ≠ some .loadWait) (hidle : ∀ d, dst.stage d = none)
    (hphase : dst.phase = pt.phase) (hdrained : dst.drained = false) :
    Inv (((s.mod c fun y => { y with exitMutex := y.exitMutex + 1 }).mod p
      fun x => { x with childList := rest x, point := dst }).emit
      (.raised c who)) := by
  subst hpt
  refine hi.work (f := fun x => { x with childList := rest x, point := dst }) (.inl hmem) rfl rfl
    ⟨rfl, rfl, rfl, rfl, rfl⟩ hborn rfl rfl hrest ?_ hnodup ?_ hdrained ?_ ?_ fun _ _ _ h => h.congr
    hphase rfl rfl rfl rfl rfl rfl rfl
  · intro d hd
    rw [hstage d hd]
    exact hidle d
  · intro d hd
    have := hidle d
    rw [show dst = .onChild d .created from hd, stage_onChild, if_pos rfl] at this
    cases this
  · intro d hd
    show raises d (.raised c who :: s.log) = _
    rw [raises_cons, if_neg (by simpa [Event.raises] using Ne.symm hd)]
    rfl
  · intro h
    show Link c _ (dst.stage c) _ (raises c (.raised c who :: s.log))
    rw [raises_cons, if_pos (by simp [Event.raises]), hidle]
    exact h.raise hmem hload hc

/-- The link `p` has with the child it works on. -/
theorem Inv.linkAt (hpt : (s.proc p).point = .onChild c st) :
    Link c (c ∈ (s.proc p).childList) (some st) (s.proc c) (raises c s.log) := by
  obtain ⟨hcp, -, hcc⟩ := hi.owns p c (holds_of_point hpt)
  have hl := hi.link c hcc
  unfold LinkOf at hl
  rwa [hcp, hpt, stage_onChild, if_pos rfl] at hl

theorem Inv.waitReap {r : Int} (hpt : (s.proc p).point = .onChild c (.waitReap pid r)) :
    Inv (s.waitReap p c pid r) := by
  have hnd := hi.nodup p
  refine .emit ?_ fun _ => rfl
  refine hi.raise ((hi.linkAt hpt).mem _ rfl rfl) ?_
    (hnd.erase c) hnd.not_mem_erase hpt nofun (fun d hd => if_neg hd.symm) ?_ (fun _ => rfl)
    rfl rfl
  · exact fun d hd => mem_erase_of_ne hd
  · rw [stage_onChild, if_pos rfl]
    simp

theorem Inv.exitKids (hpt : (s.proc p).point = .exitKids) : Inv (s.exitKids p) := by
  unfold Sys.exitKids
  cases hl : (s.proc p).childList with
  | nil => exact hi.quiet .exitNotify _ hpt nofun (fun _ => rfl) (fun _ => rfl) rfl fun _ => hl
  | cons c rest =>
    have hnd := nodup_cons.mp (hl ▸ hi.nodup p)
    refine hi.raise (hl ▸ mem_cons_self ..) ?_ hnd.2 hnd.1 hpt nofun
      (fun _ _ => rfl) nofun (fun _ => rfl) rfl rfl
    intro d hd
    rw [hl, mem_cons]
    exact ⟨.inr, fun h => h.resolve_left hd⟩

end

theorem mod_id (s : Sys) (t : ThreadId) : s.mod t id = s := by
  unfold mod
  congr
  funext u
  split
  case isTrue h => rw [h]; rfl
  case isFalse => rfl

/-- A turn of the code of `p` on its child `c`, with no raise in it. -/
theorem Inv.turn (hi : Inv s) (g : Proc → Proc) (dst : Point) (rest : Proc → List ThreadId)
    (ce : Proc → Bool) (hholds : s.holds p c) (hg : SameBase (s.proc c) (g (s.proc c)))
    (hpt : (s.proc p).point = pt) (hborn : pt ≠ .unborn) (hlive : dst.phase = pt.phase)
    (hstage : ∀ d, d ≠ c → pt.stage d = none) (hstage' : ∀ d, d ≠ c → dst.stage d = none)
    (hcreated : dst.stage c ≠ some .created) (hdrained : dst.drained = false)
    (hrest : ∀ d, d ≠ c → (d ∈ rest (s.proc p) ↔ d ∈ (s.proc p).childList))
    (hnodup : (rest (s.proc p)).Nodup)
    (hlink : Link c (c ∈ (s.proc p).childList) (pt.stage c) (s.proc c) (raises c s.log) →
      Link c (c ∈ rest (s.proc p)) (dst.stage c) (g (s.proc c))
        (raises c s.log)) : Inv ((s.mod c g).mod p fun x => { x with
      point := dst, childList := rest x, callingExec := ce x }) := by
  subst hpt
  refine hi.work (f := fun x => { x with
    point := dst, childList := rest x, callingExec := ce x })
    hholds rfl rfl hg hborn rfl rfl hrest ?_ hnodup ?_ hdrained
    (fun _ _ => rfl) hlink
    fun _ _ _ h => h.congr hlive rfl rfl rfl rfl rfl rfl rfl
  · intro d hd
    rw [hstage d hd]
    exact hstage' d hd
  · intro d hd
    have hpt : dst = .onChild d .created := hd
    by_cases hdc : d = c
    · rw [hpt, hdc, stage_onChild, if_pos rfl] at hcreated
      exact hcreated rfl
    · have := hstage' d hdc
      simp [hpt, stage_onChild] at this

variable {q : ThreadId} {f g : Proc → Proc}

section

variable (hi : Inv s)

include hi

/-- `Inv.turn` from one stage of the work on `c` to the next. -/
theorem Inv.restage (hpt : (s.proc p).point = .onChild c st) (st' : Stage) (g : Proc → Proc)
    (rest : Proc → List ThreadId) (hg : SameBase (s.proc c) (g (s.proc c))) (hst' : st' ≠ .created)
    (hrest : ∀ d, d ≠ c → (d ∈ rest (s.proc p) ↔ d ∈ (s.proc p).childList))
    (hnodup : (rest (s.proc p)).Nodup)
    (hlink : Link c (c ∈ (s.proc p).childList) (some st) (s.proc c)
        (raises c s.log) →
      Link c (c ∈ rest (s.proc p)) (some st') (g (s.proc c)) (raises c s.log)) :
    Inv ((s.mod c g).mod p fun x => { x with point := .onChild c st', childList := rest x }) := by
  have hself : ∀ g : Stage, (Point.onChild c g).stage c = some g := fun g => if_pos rfl
  refine hi.turn g _ rest Proc.callingExec (holds_of_point hpt) hg hpt nofun rfl
    (fun d hd => if_neg hd.symm) (fun d hd => if_neg hd.symm) ?_ rfl hrest hnodup ?_
  · rw [hself]
    simpa using hst'
  · rw [hself, hself]
    exact hlink

theorem Inv.listChild (hpt : (s.proc p).point = .onChild c .created) : Inv (s.listChild p c) := by
  have hl := hi.linkAt hpt
  have hc : c ∉ (s.proc p).childList := hl.created rfl
  have hflag := hi.flag p c hpt
  unfold Sys.listChild
  split
  case isTrue hexec =>
    have h := hi.restage hpt .loadWait id (fun x => x.childList ++ [c])
      ⟨rfl, rfl, rfl, rfl, rfl⟩ (by simp) ?_ ?_ ?_
    · rwa [mod_id] at h
    · intro d hd
      simp [hd]
    · rw [nodup_append]
      refine ⟨hi.nodup p, nodup_singleton c, ?_⟩
      rintro d hd e he rfl
      rw [mem_singleton] at he
      exact hc (he ▸ hd)
    · exact fun h => h.push (by rw [hflag, hexec]) (by simp)
  case isFalse hexec =>
    have h := hi.restage hpt .createReturn id Proc.childList ⟨rfl, rfl, rfl, rfl, rfl⟩ (by simp)
      (fun _ _ => Iff.rfl) (hi.nodup p) fun h => h.skip (by rw [hflag]; simpa using hexec)
    rwa [mod_id] at h

theorem Inv.loadDown (hpt : (s.proc p).point = .onChild c .loadWait) (hs : s.loadDown p c = some s')
    : Inv s' := by
  obtain ⟨hpos, ⟨⟩⟩ := ite_none_right_eq_some.mp hs
  exact hi.restage hpt .loaded _ Proc.childList ⟨rfl, rfl, rfl, rfl, rfl⟩
    (by simp) (fun _ _ => Iff.rfl) (hi.nodup p) fun h => h.loadDown hpos

theorem Inv.checkLoad (hpt : (s.proc p).point = .onChild c .loaded) : Inv (s.checkLoad p c) := by
  have hnd := hi.nodup p
  unfold Sys.checkLoad
  split
  case isTrue htid =>
    have h := hi.restage hpt .createReturn id (fun x => x.childList.erase c) ⟨rfl, rfl, rfl, rfl,
      rfl⟩ (by simp) (fun d hd => mem_erase_of_ne hd) (hnd.erase c) fun h => h.checkLoad
      ⟨fun hm => absurd hm hnd.not_mem_erase, fun hm => absurd htid hm.2⟩
    rwa [mod_id] at h
  case isFalse htid =>
    have h := hi.restage hpt .createReturn id Proc.childList ⟨rfl, rfl, rfl, rfl, rfl⟩ (by simp)
      (fun _ _ => Iff.rfl) hnd fun h => h.checkLoad ⟨fun hm => ⟨hm, htid⟩, And.left⟩
    rwa [mod_id] at h

theorem Inv.createReturn (hpt : (s.proc p).point = .onChild c .createReturn) :
    Inv (s.mod p fun x => { x with point := .running, callingExec := false }) := by
  have h := hi.turn id .running Proc.childList (fun _ => false) (holds_of_point hpt) ⟨rfl, rfl, rfl,
    rfl, rfl⟩ hpt nofun rfl (fun d hd => if_neg hd.symm) (fun _ _ => rfl) nofun rfl
    (fun _ _ => Iff.rfl) (hi.nodup p) fun h => ?_
  · rwa [mod_id] at h
  · rw [stage_onChild, if_pos rfl] at h
    exact h.createReturn

theorem Inv.waitDown (hpt : (s.proc p).point = .onChild c (.waitDown pid))
    (hs : s.waitDown p c pid = some s') : Inv s' := by
  obtain ⟨hpos, ⟨⟩⟩ := ite_none_right_eq_some.mp hs
  exact hi.restage hpt (.waitRead pid) _ Proc.childList ⟨rfl, rfl, rfl, rfl, rfl⟩ (by simp)
    (fun _ _ => Iff.rfl) (hi.nodup p) fun h => h.waitDown hpos

theorem Inv.waitRead (hpt : (s.proc p).point = .onChild c (.waitRead pid)) :
    Inv (s.goto p (.onChild c (.waitReap pid (s.proc c).exitStatus))) := by
  have h := hi.restage hpt (.waitReap pid (s.proc c).exitStatus) id Proc.childList ⟨rfl, rfl, rfl,
    rfl, rfl⟩ (by simp) (fun _ _ => Iff.rfl) (hi.nodup p) fun h => h.waitRead
  rwa [mod_id] at h

end

theorem findChild_eq (h : s.findChild p pid = some c) :
    c ∈ (s.proc p).childList ∧ (s.proc c).tid = pid :=
  ⟨mem_of_find?_eq_some h, by simpa using find?_some h⟩

theorem Inv.processWait (hi : Inv s) (pid : Int)
    (hpt : (s.proc p).point = .running) : Inv (s.processWait p pid) := by
  unfold Sys.processWait
  split
  case h_1 => exact hi.emit fun _ => rfl
  case h_2 c hc =>
    obtain ⟨hmem, htid⟩ := findChild_eq hc
    split
    case isTrue => exact hi.emit fun _ => rfl
    case isFalse hfresh =>
      refine hi.turn _ (.onChild c (.waitDown pid)) Proc.childList Proc.callingExec (.inl hmem)
        ⟨rfl, rfl, rfl, rfl, rfl⟩ hpt nofun rfl (fun _ _ => rfl) (fun d hd => if_neg hd.symm)
        (by simp [stage_onChild]) rfl (fun _ _ => Iff.rfl) (hi.nodup p) fun h => ?_
      rw [stage_onChild, if_pos rfl, ← htid]
      exact h.wait hmem (by simpa using hfresh)

/-- What `thread_create` by `p` does to the records, up to the stage of `p`:
thread number `s.count` is new. -/
structure Birth (s s' : Sys) (p : ThreadId) : Prop where
  self : s'.proc p = { s.proc p with point := .onChild s.count .created }
  new : s'.proc s.count = s.initThread p
  old : ∀ t, t ≠ p → t ≠ s.count → s'.proc t = s.proc t
  count : s'.count = s.count + 1
  log : s'.log = s.log

/-- `thread_create` with memory is a birth. -/
theorem alloc_birth (hp : p < s.count) : Birth s (s.alloc p true) p := by
  have hne : s.count ≠ p := fun h => absurd hp (h ▸ Nat.lt_irrefl _)
  refine ⟨?_, ?_, ?_, rfl, rfl⟩
  · simp [Sys.alloc, goto, mod, hne.symm]
  · simp [Sys.alloc, goto, mod, hne]
  · intro t htp htc
    simp [Sys.alloc, goto, mod, htp, htc]

theorem initThread_stage (s : Sys) (p c : ThreadId) : (s.initThread p).point.stage c = none := by
  unfold initThread
  simp only
  split <;> rfl

section

variable (hi : Inv s)

include hi

theorem Inv.unheld (t : ThreadId) : ¬s.holds t s.count :=
  fun h => absurd (hi.owns t s.count h).2.2 (Nat.lt_irrefl _)

section

variable (hb : Birth s s' p)

include hb

theorem Birth.childList (t : ThreadId) : (s'.proc t).childList = (s.proc t).childList := by
  by_cases htp : t = p
  · rw [htp, hb.self]
  · by_cases htc : t = s.count
    · rw [htc, hb.new, (hi.unborn _ (Nat.le_refl _)).2.1]
      rfl
    · rw [hb.old t htp htc]

theorem Birth.stage (hpt : (s.proc p).point = .creating) (t : ThreadId) (hc : c ≠ s.count)
    : (s'.proc t).point.stage c = (s.proc t).point.stage c := by
  by_cases htp : t = p
  · rw [htp, hb.self, hpt]
    exact if_neg hc.symm
  · by_cases htc : t = s.count
    · rw [htc, hb.new, initThread_stage, (hi.unborn _ (Nat.le_refl _)).1]
      rfl
    · rw [hb.old t htp htc]

/-- Only the creator works on the new thread. -/
theorem Birth.stage_new {t : ThreadId} (ht : t ≠ p) : (s'.proc t).point.stage s.count = none := by
  by_cases htc : t = s.count
  · rw [htc, hb.new, initThread_stage]
  · rw [hb.old t ht htc]
    by_contra h
    exact hi.unheld t (.inr h)

theorem Birth.owns (hp : p < s.count) (hpt : (s.proc p).point = .creating) (hh : s'.holds q c) :
    (s'.proc c).creator = q ∧ q < c ∧ c < s'.count := by
  rw [hb.count]
  unfold holds at hh
  rw [hb.childList hi] at hh
  by_cases hc : c = s.count
  · subst hc
    by_cases hq : q = p
    · rw [hq, hb.new]
      exact ⟨rfl, hp, Nat.lt_succ_self _⟩
    · rw [hb.stage_new hi hq] at hh
      exact absurd (.inl (hh.resolve_right fun h => h rfl)) (hi.unheld q)
  · rw [hb.stage hi hpt q hc] at hh
    obtain ⟨h1, h2, h3⟩ := hi.owns q c hh
    refine ⟨?_, h2, Nat.lt_succ_of_lt h3⟩
    by_cases hcp : c = p
    · rw [← h1, hcp, hb.self]
    · rw [hb.old c hcp hc, h1]

theorem Birth.link (hpt : (s.proc p).point = .creating) (hc : c < s'.count) : s'.LinkOf c := by
  rw [hb.count] at hc
  unfold LinkOf
  rw [hb.log, hb.childList hi]
  by_cases hcn : c = s.count
  · subst hcn
    rw [(hi.unborn _ (Nat.le_refl _)).2.2, hb.new]
    show Link _ (_ ∈ (s.proc p).childList) ((s'.proc p).point.stage _) _ _
    rw [hb.self]
    simp only [stage_onChild, if_true]
    exact Link.born _ fun h => hi.unheld p (.inl h)
  · rw [hb.stage hi hpt _ hcn]
    have hl := hi.link c (Nat.lt_of_le_of_ne (Nat.lt_succ_iff.mp hc) hcn)
    by_cases hcp : c = p
    · rw [hcp, hb.self]
      rw [hcp] at hl
      exact hl.congr (hpt ▸ rfl) rfl rfl rfl rfl rfl rfl rfl
    · rw [hb.old c hcp hcn]
      exact hl

theorem Birth.flag (hq : (s'.proc q).point = .onChild c .created) :
    (s'.proc c).byExec = (s'.proc q).callingExec := by
  by_cases hqp : q = p
  · rw [hqp, hb.self] at hq
    injection hq with hq
    rw [← hq, hqp, hb.new, hb.self]
    rfl
  · have hstage : (s'.proc q).point.stage c = some .created := by rw [hq, stage_onChild, if_pos rfl]
    have hc : c ≠ s.count := by
      rintro rfl
      simp [hb.stage_new hi hqp] at hstage
    have hqc : q ≠ s.count := by
      rintro rfl
      simp [hb.new, initThread_stage] at hstage
    rw [hb.old q hqp hqc] at hq ⊢
    rw [← hi.flag q c hq]
    by_cases hcp : c = p
    · rw [hcp, hb.self]
    · rw [hb.old c hcp hc]

/-- A new thread: nobody held it before, and its creator holds it now. -/
theorem Birth.inv (hp : p < s.count) (hpt : (s.proc p).point = .creating) : Inv s' := by
  refine ⟨fun q c hh => hb.owns hi hp hpt hh, ?_, fun c hc => hb.link hi hpt hc,
    fun q c hq => hb.flag hi hq, ?_, ?_, hb.count ▸ Nat.succ_pos _⟩
  · intro q
    rw [hb.childList hi]
    exact hi.nodup q
  · intro q hq
    rw [hb.childList hi]
    by_cases hqp : q = p
    · rw [hqp, hb.self] at hq
      cases hq
    · by_cases hqc : q = s.count
      · rw [hqc]
        exact (hi.unborn _ (Nat.le_refl _)).2.1
      · rw [hb.old q hqp hqc] at hq
        exact hi.drained q hq
  · intro t ht
    rw [hb.count] at ht
    have htc : t ≠ s.count := fun h => absurd ht (h ▸ Nat.not_succ_le_self _)
    have htp : t ≠ p := fun h =>
      absurd (Nat.lt_of_lt_of_le hp (Nat.le_of_succ_le ht)) (h ▸ Nat.lt_irrefl _)
    rw [hb.old t htp htc, hb.log]
    exact hi.unborn t (Nat.le_of_succ_le ht)

end

theorem Inv.alloc (ok : Bool) (hpt : (s.proc p).point = .creating) : Inv (s.alloc p ok) := by
  have hborn : (s.proc p).point ≠ .unborn := by rw [hpt]; simp
  cases ok with
  | true =>
    have hp := hi.born hborn
    exact (alloc_birth hp).inv hi hp hpt
  | false =>
    exact hi.quiet .running (fun _ => false) hpt nofun (fun _ => rfl) (fun _ => rfl) rfl nofun

end

-- ==== all that can happen

/-- The steps of the system, each with what was true before it. -/
inductive Move (s : Sys) : Act → Sys → Prop
  | enter (a : Act) (p : ThreadId) (ce : Proc → Bool)
      (hpt : (s.proc p).point = .running) :
      Move s a (s.mod p fun x => { x with point := .creating, callingExec := ce x })
  | alloc (p : ThreadId) (ok : Bool)
      (hpt : (s.proc p).point = .creating) : Move s (.alloc p ok) (s.alloc p ok)
  | load (c : ThreadId) (ok : Bool)
      (hpt : (s.proc c).point = .loading) : Move s (.load c ok) (s.load c ok)
  | wait (p : ThreadId) (pid : Int)
      (hpt : (s.proc p).point = .running) :
      Move s (.wait p pid) (s.processWait p pid)
  | enterExit (a : Act) (p : ThreadId) (status : Int)
      (hpt : (s.proc p).point = .running ∨
        (s.proc p).point = .loadReported) : Move s a (s.enterExit p status)
  | listChild (p c : ThreadId)
      (hpt : (s.proc p).point = .onChild c .created) :
      Move s (.go p) (s.listChild p c)
  | loadDown (p c : ThreadId) (s' : Sys)
      (hpt : (s.proc p).point = .onChild c .loadWait)
      (hs : s.loadDown p c = some s') : Move s (.go p) s'
  | checkLoad (p c : ThreadId)
      (hpt : (s.proc p).point = .onChild c .loaded) :
      Move s (.go p) (s.checkLoad p c)
  | createReturn (p c : ThreadId)
      (hpt : (s.proc p).point = .onChild c .createReturn) :
      Move s (.go p) (s.mod p fun x => { x with point := .running, callingExec := false })
  | waitDown (p c : ThreadId) (pid : Int) (s' : Sys)
      (hpt : (s.proc p).point = .onChild c (.waitDown pid))
      (hs : s.waitDown p c pid = some s') : Move s (.go p) s'
  | waitRead (p c : ThreadId) (pid : Int)
      (hpt : (s.proc p).point = .onChild c (.waitRead pid)) :
      Move s (.go p) (s.goto p (.onChild c (.waitReap pid (s.proc c).exitStatus)))
  | waitReap (p c : ThreadId) (pid r : Int)
      (hpt : (s.proc p).point = .onChild c (.waitReap pid r)) :
      Move s (.go p) (s.waitReap p c pid r)
  | loadFailed (p : ThreadId) (hpt : (s.proc p).point = .loadFailed) :
      Move s (.go p) (s.mod p fun y =>
        { y with point := .loadReported, loadMutex := y.loadMutex + 1 })
  | exitKids (p : ThreadId) (hpt : (s.proc p).point = .exitKids) : Move s (.go p) (s.exitKids p)
  | exitNotify (p : ThreadId) (hpt : (s.proc p).point = .exitNotify) :
      Move s (.go p) (s.exitNotify p)
  | exitDown (p : ThreadId) (s' : Sys)
      (hpt : (s.proc p).point = .exitWait)
      (hs : s.exitDown p = some s') : Move s (.go p) s'
  | scheduleTail (p : ThreadId) (s' : Sys)
      (hpt : (s.proc p).point = .dying)
      (hs : s.scheduleTail p = some s') : Move s (.go p) s'

theorem at_eq {f : Sys → Sys} (h : s.at_ p pt f = some s') : (s.proc p).point = pt ∧ f s = s' := by
  unfold at_ at h
  split at h
  case isTrue hpt => exact ⟨hpt, some.inj h⟩
  case isFalse => cases h

theorem go_move (hs : s.go p = some s') : Move s (.go p) s' := by
  unfold go at hs
  split at hs
  case h_1 c hpt => exact some.inj hs ▸ .listChild p c hpt
  case h_2 c hpt => exact .loadDown p c s' hpt hs
  case h_3 c hpt => exact some.inj hs ▸ .checkLoad p c hpt
  case h_4 c hpt => exact some.inj hs ▸ .createReturn p c hpt
  case h_5 c pid hpt => exact .waitDown p c pid s' hpt hs
  case h_6 c pid hpt => exact some.inj hs ▸ .waitRead p c pid hpt
  case h_7 c pid r hpt => exact some.inj hs ▸ .waitReap p c pid r hpt
  case h_8 hpt => exact some.inj hs ▸ .loadFailed p hpt
  case h_9 hpt => exact some.inj hs ▸ .enterExit _ p (-1) (.inr hpt)
  case h_10 hpt => exact some.inj hs ▸ .exitKids p hpt
  case h_11 hpt => exact some.inj hs ▸ .exitNotify p hpt
  case h_12 hpt => exact .exitDown p s' hpt hs
  case h_13 hpt => exact .scheduleTail p s' hpt hs
  all_goals cases hs

/-- Every step is one of the moves. -/
theorem step_move (hs : s.step a = some s') : Move s a s' := by
  cases a with
  | exec p =>
    simp only [Sys.step] at hs
    obtain ⟨hpt, rfl⟩ := at_eq hs
    exact .enter _ p (fun _ => true) hpt
  | create p =>
    simp only [Sys.step] at hs
    obtain ⟨hpt, rfl⟩ := at_eq hs
    exact .enter _ p Proc.callingExec hpt
  | alloc p ok =>
    obtain ⟨hpt, rfl⟩ := at_eq hs
    exact .alloc p ok hpt
  | load c ok =>
    obtain ⟨hpt, rfl⟩ := at_eq hs
    exact .load c ok hpt
  | wait p pid =>
    obtain ⟨hpt, rfl⟩ := at_eq hs
    exact .wait p pid hpt
  | exit p status =>
    obtain ⟨hpt, rfl⟩ := at_eq hs
    exact .enterExit _ p status (.inl hpt)
  | kill p =>
    obtain ⟨hpt, rfl⟩ := at_eq hs
    exact .enterExit _ p (-1) (.inl hpt)
  | threadExit p =>
    obtain ⟨hpt, rfl⟩ := at_eq hs
    exact .enterExit _ p _ (.inl hpt)
  | go p => exact go_move hs

/-- Every step of the process system keeps the invariant. -/
theorem Inv.move (hi : Inv s) (hm : Move s a s') : Inv s' := by
  cases hm with
  | enter a p ce hpt =>
    exact hi.quiet .creating ce hpt nofun (fun _ => rfl) (fun _ => rfl) rfl nofun
  | alloc p ok hpt => exact hi.alloc ok hpt
  | load c ok hpt => exact hi.load ok hpt
  | wait p pid hpt => exact hi.processWait pid hpt
  | enterExit a p status hpt =>
    rcases hpt with hpt | hpt <;> exact hi.enterExit status hpt nofun (fun _ => rfl) rfl
  | listChild p c hpt => exact hi.listChild hpt
  | loadDown p c s' hpt hs => exact hi.loadDown hpt hs
  | checkLoad p c hpt => exact hi.checkLoad hpt
  | createReturn p c hpt => exact hi.createReturn hpt
  | waitDown p c pid s' hpt hs => exact hi.waitDown hpt hs
  | waitRead p c pid hpt => exact hi.waitRead hpt
  | waitReap p c pid r hpt => exact hi.waitReap hpt
  | loadFailed p hpt => exact hi.loadFailed hpt
  | exitKids p hpt => exact hi.exitKids hpt
  | exitNotify p hpt => exact hi.exitNotify hpt
  | exitDown p s' hpt hs => exact hi.exitDown hpt hs
  | scheduleTail p s' hpt hs => exact hi.scheduleTail hpt hs

-- ==== the records after a step

/-- The thread that takes the step. -/
def Act.actor : Act → ThreadId
  | .exec p | .create p | .alloc p _ | .load p _ | .wait p _ | .exit p _
  | .kill p | .threadExit p | .go p => p

/-- Not one of the points that few steps come to. -/
def plain : Point → Bool
  | .loading | .exitWait | .onChild _ .created => false
  | _ => true

/-- What a step of `p` does to its own record, births and ends of loads
apart. -/
structure Own (a : Act) (p : ThreadId) (x x' : Proc) : Prop where
  creator : x'.creator = x.creator
  byExec : x'.byExec = x.byExec
  tid : x'.tid = x.tid
  point : plain x'.point = true ∨ x'.point = .exitWait ∧ a = .go p ∧ x.point = .exitNotify
  told : x.point.phase = .loading ∧ 0 < x'.loadMutex ∨
    x.point.phase ≠ .loading ∧ x'.loadMutex = x.loadMutex
  lowered : a ≠ .exec p → x.callingExec = false → x'.callingExec = false

/-- And to the records of the others. -/
structure Shape (a : Act) (p : ThreadId) (s s' : Sys) : Prop where
  count : s'.count = s.count
  own : Own a p (s.proc p) (s'.proc p)
  base : ∀ u, u ≠ p → SameBase (s.proc u) (s'.proc u)
  tid : ∀ u, u ≠ p → (s'.proc u).tid = (s.proc u).tid
  mutex : ∀ u, u ≠ p → (s.proc p).point ≠ .onChild u .loadWait →
    (s'.proc u).loadMutex = (s.proc u).loadMutex

/-- A step of `p` from the point `pt` on its own record and that of `c`. -/
theorem Shape.pair (hne : p ≠ c) (hpt : (s.proc p).point = pt) (hfrom : pt.phase ≠ .loading)
    (hg : SameBase (s.proc c) (g (s.proc c))) (htid : (g (s.proc c)).tid = (s.proc c).tid)
    (hmutex : pt ≠ .onChild c .loadWait → (g (s.proc c)).loadMutex = (s.proc c).loadMutex)
    (hto : plain (f (s.proc p)).point = true) (hf : f (s.proc p) = { s.proc p with
      point := (f (s.proc p)).point, childList := (f (s.proc p)).childList }) :
    Shape a p s ((s.mod c g).mod p f) := by
  have hp : ((s.mod c g).mod p f).proc p = f (s.proc p) := by rw [mod_self, mod_ne s g hne]
  have hc : ((s.mod c g).mod p f).proc c = g (s.proc c) := by rw [mod_ne _ f hne.symm, mod_self]
  have hu u (hup : u ≠ p) (huc : u ≠ c) : ((s.mod c g).mod p f).proc u = s.proc u := by
    rw [mod_ne _ f hup, mod_ne _ g huc]
  refine ⟨rfl, ?_, ?_, ?_, ?_⟩
  · rw [hp]
    refine ⟨?_, ?_, ?_, .inl hto, .inr ⟨hpt ▸ hfrom, ?_⟩, fun _ h => ?_⟩ <;>
      rw [hf]
    exact h
  all_goals
    intro u hup
    by_cases huc : u = c
  · rw [huc, hc]
    exact hg
  · rw [hu u hup huc]
    exact ⟨rfl, rfl, rfl, rfl, rfl⟩
  · rw [huc, hc, htid]
  · rw [hu u hup huc]
  · rw [huc, hc, hpt]
    exact hmutex
  · rw [hu u hup huc]
    exact fun _ => rfl

theorem Shape.mod (hf : Own a p (s.proc p) (f (s.proc p))) : Shape a p s (s.mod p f) := by
  refine ⟨rfl, ?_, fun u hu => ?_, fun u hu => ?_, fun u hu _ => ?_⟩
  · rw [mod_self]
    exact hf
  all_goals rw [mod_ne s f hu]
  exact ⟨rfl, rfl, rfl, rfl, rfl⟩

/-- A step of `p` from the point `pt` on its own record. -/
theorem Shape.self (hpt : (s.proc p).point = pt) (hfrom : pt.phase ≠ .loading)
    (hto : plain (f (s.proc p)).point = true) (hcr : (f (s.proc p)).creator = (s.proc p).creator)
    (hex : (f (s.proc p)).byExec = (s.proc p).byExec) (htid : (f (s.proc p)).tid = (s.proc p).tid)
    (hmutex : (f (s.proc p)).loadMutex = (s.proc p).loadMutex)
    (hlow : a ≠ .exec p → (s.proc p).callingExec = false →
      (f (s.proc p)).callingExec = false) : Shape a p s (s.mod p f) :=
  .mod ⟨hcr, hex, htid, .inl hto, .inr ⟨hpt ▸ hfrom, hmutex⟩, hlow⟩

theorem Shape.emit (h : Shape a p s s') (e : Event) : Shape a p s (s'.emit e) :=
  ⟨h.count, h.own, h.base, h.tid, h.mutex⟩

theorem enterExit_shape (status : Int) (hpt : (s.proc p).point = pt)
    (hfrom : pt.phase ≠ .loading) : Shape a p s (s.enterExit p status) :=
  (Shape.self hpt hfrom rfl rfl rfl rfl rfl fun _ => id).emit _

theorem go_shape (hi : Inv s) (h : s.go p = some s') : Shape (.go p) p s s' := by
  have hown : ∀ {d st}, (s.proc p).point = .onChild d st → p ≠ d :=
    fun hpt => Nat.ne_of_lt (hi.owns _ _ (holds_of_point hpt)).2.1
  unfold go at h
  split at h
  case h_1 c hpt =>
    cases h
    unfold Sys.listChild
    split <;> exact .self hpt nofun rfl rfl rfl rfl rfl fun _ => id
  case h_2 c hpt =>
    obtain ⟨-, ⟨⟩⟩ := ite_none_right_eq_some.mp h
    exact .pair (hown hpt) hpt nofun ⟨rfl, rfl, rfl, rfl, rfl⟩ rfl
      (fun hne => absurd rfl hne) rfl rfl
  case h_3 c hpt =>
    cases h
    unfold Sys.checkLoad
    split <;> exact .self hpt nofun rfl rfl rfl rfl rfl fun _ => id
  case h_4 c hpt =>
    cases h
    exact .self hpt nofun rfl rfl rfl rfl rfl fun _ _ => rfl
  case h_5 c pid hpt =>
    obtain ⟨-, ⟨⟩⟩ := ite_none_right_eq_some.mp h
    exact .pair (hown hpt) hpt nofun ⟨rfl, rfl, rfl, rfl, rfl⟩ rfl (fun _ => rfl) rfl rfl
  case h_6 c pid hpt =>
    cases h
    exact .self hpt nofun rfl rfl rfl rfl rfl fun _ => id
  case h_7 c pid r hpt =>
    cases h
    exact ((Shape.pair (hown hpt) hpt nofun ⟨rfl, rfl, rfl, rfl, rfl⟩ rfl
      (fun _ => rfl) rfl rfl).emit _).emit _
  case h_8 hpt =>
    cases h
    refine .mod ⟨rfl, rfl, rfl, .inl rfl, .inl ⟨?_, Nat.succ_pos _⟩, fun _ => id⟩
    rw [hpt]
    rfl
  case h_9 hpt =>
    cases h
    exact enterExit_shape (-1) hpt nofun
  case h_10 hpt =>
    cases h
    unfold Sys.exitKids
    split
    case h_1 => exact .self hpt nofun rfl rfl rfl rfl rfl fun _ => id
    case h_2 c rest hl =>
      have hlt := (hi.owns p c (.inl (hl ▸ mem_cons_self ..))).2.1
      exact (Shape.pair (Nat.ne_of_lt hlt) hpt nofun
        ⟨rfl, rfl, rfl, rfl, rfl⟩ rfl (fun _ => rfl) rfl rfl).emit _
  case h_11 hpt =>
    cases h
    refine .mod ⟨rfl, rfl, rfl, .inr ⟨rfl, rfl, hpt⟩, .inr ⟨?_, rfl⟩, fun _ => id⟩
    rw [hpt]
    nofun
  case h_12 hpt =>
    obtain ⟨-, ⟨⟩⟩ := ite_none_right_eq_some.mp h
    exact .self hpt nofun rfl rfl rfl rfl rfl fun _ => id
  case h_13 hpt =>
    obtain ⟨-, ⟨⟩⟩ := ite_none_left_eq_some.mp h
    exact (Shape.self hpt nofun rfl rfl rfl rfl rfl fun _ => id).emit _
  all_goals cases h

/-- Every step has this shape, births and ends of loads apart. -/
theorem step_shape (hi : Inv s) (hs : s.step a = some s') (hbirth : ∀ p, a ≠ .alloc p true)
    (hload : ∀ c ok, a ≠ .load c ok) : Shape a a.actor s s' := by
  cases a with
  | load c ok => exact absurd rfl (hload c ok)
  | go p => exact go_shape hi hs
  | exec p =>
    simp only [Sys.step] at hs
    obtain ⟨hpt, rfl⟩ := at_eq hs
    exact .self hpt nofun rfl rfl rfl rfl rfl fun h => absurd rfl h
  | create p =>
    simp only [Sys.step] at hs
    obtain ⟨hpt, rfl⟩ := at_eq hs
    exact .self hpt nofun rfl rfl rfl rfl rfl fun _ => id
  | alloc p ok =>
    obtain ⟨hpt, rfl⟩ := at_eq hs
    cases ok with
    | true => exact absurd rfl (hbirth p)
    | false =>
      exact Shape.self (f := fun x => { x with point := .running, callingExec := false }) hpt nofun
        rfl rfl rfl rfl rfl fun _ _ => rfl
  | wait p pid =>
    obtain ⟨hpt, rfl⟩ := at_eq hs
    have hidle : Shape (.wait p pid) p s (s.mod p id) :=
      .self hpt nofun (hpt ▸ rfl) rfl rfl rfl rfl fun _ => id
    rw [mod_id] at hidle
    unfold Sys.processWait
    split
    case h_1 => exact hidle.emit _
    case h_2 c hc =>
      split
      case isTrue => exact hidle.emit _
      case isFalse =>
        have hlt := (hi.owns p c (.inl (findChild_eq hc).1)).2.1
        exact .pair (Nat.ne_of_lt hlt) hpt nofun
          ⟨rfl, rfl, rfl, rfl, rfl⟩ rfl (fun _ => rfl) rfl rfl
  | exit p status =>
    obtain ⟨hpt, rfl⟩ := at_eq hs
    exact enterExit_shape status hpt nofun
  | kill p =>
    obtain ⟨hpt, rfl⟩ := at_eq hs
    exact enterExit_shape (-1) hpt nofun
  | threadExit p =>
    obtain ⟨hpt, rfl⟩ := at_eq hs
    exact enterExit_shape _ hpt nofun

theorem inv_boot : Inv boot := by
  have hnone : ∀ p c, ¬boot.holds p c := by
    intro p c hh
    rcases hh with hh | hh
    · cases hh
    · refine hh ?_
      unfold boot
      simp only
      split <;> rfl
  refine ⟨fun p c hh => absurd hh (hnone p c), fun _ => nodup_nil, ?_, ?_,
    fun _ _ => rfl, ?_, Nat.one_pos⟩
  · intro c hc
    obtain rfl : c = 0 := Nat.lt_one_iff.mp hc
    have hl : Link 0 False (some .created) (boot.proc 0) 0 := Link.born false id
    exact { hl with
        held := fun _ => rfl
        exec := fun h => by cases h
        created := fun h => by cases h
        mem := fun g h => by cases h
        loading := fun h => by cases h
        failed := fun h => by cases h
        kept := fun h => by cases h
        wakes := fun _ h => by cases h
        waits := fun g pid h => by cases h
        waited := fun h => by cases h
        read := fun _ h => by cases h
        result := fun _ _ h => by cases h }
  · intro p c hpt
    unfold boot at hpt
    simp only at hpt
    split at hpt <;> cases hpt
  · intro t ht
    have : t ≠ 0 := Nat.ne_of_gt ht
    exact ⟨if_neg this, rfl, rfl⟩

end Sys

end Pintos.Process
