/-
Threads that sleep at the end of `thread_exit`, and who can wake them.

A thread leaves `child_list` on four paths: reaped by a wait, released by
its creator's exit, dropped after a failed load, or never listed at all.
The first two raise its `exit_mutex`. `Claimed` excludes the other two,
and the window of `thread_create` between `thread_unblock` and
`list_push_back`.
-/
import Pintos.Userprog.WaitExit

namespace Pintos.Process

open Transition

namespace Sys

/-- `t` was started by `exec`, its load did not fail, and its creator is
past the `list_push_back` of `thread_create`. -/
def Claimed (s : Sys) (t : ThreadId) : Prop :=
  (s.proc t).byExec = true ∧ (s.proc t).tid ≠ tidError ∧
    (s.proc (s.proc t).creator).point ≠ .onChild t .created

/-- What a step leaves of the claims on a record and by it; `now` is what
is known when the step is the record's own `sema_up (&wait_mutex)`. -/
structure SameClaim (t : ThreadId) (now : Prop) (y y' : Proc) : Prop where
  creator : y.point ≠ .unborn → y'.creator = y.creator
  byExec : y.point ≠ .unborn → y'.byExec = y.byExec
  tid : y.point ≠ .unborn → y.point.phase ≠ .loading → y'.tid = y.tid
  created : y'.point = .onChild t .created → y.point = .onChild t .created
  exitWait : y'.point = .exitWait → y.point = .exitWait ∨ now

variable {t : ThreadId} {y y' : Proc} {s : Sys}

theorem SameClaim.of_base {now : Prop}
    (hb : SameBase y y') (htid : y'.tid = y.tid) : SameClaim t now y y' := by
  refine ⟨fun _ => hb.creator, fun _ => hb.byExec, fun _ _ => htid, ?_, ?_⟩ <;>
    rw [hb.point]
  · exact id
  · exact .inl

/-- A move to a point that is neither of the two that matter. -/
theorem SameClaim.of_point {now : Prop} (hcr : y'.creator = y.creator) (hex : y'.byExec = y.byExec)
    (htid : y'.tid = y.tid) (hc : y'.point ≠ .onChild t .created) (hw : y'.point ≠ .exitWait) :
    SameClaim t now y y' :=
  ⟨fun _ => hcr, fun _ => hex, fun _ _ => htid, fun h => absurd h hc, fun h => absurd h hw⟩

variable {s' : Sys} {p c : ThreadId} {f g : Proc → Proc} {now : Prop}

theorem SameClaim.mod (hf : SameClaim t now (s.proc p) (f (s.proc p)))
    (u : ThreadId) : SameClaim t now (s.proc u) ((s.mod p f).proc u) := by
  by_cases hu : u = p
  · rw [hu, mod_self]
    exact hf
  · rw [mod_ne s f hu]
    exact .of_base ⟨rfl, rfl, rfl, rfl, rfl⟩ rfl

theorem SameClaim.of_shape {a : Act} (h : Shape a p s s') (u : ThreadId) :
    SameClaim t (a = .go u ∧ (s.proc u).point = .exitNotify) (s.proc u) (s'.proc u) := by
  by_cases hu : u = p
  · subst hu
    refine ⟨fun _ => h.own.creator, fun _ => h.own.byExec,
      fun _ _ => h.own.tid, fun hc => ?_, fun hw => .inr ?_⟩
    · rcases h.own.point with hp | ⟨hp, -⟩
      · rw [hc] at hp
        cases hp
      · cases hc.symm.trans hp
    · rcases h.own.point with hp | ⟨-, hp⟩
      · rw [hw] at hp
        cases hp
      · exact hp
  · exact .of_base (h.base u hu) (h.tid u hu)

/-- The end of a load: the `tid` may change here and nowhere else. -/
theorem SameClaim.load (ok : Bool) (hpt : (s.proc p).point = .loading)
    (u : ThreadId) : SameClaim t now (s.proc u) ((s.load p ok).proc u) := by
  have hphase : (s.proc p).point.phase = .loading := hpt ▸ rfl
  unfold Sys.load
  split
  · refine SameClaim.mod (.of_point rfl rfl rfl ?_ ?_) u <;> simp
  · refine SameClaim.mod ⟨fun _ => rfl, fun _ => rfl, fun _ h => absurd hphase h, ?_, ?_⟩ u <;> simp

theorem SameClaim.alloc (hi : Inv s) (hpt : (s.proc p).point = .creating) (ht : t < s.count)
    (u : ThreadId) : SameClaim t now (s.proc u) ((s.alloc p true).proc u) := by
  have hb := alloc_birth (hi.born (p := p) (by rw [hpt]; simp))
  by_cases hup : u = p
  · rw [hup, hb.self]
    refine .of_point rfl rfl rfl ?_ ?_
    · simpa using (Nat.ne_of_lt ht).symm
    · simp
  · by_cases huc : u = s.count
    · have hub := (hi.unborn _ (Nat.le_refl s.count)).1
      have hpt' : ∀ {pt : Point}, (s.initThread p).point = pt → pt = .loading ∨ pt = .running := by
        rintro pt rfl
        unfold initThread
        simp only
        split
        · exact .inl rfl
        · exact .inr rfl
      rw [huc, hb.new]
      refine ⟨fun h => absurd hub h, fun h => absurd hub h, fun h => absurd hub h, ?_, ?_⟩ <;>
      · intro h
        rcases hpt' h with h | h <;> cases h
    · rw [hb.old u hup huc]
      exact .of_base ⟨rfl, rfl, rfl, rfl, rfl⟩ rfl

theorem step_sameClaim {a : Act} (hi : Inv s) (hs : s.step a = some s')
    (ht : t < s.count) (u : ThreadId) :
    SameClaim t (a = .go u ∧ (s.proc u).point = .exitNotify) (s.proc u) (s'.proc u) := by
  by_cases hbirth : ∃ p, a = .alloc p true
  · obtain ⟨p, rfl⟩ := hbirth
    obtain ⟨hpt, rfl⟩ := at_eq hs
    exact .alloc hi hpt ht u
  by_cases hload : ∃ c ok, a = .load c ok
  · obtain ⟨c, ok, rfl⟩ := hload
    obtain ⟨hpt, rfl⟩ := at_eq hs
    exact .load ok hpt u
  · exact .of_shape (step_shape hi hs (fun p h => hbirth ⟨p, h⟩) fun c ok h => hload ⟨c, ok, h⟩) u

/-- The runs in which only claimed threads come to wait for their reaper. -/
def claimGuard (a : Act) (s : Sys) : Prop :=
  match a with
  | .go p => (s.proc p).point = .exitNotify → s.Claimed p
  | _ => True

/-- A claim on a thread past its load is never lost. -/
theorem Claimed.move {s' : Sys} {a : Act} (hc : s.Claimed t) (hi : Inv s) (hs : s.step a = some s')
    (hborn : (s.proc t).point ≠ .unborn) (hphase : (s.proc t).point.phase ≠ .loading) : s'.Claimed t
    := by
  have ht := hi.born hborn
  have hself := step_sameClaim hi hs ht t
  obtain ⟨hex, htid, hst⟩ := hc
  refine ⟨(hself.byExec hborn).trans hex, ?_, ?_⟩
  · rw [hself.tid hborn hphase]
    exact htid
  · rw [hself.creator hborn]
    exact fun h => hst ((step_sameClaim hi hs ht _).created h)

theorem exitWait_claimed (hr : Reach Booted step claimGuard s) :
    ∀ t, (s.proc t).point = .exitWait → s.Claimed t := by
  refine Reach.induct (P := fun s => ∀ t, (s.proc t).point = .exitWait → s.Claimed t) ?_ ?_ s hr
  · rintro s rfl t ht
    unfold boot at ht
    simp only at ht
    split at ht <;> cases ht
  · intro a s s' hr ih hok hs t ht
    have hi := (reachable_inv hr).1
    rcases (step_sameClaim hi hs hi.initial t).exitWait ht with
      hold | ⟨rfl, hold⟩
    · exact (ih t hold).move hi hs (by rw [hold]; simp) (by rw [hold]; simp [Point.phase])
    · exact (hok hold).move hi hs (by rw [hold]; simp) (by rw [hold]; simp [Point.phase])

/-- Created, and not past the loop of `thread_exit` that releases the
threads in `child_list`. -/
def Live (s : Sys) (p : ThreadId) : Prop := p < s.count ∧ (s.proc p).point.drained = false

/-- Every thread asleep on its `exit_mutex` is in the `child_list` of a
live thread. -/
def NoOrphans (s : Sys) : Prop :=
  ∀ t, (s.proc t).point = .exitWait → (s.proc t).exitMutex = 0 →
    ∃ p, s.Live p ∧ t ∈ (s.proc p).childList

/-- In every run in which only claimed threads reach the end of
`thread_exit`, nothing waits there for ever. -/
theorem no_orphaned_zombies {s : Sys} (hr : Reach Booted step claimGuard s) : NoOrphans s := by
  intro t ht hmutex
  have hi := (reachable_inv hr).1
  have htc := hi.born (p := t) (by rw [ht]; simp)
  obtain ⟨hex, htid, hst⟩ := exitWait_claimed hr t ht
  have hl := hi.link t htc
  have hstage : (s.proc (s.proc t).creator).point.stage t ≠ some .created := by
    intro h
    unfold Point.stage at h
    split at h
    case h_1 d g hpt =>
      obtain ⟨hdt, h⟩ := Option.ite_none_right_eq_some.mp h
      rw [hdt, Option.some.inj h] at hpt
      exact hst hpt
    case h_2 => cases h
  -- not raised yet, so still listed
  have hmem := (hl.kept hex htid hstage).resolve_right fun hone => by
    have := hl.mutex
    rw [hmutex, ht] at this
    simp [Point.phase, hone] at this
  refine ⟨_, ⟨?_, ?_⟩, hmem⟩
  · have hlt := (hi.owns _ t (.inl hmem)).2
    exact Nat.lt_trans hlt.1 hlt.2
  · by_contra hd
    simp [hi.drained _ (by simpa using hd)] at hmem

instance (s : Sys) (t : ThreadId) : Decidable (s.Claimed t) :=
  inferInstanceAs (Decidable (_ ∧ _ ∧ _))

instance (a : Act) (s : Sys) : Decidable (claimGuard a s) :=
  match a with
  | .go p => inferInstanceAs (Decidable (_ → s.Claimed p))
  | .exec _ | .create _ | .alloc _ _ | .load _ _ | .wait _ _ | .exit _ _
  | .kill _ | .threadExit _ => .isTrue trivial

/-- A child that loaded and exited sleeps in the list of its creator. -/
theorem no_orphaned_zombies_child :
    ∃ s, Reach Booted step claimGuard s ∧ (s.proc 1).point = .exitWait ∧
      (s.proc 1).exitMutex = 0 ∧ NoOrphans s := by
  have h0 : Reach Booted step claimGuard boot := .init rfl
  obtain ⟨s, hr, hpt, hm⟩ := h0.of_runAll
    [.exec 0, .alloc 0 true, .go 0, .load 1 true, .go 0, .exit 1 7, .go 1, .go 1]
    (fun s => (s.proc 1).point = .exitWait ∧ (s.proc 1).exitMutex = 0) (by decide)
  exact ⟨s, hr, hpt, hm, no_orphaned_zombies hr⟩

/-- A failed load: `thread_create` takes the child out of `child_list`
without raising its `exit_mutex`, and the child sleeps on it. -/
theorem failed_load_orphaned : ∃ s, Reach Booted step anyStep s ∧ ¬NoOrphans s := by
  have h0 : Reach Booted step anyStep boot := .init rfl
  obtain ⟨s, hr, hpt, hm, hcr, hlist⟩ := h0.of_runAll
    [.exec 0, .alloc 0 true, .go 0, .load 1 false, .go 1, .go 0, .go 0, .go 0, .go 1, .go 1, .go 1]
    (fun s => (s.proc 1).point = .exitWait ∧ (s.proc 1).exitMutex = 0 ∧
      (s.proc 1).creator = 0 ∧ (s.proc 0).childList = []) (by decide)
  refine ⟨s, hr, fun hno => ?_⟩
  obtain ⟨p, -, hmem⟩ := hno 1 hpt hm
  have hp := ((reachable_inv hr).1.owns p 1 (.inl hmem)).1
  rw [hcr] at hp
  simp [← hp, hlist] at hmem

end Sys

end Pintos.Process
