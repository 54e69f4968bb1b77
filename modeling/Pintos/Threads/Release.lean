/-
The priority `lock_release` leaves a thread with.

# Where the value comes from

`lock_release` does not look at the threads that wait: it takes the
highest `max_priority` among the locks the thread still holds, and its
base. The result is right as far as these caches are: a cache above the
base has to be the priority of a thread that waits for the lock, and no
thread that waits may be above both the cache and the base (`Held`).

# What can spoil a cache

- `lock_acquire` writes it only when it donates. A thread that finds the
  holder at or above its own priority leaves no trace, which matters as
  soon as the holder owes that priority to a donation.
- A donation that is passed on along `lock_waiting` may reach a lock the
  thread no longer waits for, or miss the one it waits for, or end at a
  lock that has been released and not yet taken.
- A lock that is taken by another thread than the one woken for it sends
  the latter back to sleep, without a donation.
- `lock_release` reads the new cache off the second waiter in list order,
  which is the next one to be woken if the list is sorted.
- `thread_set_priority` may lower the base under a priority that was not
  recorded because of it.

`releaseGuard` cuts these runs, and in the others the caches are right
(`CacheInv`). Between a release and the next owner a lock is `Free`: one
thread has been woken, and the cache is about those still asleep.
-/
import Pintos.Threads.Donation

namespace Pintos

open Transition List Option

namespace Kernel

-- ==== what a cache is for

def cache (k : Kernel) (m : LockId) : Int := (k.lock m).maxPriority

/-- `u` is in `lock_acquire (m)`, asleep or not. -/
def Inside (k : Kernel) (u : Tid) (m : LockId) : Prop := k.waitsOn u = some (.ofLock m)

/-- The cache of a lock held by `h` is right, up to `h`'s base. -/
structure Held (k : Kernel) (m : LockId) (h : Tid) : Prop where
  low : ∀ u, Inside k u m → k.prio u ≤ (k.thread h).oldPriority ∨ k.prio u ≤ k.cache m
  high : k.cache m ≤ priMin ∨ ∃ u, Inside k u m ∧ k.cache m ≤ k.prio u
  asleep : ∀ u, Inside k u m → u ∈ k.blockedOn m ∨ u = k.current

/-- The cache of a free lock is the highest priority of those asleep, and
no more than one thread was woken to take it. -/
structure Free (k : Kernel) (m : LockId) : Prop where
  alone : ∀ u v, Inside k u m → Inside k v m → u ∉ k.blockedOn m → v ∉ k.blockedOn m → u = v
  low : ∀ u ∈ k.blockedOn m, k.prio u ≤ k.cache m
  high : k.cache m ≤ priMin ∨ ∃ u ∈ k.blockedOn m, k.cache m ≤ k.prio u

structure CacheInv (k : Kernel) : Prop where
  base : ∀ t, priMin ≤ (k.thread t).oldPriority
  held : ∀ m h, (k.lock m).holder = some h → Held k m h
  free : ∀ m, (k.lock m).holder = none → Free k m

variable {k k' : Kernel} {m l : LockId} {t u : Tid}

variable {h : Tid} {ws : List Tid} {r : Option Tid}

theorem Held.strict (hh : Held k m h) (hp : (k.thread k.current).resume.Plain) (hu : Inside k u m) :
    u ∈ k.blockedOn m := by
  rcases hh.asleep u hu with h | rfl
  · exact h
  · exact absurd hu (hp m)

/-- Nothing about `m` has changed. -/
structure Unmoved (k k' : Kernel) (m : LockId) : Prop where
  inside : ∀ u, Inside k' u m ↔ Inside k u m
  blockedOn : k'.blockedOn m = k.blockedOn m
  cache : k'.cache m = k.cache m
  prio : ∀ u ∈ k.blockedOn m, k'.prio u = k.prio u

/-- A held lock that is left alone, by a step that leaves nobody awake in
its `lock_acquire`. -/
theorem Held.unmoved {h' : Tid} (hh : Held k m h) (hu : Unmoved k k' m)
    (hbase : ∀ u, Inside k u m → k.prio u ≤ (k.thread h).oldPriority →
      k.prio u ≤ (k'.thread h').oldPriority ∨ k.prio u ≤ k.cache m)
    (hin : ∀ u, Inside k u m → u ∈ k.blockedOn m) : Held k' m h' := by
  refine ⟨?_, ?_, ?_⟩
  · intro u hi
    have hi := (hu.inside u).mp hi
    rw [hu.prio u (hin u hi), hu.cache]
    rcases hh.low u hi with h | h
    · exact hbase u hi h
    · exact .inr h
  · rw [hu.cache]
    rcases hh.high with h | ⟨u, hi, h⟩
    · exact .inl h
    · exact .inr ⟨u, (hu.inside u).mpr hi, hu.prio u (hin u hi) ▸ h⟩
  · intro u hi
    rw [hu.blockedOn]
    exact .inl (hin u ((hu.inside u).mp hi))

theorem Free.unmoved (hf : Free k m) (hu : Unmoved k k' m) : Free k' m := by
  refine ⟨?_, ?_, ?_⟩
  · intro u v
    rw [hu.inside, hu.inside, hu.blockedOn]
    exact hf.alone u v
  · intro u hb
    rw [hu.blockedOn] at hb
    rw [hu.cache, hu.prio u hb]
    exact hf.low u hb
  · rw [hu.cache, hu.blockedOn]
    rcases hf.high with h | ⟨u, hb, h⟩
    · exact .inl h
    · exact .inr ⟨u, hb, hu.prio u hb ▸ h⟩

theorem secondPriority_congr (h : ∀ u ∈ ws, k.prio u = k'.prio u) :
    k.secondPriority ws = k'.secondPriority ws := by
  match ws with
  | [] => rfl
  | [_] => rfl
  | _ :: b :: _ => exact h b (by simp)

/-- After a release: of the sorted waiters `ws` the first has left, and
the cache is the priority of the second. -/
theorem Free.of_waiters (hmem : ∀ u, Inside k u m ↔ u ∈ ws) (hwaiters : k.blockedOn m = ws.tail)
    (hsorted : ws.Pairwise fun u v => k.prio v ≤ k.prio u)
    (hcache : k.cache m = k.secondPriority ws) : Free k m := by
  cases ws with
  | nil =>
    refine ⟨?_, ?_, .inl (le_of_eq hcache)⟩
    · intro u v hu
      exact absurd ((hmem u).mp hu) not_mem_nil
    · intro u hu
      simp [hwaiters] at hu
  | cons w rest =>
    have hfirst (u : Tid) (hu : Inside k u m) (hnot : u ∉ k.blockedOn m) : u = w := by
      rw [hwaiters] at hnot
      exact (mem_cons.mp ((hmem u).mp hu)).resolve_right hnot
    have htail := (pairwise_cons.mp hsorted).2
    refine ⟨?_, ?_, ?_⟩
    · intro u v hu hv hnu hnv
      rw [hfirst u hu hnu, hfirst v hv hnv]
    · intro u hu
      rw [hwaiters] at hu
      rw [hcache]
      cases rest with
      | nil => cases hu
      | cons b rest =>
        rcases mem_cons.mp hu with rfl | hu
        · exact le_refl _
        · exact (pairwise_cons.mp htail).1 u hu
    · rw [hcache, hwaiters]
      cases rest with
      | nil => exact .inl (le_refl _)
      | cons b rest => exact .inr ⟨b, mem_cons_self .., le_refl _⟩

theorem ListInv.inside (hi : ListInv k r) (hb : u ∈ k.blockedOn m) : Inside k u m :=
  (hi.blocked hb).2.2

theorem ListInv.one_lock (hi : ListInv k r) {m' : LockId}
    (hb : u ∈ k.blockedOn m) (hb' : u ∈ k.blockedOn m') : m = m' := by
  have h := hi.inside hb
  unfold Inside at h
  rw [hi.inside hb'] at h
  cases h
  rfl

-- ==== the guard

/-- What the donation loop reads off `t` is right: the lock it is blocked
on, and that one held; or, if it is blocked on none, nothing that leads
on to another thread. -/
def Tracks (k : Kernel) (t : Tid) : Prop :=
  (∀ m, t ∈ k.blockedOn m → (k.thread t).lockWaiting.head? = some m ∧ (k.lock m).holder ≠ none) ∧
  ((∀ m, t ∉ k.blockedOn m) → ∀ m ∈ (k.thread t).lockWaiting.head?,
    (k.lock m).holder = none ∨ (k.lock m).holder = some t)

/-- `t` does not, in the end, wait for itself. -/
def Untangled (k : Kernel) (t : Tid) : Prop := ∀ m, t ∈ k.blockedOn m → ¬OnChain k m t

/-- On the chain of `l`, the threads below the caller are tracked and not
in a deadlock, and the others are at or above it by their base. -/
def DonationSound (l : LockId) (k : Kernel) : Prop :=
  ∀ u, OnChain k l u →
    (k.prio u < k.prio k.current → Tracks k u ∧ Untangled k u) ∧
    (k.prio k.current ≤ k.prio u → k.prio k.current ≤ (k.thread u).oldPriority)

/-- The guard of the runs whose caches stay right. -/
def releaseGuard (a : Act) (k : Kernel) : Prop :=
  ownSemas a k ∧
    match a with
    | .lockAcquire l =>
      ((k.lock l).holder = none → ∀ u, Inside k u l → u ∈ k.blockedOn l) ∧
      ((k.lock l).holder ≠ none → DonationSound l k)
    | .lockRelease l => (k.blockedOn l).Pairwise fun u v => k.prio v ≤ k.prio u
    | .setPriority new => priMin ≤ new ∧
        ∀ u ∈ k.donors k.current, k.prio u ≤ new ∨ (k.thread k.current).oldPriority < k.prio u
    | _ => True

-- ==== the donation and the caches

theorem OnChain.congr (hb : ∀ m, k'.blockedOn m = k.blockedOn m)
    (hh : ∀ m, (k'.lock m).holder = (k.lock m).holder) (h : OnChain k' l u) : OnChain k l u := by
  induction h with
  | holder h =>
    rw [hh] at h
    exact .holder h
  | next _ hb' h ih =>
    rw [hh] at h
    rw [hb] at hb'
    exact .next ih hb' h

theorem Tracks.congr (hb : ∀ m, k'.blockedOn m = k.blockedOn m)
    (hh : ∀ m, (k'.lock m).holder = (k.lock m).holder)
    (hw : (k'.thread t).lockWaiting = (k.thread t).lockWaiting) (h : Tracks k t) : Tracks k' t := by
  unfold Tracks
  simp only [hb, hh, hw]
  exact h

theorem Untangled.congr (hb : ∀ m, k'.blockedOn m = k.blockedOn m)
    (hh : ∀ m, (k'.lock m).holder = (k.lock m).holder) (h : Untangled k t) : Untangled k' t := by
  intro m hm hc
  rw [hb] at hm
  exact h m hm (hc.congr hb hh)

theorem OnChain.prepend (ht : OnChain k l t) (hb : t ∈ k.blockedOn m)
    (h : OnChain k m u) : OnChain k l u := by
  induction h with
  | holder hh => exact .next ht hb hh
  | next _ hb' hh ih => exact .next ih hb' hh

/-- The trace a donation from `l` on leaves in the caches, `raised` being
the threads it raises: it is where the loop went, and where it stopped
the thread was not below. -/
structure Traced (l : LockId) (k k' : Kernel) (raised : List Tid) : Prop where
  on_chain : ∀ u ∈ raised, OnChain k l u
  mono : ∀ m, k.cache m ≤ k'.cache m
  origin : ∀ m, k'.cache m = k.cache m ∨
    k'.cache m = k.prio k.current ∧ (m = l ∨ ∃ u ∈ raised, u ∈ k.blockedOn m)
  first : ∀ t, (k.lock l).holder = some t →
    k.prio k.current ≤ k'.cache l ∨ k.prio k.current ≤ k.prio t
  rest : ∀ u ∈ raised, ∀ m h, u ∈ k.blockedOn m →
    (k.lock m).holder = some h →
    k.prio k.current ≤ k'.cache m ∨ k.prio k.current ≤ k.prio h

theorem Traced.none (h : ∀ t, (k.lock l).holder = some t → k.prio k.current ≤ k.prio t) :
    Traced l k k [] :=
  ⟨by simp, fun _ => le_refl _, fun _ => .inl rfl, fun t ht => .inr (h t ht), by simp⟩

theorem raise_cache (k : Kernel) (l m : LockId) (t : Tid) : (k.raise l t).cache m
      = if m = l then max (k.cache l) (k.prio k.current)
        else k.cache m := by
  unfold cache raise modLock
  dsimp only
  split <;> rfl

theorem raise_origin (k : Kernel) (l m : LockId) (t : Tid) :
    k.cache m ≤ (k.raise l t).cache m ∧
      ((k.raise l t).cache m = k.cache m ∨ (k.raise l t).cache m = k.prio k.current ∧ m = l) := by
  rw [raise_cache]
  split
  next hm =>
    rw [hm]
    refine ⟨le_max_left _ _, ?_⟩
    rcases le_total (k.prio k.current) (k.cache l) with h | h
    · exact .inl (max_eq_left h)
    · exact .inr ⟨max_eq_right h, rfl⟩
  · exact ⟨le_refl _, .inl rfl⟩

/-- The last turn of the loop, at a thread that is blocked on no lock. -/
theorem Traced.last (hh : (k.lock l).holder = some t)
    (hn : ∀ m, t ∉ k.blockedOn m) : Traced l k (k.raise l t) [t] := by
  refine ⟨?_, fun m => (raise_origin k l m t).1, ?_, ?_, ?_⟩
  · intro u hu
    rw [mem_singleton.mp hu]
    exact .holder hh
  · intro m
    rcases (raise_origin k l m t).2 with h | ⟨h, hm⟩
    · exact .inl h
    · exact .inr ⟨h, .inl hm⟩
  · intro u _
    rw [raise_cache, if_pos rfl]
    exact .inl (le_max_right _ _)
  · intro u hu m _ hb
    rw [mem_singleton.mp hu] at hb
    exact absurd hb (hn m)

/-- One turn of the loop in front of the others. -/
theorem Traced.cons {raised : List Tid}
    (hone : ∀ u m m', u ∈ k.blockedOn m → u ∈ k.blockedOn m' → m = m')
    (hh : (k.lock l).holder = some t) (hb : t ∈ k.blockedOn m) (hun : Untangled k t)
    (hrest : Traced m (k.raise l t) k' raised) : Traced l k k' (t :: raised) := by
  have hrep := raise_reprioritised k l t
  have hcur := raise_donor k l t
  have hblocked : ∀ m, (k.raise l t).blockedOn m = k.blockedOn m := fun _ => rfl
  -- whoever is further along is not the thread that was just raised
  have hprio (h : Tid) (hc : OnChain k m h) : (k.raise l t).prio h = k.prio h := by
    have hne : h ≠ t := fun he => hun m hb (he ▸ hc)
    rw [raise_prio, if_neg hne]
  have hchain : ∀ {u}, OnChain (k.raise l t) m u → OnChain k m u :=
    fun h => h.congr hblocked hrep.holder
  refine ⟨?_, ?_, ?_, ?_, ?_⟩
  · intro u hu
    rcases mem_cons.mp hu with rfl | hu
    · exact .holder hh
    · exact (OnChain.holder hh).prepend hb (hchain (hrest.on_chain u hu))
  · exact fun n => le_trans (raise_origin k l n t).1 (hrest.mono n)
  · intro n
    rcases hrest.origin n with h | ⟨h, hw⟩
    · rw [h]
      rcases (raise_origin k l n t).2 with h | ⟨h, hn⟩
      · exact .inl h
      · exact .inr ⟨h, .inl hn⟩
    · rw [hcur] at h
      refine .inr ⟨h, .inr ?_⟩
      rcases hw with rfl | ⟨u, hu, hb'⟩
      · exact ⟨t, mem_cons_self .., hb⟩
      · exact ⟨u, mem_cons_of_mem _ hu, hb'⟩
  · intro u _
    have := hrest.mono l
    rw [raise_cache, if_pos rfl] at this
    exact .inl (le_trans (le_max_right _ _) this)
  · intro u hu n h hb' hh'
    rcases mem_cons.mp hu with rfl | hu
    · have hnm := hone u n m hb' hb
      subst hnm
      have := hrest.first h (by rw [hrep.holder]; exact hh')
      rwa [hcur, hprio h (.holder hh')] at this
    · have := hrest.rest u hu n h hb' (by rw [hrep.holder]; exact hh')
      rwa [hcur, hprio h (.next (hchain (hrest.on_chain u hu)) hb' hh')] at this

/-- The conditions of the loop are those of what is left of it. -/
theorem tracked_raise (hh : (k.lock l).holder = some t) (hb : t ∈ k.blockedOn m)
    (hun : Untangled k t) (hok : ∀ u, OnChain k l u → k.prio u < k.prio k.current →
      Tracks k u ∧ Untangled k u) (hu : OnChain (k.raise l t) m u)
    (hlow : (k.raise l t).prio u < (k.raise l t).prio (k.raise l t).current) :
    Tracks (k.raise l t) u ∧ Untangled (k.raise l t) u := by
  have hrep := raise_reprioritised k l t
  have hblocked : ∀ m, (k.raise l t).blockedOn m = k.blockedOn m := fun _ => rfl
  have hc : OnChain k m u := hu.congr hblocked hrep.holder
  have hne : u ≠ t := fun he => hun m hb (he ▸ hc)
  rw [raise_donor, raise_prio, if_neg hne] at hlow
  obtain ⟨htr, hun'⟩ := hok u ((OnChain.holder hh).prepend hb hc) hlow
  refine ⟨htr.congr hblocked hrep.holder ?_, hun'.congr hblocked hrep.holder⟩
  rw [raise_thread]

theorem Donates.traced {o : Option Tid} {raised : List Tid} (hd : Donates l o k k' raised)
    (hh : o = (k.lock l).holder) (hone : ∀ u m m', u ∈ k.blockedOn m → u ∈ k.blockedOn m' → m = m')
    (hok : ∀ u, OnChain k l u → k.prio u < k.prio k.current → Tracks k u ∧ Untangled k u) :
    Traced l k k' raised := by
  induction hd with
  | free => exact Traced.none fun t ht => by cases hh.trans ht
  | above hge =>
    refine Traced.none fun u hu => ?_
    cases hh.trans hu
    exact not_lt.mp hge
  | @last l t k hbelow hw =>
    refine Traced.last hh.symm fun m hb => ?_
    have hfront := (((hok t (.holder hh.symm) hbelow).1.1 m hb).1)
    rw [hw] at hfront
    cases hfront
  | @next l' rest k' raised l t k hbelow hw hd ih =>
    have hrep := raise_reprioritised k l t
    obtain ⟨⟨hin, hout⟩, hun⟩ := hok t (.holder hh.symm) hbelow
    by_cases hsleeps : ∃ m, t ∈ k.blockedOn m
    · obtain ⟨m, hb⟩ := hsleeps
      obtain ⟨hfront, -⟩ := hin m hb
      rw [hw] at hfront
      cases hfront
      exact Traced.cons hone hh.symm hb hun (ih (hrep.holder _).symm hone
        fun u hu hlow => tracked_raise hh.symm hb hun hok hu hlow)
    · -- the front of the list is free or its own: the loop ends there
      have hnone := not_exists.mp hsleeps
      have hend : k' = k.raise l t ∧ raised = [] := by
        rcases hout hnone l' (hw ▸ rfl) with hm | hm
        · rw [hm] at hd
          cases hd
          exact ⟨rfl, rfl⟩
        · have hnot : ¬ (k.raise l t).prio t < (k.raise l t).prio (k.raise l t).current := by
            rw [raise_donor, raise_prio, if_pos rfl]
            exact lt_irrefl _
          rw [hm] at hd
          cases hd with
          | above => exact ⟨rfl, rfl⟩
          | last hlow => exact absurd hlow hnot
          | next hlow => exact absurd hlow hnot
      rw [hend.1, hend.2]
      exact Traced.last hh.symm hnone

/-- The caches after the donation. -/
theorem donated_traced (hlist : ListInv k (some k.current)) (hi : LockInv k)
    (hh : (k.lock l).holder = some t) (hok : DonationSound l k) :
    Traced l k (k.donated l t) (donees k.count l (some t) (k.queued l)) := by
  have hb : ∀ m, (k.queued l).blockedOn m = k.blockedOn m := fun _ => rfl
  have hholder : ∀ m, ((k.queued l).lock m).holder = (k.lock m).holder := fun _ => rfl
  have htr := (donate_ends k.count l _ (k.queued l) hi.holder_lt (hi.holder_lt l)
    (below_le _)).traced rfl (fun u m m' => hlist.one_lock) (by
      intro u hu hlow
      rw [queued_prio, queued_prio] at hlow
      have hc := hu.congr hb hholder
      obtain ⟨htr, hun⟩ := (hok u hc).1 hlow
      refine ⟨htr.congr hb hholder ?_, hun.congr hb hholder⟩
      have hne : u ≠ k.current := by
        intro h
        rw [h] at hlow
        exact lt_irrefl _ hlow
      unfold queued
      rw [modThread_thread, if_neg hne])
  rw [hh] at htr
  refine ⟨fun u hu => (htr.on_chain u hu).congr hb hholder, ?_, ?_, ?_, ?_⟩
  · exact htr.mono
  · intro m
    rcases htr.origin m with h | ⟨h, hw⟩
    · exact .inl h
    · rw [queued_prio] at h
      exact .inr ⟨h, hw⟩
  · intro u hu
    have := htr.first u hu
    rw [queued_prio, queued_prio] at this
    exact this
  · intro u hu m h hb' hh'
    have := htr.rest u hu m h hb' hh'
    rw [queued_prio, queued_prio] at this
    exact this

-- ==== the moves, one by one

namespace CacheInv

variable {k k' : Kernel}
variable {l : LockId}

/-- A step that keeps the bases and does nothing to the locks other than
`l`, in none of which the running thread is. -/
theorem elsewhere (hc : CacheInv k)
    (hold : ∀ t, (k'.thread t).oldPriority = (k.thread t).oldPriority)
    (hholder : ∀ m, m ≠ l → (k'.lock m).holder = (k.lock m).holder)
    (hmoved : ∀ m, m ≠ l → Unmoved k k' m) (hcur : ∀ m, m ≠ l → ¬Inside k k.current m)
    (hheld : ∀ h, (k'.lock l).holder = some h → Held k' l h)
    (hfree : (k'.lock l).holder = none → Free k' l) : CacheInv k' := by
  refine ⟨?_, ?_, ?_⟩
  · intro t
    rw [hold]
    exact hc.base t
  · intro m h hm
    by_cases hml : m = l
    · subst hml
      exact hheld h hm
    · rw [hholder m hml] at hm
      have hother := hc.held m h hm
      refine hother.unmoved (hmoved m hml) ?_ ?_
      · intro u _ hle
        rw [hold]
        exact .inl hle
      · intro u hu
        exact (hother.asleep u hu).resolve_right fun e => hcur m hml (e ▸ hu)
  · intro m hm
    by_cases hml : m = l
    · subst hml
      exact hfree hm
    · rw [hholder m hml] at hm
      exact (hc.free m hm).unmoved (hmoved m hml)

theorem quiet_inside (hq : Quiet k k') (hlt : ∀ u m, Inside k u m → u < k.count) (u : Tid)
    (m : LockId) : Inside k' u m ↔ Inside k u m := by
  rcases hq.thread u with ha | ⟨hge, hf⟩
  · exact ha.inLock m
  · refine ⟨fun h => absurd h (hf.resume m), fun h => ?_⟩
    exact absurd (hlt u m h) (not_lt.mpr hge)

theorem quiet_base (hq : Quiet k k') (hbase : ∀ t, priMin ≤ (k.thread t).oldPriority) (t : Tid) :
    priMin ≤ (k'.thread t).oldPriority := by
  rcases hq.thread t with ha | ⟨-, hf⟩
  · rw [ha.oldPriority]
    exact hbase t
  · exact hf.base

theorem quiet (hc : CacheInv k) (hi : LockInv k) (hin : ∀ u m, u ∈ k.blockedOn m → Inside k u m)
    (hp : (k.thread k.current).resume.Plain) (hq : Quiet k k') : CacheInv k' := by
  have hmoved (m : LockId) : Unmoved k k' m := by
    refine ⟨fun u => quiet_inside hq hi.inside_lt u m, hq.blockedOn m, ?_, ?_⟩
    · unfold cache
      rw [hq.lock]
    · exact fun u hu => hq.prio (hi.inside_lt u m (hin u m hu))
  refine ⟨quiet_base hq hc.base, ?_, ?_⟩
  · intro m h hh
    rw [hq.lock] at hh
    have hheld := hc.held m h hh
    refine hheld.unmoved (hmoved m) ?_ fun u => hheld.strict hp
    intro u _ hle
    rw [(hq.alike (hi.holder_lt m h hh)).oldPriority]
    exact .inl hle
  · intro m hm
    rw [hq.lock] at hm
    exact (hc.free m hm).unmoved (hmoved m)

/-- `lock_acquire` changes nothing about the other locks, the donation
apart. -/
theorem inside_entered (he : Entered l k k') (hp : (k.thread k.current).resume.Plain) (u : Tid)
    (m : LockId) : Inside k' u m ↔ Inside k u m ∨ u = k.current ∧ m = l := by
  unfold Inside waitsOn
  rw [he.resume]
  by_cases hu : u = k.current
  · subst hu
    rw [if_pos rfl]
    constructor
    · intro h
      cases h
      exact .inr ⟨rfl, rfl⟩
    · intro h
      rcases h with h | ⟨-, rfl⟩
      · exact absurd h (hp m)
      · rfl
  · simp [hu]

theorem enter (hc : CacheInv k) (hr : (k.thread k.current).resume = .none)
    (hh : (k.lock l).holder = none) (hok : ∀ u, Inside k u l → u ∈ k.blockedOn l) :
    CacheInv (k.entered l) := by
  have hp : (k.thread k.current).resume.Plain := hr ▸ Resume.plain_none
  have he := entered_entered l k
  have hin := inside_entered he hp
  have hprio (u : Tid) : (k.entered l).prio u = k.prio u := kept_at Thread.priority rfl
  refine hc.elsewhere (l := l) he.oldPriority (fun m _ => he.holder m) (fun m hm => ?_)
    (fun m _ => hp m) (fun h hl => ?_) fun _ => ?_
  · refine ⟨?_, rfl, rfl, fun u _ => hprio u⟩
    intro u
    rw [hin]
    simp [hm]
  · exact absurd (hh.symm.trans hl) (by simp)
  · have hf := hc.free l hh
    -- nobody was awake in it, so nobody is asleep in it either
    have hself (u : Tid) (hu : Inside (k.entered l) u l) (hn : u ∉ k.blockedOn l) :
        u = k.current := by
      rcases (hin u l).mp hu with h | ⟨h, -⟩
      · exact absurd (hok u h) hn
      · exact h
    refine ⟨?_, ?_, ?_⟩
    · intro u v hu hv hnu hnv
      rw [hself u hu hnu, hself v hv hnv]
    · intro u hu
      rw [hprio]
      exact hf.low u hu
    · rcases hf.high with h | ⟨u, hu, h⟩
      · exact .inl h
      · exact .inr ⟨u, hu, (hprio u).symm ▸ h⟩

section

variable (hlist : ListInv k (some k.current))

include hlist

theorem donate (hc : CacheInv k) (hi : LockInv k) (hr : (k.thread k.current).resume = .none)
    {t : Tid} (hh : (k.lock l).holder = some t) (hok : DonationSound l k) :
    CacheInv (k.donated l t) := by
  have hp : (k.thread k.current).resume.Plain := hr ▸ Resume.plain_none
  have he := donated_entered l t k
  have htr := donated_traced hlist hi hh hok
  have hin := inside_entered he hp
  have hprio := donated_prio k l t
  have hd := donate_effect k.count l (some t) (k.queued l)
  generalize donees k.count l (some t) (k.queued l) = raised at htr hprio hd
  have hbelow (u : Tid) (hu : u ∈ raised) : k.prio u < k.prio k.current := by
    have := hd.below u hu
    rw [queued_prio, queued_prio] at this
    exact this
  have hup (u : Tid) : k.prio u ≤ (k.donated l t).prio u := by
    rw [hprio]
    split
    next hu => exact le_of_lt (hbelow u hu)
    next => exact le_refl _
  have hself : (k.donated l t).prio k.current = k.prio k.current := by
    rw [hprio]
    split <;> rfl
  have hblocked (m : LockId) : (k.donated l t).blockedOn m = k.blockedOn m := by
    unfold Kernel.blockedOn
    rw [he.sema]
  -- a raised thread is asleep in no free lock
  have htaken (u : Tid) (hu : u ∈ raised) (m : LockId) (hb : u ∈ k.blockedOn m) :
      (k.lock m).holder ≠ none :=
    (((hok u (htr.on_chain u hu)).1 (hbelow u hu)).1.1 m hb).2
  refine ⟨?_, ?_, ?_⟩
  · intro u
    rw [he.oldPriority]
    exact hc.base u
  · intro m h hm
    rw [he.holder] at hm
    have hheld := hc.held m h hm
    -- where the loop stopped, the base is high enough
    have hstop : OnChain k l h → k.prio k.current ≤ k.prio h →
        k.prio k.current ≤ (k.thread h).oldPriority :=
      fun hch => (hok h hch).2
    refine ⟨?_, ?_, ?_⟩
    · intro u hu
      rw [he.oldPriority]
      rcases (hin u m).mp hu with hu | ⟨rfl, rfl⟩
      · by_cases hraised : u ∈ raised
        · have hb := hheld.strict hp hu
          have hch : OnChain k l h := .next (htr.on_chain u hraised) hb hm
          rw [hprio, if_pos hraised]
          rcases htr.rest u hraised m h hb hm with hle | hle
          · exact .inr hle
          · exact .inl (hstop hch hle)
        · rw [hprio, if_neg hraised]
          rcases hheld.low u hu with hle | hle
          · exact .inl hle
          · exact .inr (le_trans hle (htr.mono m))
      · rw [hself]
        rcases htr.first h hm with hle | hle
        · exact .inr hle
        · exact .inl (hstop (.holder hm) hle)
    · rcases htr.origin m with heq | ⟨heq, hw⟩
      · rw [heq]
        rcases hheld.high with hle | ⟨u, hu, hle⟩
        · exact .inl hle
        · exact .inr ⟨u, (hin u m).mpr (.inl hu), le_trans hle (hup u)⟩
      · rw [heq]
        rcases hw with rfl | ⟨u, hu, hb⟩
        · exact .inr ⟨k.current, (hin _ _).mpr (.inr ⟨rfl, rfl⟩), le_of_eq hself.symm⟩
        · refine .inr ⟨u, (hin u m).mpr (.inl (hlist.inside hb)), ?_⟩
          rw [hprio, if_pos hu]
    · intro u hu
      rw [hblocked, he.current]
      rcases (hin u m).mp hu with hu | ⟨rfl, -⟩
      · exact .inl (hheld.strict hp hu)
      · exact .inr rfl
  · intro m hm
    rw [he.holder] at hm
    have hf := hc.free m hm
    have hml : m ≠ l := by
      intro e
      simp [e, hh] at hm
    have hnot : ∀ u ∈ k.blockedOn m, u ∉ raised := fun u hb hu => htaken u hu m hb hm
    refine hf.unmoved ⟨?_, hblocked m, ?_, ?_⟩
    · intro u
      rw [hin]
      simp [hml]
    · rcases htr.origin m with heq | ⟨-, hw⟩
      · exact heq
      · rcases hw with e | ⟨u, hu, hb⟩
        · exact absurd e hml
        · exact absurd hu (hnot u hb)
    · intro u hb
      rw [hprio, if_neg (hnot u hb)]

theorem sleep (hc : CacheInv k) (hi : LockInv k) (hr : (k.thread k.current).resume = .lockAcquire l)
    (hv : (k.sema (.ofLock l)).value = 0) : CacheInv (k.semaWait (.ofLock l)) := by
  have hq := semaWait_quiet k (.ofLock l)
  have hin : ∀ u m, Inside (k.semaWait (.ofLock l)) u m ↔ Inside k u m :=
    (quiet_inside hq hi.inside_lt :)
  have hblocked (u : Tid) (m : LockId) : u ∈ (k.semaWait (.ofLock l)).blockedOn m
      ↔ u ∈ k.blockedOn m ∨ u = k.current ∧ m = l := by
    rw [hq.blockedOn]
    unfold Kernel.blockedOn modSema
    by_cases hm : m = l
    · simp [hm, or_comm]
    · simp [hm]
  have hcur (m : LockId) (hm : Inside k k.current m) : m = l := by
    have := hi.inside hm
    rw [hr] at this
    cases this
    rfl
  have hcache (m : LockId) : (k.semaWait (.ofLock l)).cache m = k.cache m := by
    unfold cache
    rw [hq.lock]
    rfl
  refine ⟨quiet_base hq hc.base, ?_, ?_⟩
  · intro m h hm
    rw [hq.lock] at hm
    have hheld := hc.held m h hm
    refine ⟨?_, ?_, ?_⟩
    · intro u hu
      have hu := (hin u m).mp hu
      rw [hq.prio (hi.inside_lt u m hu), hcache, (hq.alike (hi.holder_lt m h hm)).oldPriority]
      exact hheld.low u hu
    · rw [hcache]
      rcases hheld.high with hle | ⟨u, hu, hle⟩
      · exact .inl hle
      · exact .inr ⟨u, (hin u m).mpr hu, (hq.prio (hi.inside_lt u m hu)).symm ▸ hle⟩
    · intro u hu
      have hu := (hin u m).mp hu
      rcases hheld.asleep u hu with h | rfl
      · exact .inl ((hblocked u m).mpr (.inl h))
      · exact .inl ((hblocked _ m).mpr (.inr ⟨rfl, hcur m hu⟩))
  · intro m hm
    rw [hq.lock] at hm
    have hml : m ≠ l := by
      intro e
      exact hi.held hv (e ▸ hm)
    refine (hc.free m hm).unmoved ⟨fun u => hin u m, ?_, hcache m, ?_⟩
    · rw [hq.blockedOn]
      unfold Kernel.blockedOn modSema
      simp [hml]
    · exact fun u hu => hq.prio (hlist.blocked hu).1

/-- The one thread that was woken takes the lock; the cache is already
about those it leaves asleep. -/
theorem take (hc : CacheInv k) (hi : LockInv k) (hr : (k.thread k.current).resume = .lockAcquire l)
    (hv : (k.sema (.ofLock l)).value ≠ 0) : CacheInv (k.granted l) := by
  have hin (u : Tid) (m : LockId) : Inside (k.granted l) u m ↔ Inside k u m ∧ u ≠ k.current := by
    unfold Inside waitsOn
    rw [granted_thread]
    by_cases hu : u = k.current
    · simp [hu, Resume.sema]
    · simp [hu]
  have hself : Inside k k.current l := by
    unfold Inside waitsOn
    rw [hr]
    rfl
  have hcur (m : LockId) (hm : Inside k k.current m) : m = l := by
    unfold Inside at hm hself
    rw [hself] at hm
    cases hm
    rfl
  have hprio (u : Tid) : (k.granted l).prio u = k.prio u := by
    unfold Kernel.prio
    rw [granted_thread]
    exact kept_at Thread.priority rfl
  have hblocked (m : LockId) : (k.granted l).blockedOn m = k.blockedOn m := by
    unfold Kernel.blockedOn
    rw [granted_sema]
    split
    next h => rw [h]
    next => rfl
  have hcache (m : LockId) : (k.granted l).cache m = k.cache m := by
    unfold cache
    rw [granted_lock]
    split
    next h => rw [h]
    next => rfl
  refine hc.elsewhere (l := l) (fun u => ?_) (fun m hm => ?_) (fun m hm => ?_)
    (fun m hm h => hm (hcur m h)) (fun h _ => ?_) fun hl => ?_
  · rw [granted_thread]
    exact kept_at Thread.oldPriority rfl
  · rw [granted_lock, if_neg hm]
  · refine ⟨?_, hblocked m, hcache m, fun u _ => hprio u⟩
    intro u
    rw [hin]
    refine ⟨fun h => h.1, fun h => ⟨h, ?_⟩⟩
    intro e
    exact hm (hcur m (e ▸ h))
  · have hf := hc.free l (hi.free hv)
    have hasleep (u : Tid) (hu : Inside (k.granted l) u l) : u ∈ k.blockedOn l := by
      obtain ⟨hu, hne⟩ := (hin u l).mp hu
      by_contra hnot
      exact hne (hf.alone u _ hu hself hnot fun h => hlist.blocked_ne h rfl)
    refine ⟨?_, ?_, ?_⟩
    · intro u hu
      rw [hprio, hcache]
      exact .inr (hf.low u (hasleep u hu))
    · rw [hcache]
      rcases hf.high with hle | ⟨u, hb, hle⟩
      · exact .inl hle
      · refine .inr ⟨u, (hin u l).mpr ⟨hlist.inside hb, hlist.blocked_ne hb⟩, ?_⟩
        rw [hprio]
        exact hle
    · intro u hu
      rw [hblocked]
      exact .inl (hasleep u hu)
  · rw [granted_lock, if_pos rfl] at hl
    cases hl

end

theorem released_resume (k : Kernel) (l : LockId) (u : Tid) :
    ((k.released l).thread u).resume = (k.thread u).resume := kept_at Thread.resume rfl

theorem upped_inside (hpost : Upped (.ofLock l) (k.released l) k') (u : Tid)
    (m : LockId) : Inside k' u m ↔ Inside k u m := by
  refine ((hpost.thread u).inLock m).trans ?_
  rw [released_resume]
  rfl

/-- The waiters were sorted, so the thread that is woken is the first of
them and the new cache is the priority of the next. -/
theorem posted (hc : CacheInv k) (hlist : ListInv k (some k.current))
    (hr : (k.thread k.current).resume = .none) (hh : (k.lock l).holder = some k.current)
    (hsorted : (k.blockedOn l).Pairwise fun u v => k.prio v ≤ k.prio u)
    (hpost : Upped (.ofLock l) (k.released l) k') : CacheInv k' := by
  have hp : (k.thread k.current).resume.Plain := hr ▸ Resume.plain_none
  have hthread (u : Tid) (hu : u ≠ k.current) : (k.released l).thread u = k.thread u := by
    rw [released_thread, if_neg hu]
  have hin := upped_inside hpost
  have hprio {m : LockId} (u : Tid) (hb : u ∈ k.blockedOn m) : k'.prio u = k.prio u := by
    refine (hpost.thread u).priority.trans ?_
    rw [hthread u (hlist.blocked_ne hb)]
    rfl
  have hheld := hc.held l _ hh
  refine hc.elsewhere (l := l) (fun u => ?_) (fun m hm => ?_) (fun m hm => ?_) (fun m _ => hp m)
    (fun h hl => ?_) fun _ => ?_
  · rw [(hpost.thread u).oldPriority]
    exact kept_at Thread.oldPriority rfl
  · rw [hpost.lock, released_lock, if_neg hm]
  · refine ⟨fun u => hin u m, ?_, ?_, hprio⟩
    · unfold Kernel.blockedOn
      rw [hpost.sema _ (fun h => hm (SemaRef.ofLock.inj h))]
      rfl
    · unfold cache
      rw [hpost.lock, released_lock, if_neg hm]
  · rw [hpost.lock, released_lock, if_pos rfl] at hl
    cases hl
  · have hsort : listSort (k.released l).comparePriorities (k.blockedOn l) = k.blockedOn l := by
      refine listSort_of_sorted (hsorted.imp_of_mem ?_)
      intro u v hu hv hle
      have hpu := congrArg Thread.priority (hthread u (hlist.blocked_ne hu))
      have hpv := congrArg Thread.priority (hthread v (hlist.blocked_ne hv))
      refine decide_eq_false ?_
      show ¬((k.released l).thread u).priority < ((k.released l).thread v).priority
      rw [hpu, hpv]
      exact not_lt.mpr hle
    have hwaiters : k'.blockedOn l = (k.blockedOn l).tail :=
      hpost.waiters.trans (congrArg List.tail hsort)
    have hcache : k'.cache l = k.cacheAfterRelease l := by
      unfold cache
      rw [hpost.lock, released_lock, if_pos rfl]
    refine Free.of_waiters ?_ hwaiters ?_ ?_
    · exact fun u => (hin u l).trans ⟨hheld.strict hp, hlist.inside⟩
    · refine hsorted.imp_of_mem fun hu hv hle => ?_
      rw [hprio _ hu, hprio _ hv]
      exact hle
    · exact hcache.trans (secondPriority_congr fun u hu => (hprio u hu).symm)

theorem rebased_resume (k : Kernel) (new : Int) (u : Tid) :
    ((k.rebased new).thread u).resume = (k.thread u).resume := kept_at Thread.resume rfl

theorem rebase (hc : CacheInv k) (hlist : ListInv k (some k.current))
    (hr : (k.thread k.current).resume = .none) {new : Int} (hnew : priMin ≤ new)
    (hok : ∀ u ∈ k.donors k.current, k.prio u ≤ new ∨ (k.thread k.current).oldPriority < k.prio u) :
    CacheInv (k.rebased new) := by
  have hp : (k.thread k.current).resume.Plain := hr ▸ Resume.plain_none
  have hthread (u : Tid) (hu : u ≠ k.current) : (k.rebased new).thread u = k.thread u := by
    rw [rebased_thread, if_neg hu]
  have hself := rebased_thread k k.current new
  rw [if_pos rfl] at hself
  have hmoved (m : LockId) : Unmoved k (k.rebased new) m := by
    refine ⟨?_, rfl, rfl, ?_⟩
    · intro u
      unfold Inside waitsOn
      rw [rebased_resume]
    · intro u hb
      unfold Kernel.prio
      rw [hthread u (hlist.blocked_ne hb)]
  refine ⟨?_, ?_, fun m hm => (hc.free m hm).unmoved (hmoved m)⟩
  · intro t
    by_cases ht : t = k.current
    · rw [ht, hself]
      exact hnew
    · rw [hthread t ht]
      exact hc.base t
  · intro m h hm
    have hheld := hc.held m h hm
    refine hheld.unmoved (hmoved m) ?_ fun u => hheld.strict hp
    intro u hu hle
    by_cases hcur : h = k.current
    · subst hcur
      rw [hself]
      -- a donor at or below the old base is not above the new one
      rcases hok u ⟨m, hm, hheld.strict hp hu⟩ with hnew | hlt
      · exact .inl hnew
      · exact absurd hle (not_le.mpr hlt)
    · rw [hthread h hcur]
      exact .inl hle

theorem move {a : Act} (hc : CacheInv k) (hlist : ListInv k (some k.current)) (hi : LockInv k)
    (hok : releaseGuard a k) (hm : LockMove k a k') : CacheInv k' := by
  have hin : ∀ u m, u ∈ k.blockedOn m → Inside k u m := fun u m => hlist.inside
  cases hm with
  | quiet hp hq => exact hc.quiet hi hin hp hq
  | enter hr hh => exact hc.enter hr hh (hok.2.1 hh)
  | donate hr hh _ => exact hc.donate hlist hi hr hh (hok.2.2 (by rw [hh]; simp))
  | sleep hr hv => exact hc.sleep hlist hi hr hv
  | take hr hv => exact hc.take hlist hi hr hv
  | @release l k₁ hr hh hpost =>
    have hp := semaPost_upped hpost
    refine (hc.posted hlist hr hh hok.2 hp).quiet (hi.posted hh hp) ?_ ?_
      (Switched.checkPreemption k₁).quiet
    · intro u m hu
      exact (upped_inside hp u m).mpr (hin u m (hp.mem_waiters hu))
    · rw [hp.current]
      refine (hp.thread _).plain ?_
      rw [released_resume, released_current, hr]
      exact Resume.plain_none
  | rebase hr =>
    refine (hc.rebase hlist hr hok.2.1 hok.2.2).quiet (hi.rebased _) ?_
      ?_ (Switched.checkPreemption _).quiet
    · intro u m hu
      unfold Inside waitsOn
      rw [rebased_resume]
      exact hin u m hu
    · rw [rebased_resume, rebased_current, hr]
      exact Resume.plain_none

end CacheInv

theorem cacheInv_boot (v : Nat → Nat) : CacheInv (boot v) := by
  refine ⟨?_, ?_, ?_⟩
  · intro t
    show priMin ≤ if t = 1 then priMin else priDefault
    split <;> decide
  · nofun
  · intro m _
    refine ⟨?_, ?_, .inl (le_refl _)⟩
    · nofun
    · nofun

theorem cacheInv_reachable (hr : Reach Booted step releaseGuard k) : CacheInv k := by
  refine Reach.induct (P := CacheInv) ?_ ?_ k hr
  · intro k hb
    obtain ⟨v, rfl⟩ := hb
    exact cacheInv_boot v
  · intro a k k' hr hc hok hs
    obtain ⟨hlist, hlock⟩ := lists_and_locks (fun _ _ h => h.1) hr
    exact hc.move hlist hlock hok (lockMove_step hlock.raw hok.1 hs)

-- ==== the priority after a release

/-- The caches of the locks in `holding`, all held by the running thread
and all right, give the highest of its base and its donors, whatever the
cache of another lock. -/
theorem CacheInv.priority (hc : CacheInv k) (hlist : ListInv k (some k.current))
    (hp : (k.thread k.current).resume.Plain) {holding : List LockId}
    (hmine : ∀ m ∈ holding, (k.lock m).holder = some k.current) (f : Lock → Lock) (hl : l ∉ holding)
    :
    let p := (k.modLock l f).priorityAfterRelease holding
    let base := (k.thread k.current).oldPriority
    (p = base ∨ ∃ m ∈ holding, ∃ u ∈ k.blockedOn m, k.prio u = p) ∧
      base ≤ p ∧ ∀ m ∈ holding, ∀ u ∈ k.blockedOn m, k.prio u ≤ p := by
  intro p base
  have hkey : ∀ a b, (k.modLock l f).comparePrioritiesLock a b = true
      ↔ (k.modLock l f).cache a < (k.modLock l f).cache b :=
    fun a b => decide_eq_true_iff
  have hcache (m : LockId) (hm : m ∈ holding) : (k.modLock l f).cache m = k.cache m := by
    have hne : m ≠ l := fun e => hl (e ▸ hm)
    simp [cache, modLock, hne]
  cases hmax : listMax (k.modLock l f).comparePrioritiesLock holding with
  | none =>
    have hpv : p = base := by
      show (k.modLock l f).priorityAfterRelease holding = _
      simp only [priorityAfterRelease, hmax]
      rfl
    refine ⟨.inl hpv, le_of_eq hpv.symm, ?_⟩
    intro m hm
    simp [listMax_eq_none.mp hmax] at hm
  | some x =>
    obtain ⟨hx, hle⟩ := listMax_spec hkey hmax
    have hpv : p = if base < k.cache x then k.cache x else base := by
      show (k.modLock l f).priorityAfterRelease holding = _
      simp only [priorityAfterRelease, hmax]
      rw [← hcache x hx]
      rfl
    have hdonor (m : LockId) (hm : m ∈ holding) (u : Tid) (hu : u ∈ k.blockedOn m) :
        k.prio u ≤ base ∨ k.prio u ≤ k.cache x := by
      have hlow := (hc.held m _ (hmine m hm)).low u (hlist.inside hu)
      have hmx := hle m hm
      rw [hcache m hm, hcache x hx] at hmx
      exact hlow.imp_right fun h => le_trans h hmx
    by_cases hlt : base < k.cache x
    · rw [if_pos hlt] at hpv
      rw [hpv]
      refine ⟨.inr ⟨x, hx, ?_⟩, le_of_lt hlt, ?_⟩
      · -- the cache is above the base, so it is some waiter's priority
        have hheld := hc.held x _ (hmine x hx)
        have hbase : priMin ≤ base := hc.base k.current
        rcases hheld.high with h | ⟨u, hu, h⟩
        · omega
        · refine ⟨u, hheld.strict hp hu, ?_⟩
          rcases hheld.low u hu with h' | h'
          · exact absurd (lt_of_lt_of_le hlt h) (not_lt.mpr h')
          · exact le_antisymm h' h
      · intro m hm u hu
        rcases hdonor m hm u hu with h | h
        · exact le_of_lt (lt_of_le_of_lt h hlt)
        · exact h
    · rw [if_neg hlt] at hpv
      rw [hpv]
      refine ⟨.inl rfl, le_refl _, ?_⟩
      intro m hm u hu
      rcases hdonor m hm u hu with h | h
      · exact h
      · exact le_trans h (not_lt.mp hlt)

/-- In every run whose steps spoil no cache, `lock_release` leaves the
running thread with the highest of its base priority and the priorities
of the threads blocked on the locks it still holds. -/
theorem release_leaves_effective {k k' : Kernel} {l : LockId}
    (hr : Reach Booted step releaseGuard k) (hs : k.step (.lockRelease l) = some k') :
    Effective k' k.current (k'.thread k.current).oldPriority (k'.prio k.current) := by
  obtain ⟨hlist, hi⟩ := lists_and_locks (fun _ _ h => h.1) hr
  obtain ⟨-, -, -, hlt⟩ := hlist.current_facts
  have hc := cacheInv_reachable hr
  obtain ⟨hnone, hh, k₁, hsema, rfl⟩ := step_lockRelease hs
  have hpost := semaPost_upped hsema
  have hi1 := hi.posted hh hpost
  have hq := (Switched.checkPreemption k₁).quiet
  have hlt1 : k.current < k₁.count := hpost.count ▸ hlt
  let holding := (k.thread k.current).lockHolding.erase l
  have hself := released_thread k l k.current
  rw [if_pos rfl] at hself
  have hprio : k₁.checkPreemption.prio k.current = (k.modLock l fun m => { m with
          maxPriority := k.cacheAfterRelease l }).priorityAfterRelease holding := by
    rw [hq.prio hlt1]
    exact (hpost.thread _).priority.trans (congrArg Thread.priority hself)
  have hbase : (k₁.checkPreemption.thread k.current).oldPriority
      = (k.thread k.current).oldPriority := by
    rw [(hq.alike hlt1).oldPriority]
    refine (hpost.thread _).oldPriority.trans ?_
    rw [hself]
  have hmem (m : LockId) (hm : m ∈ holding) : (k.lock m).holder = some k.current ∧ m ≠ l := by
    obtain ⟨hne, hm⟩ := (hi.nodup _).mem_erase_iff.mp hm
    exact ⟨(hi.holding _ m).mp hm, hne⟩
  -- the donors that are left are those of the other locks
  have hdonors (u : Tid) : u ∈ k₁.checkPreemption.donors k.current ↔
      ∃ m ∈ holding, u ∈ k.blockedOn m := by
    have hlist1 : (k₁.thread k.current).lockHolding = holding :=
      (hpost.thread _).lockHolding.trans (congrArg Thread.lockHolding hself)
    rw [hq.donors, hi1.mem_donors, hlist1]
    refine exists_congr fun m => and_congr_right fun hm => ?_
    unfold blockedOn
    rw [hpost.sema _ (fun h => (hmem m hm).2 (SemaRef.ofLock.inj h))]
    rfl
  have hother {m : LockId} (u : Tid) (hu : u ∈ k.blockedOn m) :
      k₁.checkPreemption.prio u = k.prio u := by
    rw [hq.prio (hpost.count ▸ (hlist.blocked hu).1)]
    refine (hpost.thread u).priority.trans ?_
    rw [released_thread, if_neg (hlist.blocked_ne hu)]
    rfl
  obtain ⟨hin, hle, hall⟩ := hc.priority hlist (hnone ▸ Resume.plain_none)
    (fun m hm => (hmem m hm).1) (fun m => { m with maxPriority := k.cacheAfterRelease l })
    (fun h => (hmem l h).2 rfl)
  rw [hbase, hprio]
  refine effective_iff.mpr ⟨?_, hle, ?_⟩
  · refine hin.imp_right fun ⟨m, hm, u, hu, h⟩ => ?_
    exact ⟨u, (hdonors u).mpr ⟨m, hm, hu⟩, (hother u hu).trans h⟩
  · intro u hu
    obtain ⟨m, hm, hu⟩ := (hdonors u).mp hu
    rw [hother u hu]
    exact hall m hm u hu

/-- A simpler guard: whoever holds a lock that is asked for waits for no
lock and never did, and is below the caller or at least at its priority
by its base. -/
def shallowGuard (a : Act) (k : Kernel) : Prop :=
  ownSemas a k ∧
    match a with
    | .lockAcquire l =>
      match (k.lock l).holder with
      | none => ∀ u ∈ List.range k.count, (k.thread u).resume ≠ .lockAcquire l
      | some t => (k.thread t).resume = .none ∧
          (k.thread t).lockWaiting = [] ∧
          (k.prio t < k.prio k.current ∨ k.prio k.current ≤ (k.thread t).oldPriority)
    | .lockRelease l => (k.blockedOn l).Pairwise fun u v => k.prio v ≤ k.prio u
    | .setPriority new => priMin ≤ new ∧ (k.thread k.current).oldPriority ≤ new
    | _ => True

instance (a : Act) (k : Kernel) : Decidable (shallowGuard a k) :=
  match a with
  | .lockAcquire l =>
    match h : (k.lock l).holder with
    | none => decidable_of_iff (∀ u ∈ List.range k.count,
        (k.thread u).resume ≠ .lockAcquire l)
        (by simp [shallowGuard, ownSemas, h])
    | some t => decidable_of_iff ((k.thread t).resume = .none ∧
          (k.thread t).lockWaiting = [] ∧
          (k.prio t < k.prio k.current ∨ k.prio k.current ≤ (k.thread t).oldPriority))
        (by simp [shallowGuard, ownSemas, h])
  | .lockRelease l => inferInstanceAs (Decidable (ownSemas _ k ∧
      (k.blockedOn l).Pairwise fun u v => k.prio v ≤ k.prio u))
  | .setPriority new => inferInstanceAs (Decidable (ownSemas _ k ∧
      priMin ≤ new ∧ (k.thread k.current).oldPriority ≤ new))
  | .spawn _ | .unblock _ | .checkPreemption | .yield | .block
  | .semaDown _ | .semaUp _ | .resume | .interrupt _ _ =>
    inferInstanceAs (Decidable (ownSemas _ k ∧ True))

/-- The chain of a lock whose holder waits for none ends there. -/
theorem OnChain.eq_holder (hh : (k.lock l).holder = some t)
    (hn : ∀ m, t ∉ k.blockedOn m) (h : OnChain k l u) : u = t := by
  induction h with
  | holder h => exact some.inj (h.symm.trans hh)
  | next _ hb _ ih => exact absurd (ih ▸ hb) (hn _)

theorem shallowGuard.release {a : Act} (hr : Reach Booted step shallowGuard k)
    (h : shallowGuard a k) : releaseGuard a k := by
  obtain ⟨hlist, hi⟩ := lists_and_locks (fun _ _ h => h.1) hr
  refine ⟨h.1, ?_⟩
  have h2 := h.2
  cases a with
  | lockAcquire l =>
    cases hh : (k.lock l).holder with
    | none =>
      simp only [hh] at h2
      refine ⟨fun _ u hu => ?_, fun hne => absurd hh hne⟩
      have hlt := hi.inside_lt u l hu
      exact absurd (hi.inside hu) (h2 u (mem_range.mpr hlt))
    | some t =>
      simp only [hh] at h2
      obtain ⟨hres, hnil, hprio⟩ := h2
      have hn : ∀ m, t ∉ k.blockedOn m := by
        intro m hb
        have := hlist.inside hb
        unfold Inside waitsOn at this
        rw [hres] at this
        cases this
      refine ⟨fun e => absurd (hh.symm.trans e) (by simp), ?_⟩
      intro _ u hu
      rw [hu.eq_holder hh hn]
      refine ⟨fun _ => ⟨⟨?_, ?_⟩, ?_⟩, ?_⟩
      · exact fun m hb => absurd hb (hn m)
      · intro _ m hm
        simp [hnil] at hm
      · exact fun m hb => absurd hb (hn m)
      · intro hge
        rcases hprio with hlow | hbase
        · exact absurd hlow (not_lt.mpr hge)
        · exact hbase
  | lockRelease l => exact h2
  | setPriority new =>
    refine ⟨h2.1, fun u _ => ?_⟩
    rcases Int.lt_or_le (k.thread k.current).oldPriority (k.prio u) with hlt | hle
    · exact .inr hlt
    · exact .inl (le_trans hle h2.2)
  | _ => trivial

/-- Two donors: the initial thread holds two locks, threads of priority
32 and 33 wait for one each, and releasing the second's lock leaves it
with 32. -/
theorem release_leaves_second_donor :
    ∃ k k', Reach Booted step releaseGuard k ∧
      k.step (.lockRelease 1) = some k' ∧ k.prio k.current = 33 ∧
      k'.prio k.current = 32 ∧
      Effective k' k.current (k'.thread k.current).oldPriority (k'.prio k.current) := by
  have hb : Reach Booted step shallowGuard (boot fun _ => 0) := .init ⟨_, rfl⟩
  obtain ⟨k, hr, hbefore, k', hs, hafter⟩ := hb.of_runAll
    [.lockAcquire 0, .resume, .lockAcquire 1, .resume, .spawn 32,
      .checkPreemption, .lockAcquire 0, .resume, .spawn 33,
      .checkPreemption, .lockAcquire 1, .resume]
    (fun k => k.prio k.current = 33 ∧
      ∃ k' ∈ k.step (.lockRelease 1), k'.prio k.current = 32) (by decide +kernel)
  have hrun : Reach Booted step releaseGuard k := hr.relax fun _ _ => shallowGuard.release
  exact ⟨k, k', hrun, hs, hbefore, hafter, release_leaves_effective hrun hs⟩

/-- A waiter that found the holder raised by another leaves no trace: the
initial thread holds locks 0 and 1, thread 2 (priority 50) waits for lock
1, then thread 3 (priority 40) for lock 0. When lock 1 is released the
initial thread falls to its base of 31, with thread 3 still blocked on
lock 0. -/
theorem release_forgets_waiter :
    ∃ k k', Reach Booted step ownSemas k ∧
      k.step (.lockRelease 1) = some k' ∧
      ¬Effective k' k.current (k'.thread k.current).oldPriority (k'.prio k.current) := by
  have hb : Reach Booted step ownSemas (boot fun _ => 0) := .init ⟨_, rfl⟩
  obtain ⟨k, hr, k', hs, hp, h3, hh, hw⟩ := hb.of_runAll
    [.lockAcquire 0, .resume, .lockAcquire 1, .resume, .spawn 50,
      .checkPreemption, .lockAcquire 1, .resume, .spawn 40,
      .semaDown (.plain 0), .resume, .lockAcquire 0, .resume,
      .interrupt [.plain 0] false, .resume]
    (fun k => ∃ k' ∈ k.step (.lockRelease 1), k'.prio k.current = 31 ∧ k'.prio 3 = 40 ∧
      (k'.lock 0).holder = some k.current ∧ 3 ∈ k'.blockedOn 0) (by decide +kernel)
  refine ⟨k, k', hr, hs, ?_⟩
  intro h
  have hle := (effective_iff.mp h).2.2 3 ⟨0, hh, hw⟩
  rw [hp, h3] at hle
  exact absurd hle (by decide)

end Kernel

end Pintos
