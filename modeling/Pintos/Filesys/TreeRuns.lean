/-
The tree of directories through every run of the file system.

The operations keep `Sound`, the tree together with the fact that a
removed inode that is still open is no directory. Paths stay inside the
tree (`Leads.live`): a component names an inode that is live, `..` leads
to the parent, and a regular file that was never written has no entry to
follow. So a call that only opens and closes inodes keeps the tree
(`Moves.sound`).
-/
import Pintos.Filesys.Tree

namespace Pintos.Directory

open Oracle Oracle.Prog Transition List Option Vol

variable {v v' w : Vol} {dirs : Nat → Prop} {parent : Nat → Nat} {s d i : Nat}
variable {name : Name} {n : Node} {e : Entry} {cwd : Option Nat} {H H' : List Nat}

-- ==== sound volumes

/-- The tree, and no directory that is removed and still open. -/
structure Sound (v : Vol) (dirs : Nat → Prop) (parent : Nat → Nat) :
    Prop extends Tree v dirs parent where
  clean : ∀ t, v.isRemoved t = true → v.isdir t = false

def Good (v : Vol) : Prop := ∃ dirs parent, Sound v dirs parent

theorem opened_of_removed (h : v.isRemoved s = true) : v.opened s ≠ none := by
  intro ho
  unfold isRemoved at h
  simp [ho] at h

namespace Sound

theorem good (h : Sound v dirs parent) : Good v := ⟨dirs, parent, h⟩

theorem bump (h : Sound v dirs parent) (hs : Live v dirs s) : Sound (v.bump s) dirs parent := by
  refine ⟨h.toTree.bump hs, fun t ht => h.clean t ?_⟩
  by_cases hts : t = s
  · subst hts
    rwa [isRemoved_bump] at ht
  · unfold isRemoved at ht ⊢
    rwa [bump_other hts] at ht

variable (h : Sound v dirs parent)

include h

theorem drop {n : Nat} {r : Bool}
    (ho : v.opened s = some ⟨n + 1, r⟩) : Sound (v.drop s) dirs parent := by
  refine ⟨h.toTree.drop ho, fun t ht => ?_⟩
  rw [isdir_congr (congrFun (drop_node _ s) t)]
  refine h.clean t ?_
  unfold isRemoved at ht ⊢
  rw [(drop_opened ho).1] at ht
  by_cases hts : t = s
  · subst hts
    rw [setOpened_self] at ht
    rw [ho]
    split at ht
    next i hi =>
      obtain ⟨-, ⟨⟩⟩ := ite_none_left_eq_some.mp hi
      exact ht
    next => cases ht
  · rwa [setOpened_other _ hts] at ht

/-- Free sectors may be taken. -/
theorem fresh (hf : Fresh v v') (ho : v'.opened = v.opened) : Sound v' dirs parent := by
  refine ⟨h.toTree.fresh hf ho, fun t ht => ?_⟩
  rw [isRemoved_congr ho] at ht
  rw [isdir_congr (hf.kept t (h.live t (.opened (opened_of_removed ht))).1).2.1]
  exact h.clean t ht

/-- A live inode that is a directory is one of the tree. -/
theorem live_dir (hl : Live v dirs d) (hd : v.isdir d = true) : dirs d := by
  cases hl with
  | map hm => simp [hm, h.map.1] at hd
  | dir hdir => exact hdir
  | named hn =>
    obtain ⟨b, i, hb, hi⟩ := hn
    exact (h.child b i d hb hi hd).1
  | opened ho =>
    rcases h.openDir d ho hd with hdir | hr
    · exact hdir
    · simp [h.clean d hr] at hd

theorem dir_ne_map (hd : dirs d) : d ≠ freeMapSector := by
  rintro rfl
  have hdir := h.isdir hd
  simp [h.map.1] at hdir

-- ==== paths

/-- The three kinds of entry in use of a directory of the tree. -/
theorem entry_cases (hd : dirs d) {i : Nat} (hget : (v.entries d)[i]? = some e)
    (hu : e.inUse = true) : e.inodeSector = d ∨ e.inodeSector = parent d
      ∨ ∃ j, i = j + 2 ∧ v.link d j = some e.inodeSector := by
  obtain ⟨es, hn⟩ := h.dots d hd
  match i with
  | 0 =>
    rw [entries_eq hn] at hget
    cases hget
    exact .inl rfl
  | 1 =>
    rw [entries_eq hn] at hget
    cases hget
    exact .inr (.inl rfl)
  | j + 2 => exact .inr (.inr ⟨j, rfl, linkAt_of_getElem hget hu⟩)

/-- What `lookup` finds is such an entry. -/
theorem lookup_cases (hl : Live v dirs d) (hm : d ≠ freeMapSector) {i : Nat}
    (hlk : lookup (v.entries d) name = some (i, e)) :
    dirs d ∧ (e.inodeSector = d ∨ e.inodeSector = parent d
      ∨ ∃ j, i = j + 2 ∧ v.link d j = some e.inodeSector) := by
  obtain ⟨hget, hu, -⟩ := lookup_some hlk
  cases hd : v.isdir d with
  | false => simp [h.file d hl hm hd e (mem_of_getElem? hget)] at hu
  | true =>
    have hdir := h.live_dir hl hd
    exact ⟨hdir, h.entry_cases hdir hget hu⟩

/-- And it leads to a live inode. -/
theorem lookup_live (hl : Live v dirs d) (hm : d ≠ freeMapSector) {i : Nat}
    (hlk : lookup (v.entries d) name = some (i, e)) :
    Live v dirs e.inodeSector ∧ e.inodeSector ≠ freeMapSector := by
  obtain ⟨hdir, he | he | ⟨j, -, he⟩⟩ := h.lookup_cases hl hm hlk
  · rw [he]
    exact ⟨.dir hdir, hm⟩
  · rw [he]
    exact ⟨.dir (h.up d hdir), h.dir_ne_map (h.up d hdir)⟩
  · have hn : Named v dirs e.inodeSector := ⟨d, j, hdir, he⟩
    exact ⟨.named hn, (h.named _ hn).2.1⟩

end Sound

/-- What a path can name is live, and it is not the free map. -/
theorem Leads.live (hl : Leads v cwd s) (h : Sound v dirs parent)
    (hm : cwd ≠ some freeMapSector) : Live v dirs s ∧ s ≠ freeMapSector := by
  induction hl with
  | root => exact ⟨.dir h.root, by decide⟩
  | here hc ho => exact ⟨.opened ho, fun he => hm (he ▸ hc)⟩
  | entry _ he ih => exact h.lookup_live ih.1 ih.2 he

-- ==== creations

/-- `dir_add` of an inode made at a free sector. -/
theorem Linked.of_added (ht : Taken s v w) (hn : w.node s = some n) (hd : v.used d = true)
    (ha : Added d name s w v') : Linked d name s n v v' := by
  have hsd := (ne_of_used ht.free hd).symm
  obtain ⟨es, w', hes, hg, rfl⟩ := ha.wrote
  obtain ⟨hgu, hgo, hgn⟩ := hg.kept ht.used
  refine
    { free := ht.free, used := hgu, owner := ht.owner.imp hgo.trans hgo.trans
      node := (if_neg hsd).trans (hgn.trans hn)
      dir := ⟨es, (ht.fresh.kept d hd).2.1.symm.trans hes, ?_⟩
      kept := fun b hb => ?_
      owned := (ht.fresh.trans hg.fresh).owned }
  · rw [entries_eq hes]
    exact if_pos rfl
  · obtain ⟨hu, hnb, ho⟩ := ht.fresh.kept b hb
    obtain ⟨hu', ho', hn'⟩ := hg.kept hu
    exact ⟨hu', fun hbd => (if_neg hbd).trans (hn'.trans hnb), ho.imp ho'.trans ho'.trans⟩

/-- The new inode is written once more. -/
theorem Linked.rewrite (h : Linked d name s n v w) (hd : v.used d = true) (hw : Wrote s i e w v') :
    ∃ es, n = ⟨true, es⟩ ∧ Linked d name s ⟨true, writeSlot es i e⟩ v v' := by
  have hsd := ne_of_used h.free hd
  obtain ⟨es, w', hes, hg, rfl⟩ := hw
  have hn : n = ⟨true, es⟩ := by
    have hsome := h.node.symm.trans hes
    cases hsome
    rfl
  obtain ⟨hgu, hgo, -⟩ := hg.kept h.used
  obtain ⟨es₀, hd0, hd1⟩ := h.dir
  obtain ⟨-, -, hdn⟩ := hg.kept (h.kept d hd).1
  refine ⟨es, hn,
    { free := h.free, used := hgu, owner := h.owner.imp hgo.trans hgo.trans, node := if_pos rfl
      dir := ⟨es₀, hd0, (if_neg hsd).trans (hdn.trans hd1)⟩
      kept := fun b hb => ?_
      owned := fun b t hb => ?_ }⟩
  · obtain ⟨hu, hnb, ho⟩ := h.kept b hb
    obtain ⟨hu', ho', hn'⟩ := hg.kept hu
    exact ⟨hu', fun hbd => (if_neg (ne_of_used h.free hb)).trans (hn'.trans (hnb hbd)),
      ho.imp ho'.trans ho'.trans⟩
  · rcases hg.fresh.owned b t hb with ho | hu
    · exact (h.owned b t ho).imp_right fun hu => (hg.kept hu).1
    · exact .inr hu

/-- Only the table of open inodes differs. -/
theorem Linked.reopened (h : Linked d name s n v w) (hnode : v'.node = w.node)
    (hused : v'.used = w.used) (howner : v'.owner = w.owner) : Linked d name s n v v' where
  free := h.free
  used := hused ▸ h.used
  owner := howner ▸ h.owner
  node := hnode ▸ h.node
  dir := hnode ▸ h.dir
  kept := by
    rw [hnode, hused, howner]
    exact h.kept
  owned := by
    rw [hused, howner]
    exact h.owned

/-- `.` goes to the first slot of a new directory, `..` to the second. -/
theorem write_dots (s d k : Nat) :
    ∃ m, writeSlot (writeSlot (List.replicate k Entry.zero)
        (freeSlot (List.replicate k Entry.zero)) (dotEntry s))
        (freeSlot (writeSlot (List.replicate k Entry.zero)
          (freeSlot (List.replicate k Entry.zero)) (dotEntry s)))
        (dotDotEntry d)
      = dotEntry s :: dotDotEntry d :: List.replicate m Entry.zero := by
  match k with
  | 0 | 1 => exact ⟨0, rfl⟩
  | k + 2 =>
    refine ⟨k, ?_⟩
    have h1 : writeSlot (List.replicate (k + 2) Entry.zero)
        (freeSlot (List.replicate (k + 2) Entry.zero)) (dotEntry s)
        = dotEntry s :: Entry.zero :: List.replicate k Entry.zero := rfl
    rw [h1]
    exact if_pos (Nat.lt_of_sub_eq_succ rfl)

/-- `v` before the directory was linked, `w` after. -/
theorem addDots_spec {low : Prop} {size : Nat} (h : Linked d name s (zeroed true size) v w)
    (hd : v.used d = true) (hw : w.Valid) (hs : w.opened s = none) :
    Wlp (Memory low fun _ => True) (addDots s d) w fun _ v' =>
      v'.opened = w.opened ∧ ∃ m, Linked d name s
        ⟨true, dotEntry s :: dotDotEntry d :: List.replicate m Entry.zero⟩
        v v' := by
  refine (inodeOpen_spec s).bind ?_
  rintro r w₁ (⟨rfl, rfl⟩ | ⟨rfl, rfl, -⟩)
  · refine (dirOpen_spec s).bind ?_
    rintro r w₂ (⟨rfl, rfl⟩ | ⟨rfl, -, -⟩)
    · have h1 : Linked d name s (zeroed true size) v (w.bump s) := h.reopened rfl rfl rfl
      refine (dirAdd_spec dot s (.inl loose)).bind ?_
      rintro r w₃ (⟨rfl, ha⟩ | ⟨rfl, -⟩)
      · obtain ⟨es₁, hes1, h2⟩ := h1.rewrite hd ha.wrote
        cases hes1
        rw [entries_eq h1.node] at h2
        refine (dirAdd_spec dotDot d (.inl loose)).bind ?_
        rintro r w₄ (⟨rfl, ha'⟩ | ⟨rfl, -⟩)
        · obtain ⟨es₂, hes2, h3⟩ := h2.rewrite hd ha'.wrote
          cases hes2
          rw [entries_eq h2.node] at h3
          obtain ⟨m, hm⟩ := write_dots s d (size / entrySize)
          have ho : w₄.opened = (w.bump s).opened := ha'.quiet.1.trans ha.quiet.1
          refine wlp_bind (wlp_modify ?_)
          rw [drop_bumped hw s ho]
          refine wlp_modify ?_
          -- The inode is closed; the second close does nothing.
          have hdrop : ({ w₄ with opened := w.opened } : Vol).drop s
              = { w₄ with opened := w.opened, dangling := true } := by
            unfold Vol.drop
            rw [show ({ w₄ with opened := w.opened } : Vol).opened s = none from hs]
          rw [hdrop]
          refine ⟨rfl, m, ?_⟩
          have h4 : Linked d name s ⟨true, dotEntry s :: dotDotEntry d
              :: List.replicate m Entry.zero⟩ v w₄ := by
            rw [← hm]
            exact h3
          exact h4.reopened rfl rfl rfl
        · exact wlp_stop
      · exact wlp_stop
    · exact wlp_stop
  · refine dirOpen_none_spec.bind ?_
    rintro r w₁ ⟨rfl, -⟩
    exact wlp_stop

namespace Sound

theorem link (h : Sound v dirs parent) (hd : dirs d) {name : Name} {n : Node}
    (hl : Linked d name s n v v') (hn : NewNode d s n) (ho : v'.opened = v.opened) : Good v' := by
  refine ⟨_, _, h.toTree.link hd hl hn ho, fun t ht => ?_⟩
  rw [isRemoved_congr ho] at ht
  have hop : Live v dirs t := .opened (opened_of_removed ht)
  have hf := h.clean t ht
  have htd : t ≠ d := by
    rintro rfl
    simp [h.isdir hd] at hf
  rw [isdir_congr ((hl.kept t (h.live t hop).1).2.1 htd)]
  exact hf

/-- `filesys_create` keeps the tree; `u` holds the reference to the parent
directory. -/
theorem createEntry (hv : v.Valid) (h : Sound (v.bump d) dirs parent) (hl : Live (v.bump d) dirs d)
    (name : Name) (size : Nat) (isdir : Bool) {low : Prop} :
    Wlp (Memory low fun _ => True) (do
        let made ← createEntry (some d) name size isdir
        finishCreate (some d) isdir made
        dirClose (some d)
        pure made.2 : M Bool) (v.bump d)
      fun _ v' => Good v' ∧ v'.opened = v.opened := by
  have hused := (h.live d hl).1
  -- Closing the parent.
  have hclose {w : Vol} (hw : Good w) (ho : w.opened = (v.bump d).opened)
      (b : Bool) : Wlp (Memory low fun _ => True) (do dirClose (some d); pure b : M Bool)
        w fun _ v' => Good v' ∧ v'.opened = v.opened := by
    refine wlp_bind (wlp_modify (wlp_pure ?_))
    obtain ⟨_, _, hw⟩ := hw
    have hdrop := hw.drop (ho ▸ bump_self v d)
    rw [drop_bumped hv d ho] at hdrop ⊢
    exact ⟨hdrop.good, rfl⟩
  refine (createEntry_spec name size isdir (.inl loose)).bind ?_
  rintro made v₂ (⟨rfl, rfl⟩ | ⟨s, rfl, ht⟩ | ⟨s, w, rfl, ht, hn, ha⟩)
  · exact wlp_bind (wlp_pure (hclose h.good rfl false))
  · have hf : Fresh (v.bump d) (v₂.setUsed s false) := ht.fresh.giveBack ht.free ht.owner
    have ho : (v₂.setUsed s false).opened = (v.bump d).opened := ht.quiet.1
    exact wlp_bind (wlp_modify (hclose (h.fresh hf ho).good ho false))
  · have hlk := Linked.of_added ht hn hused ha
    have ho : v₂.opened = (v.bump d).opened := ha.quiet.1.trans ht.quiet.1
    have hdir : dirs d := by
      obtain ⟨es, hes, -⟩ := hlk.dir
      exact h.live_dir hl (isdir_eq hes)
    cases isdir with
    | false =>
      have hnew : NewNode d s (zeroed false size) := .inl ⟨rfl, fun e he => by
        rw [(mem_replicate.mp he).2]
        rfl⟩
      exact wlp_bind (wlp_pure (hclose (h.link hdir hlk hnew ho) ho true))
    | true =>
      have hs : v₂.opened s = none := by
        rw [ho]
        by_contra hne
        exact h.not_live ht.free (.opened hne)
      have hv2 : v₂.Valid := fun t i hi => hv.bump d t i (by rw [← ho]; exact hi)
      refine (addDots_spec hlk hused hv2 hs).bind ?_
      rintro - v₃ ⟨ho3, m, hlk3⟩
      have hnew : NewNode d s ⟨true, dotEntry s :: dotDotEntry d :: List.replicate m Entry.zero⟩ :=
        .inr ⟨_, rfl, fun e he => by rw [(mem_replicate.mp he).2]; rfl⟩
      exact hclose (h.link hdir hlk3 hnew (ho3.trans ho)) (ho3.trans ho) true

end Sound

/-- `filesys_create` keeps a sound tree. -/
theorem filesysCreate_good {low : Prop} (hv : v.Valid) (h : Sound v dirs parent)
    (hc : Opens v cwd) (hm : cwd ≠ some freeMapSector) (path : Path) (size : Nat) (isdir : Bool) :
    Wlp (Memory low fun _ => True) (filesysCreate cwd path size isdir) v fun _ v' =>
      Good v' ∧ v'.opened = v.opened := by
  refine (splitPath_spec path).bind ?_
  rintro _ u ⟨rfl, rfl⟩
  refine (getDir_spec hv cwd _ (.inl loose)).bind ?_
  rintro r v₁ (⟨d, rfl, rfl, hd, -⟩ | ⟨rfl, rfl⟩)
  · obtain ⟨hl, -⟩ := (resolve_leads hc hd).live h hm
    exact (h.bump hl).createEntry hv (.opened (bump_opened u d)) _ size isdir
  · exact wlp_bind (wlp_pure (wlp_bind (wlp_pure (wlp_bind (wlp_pure (wlp_pure ⟨h.good, rfl⟩))))))

-- ==== removals

/-- The inode of a cleared entry, before `dir_remove` closes it. -/
theorem markRemoved_bumped (v : Vol) (s d : Nat) (n : Option Node) :
    ((((v.bump s).setNode d n).markRemoved s).opened
        = (v.setOpened s (some ⟨v.openCnt s + 1, true⟩)).opened)
      ∧ (((v.bump s).setNode d n).markRemoved s).node = (v.setNode d n).node := by
  have hr' : ((v.bump s).setNode d n).opened s = some ⟨v.openCnt s + 1, _⟩ := bump_self v s
  unfold markRemoved
  rw [hr']
  refine ⟨funext fun t => ?_, rfl⟩
  by_cases ht : t = s
  · rw [ht, setOpened_self, setOpened_self]
  · rw [setOpened_other _ ht, setOpened_other _ ht]
    exact bump_other ht

/-- An empty directory has no links. -/
theorem link_of_isEmpty (h : isEmpty (v.entries s) = true) (i : Nat) : v.link s i = none := by
  refine linkAt_none fun e he => ?_
  have hmem : e ∈ (v.entries s).drop 2 := by
    refine mem_of_getElem? (i := i) ?_
    rw [getElem?_drop, Nat.add_comm]
    exact he
  simpa using all_eq_true.mp h e hmem

/-- `dir_remove` took the entry of a file, or of a directory of the tree
that is not open and has no links. -/
theorem Sound.erased_slot (h : Sound v dirs parent) (hl : Live v dirs d)
    (hm : d ≠ freeMapSector) (ho : v.opened d ≠ none) {es : List Entry}
    (hn : v.node d = some ⟨true, es⟩) (hlk : lookup es name = some (i, e))
    (hdir : v.isdir e.inodeSector = true →
      v.opened e.inodeSector = none ∧ isEmpty (v.entries e.inodeSector) = true) :
    dirs d ∧ ∃ j, i = j + 2 ∧ v.link d j = some e.inodeSector := by
  rw [← entries_eq hn] at hlk
  obtain ⟨hd, he | he | hj⟩ := h.lookup_cases hl hm hlk
  · -- `.` is the directory itself, which is open.
    rw [he] at hdir
    exact absurd (hdir (h.isdir hd)).1 ho
  · rw [he] at hdir
    obtain ⟨hop, hempty⟩ := hdir (h.isdir (h.up d hd))
    by_cases hr : d = rootDirSector
    · rw [hr, h.top, ← hr] at hop
      exact absurd hop ho
    · -- `..` has the link to the directory.
      obtain ⟨j, hj⟩ := h.linked d hd hr
      simp [link_of_isEmpty hempty] at hj
  · exact ⟨hd, hj⟩

theorem Sound.erased (h : Sound v dirs parent) (hl : Live v dirs d) (hm : d ≠ freeMapSector)
    (ho : v.opened d ≠ none) (he : Erased d name v v') : Good v' := by
  obtain ⟨es, i, e, hn, hlk, hdir, rfl⟩ := he
  obtain ⟨hd, j, rfl, hj⟩ := h.erased_slot hl hm ho hn hlk hdir
  obtain ⟨hget, hu, -⟩ := lookup_some hlk
  obtain ⟨s, hs⟩ : ∃ s, e.inodeSector = s := ⟨_, rfl⟩
  rw [hs] at hdir hj ⊢
  have hb := h.bump (.named ⟨d, j, hd, hj⟩)
  generalize he' : ({ inodeSector := s, name := e.name, inUse := false } : Entry) = e'
  have hclear : e'.inUse = false := by rw [← he']
  have htree := hb.toTree.erase hd hn hget hu hs hclear (bump_opened v s)
    (fun hi => link_of_isEmpty (hdir hi).2)
  obtain ⟨hop, hnode⟩ := markRemoved_bumped v s d (some ⟨true, es.set (j + 2) e'⟩)
  generalize ((v.bump s).setNode d
    (some ⟨true, es.set (j + 2) e'⟩)).markRemoved s = w at htree hop hnode ⊢
  have hws : w.opened s = some ⟨v.openCnt s + 1, true⟩ := by rw [hop, setOpened_self]
  have hisdir (t : Nat) : w.isdir t = v.isdir t := by
    by_cases ht : t = d
    · have hwd : w.node d = some ⟨true, es.set (j + 2) e'⟩ := by
        rw [hnode]
        exact if_pos rfl
      rw [ht, isdir_eq hwd, isdir_eq hn]
    · refine isdir_congr ?_
      rw [hnode]
      exact if_neg ht
  refine ⟨_, _, htree.drop hws, fun t ht => ?_⟩
  rw [isdir_congr (congrFun (drop_node _ s) t), hisdir]
  unfold isRemoved at ht
  rw [(drop_opened hws).1] at ht
  by_cases hts : t = s
  · subst hts
    rw [setOpened_self] at ht
    -- An inode that is still open was open before: it is a file.
    cases hd' : v.isdir t with
    | false => rfl
    | true =>
      have hz : v.openCnt t = 0 := by
        unfold openCnt
        rw [(hdir hd').1]
      simp [hz] at ht
  · refine h.clean t ?_
    rw [setOpened_other _ hts, hop, setOpened_other _ hts] at ht
    exact ht

/-- An inode that a reference stands for is closed. -/
theorem Good.drop (h : Good v) (hh : Held v (s :: H)) : Good (v.drop s) := by
  obtain ⟨dirs, parent, h⟩ := h
  obtain ⟨n, r, ho⟩ := hh.opened mem_cons_self
  exact (h.drop ho).good

/-- `filesys_remove` keeps a sound tree. -/
theorem Removal.good {path : Path} (hr : Removal False cwd path v v') (hh : Held v H)
    (h : Sound v dirs parent) (hc : Opens v cwd) (hm : cwd ≠ some freeMapSector) : Good v' := by
  rcases hr with rfl | ⟨d, w, hres, rfl, he | ⟨⟨⟩, -⟩⟩
  · exact h.good
  · obtain ⟨hl, hne⟩ := (resolve_leads hc hres).live h hm
    have hopen := bump_opened v d
    have hg := (h.bump hl).erased (.opened hopen) hne hopen he
    exact hg.drop ((hh.bump d).erased he).1

-- ==== opens and exits

/-- Opening and closing inodes keeps the tree. -/
theorem Moves.sound (hmv : Moves cwd v H w H') (hh : Held v H) (h : Sound v dirs parent)
    (hm : cwd ≠ some freeMapSector) : Sound w dirs parent := by
  induction hmv with
  | refl => exact h
  | bump _ hs ih => exact ih.bump (hs.elim (fun hl => (hl.live ih hm).1) .opened)
  | drop hmv ih =>
    obtain ⟨n, r, ho⟩ := (hmv.held hh).1.opened mem_cons_self
    exact ih.drop ho
  | count _ _ ih => exact ih

-- ==== runs

namespace Fs

variable {x x' : Fs} {p : Nat} {pr : Proc}

/-- A formatted volume that was mounted: the root directory has its two
entries, the free map is a file. -/
structure Formatted (x : Fs) : Prop extends Mounted x where
  root : ∃ es, x.vol.node rootDirSector
      = some ⟨true, dotEntry rootDirSector :: dotDotEntry rootDirSector :: es⟩
    ∧ ∀ e ∈ es, e.inUse = false
  map : ∃ es, x.vol.node freeMapSector = some ⟨false, es⟩
  used : x.vol.used freeMapSector = true ∧ x.vol.used rootDirSector = true
  owner : x.vol.owner freeMapSector = none ∧ x.vol.owner rootDirSector = none
  owned : ∀ b t, x.vol.owner b = some t → x.vol.used b = true

/-- Every call, with memory for all allocations; the contents of files
change by these calls only. -/
def Plain : Act → Fs → Prop
  | .create _ _ _ _ o, _ => ∀ b ∈ o.mem, b = true
  | .remove _ _ o, _ => ∀ b ∈ o.mem, b = true
  | .chdir _ _ o, _ => ∀ b ∈ o.mem, b = true
  | .open _ _ o, _ => ∀ b ∈ o.mem, b = true
  | .exec _ _ o, _ => ∀ b ∈ o.mem, b = true
  | .contents _ _, _ => False
  | _, _ => True

instance (a : Act) (x : Fs) : Decidable (Plain a x) :=
  match a with
  | .create _ _ _ _ o | .remove _ _ o | .chdir _ _ o | .open _ _ o
  | .exec _ _ o => inferInstanceAs (Decidable (∀ b ∈ o.mem, b = true))
  | .contents _ _ => .isFalse id
  | .close _ _ | .exit _ => .isTrue trivial

structure TreeOk (x : Fs) : Prop where
  balanced : x.Balanced
  good : Good x.vol
  cwd : ∀ pr ∈ x.procs, pr.currentDirectory ≠ some freeMapSector

theorem Formatted.sound (h : x.Formatted) :
    Sound x.vol (· = rootDirSector) (fun _ => rootDirSector) := by
  obtain ⟨es, hroot, hes⟩ := h.root
  obtain ⟨ms, hmap⟩ := h.map
  have hopen {t : Nat} (ht : x.vol.opened t ≠ none) : t = freeMapSector := by
    by_contra hne
    rw [h.opened, if_neg hne] at ht
    exact ht rfl
  have hrem (t : Nat) : x.vol.isRemoved t = false := by
    unfold isRemoved
    rw [h.opened]
    by_cases ht : t = freeMapSector <;> simp [ht]
  have hlink {d : Nat} (hd : d = rootDirSector) (i : Nat) : x.vol.link d i = none := by
    rw [hd, link, entries_eq hroot]
    exact linkAt_unused hes i
  have hlive {t : Nat} (ht : Live x.vol (· = rootDirSector) t) :
      t = freeMapSector ∨ t = rootDirSector := by
    cases ht with
    | map hm => exact .inl hm
    | dir hd => exact .inr hd
    | named hn =>
      obtain ⟨d, i, hd, hi⟩ := hn
      simp [hlink hd] at hi
    | opened ho => exact .inl (hopen ho)
  exact
    { root := rfl, top := rfl, up := fun _ _ => rfl, dots := fun d hd => ⟨es, hd ▸ hroot⟩
      kept := fun d _ => hrem d
      named := fun t ht => by
        obtain ⟨d, i, hd, hi⟩ := ht
        simp [hlink hd] at hi
      map := ⟨isdir_eq hmap, hrem _⟩
      child := fun d i t hd hi => by simp [hlink hd] at hi
      unique := fun d i d' i' t hd _ hi => by simp [hlink hd] at hi
      linked := fun d hd hne => absurd hd hne
      live := fun t ht => by
        rcases hlive ht with rfl | rfl
        · exact ⟨h.used.1, h.owner.1, _, hmap⟩
        · exact ⟨h.used.2, h.owner.2, _, hroot⟩
      file := fun t ht hm hf => by
        rcases hlive ht with rfl | rfl
        · exact absurd rfl hm
        · simp [isdir_eq hroot] at hf
      openDir := fun t ht hd => by simp [hopen ht, isdir_eq hmap] at hd
      owned := h.owned
      clean := fun t ht => by simp [hrem] at ht }

theorem Formatted.treeOk (h : x.Formatted) : x.TreeOk := by
  refine ⟨h.balanced.1, ⟨_, _, h.sound⟩, fun pr hpr => ?_⟩
  rw [h.procs pr hpr]
  exact some_ne_none _ |>.symm

namespace TreeOk

/-- A process has opened and closed inodes. -/
theorem work {a : Act} (h : x.TreeOk) (hw : Worked a x x') : x'.TreeOk := by
  obtain ⟨⟨pr, hpr, hm⟩, hcwd, -⟩ := hw
  obtain ⟨dirs, parent, hs⟩ := h.good
  refine ⟨(hm.held h.balanced).1, (hm.sound h.balanced hs (h.cwd pr hpr)).good, ?_⟩
  intro q hq hc
  obtain ⟨pr', hpr', hl⟩ := hcwd q hq _ hc
  exact (hl.live hs (h.cwd pr' hpr')).2 rfl

variable {o : Choices} {path : Path}

variable (h : x.TreeOk)

include h

theorem create {size : Nat} {isdir : Bool}
    (hs : Fs.step (.create p path size isdir o) x = some x') : x'.TreeOk := by
  obtain ⟨pr, hp, hs⟩ := bind_eq_some_iff.mp hs
  obtain ⟨⟨b, v⟩, hrun, hs⟩ := bind_eq_some_iff.mp hs
  cases hs
  obtain ⟨dirs, parent, hsound⟩ := h.good
  have hpr := mem_of_getElem? (proc_some hp).1
  obtain ⟨hg, ho⟩ := run_spec (filesysCreate_good h.balanced.valid hsound (h.balanced.opens hpr)
    (h.cwd pr hpr) path size isdir) (.inl trivial) hrun
  exact ⟨Held.congr h.balanced ho, hg, h.cwd⟩

theorem remove (hmem : ∀ b ∈ o.mem, b = true) (hb : x'.Balanced)
    (hs : Fs.step (.remove p path o) x = some x') : x'.TreeOk := by
  obtain ⟨pr, hp, hs⟩ := bind_eq_some_iff.mp hs
  obtain ⟨⟨b, v⟩, hrun, hs⟩ := bind_eq_some_iff.mp hs
  cases hs
  obtain ⟨dirs, parent, hsound⟩ := h.good
  have hpr := mem_of_getElem? (proc_some hp).1
  have hr := run_spec (filesysRemove_spec h.balanced.valid _ path (.inl loose))
    (show False ∨ _ from .inr hmem) hrun
  exact ⟨hb, hr.good h.balanced hsound (h.balanced.opens hpr) (h.cwd pr hpr), h.cwd⟩

/-- Every call keeps the tree. -/
theorem step {a : Act} (hq : Plain a x) (hs : Fs.step a x = some x') : x'.TreeOk := by
  cases a with
  | create p path size isdir o => exact h.create hs
  | remove p path o => exact h.remove hq (remove_accounts h.balanced hs).balanced hs
  | chdir p path o => exact h.work (chdir_worked h.balanced hs)
  | «open» p path o => exact h.work (open_worked h.balanced hs)
  | close p fd => exact h.work (close_worked h.balanced hs)
  | exec p path o => exact h.work (exec_worked h.balanced hs)
  | exit p =>
    obtain ⟨pr, hp, hs⟩ := bind_eq_some_iff.mp hs
    cases hs
    exact h.work (a := .exit p) (exitProc_worked h.balanced hp)
  | contents s n => exact hq.elim

end TreeOk

/-- The tree is sound in every state of a run. -/
theorem treeOk_reachable (h : Reach Formatted step Plain x) : x.TreeOk :=
  Reach.induct (P := TreeOk) (fun _ h => h.treeOk) (fun _ _ _ _ h hq hs => h.step hq hs) x h

end Fs

-- ==== the results

/-- The directories that entries in use lead to from the root. -/
inductive Reachable (v : Vol) : Nat → Prop
  | root : Reachable v rootDirSector
  | entry {d : Nat} {e : Entry} (hd : Reachable v d)
      (he : e ∈ v.entries d) (hu : e.inUse = true)
      (hi : v.isdir e.inodeSector = true) : Reachable v e.inodeSector

theorem Sound.entry_live (h : Sound v dirs parent) (hd : dirs d) (he : e ∈ v.entries d)
    (hu : e.inUse = true) : Live v dirs e.inodeSector := by
  obtain ⟨i, hi⟩ := mem_iff_getElem?.mp he
  obtain he | he | ⟨j, -, hj⟩ := h.entry_cases hd hi hu
  · exact .dir (he ▸ hd)
  · exact .dir (he ▸ h.up d hd)
  · exact .named ⟨d, j, hd, hj⟩

theorem Sound.reachable (h : Sound v dirs parent) (hr : Reachable v d) : dirs d := by
  induction hr with
  | root => exact h.root
  | entry _ he hu hi ih => exact h.live_dir (h.entry_live ih he hu) hi

theorem Sound.parent_reachable (h : Sound v dirs parent)
    (hr : Reachable v d) : Reachable v (parent d) := by
  have hd := h.reachable hr
  obtain ⟨es, hn⟩ := h.dots d hd
  have he : dotDotEntry (parent d) ∈ v.entries d := by
    rw [entries_eq hn]
    simp
  have hi : v.isdir (dotDotEntry (parent d)).inodeSector = true := h.isdir (h.up d hd)
  exact .entry hr he rfl hi

/-- A successful removal takes the link of a file, or of a directory that
was closed and empty. -/
theorem Removal.links {path : Path} (hr : Removal False cwd path v v') :
    ∀ b i s, v.link b i = some s → v.isdir s = true → v'.link b i ≠ some s →
      v.opened s = none ∧ isEmpty (v.entries s) = true := by
  intro b i s hl hdir hne
  rcases hr with rfl | ⟨d, w, -, rfl, he | ⟨⟨⟩, -⟩⟩
  · exact absurd hl hne
  obtain ⟨es, k, e, hn, hlk, hclosed, rfl⟩ := he
  obtain ⟨hget, hu, -⟩ := lookup_some hlk
  have hlt : k < es.length := (List.getElem?_eq_some_iff.mp hget).1
  have hnode : (Vol.drop (Vol.drop (markRemoved ((v.bump d |>.bump e.inodeSector).setNode d
        (some ⟨true, es.set k { e with inUse := false }⟩))
      e.inodeSector) e.inodeSector) d).node
      = (v.setNode d (some ⟨true, es.set k { e with inUse := false }⟩)).node := by
    rw [drop_node, drop_node, (markRemoved_bumped _ _ _ _).2]
    rfl
  by_cases hb : b = d ∧ i + 2 = k
  · obtain ⟨rfl, rfl⟩ := hb
    have hs : s = e.inodeSector := by
      have hl' : (v.bump b).link b i = some s := hl
      rw [link, entries_eq hn, linkAt_of_getElem hget hu] at hl'
      exact (some.inj hl').symm
    subst hs
    obtain ⟨hop, hempty⟩ := hclosed hdir
    refine ⟨?_, hempty⟩
    by_cases hbs : e.inodeSector = b
    · rw [hbs] at hop
      exact absurd hop (bump_opened v b)
    · rwa [bump_other hbs] at hop
  · refine absurd ?_ hne
    rw [← hl]
    by_cases hbd : b = d
    · subst hbd
      have hnb := congrFun hnode b
      have hnb' := hnb.trans (if_pos rfl)
      have hn' : v.node b = some ⟨true, es⟩ := hn
      rw [link, entries_eq hnb', linkAt_set hlt,
        if_neg (fun he => hb ⟨rfl, he⟩), link, entries_eq hn']
    · exact link_congr ((congrFun hnode b).trans (if_neg hbd)) i

namespace Fs

variable {x : Fs}

/-- The directory tree invariant: in every state, every entry in use of a
directory reachable from the root names a used sector that holds an inode;
its first two slots are `.` and `..`; the root has no other entry that
names it, and every other reachable directory exactly one, in its parent.
A removal only takes the link of a directory that was closed and empty. -/
theorem directories_form_tree (h : Reach Formatted step Plain x) : (∀ d, Reachable x.vol d →
      (∀ e ∈ x.vol.entries d, e.inUse = true →
        x.vol.used e.inodeSector = true ∧ ∃ n, x.vol.node e.inodeSector = some n)
      ∧ ∃ up, (x.vol.entries d)[0]? = some (dotEntry d)
        ∧ (x.vol.entries d)[1]? = some (dotDotEntry up)
        ∧ Reachable x.vol up
        ∧ (d = rootDirSector → up = rootDirSector
          ∧ ∀ b i, Reachable x.vol b → x.vol.link b i ≠ some d)
        ∧ (d ≠ rootDirSector → ∃ i, x.vol.link up i = some d
          ∧ ∀ b j, Reachable x.vol b → x.vol.link b j = some d → b = up ∧ j = i))
    ∧ ∀ p path o x', Plain (.remove p path o) x →
      step (.remove p path o) x = some x' →
      ∀ b i s, x.vol.link b i = some s → x.vol.isdir s = true →
        x'.vol.link b i ≠ some s →
        x.vol.opened s = none ∧ isEmpty (x.vol.entries s) = true := by
  have hok := treeOk_reachable h
  obtain ⟨dirs, parent, hs⟩ := hok.good
  refine ⟨fun d hr => ⟨fun e he hu => ?_, parent d, ?_⟩, ?_⟩
  · obtain ⟨hused, -, hn⟩ := hs.live _ (hs.entry_live (hs.reachable hr) he hu)
    exact ⟨hused, hn⟩
  · have hd := hs.reachable hr
    obtain ⟨es, hn⟩ := hs.dots d hd
    rw [entries_eq hn]
    refine ⟨rfl, rfl, hs.parent_reachable hr, fun hroot => ?_, fun hroot => ?_⟩
    · refine ⟨hroot ▸ hs.top, fun b i hb hi => ?_⟩
      exact (hs.named d ⟨b, i, hs.reachable hb, hi⟩).1 hroot
    · obtain ⟨i, hi⟩ := hs.linked d hd hroot
      exact ⟨i, hi, fun b j hb hj => hs.unique b j _ i d (hs.reachable hb) (hs.up d hd) hj hi⟩
  · intro p path o x' hmem hstep
    obtain ⟨pr, hp, hstep⟩ := bind_eq_some_iff.mp hstep
    obtain ⟨⟨b, v⟩, hrun, hstep⟩ := bind_eq_some_iff.mp hstep
    cases hstep
    have hr := run_spec (filesysRemove_spec hok.balanced.valid _ path (.inl loose))
      (show False ∨ _ from .inr hmem) hrun
    exact hr.links

theorem formatted_formatted (n : Nat) : (formatted n).Formatted where
  toMounted := formatted_mounted n
  root := ⟨_, rfl, fun e he => by rw [(mem_replicate.mp he).2]; rfl⟩
  map := ⟨[], rfl⟩
  used := ⟨rfl, rfl⟩
  owner := ⟨rfl, rfl⟩
  owned := fun b t hb => by
    have hb' : (if b = 2 then some freeMapSector
      else if b = 3 then some rootDirSector else none) = some t := hb
    split at hb'
    next h => rw [h]; rfl
    next =>
      split at hb'
      next h => rw [h]; rfl
      next => cases hb'

/-- Every call with memory for all allocations, and with a sector for each
directory that grows. -/
def Whole (a : Act) (x : Fs) : Prop :=
  Plain a x ∧ (step a x).all (fun x' => !x'.vol.spilled) = true

instance (a : Act) (x : Fs) : Decidable (Whole a x) := inferInstanceAs (Decidable (_ ∧ _))

/-- No entry but `.` and `..` names the root: on a fresh volume it is the
only directory, and no slot from the third on names it. -/
theorem root_without_entry :
    ∃ x, Reach Formatted step Plain x ∧ Reachable x.vol rootDirSector
      ∧ ∀ b i, Reachable x.vol b → x.vol.link b i ≠ some rootDirSector := by
  have h0 : Reach Formatted step Plain (formatted 1) := .init (formatted_formatted 1)
  obtain ⟨dirs, parent, hs⟩ := (treeOk_reachable h0).good
  exact ⟨formatted 1, h0, .root, fun b i hb hi => (hs.named _ ⟨b, i, hs.reachable hb, hi⟩).1 rfl⟩

/-- Two nested directories; the removals of the outer one and of `..` fail,
that of the inner one succeeds. -/
theorem tree_of_nested_directories :
    ∃ x, Reach Formatted step Plain x
      ∧ x.vol.isdir 4 = true ∧ Reachable x.vol 4
      ∧ ∃ up, (x.vol.entries 4)[1]? = some (dotDotEntry up) ∧ ∃ i, x.vol.link up i = some 4 := by
  have h0 : Reach Formatted step Plain (formatted 1) := .init (formatted_formatted 1)
  obtain ⟨x, hx, hdir, hlink⟩ := h0.of_runAll [.create 0 ['a'] 0 true ⟨[], [4, 5]⟩,
      .create 0 ['a', '/', 'b'] 0 true ⟨[], [6, 7]⟩,
      .remove 0 ['a'] ⟨[], []⟩,
      .remove 0 ['a', '/', 'b', '/', '.', '.'] ⟨[], []⟩,
      .remove 0 ['a', '/', 'b'] ⟨[], []⟩]
    (fun x : Fs => x.vol.isdir 4 = true ∧ x.vol.link rootDirSector 0 = some 4) (by decide)
  have hreach : Reachable x.vol 4 := by
    unfold link linkAt at hlink
    split at hlink
    next e he =>
      obtain ⟨hu, hlink⟩ := ite_none_right_eq_some.mp hlink
      have hsec : e.inodeSector = 4 := some.inj hlink
      rw [← hsec]
      exact .entry .root (mem_of_getElem? he) hu (hsec ▸ hdir)
    next => cases hlink
  obtain ⟨-, up, -, hup, -, -, hpar⟩ := (directories_form_tree hx).1 4 hreach
  obtain ⟨i, hi, -⟩ := hpar (by decide)
  exact ⟨x, hx, hdir, hreach, up, hup, i, hi⟩

end Fs

end Pintos.Directory
