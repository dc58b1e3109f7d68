import Ufs370.RenameRuns

/-! How a call of `ufs_file_rename` ends, and which calls move just one name. -/

namespace Ufs370

open Lib Lib.IndexForest Lib.IndexLayout Lib.Namespace

/-- How a call of `ufs_file_rename` ends: the code and the disk. -/
inductive RenameEnds (inos : List Nat) (dirs : Set Nat) (a : Nat) (fromName : List UInt8) (b : Nat) (toName : List UInt8)
    (v : VDisk) : Rc → VDisk → Prop
  | missing {v' : VDisk} : (∀ c, ¬ v.names a (direntFilename fromName) c) → v' = v →
      RenameEnds inos dirs a fromName b toName v .enoent v'
  | stuck {rc : Rc} {v' : VDisk} : ¬ v.Removable b toName → rc ≠ .ok → SameView v v' →
      RenameEnds inos dirs a fromName b toName v rc v'
  | refused {x : Nat} {v' : VDisk} {free' : List Nat} : v.names a (direntFilename fromName) x → (v.inode x).isdir = true →
      Above [dot, dot] v.names x b → v.Removable b toName → Cleared inos dirs b toName v v' free' →
      RenameEnds inos dirs a fromName b toName v .einval v'
  | emptied {x : Nat} {v' : VDisk} : v.names a (direntFilename fromName) x → v.Removable b toName → a ∈ v.bearers b toName →
      ((v.inode x).isdir = true → ¬ Above [dot, dot] v.names x b) →
      (∀ e, e ∈ v'.dirents b ↔ (e ∈ v.dirents b ∧ e.name ≠ direntFilename toName) ∨ e = ⟨x, direntFilename toName⟩) →
      RenameEnds inos dirs a fromName b toName v .enoent v'
  | moved {x : Nat} {v' : VDisk} {free' : List Nat} : v.names a (direntFilename fromName) x → v.Removable b toName →
      a ∉ v.bearers b toName → ((v.inode x).isdir = true → ¬ Above [dot, dot] v.names x b) →
      Moved inos dirs a fromName b toName x v v' free' → RenameEnds inos dirs a fromName b toName v .ok v'

section Views

variable {v v₁ v' w : VDisk} {inos free free' : List Nat} {dirs : Set Nat} {a b d x : Nat} {fromName toName : List UInt8}

theorem SameView.names (s : SameView v v₁) : v₁.names = v.names := by
  funext d n c
  rw [VDisk.names, VDisk.names, s.dirents]

theorem SameView.bearers (s : SameView v v₁) (name : List UInt8) : v₁.bearers b name = v.bearers b name := by
  rw [VDisk.bearers, VDisk.bearers, s.names]

theorem SameView.sound (s : SameView v v₁) (h : SoundDirectory inos v d) : SoundDirectory inos v₁ d where
  mem := h.mem
  isdir := by
    rw [s.inode]
    exact h.isdir
  whole := by
    rw [s.filesize]
    exact h.whole
  named := by
    rw [s.dirents]
    exact h.named
  sane e he := by
    rw [s.dirents] at he
    rw [(s.spares ∅ fun _ => 0).layout.numberSanity]
    exact h.sane e he
  apart := by
    rw [s.dirents]
    exact h.apart

theorem SameView.hierarchy (s : SameView v v₁) (h : v.Hierarchy inos dirs) : v₁.Hierarchy inos dirs where
  sound d hd := s.sound (h.sound d hd)
  tree := by
    rw [s.names, s.inode]
    exact h.tree

theorem SameView.removable (s : SameView v v₁) (name : List UInt8) : v₁.Removable b name ↔ v.Removable b name := by
  rw [VDisk.Removable, VDisk.Removable, s.names, s.inode]

theorem SameView.subdirs (s : SameView v v₁) (d : Nat) : v₁.subdirs d = v.subdirs d := by
  rw [VDisk.subdirs, VDisk.subdirs, s.names, s.inode]

theorem SameView.linked (s : SameView v v₁) : v₁.Linked inos dirs ↔ v.Linked inos dirs := by
  have key {u w : VDisk} (s : SameView u w) (h : u.Linked inos dirs) : w.Linked inos dirs := by
    refine ⟨fun d hd => ?_, fun i hi hfile => ?_⟩
    · rw [s.subdirs, s.inode]
      exact h.directory d hd
    · rw [s.inode] at hfile ⊢
      rw [s.names]
      exact h.file i hi hfile
  exact ⟨key ⟨by rw [s.same], s.inode.symm⟩, key s⟩

theorem SameView.room (s : SameView v v₁) (d : Nat) : v₁.room d = v.room d := by
  rw [VDisk.room, VDisk.room, s.filesize, s.same]
  rfl

/-- The call with a reference to the inode that is to be moved. -/
theorem RenameReady.taken (h : RenameReady inos free dirs 6 a b v) (s : SameView v v₁) (htaken : Taken x v v₁)
    (hheld : Held v [x] v₁) : RenameReady inos free dirs 5 a b v₁ where
  wellFormed := s.wellFormed h.wellFormed
  coherent i hi := s.inSlot.mpr (h.coherent i (s.number.mp hi))
  oneHandle := hheld.oneHandle
  references i := by
    have huses := hheld.uses i
    have hcount := List.count_le_length (a := i) (l := [x])
    have hroom := h.references i
    rw [List.length_singleton] at hcount
    rw [huses]
    omega
  unmounted i := by
    by_cases hi : i = x
    · rw [hi, mounted_some htaken.own, ← h.unmounted x, mounted_eq_loaded]
    · rw [(handle_congr (htaken.other i hi)).2]
      exact h.unmounted i
  hierarchy := s.hierarchy h.hierarchy
  source := h.source
  usedSource := by
    rw [hheld.uses]
    exact Nat.lt_of_lt_of_le h.usedSource (Nat.le_add_right ..)
  target := h.target
  usedTarget := by
    rw [hheld.uses]
    exact Nat.lt_of_lt_of_le h.usedTarget (Nat.le_add_right ..)
  size := by
    rw [s.filesize]
    exact h.size.congr (by rw [s.same])
  room := by
    have hblk : v₁.blksize = v.blksize := by rw [s.same]
    have hnidx : v₁.nidx = v.nidx := by rw [VDisk.nidx, hblk]; rfl
    have hsb : v₁.sb = v.sb := by rw [s.same]
    rw [VDisk.room, s.filesize, hblk, hnidx, hsb]
    exact h.room

/-- A removal between the two references to the inode. -/
theorem Cleared.between (h : Cleared inos dirs b toName v₁ v' free') (hw : WellFormed v inos free) (s : SameView v v₁)
    (s' : SameView v' w) (hheld : Held v [] w) (huse : 0 < v.uses b) : Cleared inos dirs b toName v w free' where
  confined := by
    have hconfined := h.confined
    rw [s.bearers] at hconfined
    exact hconfined.between hw s s' hheld
  hierarchy := by
    rw [← s.bearers]
    exact s'.hierarchy h.hierarchy
  opened := by
    refine ⟨h.opened.mem, ?_, by rw [s'.inode]; exact h.opened.isdir, by rw [s'.filesize]; exact h.opened.whole,
      by rw [s'.dirents]; exact h.opened.named, by rw [s'.dirents]; exact h.opened.apart⟩
    rw [hheld.uses]
    exact huse
  entries e := by
    rw [s'.dirents, h.entries, s.dirents]
  filesize := by
    rw [s'.filesize, ← s.filesize]
    exact h.filesize
  room := by
    rw [s'.room, ← s.room]
    exact h.room
  empty y hy hdir := by
    rw [s'.filesize]
    rw [← s.inode] at hdir
    exact h.empty y (by rwa [s.bearers]) hdir
  linked hlinked := by
    rw [s'.linked, ← s.bearers]
    exact h.linked (s.linked.mpr hlinked)

/-- A move between the two references to the inode. -/
theorem Moved.between (h : Moved inos dirs a fromName b toName x v₁ v' free') (hw : WellFormed v inos free)
    (s : SameView v v₁) (s' : SameView v' w) (hheld : Held v [] w) : Moved inos dirs a fromName b toName x v w free' where
  confined := by
    have hbearers := s.bearers (b := b) toName
    have hconfined := h.confined
    rw [hbearers] at hconfined
    exact hconfined.between hw s s' hheld
  sound d hd := s'.sound (h.sound d (by rwa [s.bearers]))
  names d hd n c := by
    have hnames := h.names d (by rwa [s.bearers]) n c
    rw [s.names, s.inode] at hnames
    rw [s'.names]
    exact hnames
  linked hlinked hfrom hroom := by
    rw [s'.linked, ← s.bearers]
    exact h.linked (s.linked.mpr hlinked) hfrom (by rwa [s.inode])

end Views

section Call

variable {v v₁ : VDisk} {inos free : List Nat} {dirs : Set Nat} {a b x : Nat} {fromName toName : List UInt8}

/-- What a call does with the inode, up to its release. -/
theorem renameInode_run (h : RenameReady inos free dirs 5 a b v) (hto : slash ∉ toName)
    (hname : v.names a (direntFilename fromName) x) (hused : 0 < v.uses x) :
    ∃ n, ∀ fuel, n ≤ fuel → ∃ rc v', (renameInode fuel a fromName b toName x).run v = (some rc, v') ∧ v'.Coherent ∧
      SameLayout v v' ∧ Held v [] v' ∧ RenameEnds inos dirs a fromName b toName v rc v' := by
  have hw := h.wellFormed
  have hdin : v.din x = v.inode x := (cached_of_uses hused).din
  have hx : x ∈ inos := (h.hierarchy.sound a h.source).named _ hname
  by_cases hfreed : v.Removable b toName
  swap
  · have hstuck := hfreed
    simp only [VDisk.Removable, not_forall, not_not] at hstuck
    obtain ⟨y, hy, hstuck⟩ := hstuck
    obtain ⟨rc, v', hrun, hrc, s, hheld⟩ := renameTarget_stuck h hto hy hstuck
    refine ⟨0, fun fuel _ => ⟨rc, v', ?_, fun i hi => s.inSlot.mpr (h.coherent i (s.number.mp hi)), (s.spares ∅ fun _ => 0).layout,
      hheld, .stuck hfreed hrc s⟩⟩
    simp only [renameInode, Prog.run_bind, hrun, ne_eq, hrc, not_false_eq_true, if_true, Prog.run_pure]
  obtain ⟨v₂, free₂, hrun, hclear⟩ := renameTarget_run h hto hfreed
  have hconfined := hclear.confined
  have hplain := h.hierarchy.plain h.target hfreed
  have hbdirs : b ∈ dirs \ v.bearers b toName := ⟨h.target, fun hb => h.hierarchy.bearer_ne h.target hfreed hb rfl⟩
  -- the way up is as it was before
  have habove : Above [dot, dot] v.names x b ↔ Above [dot, dot] v₂.names x b :=
    hclear.hierarchy.tree.above_congr (fun d hd p => by rw [hclear.names h hd, drop_of_ne (.inr hplain.2.symm)]) hbdirs
  obtain ⟨n, hn⟩ := canDirmove_run hclear.hierarchy hconfined.wellFormed hconfined.coherent x hbdirs
  refine ⟨n, fun fuel hfuel => ?_⟩
  obtain ⟨rc, hmove, hrc⟩ := hn fuel hfuel
  by_cases hrefused : (v.inode x).isdir = true ∧ Above [dot, dot] v.names x b
  · obtain ⟨hdir, hup⟩ := hrefused
    rw [hrc.found (habove.mp hup)] at hmove
    refine ⟨.einval, v₂, ?_, hconfined.coherent, hconfined.spares.layout, hconfined.held, .refused hname hdir hup hfreed
      hclear⟩
    simp only [renameInode, Prog.run_bind, hdin, hrun, ne_eq, not_true_eq_false, if_false, hdir, if_true, hmove,
      Option.some.injEq, reduceCtorEq, not_false_eq_true, Prog.run_pure]
  rw [not_and] at hrefused
  have hgo : (renameInode fuel a fromName b toName x).run v =
      ((some ((renameEntries a fromName b toName x (v.inode x).isdir).run v₂).1),
        ((renameEntries a fromName b toName x (v.inode x).isdir).run v₂).2) := by
    by_cases hdir : (v.inode x).isdir = true
    · rw [hrc.clear fun hup => hrefused hdir (habove.mpr hup)] at hmove
      simp only [renameInode, Prog.run_bind, hdin, hrun, ne_eq, not_true_eq_false, if_false, hdir, if_true, hmove,
        Prog.run_pure]
    · simp only [renameInode, Prog.run_bind, hdin, hrun, ne_eq, not_true_eq_false, if_false, hdir, Bool.false_eq_true,
        Prog.run_pure]
  rw [hgo]
  by_cases ha : a ∈ v.bearers b toName
  · obtain ⟨v', free', hrun', hconfined', hentries⟩ := renameEntries_emptied fromName hclear h hfreed hx ha
      (v.inode x).isdir
    rw [hrun']
    exact ⟨_, v', rfl, hconfined'.coherent, hconfined'.spares.layout, hconfined'.held,
      .emptied hname hfreed ha hrefused hentries⟩
  · obtain ⟨v', free', hrun', hmoved⟩ := renameEntries_run hclear h hfreed hname hused ha hrefused
    rw [hrun']
    exact ⟨_, v', rfl, hmoved.confined.coherent, hmoved.confined.spares.layout, hmoved.confined.held,
      .moved hname hfreed ha hrefused hmoved⟩

/-- A call ends, for all but the shortest bounds on the loop. -/
theorem fileRename_ends (h : RenameReady inos free dirs 6 a b v) (hfrom : slash ∉ fromName) (hto : slash ∉ toName) :
    ∃ n, ∀ fuel, n ≤ fuel → ∃ rc v', (fileRename fuel a fromName b toName).run v = (some rc, v') ∧ Held v [] v' ∧
      RenameEnds inos dirs a fromName b toName v rc v' := by
  have hw := h.wellFormed
  by_cases hnone : ∀ c, ¬ v.names a (direntFilename fromName) c
  · refine ⟨0, fun fuel _ => ⟨.enoent, v, ?_, .refl h.oneHandle, .missing hnone rfl⟩⟩
    simp only [fileRename, Prog.run_bind, h.sourceOpen.lookup_none hw hfrom hnone, Prog.run_pure]
  obtain ⟨x, hname⟩ := not_forall_not.mp hnone
  have hx : x ∈ inos := (h.hierarchy.sound a h.source).named _ hname
  have hroom : v.Room := fun i => by
    have := h.references i
    omega
  obtain ⟨v₁, hget, htaken⟩ := inodeGet_live hw.geometry hw.live (hw.number x hx)
  have s₁ := SameView.of_taken htaken
  have hheld₁ := (Held.refl h.oneHandle).taken hroom (by decide) htaken
  have hused : 0 < v₁.uses x := by
    rw [hheld₁.uses, List.count_singleton_self]
    exact Nat.succ_pos _
  obtain ⟨n, hn⟩ := renameInode_run (h.taken s₁ htaken hheld₁) hto (by rw [s₁.names]; exact hname) hused
  refine ⟨n, fun fuel hfuel => ?_⟩
  obtain ⟨rc, v₂, hrun, hc₂, hlay, hheld₂, hends⟩ := hn fuel hfuel
  have hheld := hheld₁.trans hheld₂
  have hcached : v₂.Cached x := cached_of_uses (by rw [hheld₂.uses]; exact hused)
  obtain ⟨v', hrel, hreleased⟩ := inodeRel_run hcached
  have s' := SameView.of_released hheld.oneHandle hcached
    (fun _ => hc₂ x (hlay.inodeNumber (s₁.number.mpr (hw.number x hx)))) hreleased
  have hheld' := hheld.released hreleased
  refine ⟨rc, v', ?_, hheld', ?_⟩
  · simp only [fileRename, Prog.run_bind, h.sourceOpen.lookup hw hfrom hname, hget, hrun, hrel, Prog.run_pure]
  cases hends with
  | missing hnone' => exact absurd (by rw [s₁.names]; exact hname) (hnone' x)
  | stuck hstuck hrc s₂ =>
    exact .stuck (fun hfreed => hstuck ((s₁.removable _).mpr hfreed)) hrc ((s₁.trans s₂).trans s')
  | refused hname' hdir habove hfreed hclear =>
    rw [s₁.names] at hname' habove
    rw [s₁.inode] at hdir
    rw [s₁.removable] at hfreed
    exact .refused hname' hdir habove hfreed (hclear.between hw s₁ s' hheld' h.usedTarget)
  | emptied hname' hfreed ha habove hentries =>
    rw [s₁.names] at hname' habove
    rw [s₁.inode] at habove
    rw [s₁.removable] at hfreed
    rw [s₁.bearers] at ha
    rw [s₁.dirents] at hentries
    exact .emptied hname' hfreed ha habove fun e => by rw [s'.dirents, hentries]
  | moved hname' hfreed ha habove hmoved =>
    rw [s₁.names] at hname' habove
    rw [s₁.inode] at habove
    rw [s₁.removable] at hfreed
    rw [s₁.bearers] at ha
    exact .moved hname' hfreed ha habove (hmoved.between hw s₁ s' hheld')

end Call

end Ufs370
