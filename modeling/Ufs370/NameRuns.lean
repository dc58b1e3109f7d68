import Ufs370.Linking

/-! Runs of calls that make, remove and move names in the directories of a disk. -/

namespace Ufs370

open Lib Lib.IndexForest Lib.IndexLayout Lib.Namespace

/-- A call with a reference to an inode, which its caller has from a lookup. -/
def withInode {α : Type} (i : Nat) (x : Prog VDisk α) : Prog VDisk α := do
  let _ ← inodeGet i
  let r ← x
  inodeRel i
  return r

inductive NameOp
  | create (d : Nat) (name : List UInt8) (attr : Attr) (now : Timev)
  | link (d p : Nat) (name : List UInt8)
  | remove (d : Nat) (name : List UInt8)
  | rename (fuel a : Nat) (fromName : List UInt8) (b : Nat) (toName : List UInt8)

def nameStep : NameOp → Prog VDisk (Option Rc)
  | .create d name attr now => withInode d do return some (← fileAllocate d name attr now).1
  | .link d p name => withInode d (withInode p do return some (← fileLink d p name))
  | .remove d name => withInode d do return some (← fileDeallocate d name)
  | .rename fuel a fromName b toName => withInode a (withInode b (fileRename fuel a fromName b toName))

/-- The inodes that a call made. -/
def NameOp.made : NameOp → Option Rc → Nat
  | .create .., some .ok => 1
  | _, _ => 0

def made (hist : List (NameOp × Option Rc)) : Nat := (hist.map fun x => x.1.made x.2).sum

/-- There is room for an entry more. -/
def GrowthRoom (v : VDisk) (d : Nat) : Prop :=
  SizeOk v (v.filesize d + direntSize) ∧ (placesOf v.nidx (ceil (v.filesize d + direntSize) v.blksize)).length < v.room d

/-- The directories are in the tree, and there is room for what is new and a count for a link more.  A name that is looked
up has no slash; `ufs_file_link` looks for none.  A call of `ufs_file_rename` comes back, and moves no directory into itself
or by the name `.` or `..`. -/
def NameCall (v : VDisk) : NameOp → Prop
  | .create d name attr _ => d ∈ v.InTree ∧ slash ∉ name ∧ KnownType attr.mode ∧ v.InodeRoom ∧
      SizeOk v (v.filesize d + direntSize) ∧ v.EntryRoom d attr.mode ∧ (v.inode d).nlink.toNat + 1 < 65536
  | .link d p name => d ∈ v.InTree ∧ (∃ e ∈ v.InTree, ∃ n, v.names e n p) ∧ ¬ (v.inode p).isdir = true ∧
      (∀ c, ¬ v.names d (direntFilename name) c) ∧ GrowthRoom v d ∧ (v.inode p).nlink.toNat + 1 < 65536
  | .remove d name => d ∈ v.InTree ∧ slash ∉ name ∧ v.sb.totalFreeblock ≠ 0
  | .rename fuel a fromName b toName => a ∈ v.InTree ∧ b ∈ v.InTree ∧ slash ∉ fromName ∧ slash ∉ toName ∧
      ((nameStep (.rename fuel a fromName b toName)).run v).1 ≠ none ∧ GrowthRoom v b ∧
      (v.inode b).nlink.toNat + 1 < 65536 ∧ Ordinary [dot] [dot, dot] (direntFilename fromName) ∧
      ∀ x, v.names a (direntFilename fromName) x → x ≠ b

section Fuel

variable {v v' : VDisk} {m : Minode} {fuel fuel' x a b : Nat} {fromName toName : List UInt8} {rc : Rc}

/-- More rounds change nothing for a loop that ends. -/
theorem dirmoveLoop_mono (h : (dirmoveLoop x fuel m).run v = (some rc, v')) (hle : fuel ≤ fuel') :
    (dirmoveLoop x fuel' m).run v = (some rc, v') := by
  induction fuel generalizing m v fuel' with
  | zero => exact absurd (Prod.mk.inj h).1 (Option.some_ne_none rc).symm
  | succ fuel ih =>
    obtain ⟨k, rfl⟩ := Nat.exists_eq_add_of_le' (Nat.le_trans (Nat.le_add_left 1 fuel) hle)
    have hle := Nat.le_of_succ_le_succ hle
    simp only [dirmoveLoop, Prog.run_bind] at h ⊢
    generalize (withLoaded m (datablockForeach lookupParentSubr m.inodeNumber 0)).run v = r at h ⊢
    obtain ⟨⟨_, parent⟩, w⟩ := r
    by_cases hzero : parent = 0
    · simp only [hzero, if_true] at h ⊢
      exact h
    simp only [hzero, if_false, Prog.run_bind] at h ⊢
    generalize (inodeLoad parent).run w = r at h ⊢
    obtain ⟨_ | next, u⟩ := r
    · exact h
    by_cases hfrom : parent = x
    · simp only [hfrom, if_true] at h ⊢
      exact h
    by_cases hroot : parent = rootInode
    · simp only [hroot, if_false, ne_eq, not_true_eq_false] at h ⊢
      exact h
    · simp only [hfrom, hroot, if_false, ne_eq, not_false_eq_true, if_true] at h ⊢
      exact ih h hle

theorem canDirmove_mono (h : (canDirmove fuel x b).run v = (some rc, v')) (hle : fuel ≤ fuel') :
    (canDirmove fuel' x b).run v = (some rc, v') := by
  simp only [canDirmove, Prog.run_bind] at h ⊢
  generalize (inodeLoad b).run v = r at h ⊢
  obtain ⟨_ | start, u⟩ := r
  · exact h
  by_cases hdir : start.dinode.isdir = true
  · simp only [hdir, Bool.not_true, Bool.false_eq_true, if_false] at h ⊢
    exact dirmoveLoop_mono h hle
  · simp only [hdir, Bool.not_false, if_true] at h ⊢
    exact h

theorem renameInode_mono (h : (renameInode fuel a fromName b toName x).run v = (some rc, v')) (hle : fuel ≤ fuel') :
    (renameInode fuel' a fromName b toName x).run v = (some rc, v') := by
  simp only [renameInode, Prog.run_bind] at h ⊢
  generalize (renameTarget b toName).run v = r at h ⊢
  obtain ⟨error, w⟩ := r
  by_cases herror : error = .ok
  swap
  · simp only [herror, ne_eq, not_false_eq_true, if_true] at h ⊢
    exact h
  by_cases hdir : (v.din x).isdir = true
  · simp only [herror, ne_eq, not_true_eq_false, if_false, hdir, if_true, Prog.run_bind] at h ⊢
    cases hmove : (canDirmove fuel x b).run w with
    | mk error u =>
      rw [hmove] at h
      cases error with
      | none => exact absurd (Prod.mk.inj h).1 (Option.some_ne_none rc).symm
      | some error =>
        rw [canDirmove_mono hmove hle]
        exact h
  · simp only [herror, ne_eq, not_true_eq_false, if_false, hdir, Bool.false_eq_true, Prog.run_bind, Prog.run_pure] at h ⊢
    exact h

theorem fileRename_mono (h : (fileRename fuel a fromName b toName).run v = (some rc, v')) (hle : fuel ≤ fuel') :
    (fileRename fuel' a fromName b toName).run v = (some rc, v') := by
  simp only [fileRename, Prog.run_bind] at h ⊢
  generalize (fileLookupByName a fromName).run v = r at h ⊢
  obtain ⟨_ | ino, w⟩ := r
  · exact h
  simp only [Prog.run_bind] at h ⊢
  generalize (inodeGet ino).run w = r at h ⊢
  obtain ⟨_ | x, u⟩ := r
  · exact h
  simp only [Prog.run_bind] at h ⊢
  cases hinode : (renameInode fuel a fromName b toName x).run u with
  | mk error z =>
    rw [hinode] at h
    obtain rfl := (Prod.mk.inj h).1
    rw [renameInode_mono hinode hle]
    exact h

end Fuel

/-! One step. -/

/-- From `v` to `v'` the disk stays in order, with `n` more inodes in use and none less; each reference that was taken was
given back, and no file changed but for its links. -/
structure KeptOrder (inos : List Nat) (n : Nat) (v v' : VDisk) : Prop where
  held : Held v [] v'
  orderly : ∃ inos' free', (∀ i ∈ inos, i ∈ inos') ∧ Orderly inos' free' v'.InTree v'
  isdir : ∀ i ∈ inos, (v'.inode i).isdir = (v.inode i).isdir
  files : FilesKept inos v v'
  inodes : v'.freeInodes.length + n = v.freeInodes.length

/-- One call: a directory with names in it stays in the tree. -/
structure StepOrder (inos : List Nat) (n : Nat) (v v' : VDisk) : Prop extends KeptOrder inos n v v' where
  full : ∀ d ∈ v.InTree, (∃ m c, Ordinary [dot] [dot, dot] m ∧ v.names d m c) → d ∈ v'.InTree

section Step

variable {v v' : VDisk} {inos inos' free free' : List Nat} {dirs dirs' S : Set Nat} {fuel a b d i n : Nat} {name : List UInt8}
  {α : Type}

theorem Orderly.inTree (h : Orderly inos free dirs v) : Orderly inos free v.InTree v := by
  rw [h.hierarchy.inTree]
  exact h

theorem Orderly.opened (h : Orderly inos free dirs v) (hd : d ∈ dirs) (huse : 0 < v.uses d) : OpenDirectory inos v d :=
  (h.hierarchy.sound d hd).opened huse

theorem Orderly.view (h : Orderly inos free dirs v) (s : SameView v v') (hu : v'.Unmounted) : Orderly inos free dirs v' := by
  have hfree : v'.freeInodes = v.freeInodes := by
    rw [s.same]
    rfl
  refine ⟨s.wellFormed h.wellFormed, fun i hi => s.inSlot.mpr (h.coherent i (s.number.mp hi)), hu, s.counted h.counted,
    fun i hi => ?_, s.hierarchy h.hierarchy, s.linked.mpr h.linked⟩
  rw [s.filesize]
  exact h.unused i (hfree ▸ hi)

/-- Calls that change no inode. -/
theorem Orderly.kept_view (h : Orderly inos free dirs v) (s : SameView v v') (hu : v'.Unmounted) (hheld : Held v [] v') :
    StepOrder inos 0 v v' where
  held := hheld
  orderly := ⟨inos, free, fun _ => id, (h.view s hu).inTree⟩
  isdir i _ := by rw [s.inode]
  files := s.filesKept
  inodes := by
    rw [s.same]
    rfl
  full d hd _ := by
    rw [(s.hierarchy h.hierarchy).inTree, ← h.hierarchy.inTree]
    exact hd

theorem Orderly.kept_refl (h : Orderly inos free dirs v) : StepOrder inos 0 v v :=
  h.kept_view (SameView.refl v) h.unmounted (.refl h.unmounted.oneHandle)

/-- Calls that change inodes in use. -/
theorem Orderly.kept_confined (h : Orderly inos free dirs v) (hc : Confined inos S v v' free') (hS : ∀ i ∈ S, i ∈ inos)
    (hh : v'.Hierarchy inos dirs') (hl : v'.Linked inos dirs') (hu : v'.Unmounted)
    (hfull : ∀ d ∈ dirs, (∃ m c, Ordinary [dot] [dot, dot] m ∧ v.names d m c) → d ∈ dirs') : StepOrder inos 0 v v' where
  held := hc.held
  orderly := ⟨inos, free', fun _ => id, (h.confined hc hS hh hl hu).inTree⟩
  isdir _ hi := hc.isdir_mem h.wellFormed hi
  files := hc.files
  inodes := by rw [hc.freeInodes h.coherent h.counted, Nat.add_zero]
  full := by
    rw [h.hierarchy.inTree, hh.inTree]
    exact hfull

theorem KeptOrder.trans {v'' : VDisk} {m : Nat} (h : KeptOrder inos m v v') (h' : KeptOrder inos' n v' v'')
    (hsub : ∀ i ∈ inos, i ∈ inos') : KeptOrder inos (n + m) v v'' := by
  obtain ⟨inos₂, free₂, hsub₂, h₂⟩ := h'.orderly
  refine ⟨h.held.trans h'.held, ⟨inos₂, free₂, fun i hi => hsub₂ i (hsub i hi), h₂⟩, fun i hi => ?_, fun i hi hfile => ?_, ?_⟩
  · rw [h'.isdir i (hsub i hi), h.isdir i hi]
  · rw [h'.files i (hsub i hi) (by rwa [h.isdir i hi]), h.files i hi hfile]
  · rw [← Nat.add_assoc, h'.inodes, h.inodes]

/-- A call with a reference keeps order if it does so once it has the reference. -/
theorem Orderly.withInode {x : Prog VDisk α} (h : Orderly inos free dirs v) (hi : i ∈ inos) (hroom : v.Room)
    (hx : ∀ v₁, ((withInode i x).run v).1 = (x.run v₁).1 → SameView v v₁ → Held v [i] v₁ → Orderly inos free dirs v₁ →
      StepOrder inos n v₁ (x.run v₁).2) :
    StepOrder inos n v ((withInode i x).run v).2 := by
  obtain ⟨v₁, hget, htaken⟩ := inodeGet_live h.wellFormed.geometry h.wellFormed.live (h.wellFormed.number i hi)
  have s₁ := SameView.of_taken htaken
  have hheld₁ := (Held.refl h.unmounted.oneHandle).taken hroom (by decide) htaken
  have hfirst : ((Ufs370.withInode i x).run v).1 = (x.run v₁).1 := by
    simp only [Ufs370.withInode, Prog.run_bind, hget, Prog.run_pure]
  have hkept := hx v₁ hfirst s₁ hheld₁ (h.view s₁ (h.unmounted.taken htaken))
  obtain ⟨inos', free', hsub, h'⟩ := hkept.orderly
  have hheld := hheld₁.trans hkept.held
  have hcached : (x.run v₁).2.Cached i := cached_of_uses (by
    rw [hheld.uses, List.count_singleton_self]
    exact Nat.succ_pos _)
  obtain ⟨v₃, hrel, hreleased⟩ := inodeRel_run hcached
  have s₃ := SameView.of_released hheld.oneHandle hcached
    (fun _ => h'.coherent i (h'.wellFormed.number i (hsub i hi))) hreleased
  have hfree₁ : v₁.freeInodes = v.freeInodes := by
    rw [s₁.same]
    rfl
  have hfree₃ : v₃.freeInodes = (x.run v₁).2.freeInodes := by
    rw [s₃.same]
    rfl
  simp only [Ufs370.withInode, Prog.run_bind, hget, hrel, Prog.run_pure]
  refine ⟨⟨hheld.released hreleased, ⟨inos', free', hsub, (h'.view s₃ (h'.unmounted.released hreleased hcached)).inTree⟩,
    fun j hj => ?_, fun j hj hfile => ?_, ?_⟩, fun d hd hfull => ?_⟩
  · rw [s₃.inode, hkept.isdir j hj, s₁.inode]
  · rw [s₃.content, hkept.files j hj (by rwa [s₁.inode]), s₁.content]
  · rw [hfree₃, hkept.inodes, hfree₁]
  · rw [h.hierarchy.inTree, ← (s₁.hierarchy h.hierarchy).inTree] at hd
    rw [← s₁.names] at hfull
    rw [(s₃.hierarchy h'.hierarchy).inTree]
    exact hkept.full d hd hfull

/-- A name is made. -/
theorem Orderly.create (h : Orderly inos free dirs v) (hroom : v.Room) (hd : d ∈ dirs) (huse : 0 < v.uses d) {attr : Attr}
    (hplain : slash ∉ name) (htype : KnownType attr.mode) (hnext : v.InodeRoom) (hsize : SizeOk v (v.filesize d + direntSize))
    (hentry : v.EntryRoom d attr.mode) (hlink : (v.inode d).nlink.toNat + 1 < 65536) (now : Timev) :
    StepOrder inos ((NameOp.create d name attr now).made (some ((fileAllocate d name attr now).run v).1.1)) v
      ((fileAllocate d name attr now).run v).2 := by
  have hw := h.wellFormed
  have hopen := h.opened hd huse
  by_cases hnone : ∀ c, ¬ v.names d (direntFilename name) c
  swap
  · obtain ⟨c, hc⟩ := not_forall_not.mp hnone
    have hlookup := hopen.lookup hw (direntFilename_plain hplain) (by rwa [direntFilename_idem])
    simp only [fileAllocate, Prog.run_bind, hlookup, Prog.run_pure]
    exact h.kept_refl
  have hmode : attr.mode ≠ 0 := by
    intro hzero
    rw [hzero] at htype
    exact htype.elim (by decide) (by decide)
  obtain ⟨x, v', free', hrun, he⟩ := fileAllocate_enters
    ⟨hw, h.coherent.tended h.unmounted.oneHandle hroom, h.counted, h.unused⟩ hopen h.coherent htype hmode hplain hnone
    hnext hsize hentry now
  have hu := (MountsNothing.fileAllocate d name attr now).run v h.unmounted
  rw [hrun] at hu ⊢
  have hafter := he.orderly h hd hnone hlink hu
  refine ⟨⟨he.held, ⟨_, free', fun _ => List.mem_cons_of_mem x, hafter.inTree⟩,
    fun i hi => he.isdir h hi, he.spares.filesKept hw fun i hi hmem => ?_, ?_⟩, fun i hi _ => ?_⟩
  · rcases hi with rfl | rfl
    · exact hopen.isdir
    · exact absurd rfl (h.ne_fresh he.fresh hmem)
  · rw [he.freeInodes, List.length_erase_of_mem he.fresh]
    exact Nat.sub_add_cancel (List.length_pos_of_mem he.fresh)
  · rw [h.hierarchy.inTree] at hi
    rw [hafter.hierarchy.inTree]
    exact .inl hi

/-- A file gets a name more. -/
theorem Orderly.link (h : Orderly inos free dirs v) (hroom : v.Room) (hd : d ∈ dirs) (huse : 0 < v.uses d) {p e : Nat}
    {m : List UInt8} (huse' : 0 < v.uses p) (he : e ∈ dirs) (hp : v.names e m p) (hfile : ¬ (v.inode p).isdir = true)
    (hnone : ∀ c, ¬ v.names d (direntFilename name) c) (hgrowth : GrowthRoom v d) (hlink : (v.inode p).nlink.toNat + 1 < 65536) :
    StepOrder inos 0 v ((fileLink d p name).run v).2 := by
  have hu := (MountsNothing.fileLink d p name).run v h.unmounted
  obtain ⟨v', free', hrun, hjoined⟩ := fileLink_run h hroom hd huse huse' he hp hfile hnone hgrowth.1 (Nat.le_of_lt hgrowth.2) hlink
  rw [hrun] at hu ⊢
  refine h.kept_confined hjoined.confined ?_ hjoined.hierarchy hjoined.linked hu fun _ hi _ => hi
  rintro i (rfl | rfl)
  exacts [(h.hierarchy.sound i hd).mem, (h.hierarchy.sound e he).named _ hp]

/-- A name is removed. -/
theorem Orderly.remove (h : Orderly inos free dirs v) (hroom : ∀ i, v.uses i + 5 < 65536) (hd : d ∈ dirs) (huse : 0 < v.uses d)
    (hplain : slash ∉ name) (hfree : v.sb.totalFreeblock ≠ 0) : StepOrder inos 0 v ((fileDeallocate d name).run v).2 := by
  have hw := h.wellFormed
  have hopen := h.opened hd huse
  have hu := (MountsNothing.fileDeallocate d name).run v h.unmounted
  have hroom₄ : v.Room := fun i => by
    have := hroom i
    omega
  by_cases hnone : ∀ c, ¬ v.names d (direntFilename name) c
  · simp only [fileDeallocate, Prog.run_bind, hopen.lookup_none hw hplain hnone, Prog.run_pure]
    exact h.kept_refl
  obtain ⟨y, hy⟩ := not_forall_not.mp hnone
  by_cases hstuck : (v.inode y).Stuck name
  · obtain ⟨rc, v', hrun, -, s, hheld⟩ :=
      fileDeallocate_stuck hopen hw h.coherent h.unmounted.oneHandle hroom₄ h.unmounted.mounted hplain hy hstuck
    rw [hrun] at hu ⊢
    exact h.kept_view s hu hheld
  have hfreed : v.Removable d name := fun z hz => h.hierarchy.tree.one d hd _ y z hy hz ▸ hstuck
  obtain ⟨v', free', hrun, hgone⟩ := fileDeallocate_run hopen hw h.coherent h.unmounted.oneHandle hroom h.unmounted.mounted
    (fun heq => hfree (by rw [hw.list.total, heq, List.length_nil])) hplain hy (h.hierarchy.bearer_ne hd hfreed hy) hstuck
  rw [hrun] at hu ⊢
  have hafter := hgone.orderly h hd hy hfreed hu
  refine h.kept_confined hgone.confined ?_ hafter.hierarchy hafter.linked hu fun i hi hfull => ⟨hi, h.hierarchy.not_bearer hd hfreed hi hfull⟩
  rintro i (rfl | rfl)
  exacts [hopen.mem, hopen.named _ hy]

/-- A name is moved. -/
theorem RenameReady.rename (hr : RenameReady inos free dirs 6 a b v) (h : Orderly inos free dirs v) {fromName toName : List UInt8}
    (hfrom : slash ∉ fromName) (hto : slash ∉ toName) (hlink : (v.inode b).nlink.toNat + 1 < 65536)
    (hordinary : Ordinary [dot] [dot, dot] (direntFilename fromName)) (hself : ∀ x, v.names a (direntFilename fromName) x → x ≠ b)
    (hback : ((fileRename fuel a fromName b toName).run v).1 ≠ none) :
    StepOrder inos 0 v ((fileRename fuel a fromName b toName).run v).2 := by
  have hu := (MountsNothing.fileRename fuel a fromName b toName).run v h.unmounted
  obtain ⟨n, hn⟩ := fileRename_ends hr hfrom hto
  obtain ⟨rc, v', hrun, hheld, hends⟩ := hn (max n fuel) (Nat.le_max_left ..)
  obtain ⟨rc', hrc⟩ := Option.ne_none_iff_exists'.mp hback
  have hcall : (fileRename fuel a fromName b toName).run v = (some rc, v') := by
    have hmono := fileRename_mono (Prod.ext hrc rfl) (Nat.le_max_right n fuel)
    rw [hrun] at hmono
    rw [hmono]
    exact Prod.ext hrc rfl
  rw [hcall] at hu ⊢
  have htree := hends.tree_iff hr
  have hmem {i : Nat} (hi : i ∈ v.bearers b toName) : i ∈ inos := (h.hierarchy.sound b hr.target).named _ hi
  have ha := (h.hierarchy.sound a hr.source).mem
  have hb := (h.hierarchy.sound b hr.target).mem
  cases hends with
  | missing hnone hsame =>
    subst hsame
    exact h.kept_refl
  | stuck hstuck hrc s => exact h.kept_view s hu hheld
  | refused hname hdir habove hfreed hclear =>
    refine h.kept_confined hclear.confined ?_ hclear.hierarchy (hclear.linked h.linked) hu
      fun i hi hfull => ⟨hi, h.hierarchy.not_bearer hr.target hfreed hi hfull⟩
    rintro i (rfl | hi)
    exacts [hb, hmem hi]
  | emptied hname hfreed hbear _ _ =>
    -- the directory that the name is in is not empty
    have hleaf := h.hierarchy.leaf hr.target hfreed hbear (h.hierarchy.tree.isdir a hr.source)
    exact absurd hname (hleaf.2.2 _ _ hordinary)
  | @moved x _ free' hname hfreed hbear habove hmoved =>
    have hx : x ∈ inos := (h.hierarchy.sound a hr.source).named _ hname
    have hkept := htree.mpr (fun z hz _ _ _ _ => ⟨(hself z hz).symm, hordinary⟩) rfl
    refine h.kept_confined hmoved.confined ?_ hkept (hmoved.linked h.linked hordinary hlink) hu
      fun i hi hfull => ⟨hi, h.hierarchy.not_bearer hr.target hfreed hi hfull⟩
    rintro i ((rfl | rfl | rfl) | hi)
    exacts [ha, hb, hx, hmem hi]

theorem SizeOk.view {sz : Nat} (s : SameView v v') (h : SizeOk v sz) : SizeOk v' sz := by
  rw [s.same]
  exact h

theorem GrowthRoom.view (s : SameView v v') (h : GrowthRoom v d) : GrowthRoom v' d := by
  rw [GrowthRoom, s.room, s.filesize]
  refine ⟨h.1.view s, ?_⟩
  rw [s.same]
  exact h.2

/-- The references of a caller to two inodes. -/
theorem Held.pair {v₁ v₂ : VDisk} (h : Held v [a] v₁) (h' : Held v₁ [b] v₂) :
    0 < v₂.uses a ∧ 0 < v₂.uses b ∧ ∀ i, v₂.uses i ≤ v.uses i + 2 := by
  have hcount (x : Nat) (i : Nat) : List.count i [x] ≤ 1 := List.count_le_length
  refine ⟨?_, ?_, fun i => ?_⟩
  · rw [h'.uses, h.uses, List.count_singleton_self]
    omega
  · rw [h'.uses, List.count_singleton_self]
    exact Nat.succ_pos _
  · have hfirst := hcount a i
    have hsecond := hcount b i
    rw [h'.uses, h.uses]
    omega

/-- One call keeps order. -/
theorem Orderly.step (h : Orderly inos free v.InTree v) (hroom : ∀ i, v.uses i + 8 < 65536) {op : NameOp} (hcall : NameCall v op) :
    StepOrder inos (op.made ((nameStep op).run v).1) v ((nameStep op).run v).2 := by
  have hroom₄ : v.Room := fun i => by
    have := hroom i
    omega
  have hmem {i : Nat} (hi : i ∈ v.InTree) : i ∈ inos := (h.hierarchy.sound i hi).mem
  have hroomOne {v₁ : VDisk} {e : Nat} (hheld : Held v [e] v₁) (i : Nat) : v₁.uses i + 7 < 65536 := by
    have hcount : List.count i [e] ≤ 1 := List.count_le_length
    have := hroom i
    rw [hheld.uses]
    omega
  have hpos {v₁ : VDisk} {e : Nat} (hheld : Held v [e] v₁) : 0 < v₁.uses e := by
    rw [hheld.uses, List.count_singleton_self]
    exact Nat.succ_pos _
  cases op with
  | create d name attr now =>
    obtain ⟨hd, hplain, htype, hnext, hsize, hentry, hlink⟩ := hcall
    refine h.withInode (hmem hd) hroom₄ fun v₁ hfirst s hheld h₁ => ?_
    have hkept := h₁.create (fun i => by have := hroomOne hheld i; omega) hd (hpos hheld) hplain htype (s.inodeRoom.mpr hnext)
      (by rw [s.filesize]; exact hsize.view s) ((s.entryRoom ..).mpr hentry) (by rwa [s.inode]) now
    rw [nameStep, hfirst]
    exact hkept
  | link d p name =>
    obtain ⟨hd, ⟨e, he, m, hp⟩, hfile, hnone, hgrowth, hlink⟩ := hcall
    refine h.withInode (hmem hd) hroom₄ fun v₁ _ s hheld h₁ => ?_
    refine h₁.withInode ((h.hierarchy.sound e he).named _ hp) (fun i => by have := hroomOne hheld i; omega)
      fun v₂ _ s' hheld' h₂ => ?_
    have s₂ := s.trans s'
    obtain ⟨huse, huse', hle⟩ := hheld.pair hheld'
    refine h₂.link (fun i => ?_) hd huse huse' he (by rwa [s₂.names]) (by rwa [s₂.inode]) (by rwa [s₂.names]) (hgrowth.view s₂)
      (by rwa [s₂.inode])
    have := hle i
    have := hroom i
    omega
  | remove d name =>
    obtain ⟨hd, hplain, hfree⟩ := hcall
    refine h.withInode (hmem hd) hroom₄ fun v₁ _ s hheld h₁ => ?_
    exact h₁.remove (fun i => by have := hroomOne hheld i; omega) hd (hpos hheld) hplain (by rwa [s.same])
  | rename fuel a fromName b toName =>
    obtain ⟨ha, hb, hfrom, hto, hback, hgrowth, hlink, hordinary, hself⟩ := hcall
    refine h.withInode (hmem ha) hroom₄ fun v₁ hfirst s hheld h₁ => ?_
    refine h₁.withInode (hmem hb) (fun i => by have := hroomOne hheld i; omega) fun v₂ hsecond s' hheld' h₂ => ?_
    have s₂ := s.trans s'
    obtain ⟨huse, huse', hle⟩ := hheld.pair hheld'
    have hgrowth₂ := hgrowth.view s₂
    refine RenameReady.rename ⟨h₂.wellFormed, h₂.coherent, h₂.unmounted.oneHandle, fun i => ?_, h₂.unmounted.mounted, h₂.hierarchy,
      ha, huse, hb, huse', hgrowth₂.1, hgrowth₂.2⟩ h₂ hfrom hto (by rwa [s₂.inode]) hordinary (by rwa [s₂.names]) ?_
    · have := hle i
      have := hroom i
      omega
    · rw [← hsecond, ← hfirst]
      exact hback

/-- A run keeps order. -/
theorem Orderly.run (h : Orderly inos free v.InTree v) (hroom : ∀ i, v.uses i + 8 < 65536) {hist : List (NameOp × Option Rc)}
    (hrun : Run nameStep NameCall v hist v') : KeptOrder inos (made hist) v v' := by
  refine hrun.invariant_hist (I := fun hist => KeptOrder inos (made hist) v) h.kept_refl.toKeptOrder fun hist w op hkept hcall => ?_
  obtain ⟨inos₁, free₁, hsub, h₁⟩ := hkept.orderly
  rw [made, List.map_cons, List.sum_cons]
  exact hkept.trans (h₁.step (fun i => by
    rw [hkept.held.uses]
    exact hroom i) hcall).toKeptOrder hsub

end Step

end Ufs370
