import Ufs370.Renaming

/-! Which calls of `ufs_file_rename` move just one name, and which keep the tree. -/

namespace Ufs370

open Lib Lib.IndexForest Lib.IndexLayout Lib.Namespace

/-- An entry that a move of `x` leaves alone. -/
def Bystander (v : VDisk) (a : Nat) (fromName : List UInt8) (b : Nat) (toName : List UInt8) (x d : Nat) (e : Dirent) : Prop :=
  ¬ (d = a ∧ e.name = direntFilename fromName) ∧ ¬ (d = b ∧ e.name = direntFilename toName) ∧
    ¬ ((v.inode x).isdir = true ∧ a ≠ b ∧ d = x ∧ e.name = [dot, dot])

instance (v : VDisk) (a : Nat) (fromName : List UInt8) (b : Nat) (toName : List UInt8) (x d : Nat) (e : Dirent) :
    Decidable (Bystander v a fromName b toName x d e) := inferInstanceAs (Decidable (_ ∧ _))

/-- A call moved just one name, or none. -/
structure RenameRight (dirs : Set Nat) (a : Nat) (fromName : List UInt8) (b : Nat) (toName : List UInt8) (v : VDisk) (rc : Rc)
    (v' : VDisk) : Prop where
  arrives : rc = .ok → ∀ x, v.names a (direntFilename fromName) x → ((fileLookupByName b toName).run v').1 = .ok x
  leaves : rc = .ok → ¬ (a = b ∧ direntFilename fromName = direntFilename toName) →
    ((fileLookupByName a fromName).run v').1 = .error .enoent
  others : rc = .ok → ∀ x, v.names a (direntFilename fromName) x → ∀ d ∈ dirs \ v.bearers b toName,
    ((v'.dirents d).filter fun e => Bystander v a fromName b toName x d e).Perm
      ((v.dirents d).filter fun e => Bystander v a fromName b toName x d e)
  idle : rc = .ok → a = b → direntFilename fromName = direntFilename toName → ∀ d ∈ dirs, (v'.dirents d).Perm (v.dirents d)
  kept : rc ≠ .ok → ∀ y, v.names b (direntFilename toName) y → v'.names b (direntFilename toName) y

section Names

variable {E : Entries Nat (List UInt8)} {a b d x c : Nat} {f t n : List UInt8} {dirMove : Bool}

theorem moveNames_other (hf : ¬ (d = a ∧ n = f)) (ht : ¬ (d = b ∧ n = t))
    (hup : ¬ (dirMove = true ∧ a ≠ b ∧ d = x ∧ n = [dot, dot])) : moveNames E a f b t x dirMove d n c ↔ E d n c := by
  have hput : drop (put E b t x) a f d n c ↔ E d n c := by
    rw [drop_of_ne (not_and_or.mp hf), put_of_ne (not_and_or.mp ht)]
  rw [moveNames]
  split
  case isTrue hmove => rw [put_of_ne (not_and_or.mp fun heq => hup ⟨hmove.1, hmove.2, heq⟩), hput]
  case isFalse => exact hput

/-- The new entry. -/
theorem moveNames_target (ht : t ≠ [dot, dot]) (hne : ¬ (a = b ∧ f = t)) : moveNames E a f b t x dirMove b t c ↔ c = x := by
  have hput : drop (put E b t x) a f b t c ↔ c = x := by
    rw [drop_of_ne (not_and_or.mp fun heq => hne ⟨heq.1.symm, heq.2.symm⟩), put_same]
  rw [moveNames]
  split
  · rw [put_of_ne (.inr ht), hput]
  · exact hput

/-- The old entry. -/
theorem moveNames_source (hd : d = a) (hn : n = f) (hup : ¬ (dirMove = true ∧ a ≠ b ∧ a = x ∧ f = [dot, dot])) :
    ¬ moveNames E a f b t x dirMove d n c := by
  subst hd hn
  have hdrop : ¬ drop (put E b t x) d n d n c := fun h => h.2 ⟨rfl, rfl⟩
  rw [moveNames]
  split
  case isTrue hmove => rwa [put_of_ne (not_and_or.mp fun heq => hup ⟨hmove.1, hmove.2, heq⟩)]
  case isFalse => exact hdrop

end Names

section Right

variable {v v' : VDisk} {inos free free' : List Nat} {dirs : Set Nat} {k a b d x y : Nat} {fromName toName : List UInt8} {rc : Rc}

/-- A directory is not moved to another one by its name for its parent. -/
theorem RenameReady.not_up (h : RenameReady inos free dirs k a b v) (hname : v.names a (direntFilename fromName) x)
    (habove : (v.inode x).isdir = true → ¬ Above [dot, dot] v.names x b) :
    ¬ ((v.inode x).isdir = true ∧ a ≠ b ∧ a = x ∧ direntFilename fromName = [dot, dot]) := by
  rintro ⟨hdir, -, rfl, hup⟩
  rw [hup] at hname
  obtain rfl := h.hierarchy.tree.eq_root h.source hname
  exact habove hdir (h.hierarchy.tree.root_above h.target)

theorem Moved.opened (h : Moved inos dirs a fromName b toName x v v' free') (hd : d ∈ dirs \ v.bearers b toName)
    (huse : 0 < v.uses d) : OpenDirectory inos v' d :=
  (h.sound d hd).opened (by
    rw [h.confined.held.uses]
    exact huse)

theorem Moved.right (hmoved : Moved inos dirs a fromName b toName x v v' free') (h : RenameReady inos free dirs k a b v)
    (hfrom : slash ∉ fromName) (hto : slash ∉ toName) (hname : v.names a (direntFilename fromName) x)
    (hfreed : v.Removable b toName) (ha : a ∉ v.bearers b toName)
    (habove : (v.inode x).isdir = true → ¬ Above [dot, dot] v.names x b)
    (hne : ¬ (a = b ∧ direntFilename fromName = direntFilename toName)) :
    RenameRight dirs a fromName b toName v .ok v' := by
  have hone (z : Nat) (hz : v.names a (direntFilename fromName) z) : z = x := h.hierarchy.tree.one a h.source _ x z hname hz
  have hbdirs : b ∈ dirs \ v.bearers b toName := ⟨h.target, fun hb => h.hierarchy.bearer_ne h.target hfreed hb rfl⟩
  have hadirs : a ∈ dirs \ v.bearers b toName := ⟨h.source, ha⟩
  refine ⟨fun _ z hz => ?_, fun _ _ => ?_, fun _ z hz d hd => ?_, fun _ hab hft => absurd ⟨hab, hft⟩ hne, fun hrc => absurd rfl hrc⟩
  · obtain rfl := hone z hz
    rw [(hmoved.opened hbdirs h.usedTarget).lookup hmoved.confined.wellFormed hto
      ((hmoved.names b hbdirs _ _).mpr ((moveNames_target (h.hierarchy.plain h.target hfreed).2 hne).mpr rfl))]
  · rw [(hmoved.opened hadirs h.usedSource).lookup_none hmoved.confined.wellFormed hfrom fun c hc =>
      moveNames_source rfl rfl (h.not_up hname habove) ((hmoved.names a hadirs _ c).mp hc)]
  · obtain rfl := hone z hz
    refine (List.perm_ext_iff_of_nodup ((hmoved.sound d hd).apart.nodup.filter _)
      ((h.hierarchy.sound d hd.1).apart.nodup.filter _)).mpr fun e => ?_
    rw [List.mem_filter, List.mem_filter, decide_eq_true_eq]
    refine and_congr_left fun ⟨hf, ht, hup⟩ => ?_
    exact (hmoved.names d hd e.name e.inodeNumber).trans (moveNames_other hf ht hup)

/-- A call loses no name unless it is about one entry, or finds too late that it is refused. -/
theorem RenameEnds.right_iff (hends : RenameEnds inos dirs a fromName b toName v rc v') (h : RenameReady inos free dirs k a b v)
    (hfrom : slash ∉ fromName) (hto : slash ∉ toName) :
    RenameRight dirs a fromName b toName v rc v' ↔
      ∀ x y, v.names a (direntFilename fromName) x → v.Removable b toName → v.names b (direntFilename toName) y →
        ¬ (a = b ∧ direntFilename fromName = direntFilename toName) ∧
        ¬ ((v.inode x).isdir = true ∧ Above [dot, dot] v.names x b) ∧ (y = a → x = a) := by
  have hone {z x : Nat} (hx : v.names a (direntFilename fromName) x) (hz : v.names a (direntFilename fromName) z) : z = x :=
    h.hierarchy.tree.one a h.source _ x z hx hz
  have hfailed {rc : Rc} (hrc : rc ≠ .ok) : RenameRight dirs a fromName b toName v rc v' ↔
      ∀ y, v.names b (direntFilename toName) y → v'.names b (direntFilename toName) y :=
    ⟨fun hright => hright.kept hrc, fun hkept => ⟨fun hok => absurd hok hrc, fun hok => absurd hok hrc, fun hok => absurd hok hrc,
      fun hok => absurd hok hrc, fun _ => hkept⟩⟩
  cases hends with
  | missing hnone hsame =>
    subst hsame
    exact iff_of_true ((hfailed (by decide)).mpr fun _ hy => hy) fun x y hx => absurd hx (hnone x)
  | stuck hstuck hrc hsame =>
    refine iff_of_true ((hfailed hrc).mpr fun y hy => ?_) fun x y _ hfreed => absurd hfreed hstuck
    rw [hsame.names]
    exact hy
  | @refused x _ _ hname hdir habove hfreed hclear =>
    rw [hfailed (by decide)]
    constructor
    · exact fun hkept x' y _ _ hy => absurd rfl ((hclear.entries _).mp (hkept y hy)).2
    · exact fun hcond y hy => absurd ⟨hdir, habove⟩ (hcond x y hname hfreed hy).2.1
  | @emptied x _ hname hfreed ha habove hentries =>
    rw [hfailed (by decide)]
    have hab : a ≠ b := h.hierarchy.bearer_ne h.target hfreed ha
    constructor
    · intro hkept x' y hx' _ hy
      obtain rfl := hone hname hx'
      refine ⟨fun heq => hab heq.1, fun hup => habove hup.1 hup.2, fun hya => ?_⟩
      rcases (hentries _).mp (hkept y hy) with ⟨-, hnot⟩ | heq
      · exact absurd rfl hnot
      · exact (Dirent.mk.inj heq).1.symm.trans hya
    · intro hcond y hy
      have hya : y = a := h.hierarchy.tree.one b h.target _ a y ha hy
      obtain rfl := (hcond x y hname hfreed hy).2.2 hya
      exact (hentries _).mpr (.inr (by rw [hya]))
  | @moved x _ free' hname hfreed ha habove hmoved =>
    by_cases hsame : a = b ∧ direntFilename fromName = direntFilename toName
    · have hbear : v.names b (direntFilename toName) x := by
        rw [← hsame.1, ← hsame.2]
        exact hname
      refine iff_of_false (fun hright => ?_) fun hcond => (hcond x x hname hfreed hbear).1 hsame
      have hbdirs : b ∈ dirs \ v.bearers b toName := ⟨h.target, fun hb => h.hierarchy.bearer_ne h.target hfreed hb rfl⟩
      have hnone (c : Nat) : ¬ v'.names b (direntFilename toName) c := fun hc => by
        exact moveNames_source hsame.1.symm hsame.2.symm (h.not_up hname habove) ((hmoved.names b hbdirs _ c).mp hc)
      have hgone := (hmoved.opened hbdirs h.usedTarget).lookup_none hmoved.confined.wellFormed hto hnone
      have harrives := hright.arrives rfl x hname
      rw [hgone] at harrives
      cases harrives
    · refine iff_of_true (hmoved.right h hfrom hto hname hfreed ha habove hsame) fun x' y hx' _ hy => ⟨hsame, ?_, ?_⟩
      · obtain rfl := hone hname hx'
        exact fun hup => habove hup.1 hup.2
      · rintro rfl
        exact absurd hy ha

end Right

/-! The tree. -/

section MovedTree

variable {v v' : VDisk} {inos free free' : List Nat} {dirs : Set Nat} {k a b c d x : Nat} {fromName toName : List UInt8} {rc : Rc}

theorem moveNames_one {E : Entries Nat (List UInt8)} {f t n : List UInt8} {dirMove : Bool} {c' : Nat}
    (hone : ∀ c c', drop E b t d n c → drop E b t d n c' → c' = c)
    (hc : moveNames E a f b t x dirMove d n c) (hc' : moveNames E a f b t x dirMove d n c') : c' = c := by
  have hput {c c' : Nat} (hc : put E b t x d n c) (hc' : put E b t x d n c') : c' = c := by
    rcases hc with hc | ⟨rfl, rfl, rfl⟩
    · rcases hc' with hc' | ⟨rfl, rfl, -⟩
      · exact hone c c' hc hc'
      · exact absurd ⟨rfl, rfl⟩ hc.2
    · exact put_same.mp hc'
  rw [moveNames] at hc hc'
  split at hc
  · rw [if_pos ‹_›] at hc'
    rcases hc with ⟨hc, hnot⟩ | ⟨rfl, rfl, rfl⟩
    · rcases hc' with ⟨hc', -⟩ | heq
      · exact hput hc.1 hc'.1
      · exact absurd ⟨heq.1, heq.2.1⟩ hnot
    · exact put_same.mp hc'
  · rw [if_neg ‹_›] at hc'
    exact hput hc.1 hc'.1

/-- A move of what is no directory, or of a directory by its own name to where it is neither itself nor below it. -/
theorem VDisk.Hierarchy.moved_tree (h : v.Hierarchy inos dirs) (ha : a ∈ dirs \ v.bearers b toName) (hb : b ∈ dirs)
    (hfreed : v.Removable b toName) (hname : v.names a (direntFilename fromName) x)
    (habove : (v.inode x).isdir = true → ¬ Above [dot, dot] v.names x b)
    (hgood : (v.inode x).isdir = true → b ≠ x ∧ Ordinary [dot] [dot, dot] (direntFilename fromName)) :
    Tree [dot] [dot, dot] (fun i => (v.inode i).isdir = true) rootInode (dirs \ v.bearers b toName)
      (moveNames v.names a (direntFilename fromName) b (direntFilename toName) x (v.inode x).isdir) := by
  have htree := h.cleared_tree hb hfreed
  have hplain := h.plain hb hfreed
  have hbd : b ∈ dirs \ v.bearers b toName := ⟨hb, fun hmem => h.bearer_ne hb hfreed hmem rfl⟩
  by_cases hdir : (v.inode x).isdir = true
  swap
  · have hmove : ¬ ((v.inode x).isdir = true ∧ a ≠ b) := fun hmove => hdir hmove.1
    refine htree.congr htree.isdir (fun _ _ _ _ _ hc => hc)
      (fun d hd n c c' hc hc' => moveNames_one (fun _ _ => htree.one d hd n _ _) hc hc') fun d hd n c hc => ?_
    rw [moveNames, if_neg hmove]
    constructor
    · rintro ⟨hput | ⟨-, -, rfl⟩, -⟩
      · exact hput
      · exact absurd hc hdir
    · refine fun hdrop => ⟨.inl hdrop, ?_⟩
      rintro ⟨rfl, rfl⟩
      exact hdir (h.tree.one d hd.1 _ c x hdrop.1 hname ▸ hc)
  obtain ⟨hbx, hfrom⟩ := hgood hdir
  by_cases hsame : a = b ∧ direntFilename fromName = direntFilename toName
  · have hmove : ¬ ((v.inode x).isdir = true ∧ a ≠ b) := fun hmove => hmove.2 hsame.1
    refine htree.congr htree.isdir (fun _ _ _ _ _ hc => hc)
      (fun d hd n c c' hc hc' => moveNames_one (fun _ _ => htree.one d hd n _ _) hc hc') fun d hd n c hc => ?_
    rw [moveNames, if_neg hmove, hsame.1, hsame.2]
    exact ⟨fun hput => hput.1.resolve_right fun heq => hput.2 ⟨heq.1, heq.2.1⟩, fun hdrop => ⟨.inl hdrop, hdrop.2⟩⟩
  -- the new entry is put where there is none
  have hx : drop v.names b (direntFilename toName) a (direntFilename fromName) x := ⟨hname, hsame⟩
  have hnew : put (drop v.names b (direntFilename toName)) b (direntFilename toName) x =
      put v.names b (direntFilename toName) x := by
    funext d n c
    simp only [put, drop, and_assoc, and_self]
  have habove' : ¬ Above [dot, dot] (drop v.names b (direntFilename toName)) x b := fun hup => habove hdir
    ((h.tree.above_congr (fun d _ p => drop_of_ne (.inr hplain.2.symm)) hb).mp hup)
  have hmoved := htree.move ha hbd hfrom hplain hx hdir (fun c hc => hc.2 ⟨rfl, rfl⟩) hbx habove'
  rw [hnew] at hmoved
  by_cases hab : a = b
  swap
  · rwa [moveNames, if_pos ⟨hdir, hab⟩]
  -- the directory has its parent already
  have hmove : ¬ ((v.inode x).isdir = true ∧ a ≠ b) := fun hmove => hmove.2 hab
  have hup : drop (put v.names b (direntFilename toName) x) a (direntFilename fromName) x [dot, dot] b := by
    rw [drop_of_ne (.inr hfrom.2.symm), put_of_ne (.inr hplain.2.symm), ← hab]
    exact (h.tree.child a ha.1 _ x hfrom hname hdir).2.2
  refine hmoved.congr hmoved.isdir (fun _ _ _ _ _ hc => hc)
    (fun d hd n c c' hc hc' => moveNames_one (fun _ _ => htree.one d hd n _ _) hc hc') fun d hd n c _ => ?_
  rw [moveNames, if_neg hmove, put_self (fun c hc => ?_) hup]
  rw [drop_of_ne (.inr hfrom.2.symm), put_of_ne (.inr hplain.2.symm)] at hc hup
  exact h.tree.one x (h.tree.child a ha.1 _ x hfrom hname hdir).1 _ b c hup hc

/-- Any other move leaves no tree. -/
theorem VDisk.Hierarchy.not_moved_tree {dir : Nat → Prop} (h : v.Hierarchy inos dirs) (ha : a ∈ dirs \ v.bearers b toName)
    (hb : b ∈ dirs) (hfreed : v.Removable b toName) (hname : v.names a (direntFilename fromName) x)
    (hdir : (v.inode x).isdir = true) (habove : ¬ Above [dot, dot] v.names x b)
    (hbad : b = x ∨ ¬ Ordinary [dot] [dot, dot] (direntFilename fromName)) :
    ¬ Tree [dot] [dot, dot] dir rootInode (dirs \ v.bearers b toName)
      (moveNames v.names a (direntFilename fromName) b (direntFilename toName) x (v.inode x).isdir) := by
  intro htree
  have hbd : b ∈ dirs \ v.bearers b toName := ⟨hb, fun hmem => h.bearer_ne hb hfreed hmem rfl⟩
  by_cases hfrom : Ordinary [dot] [dot, dot] (direntFilename fromName)
  · obtain rfl := hbad.resolve_right (not_not.mpr hfrom)
    obtain ⟨hmem, hroot, hup⟩ := h.tree.child a ha.1 _ b hfrom hname hdir
    have hab : a ≠ b := by
      rintro rfl
      exact hroot (h.tree.eq_root hmem hup)
    refine hroot (htree.eq_root hbd ?_)
    rw [moveNames, if_pos ⟨hdir, hab⟩]
    exact put_same.mpr rfl
  rcases not_and_or.mp hfrom with hdot | hdots
  · rw [not_not] at hdot
    have hself := htree.self a ha
    rw [← hdot] at hself
    exact moveNames_source rfl rfl (fun heq => absurd (hdot.symm.trans heq.2.2.2) (by decide)) hself
  · rw [not_not] at hdots
    obtain ⟨p, -, hup⟩ := htree.parent a ha
    rw [← hdots] at hup
    refine moveNames_source rfl rfl (fun heq => habove ?_) hup
    obtain ⟨-, -, rfl, -⟩ := heq
    rw [hdots] at hname
    obtain rfl := h.tree.eq_root ha.1 hname
    exact h.tree.root_above hb

/-- A call that goes through leaves a tree unless it moves a directory into itself, or by a name that is not its own. -/
theorem RenameEnds.tree_iff (hends : RenameEnds inos dirs a fromName b toName v rc v') (h : RenameReady inos free dirs k a b v) :
    (rc = .ok → v'.Hierarchy inos (dirs \ v.bearers b toName)) ↔
      ∀ x, v.names a (direntFilename fromName) x → (v.inode x).isdir = true → v.Removable b toName → a ∉ v.bearers b toName →
        ¬ Above [dot, dot] v.names x b → b ≠ x ∧ Ordinary [dot] [dot, dot] (direntFilename fromName) := by
  have hone {z x : Nat} (hx : v.names a (direntFilename fromName) x) (hz : v.names a (direntFilename fromName) z) : z = x :=
    h.hierarchy.tree.one a h.source _ x z hx hz
  cases hends with
  | missing hnone _ => exact iff_of_true (fun hok => absurd hok (by decide)) fun x hx => absurd hx (hnone x)
  | stuck hstuck hrc _ => exact iff_of_true (fun hok => absurd hok hrc) fun x _ _ hfreed => absurd hfreed hstuck
  | @refused x _ _ hname _ habove _ _ =>
    refine iff_of_true (fun hok => absurd hok (by decide)) fun x' hx' _ _ _ hnot => ?_
    obtain rfl := hone hname hx'
    exact absurd habove hnot
  | emptied _ _ ha _ _ => exact iff_of_true (fun hok => absurd hok (by decide)) fun x _ _ _ hnot => absurd ha hnot
  | @moved x _ free' hname hfreed ha habove hmoved =>
    have hw := h.wellFormed
    have hisdir {i : Nat} (hi : i ∈ inos) : (v'.inode i).isdir = (v.inode i).isdir := hmoved.confined.isdir_mem hw hi
    have hnames {d : Nat} (hd : d ∈ dirs \ v.bearers b toName) (n : List UInt8) (c : Nat) := hmoved.names d hd n c
    constructor
    · intro hkept x' hx' hdir _ _ _
      obtain rfl := hone hname hx'
      by_contra hbad
      rw [not_and_or, not_not] at hbad
      refine h.hierarchy.not_moved_tree ⟨h.source, ha⟩ h.target hfreed hname hdir (habove hdir) hbad
        ((hkept rfl).tree.congr (hkept rfl).tree.isdir (fun _ _ _ _ _ hc => hc) (fun d hd n c c' hc hc' => ?_)
          fun d hd n c _ => (hnames hd n c).symm)
      exact (hkept rfl).tree.one d hd n c c' ((hnames hd n c).mpr hc) ((hnames hd n c').mpr hc')
    · intro hgood _
      have htree := h.hierarchy.moved_tree ⟨h.source, ha⟩ h.target hfreed hname habove fun hdir =>
        hgood x hname hdir hfreed ha (habove hdir)
      refine ⟨hmoved.sound, htree.congr (fun d hd => (hmoved.sound d hd).isdir) (fun d hd n c hc hcdir => ?_)
        (fun d hd n c c' hc hc' => htree.one d hd n c c' ((hnames hd n c).mp hc) ((hnames hd n c').mp hc'))
        fun d hd n c _ => hnames hd n c⟩
      have hmem : c ∈ inos := (hmoved.sound d hd).named _ hc
      rwa [hisdir hmem] at hcdir

end MovedTree

end Ufs370
