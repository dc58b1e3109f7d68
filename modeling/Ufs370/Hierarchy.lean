import Ufs370.Ancestors

/-! The tree of directories when a name is removed from it. -/

namespace Ufs370

open Lib Lib.IndexForest Lib.IndexLayout Lib.Namespace

/-- Nothing has the name, or what has it can be removed. -/
def VDisk.Removable (v : VDisk) (b : Nat) (name : List UInt8) : Prop :=
  ∀ y, v.names b (direntFilename name) y → ¬ (v.inode y).Stuck name

/-- What has a name. -/
def VDisk.bearers (v : VDisk) (b : Nat) (name : List UInt8) : Set Nat := {y | v.names b (direntFilename name) y}

section Removal

variable {v v' : VDisk} {inos free free' : List Nat} {dirs : Set Nat} {b y : Nat} {name : List UInt8}

/-- Neither `.` nor `..` can be removed. -/
theorem VDisk.Hierarchy.plain (h : v.Hierarchy inos dirs) (hb : b ∈ dirs) (hfreed : v.Removable b name) :
    Ordinary [dot] [dot, dot] (direntFilename name) := by
  have key {n : List UInt8} (hn : direntFilename name = n) (hdots : n = [dot, dot] ∨ n = [dot]) {y : Nat} (hy : v.names b n y)
      (hdir : (v.inode y).isdir = true) : False := by
    subst hn
    exact hfreed y hy ⟨hdir, hdots.imp_right .inl⟩
  constructor
  · exact fun heq => key heq (.inr rfl) (h.tree.self b hb) (h.tree.isdir b hb)
  · intro heq
    obtain ⟨p, hp, hup⟩ := h.tree.parent b hb
    exact key heq (.inl rfl) hup (h.tree.isdir p hp)

/-- A list of two entries. -/
theorem two_entries {es : List Dirent} {x y z : Dirent} (hlen : es.length = 2) (hx : x ∈ es) (hy : y ∈ es) (hne : x ≠ y)
    (hz : z ∈ es) : z = x ∨ z = y := by
  obtain ⟨u, w, rfl⟩ := List.length_eq_two.mp hlen
  simp only [List.mem_cons, List.not_mem_nil, or_false] at hx hy hz
  grind

/-- A directory that can be removed has no entries but for itself and its parent. -/
theorem VDisk.Hierarchy.leaf (h : v.Hierarchy inos dirs) (hb : b ∈ dirs) (hfreed : v.Removable b name)
    (hname : v.names b (direntFilename name) y) (hdir : (v.inode y).isdir = true) :
    y ∈ dirs ∧ y ≠ rootInode ∧ ∀ n c, Ordinary [dot] [dot, dot] n → ¬ v.names y n c := by
  obtain ⟨hmem, hroot, -⟩ := h.tree.child b hb _ y (h.plain hb hfreed) hname hdir
  refine ⟨hmem, hroot, fun n c hn hc => ?_⟩
  have hself := h.tree.self y hmem
  obtain ⟨p, -, hup⟩ := h.tree.parent y hmem
  have hne : Dirent.mk y [dot] ≠ Dirent.mk p [dot, dot] := fun heq => absurd (Dirent.mk.inj heq).2 (by decide)
  obtain ⟨m, hm⟩ := (h.sound y hmem).whole
  have hlen := dirents_length hm
  have htwo : (v.dirents y).length = 2 := by
    by_contra hnot
    refine hfreed y hname ⟨hdir, .inr (.inr ?_)⟩
    change 0 < v.filesize y ∧ v.filesize y ≠ direntSize * 2
    have hpos : 0 < (v.dirents y).length := List.length_pos_of_mem hself
    rw [hm, ← hlen]
    exact ⟨Nat.mul_pos (by decide) hpos, fun heq => hnot (Nat.eq_of_mul_eq_mul_left (by decide) heq)⟩
  rcases two_entries htwo hself hup hne hc with heq | heq
  · exact hn.1 (Dirent.mk.inj heq).2
  · exact hn.2 (Dirent.mk.inj heq).2

/-- What can be removed is not the directory that it is in. -/
theorem VDisk.Hierarchy.bearer_ne (h : v.Hierarchy inos dirs) (hb : b ∈ dirs) (hfreed : v.Removable b name)
    (hname : v.names b (direntFilename name) y) : y ≠ b := by
  rintro rfl
  exact (h.leaf hb hfreed hname (h.tree.isdir y hb)).2.2 _ _ (h.plain hb hfreed) hname

/-- A directory with a name in it is not what can be removed. -/
theorem VDisk.Hierarchy.not_bearer (h : v.Hierarchy inos dirs) (hb : b ∈ dirs) (hfreed : v.Removable b name) {d : Nat}
    (hd : d ∈ dirs) (hfull : ∃ n c, Ordinary [dot] [dot, dot] n ∧ v.names d n c) : d ∉ v.bearers b name := fun hbear => by
  obtain ⟨n, c, hn, hc⟩ := hfull
  exact (h.leaf hb hfreed hbear (h.tree.isdir d hd)).2.2 n c hn hc

/-- Nothing else has a name. -/
theorem VDisk.Hierarchy.bearers (h : v.Hierarchy inos dirs) (hb : b ∈ dirs) (hname : v.names b (direntFilename name) y) :
    v.bearers b name = {y} :=
  Set.ext fun i => ⟨fun hi => h.tree.one b hb _ y i hname hi, fun hi => by
    rw [Set.mem_singleton_iff.mp hi]
    exact hname⟩

/-- The tree without what has a name. -/
theorem VDisk.Hierarchy.cleared_tree (h : v.Hierarchy inos dirs) (hb : b ∈ dirs) (hfreed : v.Removable b name) :
    Tree [dot] [dot, dot] (fun i => (v.inode i).isdir = true) rootInode (dirs \ v.bearers b name)
      (drop v.names b (direntFilename name)) := by
  by_cases hdir : ∃ y ∈ v.bearers b name, (v.inode y).isdir = true
  · obtain ⟨y, hname, hdir⟩ := hdir
    rw [h.bearers hb hname]
    exact h.tree.drop_leaf hb (h.plain hb hfreed) hname hdir (h.leaf hb hfreed hname hdir).2.2
  · have hfile {y : Nat} (hy : y ∈ v.bearers b name) : ¬ (v.inode y).isdir = true := fun hydir => hdir ⟨y, hy, hydir⟩
    have hsame : dirs \ v.bearers b name = dirs :=
      sdiff_eq_left.mpr (Set.disjoint_left.mpr fun i hi hi' => hfile hi' (h.tree.isdir i hi))
    rw [hsame]
    refine h.tree.congr h.tree.isdir (fun _ _ _ _ _ hc => hc)
      (fun d hd n c c' hc hc' => h.tree.one d hd n c c' hc.1 hc'.1) fun d hd n c hc => and_iff_left_of_imp ?_
    rintro hentry ⟨rfl, rfl⟩
    exact hfile hentry hc

/-- The names without the one that was removed. -/
theorem Deallocated.names (hgone : Deallocated inos free b y (direntFilename name) v v' free') (h : v.Hierarchy inos dirs)
    (hw : WellFormed v inos free) (hb : b ∈ dirs) (hname : v.names b (direntFilename name) y) {d c : Nat} {n : List UInt8}
    (hd : d ∈ dirs \ v.bearers b name) : v'.names d n c ↔ drop v.names b (direntFilename name) d n c := by
  by_cases hdb : d = b
  · subst hdb
    rw [VDisk.names, hgone.entries]
    exact and_congr_right fun _ => ⟨fun hn heq => hn heq.2, fun hn heq => hn ⟨rfl, heq⟩⟩
  · rw [drop_of_ne (.inl hdb), VDisk.names, VDisk.names, hgone.confined.dirents hw _ (h.sound d hd.1).mem]
    rw [Set.mem_insert_iff, Set.mem_singleton_iff, not_or]
    refine ⟨hdb, fun heq => hd.2 ?_⟩
    rw [heq]
    exact hname

/-- The tree without what was removed from it. -/
theorem Deallocated.hierarchy (h : v.Hierarchy inos dirs) (hw : WellFormed v inos free) (hb : b ∈ dirs)
    (hfreed : v.Removable b name) (hname : v.names b (direntFilename name) y)
    (hgone : Deallocated inos free b y (direntFilename name) v v' free') : v'.Hierarchy inos (dirs \ v.bearers b name) := by
  have hsound (d : Nat) (hd : d ∈ dirs \ v.bearers b name) : SoundDirectory inos v' d := by
    by_cases hdb : d = b
    · subst hdb
      refine hgone.opened.sound fun e he => ?_
      rw [hgone.confined.spares.layout.numberSanity]
      exact (h.sound d hd.1).sane e ((hgone.entries e).mp he).1
    · refine (h.sound d hd.1).confined hw ?_ hgone.confined
      rw [Set.mem_insert_iff, Set.mem_singleton_iff, not_or]
      refine ⟨hdb, fun heq => hd.2 ?_⟩
      rw [heq]
      exact hname
  have hnames {d : Nat} (hd : d ∈ dirs \ v.bearers b name) (n : List UInt8) (c : Nat) :
      v'.names d n c ↔ drop v.names b (direntFilename name) d n c := hgone.names h hw hb hname hd
  have htree := h.cleared_tree hb hfreed
  refine ⟨hsound, htree.congr (fun d hd => (hsound d hd).isdir) (fun d hd n c hc hcdir => ?_)
    (fun d hd n c c' hc hc' => htree.one d hd n c c' ((hnames hd n c).mp hc) ((hnames hd n c').mp hc'))
    fun d hd n c _ => hnames hd n c⟩
  rwa [← hgone.confined.isdir_mem hw ((h.sound d hd.1).named _ ((hnames hd n c).mp hc).1)]

end Removal

end Ufs370
