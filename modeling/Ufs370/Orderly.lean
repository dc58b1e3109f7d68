import Ufs370.Entering
import Ufs370.Links
import Ufs370.Making
import Ufs370.RenameTruth
import Ufs370.Unmounted

/-! The tree of directories and the link counts when names come and go. -/

namespace Ufs370

open Lib Lib.IndexForest Lib.IndexLayout Lib.Namespace

/-- What can be reached from the root directory. -/
def VDisk.InTree (v : VDisk) : Set Nat :=
  {d | Relation.ReflTransGen (fun p c => (v.inode c).isdir = true ∧ ∃ n, v.names p n c) rootInode d}

/-- A disk whose directories form a tree, with right counts of blocks, inodes and links. -/
structure Orderly (inos free : List Nat) (dirs : Set Nat) (v : VDisk) : Prop where
  wellFormed : WellFormed v inos free
  coherent : v.Coherent
  unmounted : v.Unmounted
  counted : FreeCounted v
  unused : ∀ i ∈ v.freeInodes, i ∉ inos ∧ v.filesize i = 0
  hierarchy : v.Hierarchy inos dirs
  linked : v.Linked inos dirs

theorem VDisk.Hierarchy.inTree {v : VDisk} {inos : List Nat} {dirs : Set Nat} (h : v.Hierarchy inos dirs) : v.InTree = dirs := Set.ext fun _ => h.tree.reached

/-! A new name. -/

section Enter

variable {v v' : VDisk} {inos free free' : List Nat} {dirs : Set Nat} {d i x : Nat} {name : List UInt8} {mode : UInt16}

theorem isdir_iff {d : Dinode} : d.isdir = true ↔ d.mode.toNat &&& ifmt = ifdir := by
  rw [Dinode.isdir, decide_eq_true_eq]

theorem Entered.isdirNew (h : Entered inos d x name mode v v' free') : (v'.inode x).isdir = true ↔ mode.toNat &&& ifmt = ifdir := by
  rw [isdir_iff, h.modeNew]

/-- The numbers that a new inode does not have. -/
theorem Orderly.ne_fresh (h : Orderly inos free dirs v) (hx : x ∈ v.freeInodes) (hi : i ∈ inos) : i ≠ x :=
  fun heq => (h.unused x hx).1 (heq ▸ hi)

theorem Entered.isdir (he : Entered inos d x name mode v v' free') (h : Orderly inos free dirs v) (hi : i ∈ inos) :
    (v'.inode i).isdir = (v.inode i).isdir := by
  rw [Dinode.isdir, Dinode.isdir, he.modeOther i (h.ne_fresh he.fresh hi) (h.wellFormed.number i hi)]

theorem Entered.inode (he : Entered inos d x name mode v v' free') (h : Orderly inos free dirs v) (hi : i ∈ inos) (hd : i ≠ d) :
    v'.inode i = v.inode i :=
  he.spares.inode i (fun hmem => hmem.elim hd fun heq => h.ne_fresh he.fresh hi (Set.mem_singleton_iff.mp heq))
    (h.wellFormed.number i hi)

theorem Entered.dirents (he : Entered inos d x name mode v v' free') (h : Orderly inos free dirs v) (hi : i ∈ inos)
    (hd : i ≠ d) : v'.dirents i = v.dirents i :=
  he.spares.dirents h.wellFormed.geometry
    (fun hmem => hmem.elim hd fun heq => h.ne_fresh he.fresh hi (Set.mem_singleton_iff.mp heq)) (h.wellFormed.number i hi)
    (if_pos hi) (by rw [VDisk.counts, if_pos hi]; exact h.wellFormed.le_maxBlocks hi)

theorem Entered.names (he : Entered inos d x name mode v v' free') (h : Orderly inos free dirs v)
    (hnone : ∀ c, ¬ v.names d (direntFilename name) c) (hi : i ∈ inos) {n : List UInt8} {c : Nat} :
    v'.names i n c ↔ put v.names d (direntFilename name) x i n c := by
  by_cases hd : i = d
  · subst hd
    rw [VDisk.names, he.entries, put]
    refine or_congr (and_iff_left_of_imp fun hc heq => ?_).symm ⟨fun heq => ?_, fun heq => ?_⟩
    · exact hnone c (heq.2 ▸ hc)
    · obtain ⟨rfl, rfl⟩ := Dirent.mk.inj heq
      exact ⟨rfl, rfl, rfl⟩
    · rw [heq.2.1, heq.2.2]
  · rw [VDisk.names, he.dirents h hi hd, put_of_ne (.inl hd)]
    rfl

theorem Entered.namesNew (he : Entered inos d x name mode v v' free') {n : List UInt8} {c : Nat} :
    v'.names x n c ↔ (v'.inode x).isdir = true ∧ (n = [dot] ∧ c = x ∨ n = [dot, dot] ∧ c = d) := by
  rw [VDisk.names, he.entriesNew, he.isdirNew, newEntries]
  split
  · rename_i hdir
    rw [and_iff_right hdir, dotEntries, List.mem_cons, List.mem_singleton]
    refine or_congr ⟨fun heq => ?_, fun heq => by rw [heq.1, heq.2]⟩ ⟨fun heq => ?_, fun heq => by rw [heq.1, heq.2]⟩
    · exact (Dirent.mk.inj heq).symm
    · exact (Dirent.mk.inj heq).symm
  · rename_i hdir
    exact iff_of_false List.not_mem_nil fun heq => hdir heq.1

/-- The directories after inode `x` was made. -/
def VDisk.withNew (v' : VDisk) (x : Nat) (dirs : Set Nat) : Set Nat := {i | i ∈ dirs ∨ i = x ∧ (v'.inode x).isdir = true}

theorem withNew_dir (hdir : (v'.inode x).isdir = true) : v'.withNew x dirs = insert x dirs :=
  Set.ext fun _ => or_comm.trans (or_congr_left (and_iff_left hdir))

theorem withNew_file (hdir : ¬ (v'.inode x).isdir = true) : v'.withNew x dirs = dirs :=
  Set.ext fun _ => or_iff_left fun heq => hdir heq.2

/-- The new name is neither `.` nor `..`. -/
theorem Orderly.ordinary (h : Orderly inos free dirs v) (hd : d ∈ dirs) (hnone : ∀ c, ¬ v.names d (direntFilename name) c) :
    Ordinary [dot] [dot, dot] (direntFilename name) := by
  refine ⟨fun heq => hnone d (heq ▸ h.hierarchy.tree.self d hd), fun heq => ?_⟩
  obtain ⟨p, -, hup⟩ := h.hierarchy.tree.parent d hd
  exact hnone p (heq ▸ hup)

theorem Entered.sound (he : Entered inos d x name mode v v' free') (h : Orderly inos free dirs v) (hd : d ∈ dirs)
    (hi : i ∈ v'.withNew x dirs) : SoundDirectory (x :: inos) v' i := by
  have hsaned {e : Dirent} (hsane : inodeNumberSanity v e.inodeNumber = .ok) : inodeNumberSanity v' e.inodeNumber = .ok := by
    rw [he.spares.layout.numberSanity]
    exact hsane
  by_cases hid : i = d
  · subst hid
    refine he.opened.sound fun e hmem => hsaned ?_
    rcases (he.entries e).mp hmem with hold | rfl
    · exact (h.hierarchy.sound i hd).sane e hold
    · exact he.sane
  rcases hi with hi | ⟨rfl, hdir⟩
  · have hsound := h.hierarchy.sound i hi
    have hdirents := he.dirents h hsound.mem hid
    refine ⟨List.mem_cons_of_mem x hsound.mem, by rw [he.isdir h hsound.mem]; exact hsound.isdir, ?_, fun e hmem => ?_,
      fun e hmem => hsaned ?_, by rw [hdirents]; exact hsound.apart⟩
    · rw [VDisk.filesize, he.inode h hsound.mem hid]
      exact hsound.whole
    · rw [hdirents] at hmem
      exact List.mem_cons_of_mem x (hsound.named e hmem)
    · rw [hdirents] at hmem
      exact hsound.sane e hmem
  · have hentries := he.entriesNew
    rw [newEntries, if_pos (he.isdirNew.mp hdir)] at hentries
    have hcases {e : Dirent} (hmem : e ∈ v'.dirents i) : e.inodeNumber = i ∨ e.inodeNumber = d := by
      rw [hentries, dotEntries, List.mem_cons, List.mem_singleton] at hmem
      exact hmem.imp (fun heq => by rw [heq]) fun heq => by rw [heq]
    refine ⟨List.mem_cons_self .., hdir, he.whole, fun e hmem => ?_, fun e hmem => hsaned ?_, ?_⟩
    · rcases hcases hmem with heq | heq
      · rw [heq]
        exact List.mem_cons_self ..
      · rw [heq]
        exact List.mem_cons_of_mem i (h.hierarchy.sound d hd).mem
    · rcases hcases hmem with heq | heq
      · rw [heq]
        exact he.sane
      · rw [heq]
        have hself : v.names d [dot] d := h.hierarchy.tree.self d hd
        exact (h.hierarchy.sound d hd).sane _ hself
    · rw [hentries]
      exact show ([[dot], [dot, dot]] : List (List UInt8)).Nodup by decide

/-- The tree with a new name. -/
theorem Entered.hierarchy (he : Entered inos d x name mode v v' free') (h : Orderly inos free dirs v) (hd : d ∈ dirs)
    (hnone : ∀ c, ¬ v.names d (direntFilename name) c) : v'.Hierarchy (x :: inos) (v'.withNew x dirs) := by
  have hmem {i : Nat} (hi : i ∈ dirs) : i ∈ inos := (h.hierarchy.sound i hi).mem
  have hnamed {i : Nat} (hi : i ∈ dirs) {n : List UInt8} {c : Nat} (hc : v.names i n c) : c ∈ inos :=
    (h.hierarchy.sound i hi).named _ hc
  have hnames {i : Nat} (hi : i ∈ dirs) (n : List UInt8) (c : Nat) := he.names h hnone (hmem hi) (n := n) (c := c)
  have htree : Tree [dot] [dot, dot] (fun i => (v'.inode i).isdir = true) rootInode dirs v.names := by
    refine h.hierarchy.tree.congr (fun i hi => ?_) (fun i hi n c hc hdir => ?_) h.hierarchy.tree.one fun _ _ _ _ _ => Iff.rfl
    · rw [he.isdir h (hmem hi)]
      exact h.hierarchy.tree.isdir i hi
    · rwa [he.isdir h (hnamed hi hc)] at hdir
  refine ⟨fun i hi => he.sound h hd hi, ?_⟩
  by_cases hdir : (v'.inode x).isdir = true
  · rw [withNew_dir hdir]
    exact htree.add (by decide) hd (h.ordinary hd hnone) hnone hdir (fun hx => h.ne_fresh he.fresh (hmem hx) rfl)
      (fun i hi n hc => h.ne_fresh he.fresh (hnamed hi hc) rfl) (fun i hi n c => hnames hi n c)
      fun n c => he.namesNew.trans (and_iff_right hdir)
  · rw [withNew_file hdir]
    have hone (i : Nat) (hi : i ∈ dirs) (n : List UInt8) (c c' : Nat) (hc : v'.names i n c) (hc' : v'.names i n c') : c' = c := by
      have happart := (he.sound h hd (.inl hi)).apart
      exact (Dirent.mk.inj (happart.eq hc hc' rfl)).1
    refine htree.congr htree.isdir (fun _ _ _ _ _ hc => hc) hone fun i hi n c hc => ?_
    rw [hnames hi]
    constructor
    · rintro (hold | ⟨-, -, rfl⟩)
      · exact hold.1
      · exact absurd hc hdir
    · exact fun hold => .inl ⟨hold, fun heq => hnone c (heq.1 ▸ heq.2 ▸ hold)⟩

/-- The link counts with a new name. -/
theorem Entered.linked (he : Entered inos d x name mode v v' free') (h : Orderly inos free dirs v) (hd : d ∈ dirs)
    (hnone : ∀ c, ¬ v.names d (direntFilename name) c) (hlink : (v.inode d).nlink.toNat + 1 < 65536) :
    v'.Linked (x :: inos) (v'.withNew x dirs) := by
  have hmem {i : Nat} (hi : i ∈ dirs) : i ∈ inos := (h.hierarchy.sound i hi).mem
  have hnamed {i : Nat} (hi : i ∈ dirs) {n : List UInt8} {c : Nat} (hc : v.names i n c) : c ∈ inos :=
    (h.hierarchy.sound i hi).named _ hc
  have hnames {i : Nat} (hi : i ∈ dirs) (n : List UInt8) (c : Nat) := he.names h hnone (hmem hi) (n := n) (c := c)
  have hname := h.ordinary hd hnone
  -- a name leads to a directory as before
  have hkept {i : Nat} (hi : i ∈ dirs) : Namespace.subdirs [dot] [dot, dot] (fun c => (v'.inode c).isdir = true) v.names i =
      v.subdirs i := subdirs_congr fun n c _ => and_congr_right fun hc => by rw [he.isdir h (hnamed hi hc)]
  have hsubdirs {i : Nat} (hi : i ∈ dirs) : v'.subdirs i = Namespace.subdirs [dot] [dot, dot]
      (fun c => (v'.inode c).isdir = true) (put v.names d (direntFilename name) x) i :=
    subdirs_congr fun n c _ => and_congr_left fun _ => hnames hi n c
  have hput (hdir : (v'.inode x).isdir = true) :
      v'.subdirs d = insert (direntFilename name) (v.subdirs d) ∧ direntFilename name ∉ v.subdirs d := by
    rw [hsubdirs hd, ← hkept hd]
    exact subdirs_put_dir hname hnone hdir
  have hother {i : Nat} (hi : i ∈ dirs) (hne : i ≠ d ∨ ¬ (v'.inode x).isdir = true) : v'.subdirs i = v.subdirs i := by
    rw [hsubdirs hi, ← hkept hi]
    exact subdirs_put_other hne hnone
  constructor
  · intro i hi
    by_cases hid : i = d
    · subst hid
      rw [he.nlink]
      by_cases hdir : (v'.inode x).isdir = true
      · obtain ⟨hput, hnot⟩ := hput hdir
        rw [if_pos hdir, UInt16.toNat_succ hlink, hput, Set.ncard_insert_of_notMem hnot (v.subdirs_finite i),
          h.linked.directory i hd, Nat.add_right_comm]
      · rw [if_neg hdir, hother hd (.inr hdir)]
        exact h.linked.directory i hd
    rcases hi with hi | ⟨rfl, hdir⟩
    · rw [he.inode h (hmem hi) hid, hother hi (.inl hid)]
      exact h.linked.directory i hi
    · have hempty : v'.subdirs i = ∅ := by
        refine Set.eq_empty_of_forall_notMem fun n hn => ?_
        obtain ⟨⟨hdot, hdots⟩, c, hc, -⟩ := hn
        exact (he.namesNew.mp hc).2.elim (fun heq => hdot heq.1) fun heq => hdots heq.1
      rw [he.nlinkNew, newLinks, if_pos (he.isdirNew.mp hdir), hempty, Set.ncard_empty]
      rfl
  · intro i hi hfile
    have hholders : holders (v'.withNew x dirs) v'.names i = holders dirs (put v.names d (direntFilename name) x) i := by
      refine Set.ext fun p => ⟨fun hp => ?_, fun hp => ⟨.inl hp.1, (hnames hp.1 _ _).mpr hp.2⟩⟩
      obtain ⟨hp | ⟨hpx, -⟩, hpi⟩ := hp
      · exact ⟨hp, (hnames hp _ _).mp hpi⟩
      · rw [hpx] at hpi
        obtain ⟨hdir, ⟨-, rfl⟩ | ⟨-, rfl⟩⟩ := he.namesNew.mp hpi
        · exact absurd hdir hfile
        · rw [he.isdir h (hmem hd)] at hfile
          exact absurd (h.hierarchy.tree.isdir i hd) hfile
    rw [hholders]
    rcases List.mem_cons.mp hi with rfl | hi
    · obtain ⟨hput, hnot⟩ := holders_put_self (x := i) hd hnone
      have hempty : holders dirs v.names i = ∅ := Set.eq_empty_of_forall_notMem fun p hp =>
        h.ne_fresh he.fresh (hnamed hp.1 hp.2) rfl
      rw [hput, hempty, insert_empty_eq, Set.ncard_singleton, he.nlinkNew, newLinks, if_neg fun hdir => hfile (he.isdirNew.mpr hdir)]
      rfl
    · have hid : i ≠ d := by
        rintro rfl
        rw [he.isdir h hi] at hfile
        exact hfile (h.hierarchy.tree.isdir i hd)
      rw [holders_put_other (h.ne_fresh he.fresh hi) hnone, he.inode h hi hid]
      rw [he.isdir h hi] at hfile
      exact h.linked.file i hi hfile

/-- A new name leaves a disk in order. -/
theorem Entered.orderly (he : Entered inos d x name mode v v' free') (h : Orderly inos free dirs v) (hd : d ∈ dirs)
    (hnone : ∀ c, ¬ v.names d (direntFilename name) c) (hlink : (v.inode d).nlink.toNat + 1 < 65536) (hu : v'.Unmounted) :
    Orderly (x :: inos) free' (v'.withNew x dirs) v' where
  wellFormed := he.wellFormed
  coherent := he.coherent
  unmounted := hu
  counted := he.counted
  unused i hi := by
    rw [he.freeInodes, (freeInodes_nodup v).mem_erase_iff] at hi
    obtain ⟨hnot, hzero⟩ := h.unused i hi.2
    have hnum := ((mem_freeInodes h.counted.geometry h.counted.table).mp hi.2).1
    have hid : i ≠ d := fun heq => hnot (heq ▸ (h.hierarchy.sound d hd).mem)
    refine ⟨fun hmem => (List.mem_cons.mp hmem).elim hi.1 hnot, ?_⟩
    rw [VDisk.filesize, he.spares.inode i (fun hmem => hmem.elim hid fun heq => hi.1 (Set.mem_singleton_iff.mp heq)) hnum]
    exact hzero
  hierarchy := he.hierarchy h hd hnone
  linked := he.linked h hd hnone hlink

end Enter

/-! A name less. -/

section Leave

variable {v v' : VDisk} {inos free free' : List Nat} {dirs : Set Nat} {b i y : Nat} {name : List UInt8}

/-- A disk in order stays so when only inodes in use are changed, and the tree and the links are right again. -/
theorem Orderly.confined {S : Set Nat} {dirs' : Set Nat} (h : Orderly inos free dirs v) (hc : Confined inos S v v' free')
    (hS : ∀ i ∈ S, i ∈ inos) (hh : v'.Hierarchy inos dirs') (hl : v'.Linked inos dirs') (hu : v'.Unmounted) :
    Orderly inos free' dirs' v' where
  wellFormed := hc.wellFormed
  coherent := hc.coherent
  unmounted := hu
  counted := hc.counted h.coherent h.counted
  unused i hi := by
    rw [hc.freeInodes h.coherent h.counted] at hi
    obtain ⟨hnot, hzero⟩ := h.unused i hi
    have hnum := ((mem_freeInodes h.counted.geometry h.counted.table).mp hi).1
    refine ⟨hnot, ?_⟩
    rw [VDisk.filesize, hc.spares.inode i (fun hmem => hnot (hS i hmem)) hnum]
    exact hzero
  hierarchy := hh
  linked := hl

/-- A disk in order stays so when a name goes. -/
theorem Deallocated.orderly (hgone : Deallocated inos free b y (direntFilename name) v v' free') (h : Orderly inos free dirs v)
    (hb : b ∈ dirs) (hname : v.names b (direntFilename name) y) (hfreed : v.Removable b name) (hu : v'.Unmounted) :
    Orderly inos free' (dirs \ v.bearers b name) v' := by
  refine h.confined hgone.confined ?_ (hgone.hierarchy h.hierarchy h.wellFormed hb hfreed hname)
    (hgone.linked h.hierarchy h.wellFormed h.linked hb hname hfreed) hu
  rintro i (rfl | rfl)
  · exact (h.hierarchy.sound i hb).mem
  · exact (h.hierarchy.sound b hb).named _ hname

end Leave

/-! A disk in order. -/

section TreeDisk

/-- A root directory, a directory in it, a file in it and an inode that is never given out. -/
def treeDinode : Nat → Dinode
  | 2 => { Dinode.zero with mode := 0x41ED, nlink := 3, filesize := 256, addr := fun _ => 12 }
  | 3 => { Dinode.zero with mode := 0x41ED, nlink := 2, filesize := 128, addr := fun _ => 13 }
  | 4 => { Dinode.zero with mode := 0x81A4, nlink := 1 }
  | _ => { Dinode.zero with mode := 0x81A4 }

def entryBlock (es : List Dirent) : Block :=
  es.zipIdx.foldl (fun buf e => Entry.setName (Entry.setInodeNumber buf e.2 e.1.inodeNumber) e.2 e.1.name) zeroBlock

def treeTable : Block := [4, 3, 2, 1].foldl (fun buf i => (treeDinode i).toBlock buf (i - 1)) zeroBlock

/-- Directory 2 has directory 3 and file 4; two blocks are free. -/
def treeDisk : VDisk := { pairDisk with
  sb := { pairSuper with volumeSize := 16, totalFreeinode := 28, nfreeinode := 1, freeinode := fun _ => 5 }
  io := ⟨Function.update (Function.update (Function.update (fun _ => zeroBlock)
    13 (entryBlock [⟨3, [dot]⟩, ⟨2, [dot, dot]⟩]))
    12 (entryBlock [⟨2, [dot]⟩, ⟨2, [dot, dot]⟩, ⟨3, [0x84]⟩, ⟨4, [0x86]⟩])) 2 treeTable, []⟩
  minodes := [2, 3, 4].map fun i => ⟨i, false, 1, none, treeDinode i⟩ }

theorem treeDisk_minode {i : Nat} {m : Minode} (h : treeDisk.minode? i = some m) :
    (i = 2 ∨ i = 3 ∨ i = 4) ∧ m = ⟨i, false, 1, none, treeDinode i⟩ := by
  have hmem : m ∈ [2, 3, 4].map fun i => (⟨i, false, 1, none, treeDinode i⟩ : Minode) := List.mem_of_find?_eq_some h
  have hnumber : m.inodeNumber = i := of_decide_eq_true (List.find?_some (p := fun m : Minode => decide (m.inodeNumber = i)) h)
  simp only [List.map_cons, List.map_nil, List.mem_cons, List.not_mem_nil, or_false] at hmem
  rcases hmem with rfl | rfl | rfl
  · exact ⟨.inl hnumber.symm, hnumber ▸ rfl⟩
  · exact ⟨.inr (.inl hnumber.symm), hnumber ▸ rfl⟩
  · exact ⟨.inr (.inr hnumber.symm), hnumber ▸ rfl⟩

theorem treeDisk_uses (i : Nat) : treeDisk.uses i ≤ 1 := by
  cases hm : treeDisk.minode? i with
  | none => exact (uses_none hm).trans_le (Nat.zero_le _)
  | some m =>
    obtain ⟨-, rfl⟩ := treeDisk_minode hm
    exact (uses_some hm).le

theorem treeDisk_slot {i : Nat} (hi : i = 2 ∨ i = 3 ∨ i = 4) : treeDisk.slot i = treeDinode i := by
  have hblock : treeDisk.io.blocks 2 = treeTable := by simp only [treeDisk, Function.update_self]
  have hloc : inodeInquireDiskLocation treeDisk i = (.ok, 2, i - 1) := by
    rcases hi with rfl | rfl | rfl <;> decide +kernel
  rw [VDisk.slot, hloc]
  simp only [if_true, hblock, treeTable, List.foldl_cons, List.foldl_nil]
  rcases hi with rfl | rfl | rfl
  · rw [Dinode.ofBlock_toBlock_other _ _ (by decide), Dinode.ofBlock_toBlock]
  · rw [Dinode.ofBlock_toBlock_other _ _ (by decide), Dinode.ofBlock_toBlock_other _ _ (by decide), Dinode.ofBlock_toBlock]
  · rw [Dinode.ofBlock_toBlock_other _ _ (by decide), Dinode.ofBlock_toBlock_other _ _ (by decide),
      Dinode.ofBlock_toBlock_other _ _ (by decide), Dinode.ofBlock_toBlock]

theorem treeDisk_wellFormed : WellFormed treeDisk [2, 3, 4] [10, 11] where
  geometry := by constructor <;> decide
  live := ⟨rfl, rfl⟩
  distinct := by decide
  number := by
    have hall : ∀ i ∈ [2, 3, 4], 0 < i ∧ i < 33 := by decide
    intro i hi
    obtain ⟨hpos, hlt⟩ := hall i hi
    simp only [List.mem_cons, List.not_mem_nil, or_false] at hi
    rcases hi with rfl | rfl | rfl <;> constructor <;> decide
  size := by
    intro i hi
    simp only [List.mem_cons, List.not_mem_nil, or_false] at hi
    rcases hi with rfl | rfl | rfl <;> exact .inl (by decide)
  list := {
    volume := by decide
    holds := by
      have hsaved : (treeDisk.saved 11).1 = 0 := Bytes.word_zero 0
      refine .entry (by decide) (by decide) (.link (by decide) ?_)
      change LinkedStack.Holds _ _ (treeDisk.saved 11).1 _ _
      rw [hsaved]
      exact .nil
    nodup := by decide
    sane := by decide
    total := rfl }
  blocks := by decide
  sane := by decide

theorem treeDisk_root : treeDisk.dirents 2 = [⟨2, [dot]⟩, ⟨2, [dot, dot]⟩, ⟨3, [0x84]⟩, ⟨4, [0x86]⟩] := by decide +kernel

theorem treeDisk_child : treeDisk.dirents 3 = [⟨3, [dot]⟩, ⟨2, [dot, dot]⟩] := by decide +kernel


theorem treeDisk_two {n : List UInt8} {c : Nat} : treeDisk.names 2 n c ↔
    n = [dot] ∧ c = 2 ∨ n = [dot, dot] ∧ c = 2 ∨ n = [0x84] ∧ c = 3 ∨ n = [0x86] ∧ c = 4 := by
  rw [VDisk.names, treeDisk_root]
  simp only [List.mem_cons, List.not_mem_nil, or_false, Dirent.mk.injEq, and_comm]

theorem treeDisk_three {n : List UInt8} {c : Nat} : treeDisk.names 3 n c ↔
    n = [dot] ∧ c = 3 ∨ n = [dot, dot] ∧ c = 2 := by
  rw [VDisk.names, treeDisk_child]
  simp only [List.mem_cons, List.not_mem_nil, or_false, Dirent.mk.injEq, and_comm]

theorem treeDisk_inode {i : Nat} (hi : i = 2 ∨ i = 3 ∨ i = 4) : treeDisk.inode i = treeDinode i := by
  rcases hi with rfl | rfl | rfl <;> rfl

theorem treeDisk_coherent : treeDisk.Coherent := fun i _ => by
  rw [VDisk.InSlot]
  cases hm : treeDisk.minode? i with
  | none => exact (VDisk.inode_none hm).symm
  | some m =>
    obtain ⟨hi, rfl⟩ := treeDisk_minode hm
    rw [VDisk.inode_some hm, treeDisk_slot hi]

/-- The only name of a directory. -/
theorem treeDisk_child_iff {d c : Nat} {n : List UInt8} (hd : d = 2 ∨ d = 3) (hn : Ordinary [dot] [dot, dot] n) :
    treeDisk.names d n c ↔ d = 2 ∧ (n = [0x84] ∧ c = 3 ∨ n = [0x86] ∧ c = 4) := by
  rcases hd with rfl | rfl
  · rw [treeDisk_two, and_iff_right rfl, or_iff_right fun h => hn.1 h.1, or_iff_right fun h => hn.2 h.1]
  · rw [treeDisk_three, or_iff_right fun h => hn.1 h.1]
    exact iff_of_false (fun h => hn.2 h.1) fun h => absurd h.1 (by decide)

theorem treeDisk_sound {d : Nat} (hd : d = 2 ∨ d = 3) : SoundDirectory [2, 3, 4] treeDisk d := by
  have hall : (treeDisk.dirents d).all fun e =>
      decide (e.inodeNumber ∈ [2, 3, 4] ∧ inodeNumberSanity treeDisk e.inodeNumber = .ok) := by
    rcases hd with rfl | rfl
    · rw [treeDisk_root]
      decide
    · rw [treeDisk_child]
      decide
  have hvalid (e : Dirent) (he : e ∈ treeDisk.dirents d) := of_decide_eq_true (List.all_eq_true.mp hall e he)
  refine ⟨?_, ?_, ?_, fun e he => (hvalid e he).1, fun e he => (hvalid e he).2, ?_⟩
  · rcases hd with rfl | rfl <;> decide
  · rcases hd with rfl | rfl <;> decide
  · rcases hd with rfl | rfl <;> decide
  · rw [Apart]
    rcases hd with rfl | rfl
    · rw [treeDisk_root]
      decide
    · rw [treeDisk_child]
      decide

theorem treeDisk_hierarchy : treeDisk.Hierarchy [2, 3, 4] {2, 3} where
  sound _ hd := treeDisk_sound hd
  tree := {
    root_mem := .inl rfl
    isdir := fun _ hd => (treeDisk_sound hd).isdir
    one := fun _ hd _ _ _ hc hc' => (Dirent.mk.inj ((treeDisk_sound hd).apart.eq hc hc' rfl)).1
    self := by
      rintro d (rfl | rfl)
      · exact treeDisk_two.mpr (.inl ⟨rfl, rfl⟩)
      · exact treeDisk_three.mpr (.inl ⟨rfl, rfl⟩)
    parent := by
      rintro d (rfl | rfl)
      · exact ⟨2, .inl rfl, treeDisk_two.mpr (.inr (.inl ⟨rfl, rfl⟩))⟩
      · exact ⟨2, .inl rfl, treeDisk_three.mpr (.inr ⟨rfl, rfl⟩)⟩
    top := treeDisk_two.mpr (.inr (.inl ⟨rfl, rfl⟩))
    child := by
      intro d hd n c hn hc hdir
      obtain ⟨rfl, ⟨-, rfl⟩ | ⟨-, rfl⟩⟩ := (treeDisk_child_iff hd hn).mp hc
      · exact ⟨.inr rfl, by decide, treeDisk_three.mpr (.inr ⟨rfl, rfl⟩)⟩
      · exact absurd hdir (by decide)
    once := by
      intro d hd n n' c hn hn' hc hc' hdir
      obtain ⟨-, ⟨rfl, rfl⟩ | ⟨rfl, rfl⟩⟩ := (treeDisk_child_iff hd hn).mp hc
      · obtain ⟨-, ⟨rfl, -⟩ | ⟨-, heq⟩⟩ := (treeDisk_child_iff hd hn').mp hc'
        · rfl
        · exact absurd heq (by decide)
      · exact absurd hdir (by decide)
    named := by
      rintro c (rfl | rfl) hroot p hp
      · exact absurd rfl hroot
      · obtain ⟨heq, -⟩ | ⟨-, rfl⟩ := treeDisk_three.mp hp
        · exact absurd heq (by decide)
        · exact ⟨[0x84], by constructor <;> decide, treeDisk_two.mpr (.inr (.inr (.inl ⟨rfl, rfl⟩)))⟩
    rooted := by
      rintro d (rfl | rfl)
      · exact .refl
      · exact .single (treeDisk_three.mpr (.inr ⟨rfl, rfl⟩)) }

theorem treeDisk_linked : treeDisk.Linked [2, 3, 4] {2, 3} where
  directory := by
    have hsubdirs {d : Nat} (hd : d = 2 ∨ d = 3) (n : List UInt8) : n ∈ treeDisk.subdirs d ↔ d = 2 ∧ n = [0x84] := by
      constructor
      · rintro ⟨hn, c, hc, hdir⟩
        obtain ⟨rfl, ⟨rfl, -⟩ | ⟨-, rfl⟩⟩ := (treeDisk_child_iff hd hn).mp hc
        · exact ⟨rfl, rfl⟩
        · exact absurd hdir (by decide)
      · rintro ⟨rfl, rfl⟩
        exact ⟨by constructor <;> decide, 3, treeDisk_two.mpr (.inr (.inr (.inl ⟨rfl, rfl⟩))), by decide⟩
    rintro d (rfl | rfl)
    · have hone : treeDisk.subdirs 2 = {[0x84]} := Set.ext fun n => (hsubdirs (.inl rfl) n).trans (and_iff_right rfl)
      rw [hone, Set.ncard_singleton]
      decide
    · have hnone : treeDisk.subdirs 3 = ∅ := Set.ext fun n =>
        (hsubdirs (.inr rfl) n).trans (iff_of_false (fun h => absurd h.1 (by decide)) (Set.notMem_empty n))
      rw [hnone, Set.ncard_empty]
      decide
  file := by
    intro i hi hfile
    simp only [List.mem_cons, List.not_mem_nil, or_false] at hi
    rcases hi with rfl | rfl | rfl
    · exact absurd (by decide) hfile
    · exact absurd (by decide) hfile
    · have hone : holders {2, 3} treeDisk.names 4 = {(2, [0x86])} := by
        refine Set.ext fun p => ⟨?_, fun hp => ?_⟩
        · obtain ⟨d, n⟩ := p
          rintro ⟨rfl | rfl, hc⟩
          · obtain ⟨-, heq⟩ | ⟨-, heq⟩ | ⟨-, heq⟩ | ⟨rfl, -⟩ := treeDisk_two.mp hc
            · exact absurd heq (by decide)
            · exact absurd heq (by decide)
            · exact absurd heq (by decide)
            · rfl
          · obtain ⟨-, heq⟩ | ⟨-, heq⟩ := treeDisk_three.mp hc
            · exact absurd heq (by decide)
            · exact absurd heq (by decide)
        · rw [Set.mem_singleton_iff.mp hp]
          exact ⟨.inl rfl, treeDisk_two.mpr (.inr (.inr (.inr ⟨rfl, rfl⟩)))⟩
      rw [hone, Set.ncard_singleton]
      decide

theorem treeDisk_orderly : Orderly [2, 3, 4] [10, 11] {2, 3} treeDisk where
  wellFormed := treeDisk_wellFormed
  coherent := treeDisk_coherent
  unmounted := by
    refine ⟨by rw [VDisk.OneHandle]; decide, fun i => ?_⟩
    cases hm : treeDisk.minode? i with
    | none => rw [VDisk.mounted, hm]; rfl
    | some m =>
      obtain ⟨-, rfl⟩ := treeDisk_minode hm
      rw [mounted_some hm]
  counted := {
    geometry := treeDisk_wellFormed.geometry
    table := rfl
    live := ⟨rfl, rfl⟩
    writable := rfl
    total := by decide +kernel
    nodup := by decide
    cached := by decide +kernel }
  unused := by
    have hall : (treeDisk.freeInodes.all fun i => i ∉ [2, 3, 4] ∧ treeDisk.filesize i = 0) = true := by decide +kernel
    exact fun i hi => of_decide_eq_true (List.all_eq_true.mp hall i hi)
  hierarchy := treeDisk_hierarchy
  linked := treeDisk_linked

end TreeDisk

end Ufs370
