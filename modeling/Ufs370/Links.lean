import Ufs370.Hierarchy
import Mathlib.Data.Set.Card
import Mathlib.Data.Set.Finite.Lattice

/-! The link counts of inodes and the names that they have. -/

namespace Ufs370

open Lib Lib.IndexForest Lib.IndexLayout Lib.Namespace

/-- The directories in directory `d`, by their names. -/
def VDisk.subdirs (v : VDisk) (d : Nat) : Set (List UInt8) :=
  Namespace.subdirs [dot] [dot, dot] (fun i => (v.inode i).isdir = true) v.names d

/-- The link counts are right: a directory has a link for its own entry, one for its entry in its parent and one for each
directory in it; another inode has one for each of its names. -/
structure VDisk.Linked (v : VDisk) (inos : List Nat) (dirs : Set Nat) : Prop where
  directory : ∀ d ∈ dirs, (v.inode d).nlink.toNat = (v.subdirs d).ncard + 2
  file : ∀ i ∈ inos, ¬ (v.inode i).isdir = true → (v.inode i).nlink.toNat = (holders dirs v.names i).ncard

section Finite

variable {v : VDisk} {inos free : List Nat} {dirs : Set Nat} {d i : Nat}

theorem VDisk.names_finite (v : VDisk) (d : Nat) : {n | ∃ c, v.names d n c}.Finite :=
  ((v.dirents d).map Dirent.name).finite_toSet.subset fun n ⟨c, hc⟩ => List.mem_map.mpr ⟨⟨c, n⟩, hc, rfl⟩

theorem VDisk.subdirs_finite (v : VDisk) (d : Nat) : (v.subdirs d).Finite :=
  (v.names_finite d).subset fun _ ⟨_, c, hc, _⟩ => ⟨c, hc⟩

theorem VDisk.Hierarchy.finite (h : v.Hierarchy inos dirs) : dirs.Finite :=
  inos.finite_toSet.subset fun d hd => (h.sound d hd).mem

end Finite

theorem UInt16.toNat_succ {a : UInt16} (h : a.toNat + 1 < 65536) : (a + 1).toNat = a.toNat + 1 := by
  rw [UInt16.toNat_add]
  exact Nat.mod_eq_of_lt h

theorem UInt16.toNat_pred {a : UInt16} (h : 0 < a.toNat) : (a - 1).toNat = a.toNat - 1 :=
  UInt16.toNat_sub_of_le a 1 (UInt16.le_iff_toNat_le.mpr h)

/-- The link counts are right but for `k` names that inode `x` has too many. -/
structure VDisk.LinkedBut (v : VDisk) (inos : List Nat) (dirs : Set Nat) (x k : Nat) : Prop where
  directory : ∀ d ∈ dirs, (v.inode d).nlink.toNat = (v.subdirs d).ncard + 2
  file : ∀ i ∈ inos, ¬ (v.inode i).isdir = true →
    (v.inode i).nlink.toNat + (if i = x then k else 0) = (holders dirs v.names i).ncard

/-- From `v` to `v'` only directory `b` of the tree was changed, and its links. -/
structure Relinked (inos : List Nat) (dirs : Set Nat) (b : Nat) (v v' : VDisk) : Prop where
  finite : dirs.Finite
  mem : ∀ d ∈ dirs, d ∈ inos
  named : ∀ d ∈ dirs, ∀ n c, v.names d n c → c ∈ inos
  target : b ∈ dirs
  isdir : (v.inode b).isdir = true
  same : ∀ i ∈ inos, (v'.inode i).isdir = (v.inode i).isdir
  inode : ∀ i ∈ inos, i ≠ b → v'.inode i = v.inode i

section Steps

variable {v v' : VDisk} {inos : List Nat} {dirs : Set Nat} {b i x : Nat} {n : List UInt8}

theorem VDisk.Linked.but (h : v.Linked inos dirs) (x : Nat) : v.LinkedBut inos dirs x 0 where
  directory := h.directory
  file i hi hfile := by
    rw [ite_self]
    exact h.file i hi hfile

theorem VDisk.LinkedBut.all (h : v.LinkedBut inos dirs x 0) : v.Linked inos dirs where
  directory := h.directory
  file i hi hfile := by
    have hlinks := h.file i hi hfile
    rwa [ite_self] at hlinks

theorem VDisk.holders_finite (hfinite : dirs.Finite) (v : VDisk) (i : Nat) : (holders dirs v.names i).Finite :=
  (Set.Finite.biUnion hfinite fun d _ => (Set.finite_singleton d).prod (v.names_finite d)).subset fun _ hp =>
    Set.mem_biUnion hp.1 ⟨rfl, i, hp.2⟩

namespace Relinked

variable {E : Entries Nat (List UInt8)} (h : Relinked inos dirs b v v')
include h

theorem ne_target (hi : i ∈ inos) (hfile : ¬ (v'.inode i).isdir = true) : i ≠ b := by
  rintro rfl
  rw [h.same i hi] at hfile
  exact hfile h.isdir

theorem subdirs (hE : ∀ d ∈ dirs, ∀ n c, E d n c → c ∈ inos) (hnames : ∀ d ∈ dirs, ∀ n c, v'.names d n c ↔ E d n c)
    (hi : i ∈ dirs) : v'.subdirs i = Namespace.subdirs [dot] [dot, dot] (fun c => (v.inode c).isdir = true) E i :=
  subdirs_congr fun n c _ => by
    rw [hnames i hi]
    exact and_congr_right fun hc => by rw [h.same c (hE i hi n c hc)]

/-- A new entry for `x`. -/
theorem put (hl : v.LinkedBut inos dirs x 0) (hn : Ordinary [dot] [dot, dot] n) (hx : x ∈ inos) (hfree : ∀ c, ¬ v.names b n c)
    (hnames : ∀ d ∈ dirs, ∀ m c, v'.names d m c ↔ put v.names b n x d m c)
    (hnlink : (v'.inode b).nlink = if (v.inode x).isdir then (v.inode b).nlink + 1 else (v.inode b).nlink)
    (hroom : (v.inode x).isdir = true → (v.inode b).nlink.toNat + 1 < 65536) : v'.LinkedBut inos dirs x 1 := by
  have hE (d : Nat) (hd : d ∈ dirs) (m : List UInt8) (c : Nat) (hc : Namespace.put v.names b n x d m c) : c ∈ inos :=
    hc.elim (fun hc => h.named d hd m c hc.1) fun heq => heq.2.2 ▸ hx
  have hput (hdir : (v.inode x).isdir = true) : v'.subdirs b = insert n (v.subdirs b) ∧ n ∉ v.subdirs b := by
    rw [h.subdirs hE hnames h.target]
    exact subdirs_put_dir hn hfree hdir
  have hother {i : Nat} (hi : i ∈ dirs) (hne : i ≠ b ∨ ¬ (v.inode x).isdir = true) : v'.subdirs i = v.subdirs i := by
    rw [h.subdirs hE hnames hi]
    exact subdirs_put_other hne hfree
  constructor
  · intro i hi
    by_cases hib : i = b
    · subst hib
      rw [hnlink]
      by_cases hdir : (v.inode x).isdir = true
      · obtain ⟨hput, hnot⟩ := hput hdir
        rw [if_pos hdir, UInt16.toNat_succ (hroom hdir), hput, Set.ncard_insert_of_notMem hnot (v.subdirs_finite i),
          hl.directory i hi, Nat.add_right_comm]
      · rw [if_neg hdir, hother hi (.inr hdir)]
        exact hl.directory i hi
    · rw [h.inode i (h.mem i hi) hib, hother hi (.inl hib)]
      exact hl.directory i hi
  · intro i hi hfile
    have hib := h.ne_target hi hfile
    rw [h.same i hi] at hfile
    have hlinks := hl.file i hi hfile
    rw [h.inode i hi hib, holders_congr fun d hd m => hnames d hd m i]
    by_cases hix : i = x
    · subst hix
      obtain ⟨hput, hnot⟩ := holders_put_self (x := i) h.target hfree
      rw [if_pos rfl] at hlinks ⊢
      rw [hput, Set.ncard_insert_of_notMem hnot (v.holders_finite h.finite i), ← hlinks]
    · rw [if_neg hix] at hlinks ⊢
      rw [holders_put_other hix hfree]
      exact hlinks

/-- An entry for `x` less. -/
theorem drop (hl : v.LinkedBut inos dirs x 1) (hn : Ordinary [dot] [dot, dot] n) (hname : v.names b n x)
    (hone : ∀ c, v.names b n c → c = x) (hnames : ∀ d ∈ dirs, ∀ m c, v'.names d m c ↔ drop v.names b n d m c)
    (hnlink : (v'.inode b).nlink = if (v.inode x).isdir then (v.inode b).nlink - 1 else (v.inode b).nlink) :
    v'.LinkedBut inos dirs x 0 := by
  have hE (d : Nat) (hd : d ∈ dirs) (m : List UInt8) (c : Nat) (hc : Namespace.drop v.names b n d m c) : c ∈ inos :=
    h.named d hd m c hc.1
  have hdrop (hdir : (v.inode x).isdir = true) : v.subdirs b = insert n (v'.subdirs b) ∧ n ∉ v'.subdirs b := by
    rw [h.subdirs hE hnames h.target]
    exact subdirs_drop_dir hn hname hdir
  have hother {i : Nat} (hi : i ∈ dirs) (hne : i ≠ b ∨ ¬ (v.inode x).isdir = true) : v'.subdirs i = v.subdirs i := by
    rw [h.subdirs hE hnames hi]
    exact subdirs_drop_other (hne.imp_right fun hdir c hc => by rwa [hone c hc])
  constructor
  · intro i hi
    have hlinks := hl.directory i hi
    by_cases hib : i = b
    · subst hib
      rw [hnlink]
      by_cases hdir : (v.inode x).isdir = true
      · obtain ⟨hdrop, hnot⟩ := hdrop hdir
        rw [hdrop, Set.ncard_insert_of_notMem hnot (v'.subdirs_finite i), Nat.add_right_comm] at hlinks
        rw [if_pos hdir, UInt16.toNat_pred (by omega), hlinks, Nat.add_sub_cancel]
      · rw [if_neg hdir, hother hi (.inr hdir)]
        exact hlinks
    · rw [h.inode i (h.mem i hi) hib, hother hi (.inl hib)]
      exact hlinks
  · intro i hi hfile
    have hib := h.ne_target hi hfile
    rw [h.same i hi] at hfile
    have hlinks := hl.file i hi hfile
    rw [h.inode i hi hib, holders_congr fun d hd m => hnames d hd m i, ite_self]
    by_cases hix : i = x
    · subst hix
      obtain ⟨hdrop, hnot⟩ := holders_drop_self h.target hname
      have hfinite : (holders dirs (Namespace.drop v.names b n) i).Finite :=
        (v.holders_finite h.finite i).subset fun p hp => ⟨hp.1, hp.2.1⟩
      rw [if_pos rfl, hdrop, Set.ncard_insert_of_notMem hnot hfinite] at hlinks
      exact Nat.succ.inj hlinks
    · rw [if_neg hix] at hlinks
      rw [holders_drop_other fun hc => hix (hone i hc)]
      exact hlinks

/-- Another parent. -/
theorem reparent {p : Nat} (hl : v.LinkedBut inos dirs x 0) (hp : p ∈ inos) (hpdir : (v.inode p).isdir = true)
    (hup : ∀ c, v.names b [dot, dot] c → (v.inode c).isdir = true)
    (hnames : ∀ d ∈ dirs, ∀ m c, v'.names d m c ↔ Namespace.put v.names b [dot, dot] p d m c)
    (hnlink : (v'.inode b).nlink = (v.inode b).nlink) : v'.LinkedBut inos dirs x 0 := by
  have hE (d : Nat) (hd : d ∈ dirs) (m : List UInt8) (c : Nat) (hc : Namespace.put v.names b [dot, dot] p d m c) : c ∈ inos :=
    hc.elim (fun hc => h.named d hd m c hc.1) fun heq => heq.2.2 ▸ hp
  constructor
  · intro i hi
    have hsubdirs : v'.subdirs i = v.subdirs i := by
      rw [h.subdirs hE hnames hi]
      exact subdirs_congr fun m c hm => and_congr_left fun _ => put_of_ne (.inr hm.2)
    have hlinks : (v'.inode i).nlink = (v.inode i).nlink := by
      by_cases hib : i = b
      · rw [hib, hnlink]
      · rw [h.inode i (h.mem i hi) hib]
    rw [hlinks, hsubdirs]
    exact hl.directory i hi
  · intro i hi hfile
    have hib := h.ne_target hi hfile
    rw [h.same i hi] at hfile
    have hholders : holders dirs v'.names i = holders dirs v.names i := by
      refine holders_congr fun d hd m => (hnames d hd m i).trans ?_
      by_cases heq : d = b ∧ m = [dot, dot]
      · obtain ⟨rfl, rfl⟩ := heq
        rw [put_same]
        exact iff_of_false (fun heq => hfile (heq ▸ hpdir)) fun hc => hfile (hup i hc)
      · exact put_of_ne (not_and_or.mp heq)
    rw [h.inode i hi hib, hholders]
    exact hl.file i hi hfile

end Relinked

end Steps

section Removal

variable {v v' : VDisk} {inos free free' : List Nat} {dirs : Set Nat} {b i y : Nat} {name : List UInt8}

/-- The link counts without a name. -/
theorem Deallocated.linked (hgone : Deallocated inos free b y (direntFilename name) v v' free') (h : v.Hierarchy inos dirs)
    (hw : WellFormed v inos free) (hl : v.Linked inos dirs) (hb : b ∈ dirs) (hname : v.names b (direntFilename name) y) (hfreed : v.Removable b name) :
    v'.Linked inos (dirs \ v.bearers b name) := by
  have hmem {i : Nat} (hi : i ∈ dirs) : i ∈ inos := (h.sound i hi).mem
  have hnamed {i : Nat} (hi : i ∈ dirs) {n : List UInt8} {c : Nat} (hc : v.names i n c) : c ∈ inos :=
    (h.sound i hi).named _ hc
  have hbearers := h.bearers hb hname
  have hyb := h.bearer_ne hb hfreed hname
  have hplain := h.plain hb hfreed
  have hisdir {i : Nat} (hi : i ∈ inos) : (v'.inode i).isdir = (v.inode i).isdir := hgone.confined.isdir_mem hw hi
  have hinode {i : Nat} (hi : i ∈ inos) (hib : i ≠ b) (hiy : i ≠ y) : v'.inode i = v.inode i :=
    hgone.confined.inode hw (fun hmem => hmem.elim hib fun heq => hiy (Set.mem_singleton_iff.mp heq)) hi
  have hsubdirs {i : Nat} (hi : i ∈ dirs \ v.bearers b name) : v'.subdirs i = Namespace.subdirs [dot] [dot, dot]
      (fun c => (v.inode c).isdir = true) (drop v.names b (direntFilename name)) i := by
    refine subdirs_congr fun n c _ => ?_
    rw [hgone.names h hw hb hname hi]
    exact and_congr_right fun hc => by rw [hisdir (hnamed hi.1 hc.1)]
  have hdrop (hdir : (v.inode y).isdir = true) : v.subdirs b = insert (direntFilename name) (Namespace.subdirs [dot] [dot, dot]
      (fun c => (v.inode c).isdir = true) (drop v.names b (direntFilename name)) b) ∧
      direntFilename name ∉ Namespace.subdirs [dot] [dot, dot] (fun c => (v.inode c).isdir = true)
        (drop v.names b (direntFilename name)) b := subdirs_drop_dir hplain hname hdir
  have hother {i : Nat} (hne : i ≠ b ∨ ¬ (v.inode y).isdir = true) : Namespace.subdirs [dot] [dot, dot]
      (fun c => (v.inode c).isdir = true) (drop v.names b (direntFilename name)) i = v.subdirs i :=
    subdirs_drop_other (hne.imp_right fun hdir c hc => by rwa [h.tree.one b hb _ y c hname hc])
  constructor
  · intro i hi
    have hiy : i ≠ y := fun heq => hi.2 (hbearers ▸ heq)
    have hlinks := hl.directory i hi.1
    rw [hsubdirs hi]
    by_cases hib : i = b
    · subst hib
      rw [hgone.nlink]
      by_cases hdir : (v.inode y).isdir = true
      · obtain ⟨hdrop, hnot⟩ := hdrop hdir
        rw [hdrop, Set.ncard_insert_of_notMem hnot ((v.subdirs_finite i).subset (by rw [hdrop]; exact Set.subset_insert _ _)),
          Nat.add_right_comm] at hlinks
        rw [if_pos hdir, UInt16.toNat_pred (by omega), hlinks, Nat.add_sub_cancel]
      · rw [if_neg hdir, hother (.inr hdir)]
        exact hlinks
    · rw [hinode (hmem hi.1) hib hiy, hother (.inl hib)]
      exact hlinks
  · intro i hi hfile
    rw [hisdir hi] at hfile
    have hib : i ≠ b := fun heq => hfile (heq ▸ h.tree.isdir b hb)
    have hholders : holders (dirs \ v.bearers b name) v'.names i = holders dirs (drop v.names b (direntFilename name)) i := by
      refine Set.ext fun p => ⟨fun hp => ⟨hp.1.1, (hgone.names h hw hb hname hp.1).mp hp.2⟩, fun hp => ?_⟩
      have hmem : p.1 ∈ dirs \ v.bearers b name := by
        refine ⟨hp.1, fun hbear => ?_⟩
        -- a directory that goes has no entries for files
        obtain ⟨-, -, hleaf⟩ := h.leaf hb hfreed hbear (h.tree.isdir _ hp.1)
        by_cases hn : Ordinary [dot] [dot, dot] p.2
        · exact hleaf _ i hn hp.2.1
        · exact hfile (h.tree.isdir i (h.tree.mem_of_not_ordinary hp.1 hn hp.2.1))
      exact ⟨hmem, (hgone.names h hw hb hname hmem).mpr hp.2⟩
    have hlinks := hl.file i hi hfile
    rw [hholders]
    by_cases hiy : i = y
    · subst hiy
      obtain ⟨hdrop, hnot⟩ := holders_drop_self hb hname
      rw [hdrop, Set.ncard_insert_of_notMem hnot ((v.holders_finite h.finite i).subset (by
        rw [hdrop]
        exact Set.subset_insert _ _))] at hlinks
      rw [hgone.nlinkGone, Dinode.unlinked, if_neg hfile, if_pos (UInt16.lt_iff_toNat_lt.mpr (by rw [hlinks]; exact Nat.succ_pos _)),
        UInt16.toNat_pred (by rw [hlinks]; exact Nat.succ_pos _), hlinks, Nat.add_sub_cancel]
    · rw [hinode hi hib hiy, holders_drop_other fun hc => hiy (h.tree.one b hb _ y i hname hc)]
      exact hlinks

end Removal

end Ufs370
