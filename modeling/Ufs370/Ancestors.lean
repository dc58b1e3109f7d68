import Ufs370.Deallocation
import Ufs370.Rename

/-! The way of `can_dirmove` from the destination of a directory up to the root. -/

namespace Ufs370

open Lib Lib.IndexForest Lib.IndexLayout Lib.Namespace

/-- A directory whose entries have one name each and lead to inodes with accepted numbers. -/
structure SoundDirectory (inos : List Nat) (v : VDisk) (d : Nat) : Prop where
  mem : d ∈ inos
  isdir : (v.inode d).isdir = true
  whole : direntSize ∣ v.filesize d
  named : ∀ e ∈ v.dirents d, e.inodeNumber ∈ inos
  sane : ∀ e ∈ v.dirents d, inodeNumberSanity v e.inodeNumber = .ok
  apart : Apart (v.dirents d)

/-- The directories `dirs` form a tree, and no other directory has a name in it. -/
structure VDisk.Hierarchy (v : VDisk) (inos : List Nat) (dirs : Set Nat) : Prop where
  sound : ∀ d ∈ dirs, SoundDirectory inos v d
  tree : Tree [dot] [dot, dot] (fun i => (v.inode i).isdir = true) rootInode dirs v.names

section Sound

variable {v v' : VDisk} {d p q x : Nat} {inos free free' : List Nat} {S : Set Nat} {dirs : Set Nat}

theorem SoundDirectory.opened (h : SoundDirectory inos v d) (huse : 0 < v.uses d) : OpenDirectory inos v d :=
  ⟨h.mem, huse, h.isdir, h.whole, h.named, h.apart⟩

theorem OpenDirectory.sound (h : OpenDirectory inos v d) (hsane : ∀ e ∈ v.dirents d, inodeNumberSanity v e.inodeNumber = .ok) :
    SoundDirectory inos v d := ⟨h.mem, h.isdir, h.whole, h.named, hsane, h.apart⟩

theorem SoundDirectory.confined (h : SoundDirectory inos v d) (hw : WellFormed v inos free) (hd : d ∉ S)
    (hc : Confined inos S v v' free') : SoundDirectory inos v' d where
  mem := h.mem
  isdir := (hc.isdir_mem hw h.mem).trans h.isdir
  whole := by
    rw [hc.filesize hw hd h.mem]
    exact h.whole
  named := by
    rw [hc.dirents hw hd h.mem]
    exact h.named
  sane e he := by
    rw [hc.dirents hw hd h.mem] at he
    rw [hc.spares.layout.numberSanity]
    exact h.sane e he
  apart := by
    rw [hc.dirents hw hd h.mem]
    exact h.apart

/-- The disk with one handle, for an inode that is as on the disk. -/
def VDisk.alone (v : VDisk) (p : Nat) : VDisk := { v with minodes := [⟨p, false, 0, none, v.slot p⟩] }

theorem alone_inode (hc : v.Coherent) (hi : InodeNumber v q) : (v.alone p).inode q = v.inode q := by
  have hslot : v.slot q = v.inode q := hc q hi
  rw [← hslot, VDisk.inode]
  by_cases hq : p = q
  · subst hq
    rw [show (v.alone p).minode? p = some ⟨p, false, 0, none, v.slot p⟩ from List.find?_cons_of_pos (decide_eq_true rfl)]
  · rw [show (v.alone p).minode? q = none from
      (List.find?_cons_of_neg (by rw [decide_eq_true_eq]; exact hq)).trans List.find?_nil]
    rfl

/-- A directory on the disk with its handle alone. -/
theorem SoundDirectory.alone (h : SoundDirectory inos v d) (hw : WellFormed v inos free) (hc : v.Coherent) :
    Stored (v.counts inos) {b | b ∈ v.allBlocks inos free} d (v.alone d) free ∧
      (v.alone d).filesize d = direntSize * (v.dirents d).length ∧ (v.alone d).dirents d = v.dirents d := by
  have hcount (i : Nat) (hi : v.counts inos i ≠ 0) : InodeNumber v i := hw.number i (by
    by_contra hnot
    exact hi (if_neg hnot))
  have hinode := alone_inode (p := d) hc (hw.number d h.mem)
  obtain ⟨n, hn⟩ := h.whole
  have hsize : (v.alone d).filesize d = v.filesize d := by
    rw [VDisk.filesize, hinode]
    rfl
  have halone : v.alone d = { v with minodes := (v.alone d).minodes } := rfl
  have howned := (hw.owned.setMinodes halone fun p hp => by
    rw [alone_inode hc (hcount p.1.1 (Nat.ne_of_gt (Nat.lt_of_le_of_lt (Nat.zero_le _) hp.2)))]).1
  refine ⟨⟨howned, fun i hi => ⟨(hcount i hi).pos, (hcount i hi).slot⟩, ⟨(hw.number d h.mem).pos, (hw.number d h.mem).slot⟩,
    ?_, ?_, ?_⟩, ?_, ?_⟩
  · rw [VDisk.Cached, show (v.alone d).minode? d = some ⟨d, false, 0, none, v.slot d⟩ from
      List.find?_cons_of_pos (decide_eq_true rfl)]
    rfl
  · rw [hsize, VDisk.counts, if_pos h.mem]
    rfl
  · rw [hsize]
    have hfile := (hw.size d h.mem).fileSize hw.geometry
    exact ⟨hfile.lt, hfile.addr⟩
  · rw [hsize, dirents_length hn, hn]
  · rw [dirents_eq (hsize.trans hn), dirents_eq hn]
    refine List.map_congr_left fun e _ => ?_
    change Entry.dirent (v.io.blocks ((v.alone d).fileBlock d (e / v.perBlock))) _ = _
    rw [fileBlock_congr (v := v) hinode rfl rfl]
    rfl

end Sound

section Parent

variable {v : VDisk} {d q k m n : Nat} {cnt : Nat → Nat} {all : Set Nat} {free : List Nat}

/-- The entries of a block all have accepted numbers. -/
theorem Stored.endianConvert (h : Stored cnt all d v free) (hn : v.filesize d = direntSize * n)
    (hsane : ∀ e ∈ v.dirents d, inodeNumberSanity v e.inodeNumber = .ok) (m : Nat) :
    direntEndianConvert v (v.io.blocks (v.fileBlock d m))
      (min v.blksize (v.filesize d - m * v.blksize) / direntSize) = true := by
  rw [direntEndianConvert, hn, entries_in h.owned.geometry, List.all_eq_true]
  intro j hj
  rw [List.mem_range] at hj
  have hentry := direntAt_block (v := v) (d := d) (j := j) (by omega) m
  refine decide_eq_true ?_
  change inodeNumberSanity v (Entry.dirent (v.io.blocks (v.fileBlock d m)) j).inodeNumber = .ok
  rw [hentry]
  refine hsane _ ?_
  rw [dirents_eq hn]
  exact List.mem_map_of_mem (List.mem_range.mpr (by omega))

theorem lookupParentSubr_quiet (hv : v.Live) : Steady lookupParentSubr (· = v) := by
  rintro w rfl ctx blk sz _
  simp only [lookupParentSubr, Prog.run_bind, diskGetBuf_live hv, if_true, vdiskRead_live hv, Prog.get]
  split
  · rfl
  · split <;> rfl

/-- The search finds the entry for the parent. -/
theorem Stored.lookupParent (h : Stored cnt all d v free) (hn : v.filesize d = direntSize * n)
    (hsane : ∀ e ∈ v.dirents d, inodeNumberSanity v e.inodeNumber = .ok) (hapart : Apart (v.dirents d))
    (hup : v.names d [dot, dot] q) :
    (datablockForeach lookupParentSubr d 0).run v = ((.iteratorBreak, q), v) := by
  have hquiet := lookupParentSubr_quiet h.owned.live
  have hdots : direntFilename [dot, dot] = [dot, dot] := by decide
  have hskip (m : Nat) (hnone : ∀ j, j < v.perBlock → m * v.perBlock + j < n →
      ¬ (v.direntAt d (m * v.perBlock + j)).name = direntFilename [dot, dot]) (_ : m * v.blksize < v.filesize d) :
      (lookupParentSubr 0 (v.fileBlock d m) (min v.blksize (v.filesize d - m * v.blksize))).run v = ((.ok, 0), v) := by
    have hscan := h.find_none (P := fun e => e.name = direntFilename [dot, dot]) hn hnone
    simp only [lookupParentSubr, Prog.run_bind, diskGetBuf_live h.owned.live, if_true, vdiskRead_live h.owned.live,
      h.endianConvert hn hsane m, Bool.not_true, Bool.false_eq_true, if_false, removeScan_eq, hscan]
    rfl
  obtain ⟨k, hk, hentry⟩ := List.getElem_of_mem hup
  obtain ⟨hlt, hget⟩ := getElem_dirents hn (h := hk)
  rw [hget] at hentry
  have hname : (v.direntAt d k).name = direntFilename [dot, dot] := by rw [hentry, hdots]
  have hfirst (e : Nat) (he : e < k) : ¬ (v.direntAt d e).name = direntFilename [dot, dot] := fun heq => by
    have hlt' : e < (v.dirents d).length := Nat.lt_trans he hk
    have hget' := (getElem_dirents hn (h := hlt')).2
    have hsame := hapart.eq (List.getElem_mem hk) (List.getElem_mem hlt') (by rw [hget, hget', hname, heq])
    exact Nat.ne_of_lt he ((List.Nodup.getElem_inj_iff hapart.nodup).mp hsame)
  have hscan := h.find_first (P := fun e => e.name = direntFilename [dot, dot]) hn hlt hname hfirst
  have hnumber : Entry.inodeNumber (v.io.blocks (v.fileBlock d (k / v.perBlock))) (k % v.perBlock) = q := by
    change (v.direntAt d k).inodeNumber = q
    rw [hentry]
  refine h.foreach_first (P := fun e => e.name = direntFilename [dot, dot]) hn hquiet hskip hlt hfirst ?_ (by decide)
  simp only [lookupParentSubr, Prog.run_bind, diskGetBuf_live h.owned.live, if_true, vdiskRead_live h.owned.live,
    h.endianConvert hn hsane, Bool.not_true, Bool.false_eq_true, if_false, removeScan_eq, hscan, hnumber]
  rfl

end Parent

section Climb

variable {v : VDisk} {d p q x : Nat} {inos free : List Nat} {dirs : Set Nat}

/-- The parent of a directory that is not in the cache. -/
theorem SoundDirectory.lookupParent (h : SoundDirectory inos v d) (hw : WellFormed v inos free) (hc : v.Coherent)
    (hup : v.names d [dot, dot] q) :
    (withLoaded ⟨d, false, 0, none, v.slot d⟩ (datablockForeach lookupParentSubr d 0)).run v = ((.iteratorBreak, q), v) := by
  obtain ⟨hstored, hsize, hdirents⟩ := h.alone hw hc
  have hrun := hstored.lookupParent hsize (by rw [hdirents]; exact h.sane) (by rw [hdirents]; exact h.apart) (q := q) (by
    rw [VDisk.names, hdirents]
    exact hup)
  have hfind : (datablockForeach lookupParentSubr d 0).run
      { v with minodes := [⟨d, false, 0, none, v.slot d⟩] } = ((.iteratorBreak, q), v.alone d) := hrun
  simp only [withLoaded, Prog.run_bind, Prog.get, hfind, Prog.run_pure]
  rfl

/-- One round of the loop of `can_dirmove`. -/
theorem SoundDirectory.dirmoveLoop_step (h : SoundDirectory inos v d) (hw : WellFormed v inos free) (hc : v.Coherent)
    (hup : v.names d [dot, dot] p) (fuel : Nat) :
    (dirmoveLoop x (fuel + 1) ⟨d, false, 0, none, v.slot d⟩).run v =
      if p = x then (some .einval, v)
      else if p ≠ rootInode then (dirmoveLoop x fuel ⟨p, false, 0, none, v.slot p⟩).run v
      else (some .ok, v) := by
  have hp := hw.number p (h.named _ hup)
  have hpos : p ≠ 0 := Nat.ne_of_gt hp.pos
  simp only [dirmoveLoop, Prog.run_bind, h.lookupParent hw hc hup, hpos, if_false,
    inodeLoad_live hw.geometry hw.live hp, Prog.run_ite, Prog.run_pure]

theorem SoundDirectory.canDirmove_eq (h : SoundDirectory inos v d) (hw : WellFormed v inos free) (hc : v.Coherent) (fuel : Nat) :
    (canDirmove fuel x d).run v = (dirmoveLoop x fuel ⟨d, false, 0, none, v.slot d⟩).run v := by
  have hnum := hw.number d h.mem
  have hdir : (v.slot d).isdir = true := by
    rw [show v.slot d = v.inode d from hc d hnum]
    exact h.isdir
  simp only [canDirmove, Prog.run_bind, inodeLoad_live hw.geometry hw.live hnum, hdir, Bool.not_true, Bool.false_eq_true,
    if_false]

/-- A directory that is its own parent is gone round for ever. -/
theorem SoundDirectory.canDirmove_endless (h : SoundDirectory inos v d) (hw : WellFormed v inos free) (hc : v.Coherent)
    (hup : v.names d [dot, dot] d) (hne : d ≠ x) (hroot : d ≠ rootInode) (fuel : Nat) :
    (canDirmove fuel x d).run v = (none, v) := by
  rw [h.canDirmove_eq hw hc]
  induction fuel with
  | zero => rfl
  | succ fuel ih => rw [h.dirmoveLoop_step hw hc hup, if_neg hne, if_pos hroot, ih]

/-- What the loop of `can_dirmove` comes to. -/
structure Climbed (v : VDisk) (x d : Nat) (rc : Rc) : Prop where
  found : Above [dot, dot] v.names x d → rc = .einval
  clear : ¬ Above [dot, dot] v.names x d → rc = .ok

variable (h : v.Hierarchy inos dirs) (hw : WellFormed v inos free) (hc : v.Coherent)
include h hw hc

/-- The loop ends, with an error if it comes by inode `x`. -/
theorem dirmoveLoop_run (x : Nat) (hd : d ∈ dirs) : ∃ n, ∀ fuel, n ≤ fuel → ∃ rc,
    (dirmoveLoop x fuel ⟨d, false, 0, none, v.slot d⟩).run v = (some rc, v) ∧ Climbed v x d rc := by
  -- a round that comes to the root is the last one
  have hlast {c : Nat} (hmem : c ∈ dirs) (hup : v.names c [dot, dot] rootInode) (fuel : Nat) : ∃ rc,
      (dirmoveLoop x (fuel + 1) ⟨c, false, 0, none, v.slot c⟩).run v = (some rc, v) ∧ Climbed v x c rc := by
    rw [(h.sound c hmem).dirmoveLoop_step hw hc hup]
    by_cases hx : rootInode = x
    · rw [if_pos hx]
      exact ⟨.einval, rfl, fun _ => rfl, fun hnot => absurd (above_iff.mpr ⟨_, hup, .inl hx⟩) hnot⟩
    · rw [if_neg hx, if_neg (not_not.mpr rfl)]
      refine ⟨.ok, rfl, fun habove => ?_, fun _ => rfl⟩
      obtain ⟨p, hp, hcase⟩ := above_iff.mp habove
      rw [h.tree.one c hmem _ _ _ hup hp] at hcase
      exact absurd (hcase.elim id fun habove => (h.tree.above_root habove).symm) hx
  suffices key : ∀ c, Relation.ReflTransGen (fun c p => v.names c [dot, dot] p) c rootInode → c ∈ dirs → ∃ n, ∀ fuel, n ≤ fuel →
      ∃ rc, (dirmoveLoop x fuel ⟨c, false, 0, none, v.slot c⟩).run v = (some rc, v) ∧ Climbed v x c rc from
    key d (h.tree.rooted d hd) hd
  intro c hpath
  induction hpath using Relation.ReflTransGen.head_induction_on with
  | refl =>
    refine fun hmem => ⟨1, fun fuel hfuel => ?_⟩
    obtain ⟨k, rfl⟩ := Nat.exists_eq_add_of_le' hfuel
    exact hlast hmem h.tree.top k
  | @head c p hup _ ih =>
    intro hmem
    obtain ⟨n, hn⟩ := ih (h.tree.up_mem hmem hup)
    refine ⟨n + 1, fun fuel hfuel => ?_⟩
    obtain ⟨k, rfl⟩ := Nat.exists_eq_add_of_le' hfuel
    rw [← Nat.add_assoc]
    by_cases hroot : p = rootInode
    · exact hlast hmem (hroot ▸ hup) (k + n)
    rw [(h.sound c hmem).dirmoveLoop_step hw hc hup]
    by_cases hx : p = x
    · rw [if_pos hx]
      exact ⟨.einval, rfl, fun _ => rfl, fun hnot => absurd (above_iff.mpr ⟨p, hup, .inl hx⟩) hnot⟩
    · rw [if_neg hx, if_pos hroot]
      obtain ⟨rc, hrun, hrc⟩ := hn (k + n) (Nat.le_add_left ..)
      refine ⟨rc, hrun, fun habove => hrc.found ?_, fun hnot => hrc.clear fun habove =>
        hnot (above_iff.mpr ⟨p, hup, .inr habove⟩)⟩
      obtain ⟨q, hq, hcase⟩ := above_iff.mp habove
      rw [h.tree.one c hmem _ _ _ hup hq] at hcase
      exact hcase.resolve_left hx

/-- `can_dirmove` ends, with an error if inode `x` is above directory `d`. -/
theorem canDirmove_run (x : Nat) (hd : d ∈ dirs) : ∃ n, ∀ fuel, n ≤ fuel → ∃ rc,
    (canDirmove fuel x d).run v = (some rc, v) ∧ Climbed v x d rc := by
  obtain ⟨n, hn⟩ := dirmoveLoop_run h hw hc x hd
  refine ⟨n, fun fuel hfuel => ?_⟩
  obtain ⟨rc, hrun, hrc⟩ := hn fuel hfuel
  exact ⟨rc, by rw [(h.sound d hd).canDirmove_eq hw hc, hrun], hrc⟩

end Climb

end Ufs370
