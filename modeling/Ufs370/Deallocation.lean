import Ufs370.Creation
import Ufs370.DirectoryRuns
import Ufs370.Naming

/-! What `ufs_file_deallocate` takes away: an entry, and what is in a directory that it leads to. -/

namespace Ufs370

open Lib Lib.IndexForest Lib.IndexLayout

/-- The handles agree with the disk. -/
def VDisk.Coherent (v : VDisk) : Prop := ∀ i, InodeNumber v i → v.InSlot i

/-- From `v` to `v'` no file of `inos` changed in size or in a byte. -/
def FilesKept (inos : List Nat) (v v' : VDisk) : Prop :=
  ∀ i ∈ inos, ¬ (v.inode i).isdir = true → v'.content i = v.content i

/-- From `v` to `v'` only inodes of `S` were changed, and of a file at most the links. -/
structure Confined (inos : List Nat) (S : Set Nat) (v v' : VDisk) (free' : List Nat) : Prop where
  wellFormed : WellFormed v' inos free'
  coherent : v'.Coherent
  held : Held v [] v'
  spares : Spares S (v.counts inos) v v'
  sb : ∃ n f t m, v'.sb = { v.sb with nfreeblock := n, freeblock := f, totalFreeblock := t, modified := m }
  mode : ∀ i, InodeNumber v i → (v'.inode i).mode = (v.inode i).mode
  files : FilesKept inos v v'

/-- The link count of an inode that lost a name. -/
def Dinode.unlinked (d : Dinode) : UInt16 := if d.isdir then 0 else if 0 < d.nlink then d.nlink - 1 else d.nlink

/-- An inode that `ufs_file_deallocate` refuses to take the name from: a directory under the name `.` or `..` or with more
than these. -/
def Dinode.Stuck (d : Dinode) (name : List UInt8) : Prop :=
  d.isdir = true ∧ (direntFilename name = [dot, dot] ∨ direntFilename name = [dot] ∨
    0 < d.filesize.toNat ∧ d.filesize.toNat ≠ direntSize * 2)

theorem Beside.mode {cnt : Nat → Nat} {v v' : VDisk} {d i : Nat} (h : Beside cnt d v v') (hnum : InodeNumber v i) :
    (v'.inode i).mode = (v.inode i).mode := by
  by_cases hid : i = d
  · obtain ⟨_, _, _, hown⟩ := h.own
    rw [hid, hown]
  · rw [h.inode i hid hnum]

section Confined

variable {v v' v'' : VDisk} {inos free free' free'' : List Nat} {S T : Set Nat} {d i : Nat}

theorem VDisk.Coherent.tended (h : v.Coherent) (hone : v.OneHandle) (hroom : v.Room) : Tended v where
  oneHandle := hone
  room := hroom
  idle i hi _ := h i hi

theorem Spares.coherent {cnt : Nat → Nat} (h : Spares S cnt v v') (hc : v.Coherent) (hS : ∀ i ∈ S, v'.InSlot i) :
    v'.Coherent := fun i hi => by
  by_cases hmem : i ∈ S
  · exact hS i hmem
  · have hi' := h.layout.symm.inodeNumber hi
    rw [VDisk.InSlot, h.slot i hmem hi', h.inode i hmem hi']
    exact hc i hi'

/-- The bytes of an inode that was let be. -/
theorem Spares.content (h : Spares S (v.counts inos) v v') (hw : WellFormed v inos free) (hi : i ∉ S) (hmem : i ∈ inos) :
    v'.content i = v.content i := by
  have hcounts : v.counts inos i = v.blockCount i := if_pos hmem
  have hsize : v'.filesize i = v.filesize i := by
    rw [VDisk.filesize, h.inode i hi (hw.number i hmem)]
    rfl
  rw [VDisk.content, VDisk.content, hsize]
  refine List.map_congr_left fun k hk => ?_
  have hlt : k / v.blksize < v.counts inos i := by
    rw [hcounts]
    exact (lt_ceil hw.geometry.blockSize.pos).mpr (block_start_lt (List.mem_range.mp hk))
  obtain ⟨hblock, hdata⟩ := h.data i hi _ hlt (Nat.lt_of_lt_of_le hlt (hcounts ▸ hw.le_maxBlocks hmem))
  rw [VDisk.fileByte, VDisk.fileByte, h.layout.blksize, hblock, hdata]

theorem SameView.content (h : SameView v v') : v'.content = v.content := by
  have hblocks : v'.io = v.io := by rw [h.same]
  have hblksize : v'.blksize = v.blksize := by rw [h.same]
  funext i
  rw [VDisk.content, VDisk.content, h.filesize]
  refine List.map_congr_left fun k _ => ?_
  rw [VDisk.fileByte, VDisk.fileByte, hblksize, h.fileBlock, hblocks]

theorem Spares.filesKept (h : Spares S (v.counts inos) v v') (hw : WellFormed v inos free)
    (hS : ∀ i ∈ S, i ∈ inos → (v.inode i).isdir = true) : FilesKept inos v v' := fun i hi hfile =>
  h.content hw (fun hmem => hfile (hS i hmem hi)) hi

theorem FilesKept.trans (h : FilesKept inos v v') (hdir : ∀ i ∈ inos, (v'.inode i).isdir = (v.inode i).isdir)
    (h' : FilesKept inos v' v'') : FilesKept inos v v'' := fun i hi hfile => by
  rw [h' i hi (by rwa [hdir i hi]), h i hi hfile]

theorem SameView.filesKept (h : SameView v v') : FilesKept inos v v' := fun i _ _ => by rw [h.content]

theorem SameView.confined (h : SameView v v') (hw : WellFormed v inos free) (hc : v.Coherent) (hheld : Held v [] v') :
    Confined inos S v v' free where
  wellFormed := h.wellFormed hw
  coherent i hi := h.inSlot.mpr (hc i (h.number.mp hi))
  held := hheld
  spares := h.spares S _
  sb := ⟨_, _, _, _, by rw [h.same]⟩
  mode i _ := by rw [h.inode]
  files := h.filesKept

theorem Confined.mono (hST : S ⊆ T) (h : Confined inos S v v' free') : Confined inos T v v' free' :=
  ⟨h.wellFormed, h.coherent, h.held, h.spares.mono hST, h.sb, h.mode, h.files⟩

theorem Confined.counts (h : Confined inos S v v' free') (hw : WellFormed v inos free) (hi : i ∉ S) :
    v'.counts inos i = v.counts inos i := counts_other h.spares hi hw.number Iff.rfl

theorem Confined.trans (hw : WellFormed v inos free) (h : Confined inos S v v' free') (h' : Confined inos S v' v'' free'') :
    Confined inos S v v'' free'' where
  wellFormed := h'.wellFormed
  coherent := h'.coherent
  held := h.held.trans h'.held
  spares := h.spares.trans (fun _ hi => h.counts hw hi) h'.spares
  sb := by
    obtain ⟨_, _, _, _, hsb⟩ := h.sb
    obtain ⟨_, _, _, _, hsb'⟩ := h'.sb
    exact ⟨_, _, _, _, by rw [hsb', hsb]⟩
  mode i hi := (h'.mode i (h.spares.layout.inodeNumber hi)).trans (h.mode i hi)
  files := h.files.trans (fun i hi => by rw [Dinode.isdir, Dinode.isdir, h.mode i (hw.number i hi)]) h'.files

theorem Confined.isdir (h : Confined inos S v v' free') (hi : InodeNumber v i) : (v'.inode i).isdir = (v.inode i).isdir := by
  rw [Dinode.isdir, Dinode.isdir, h.mode i hi]

theorem Confined.inode (h : Confined inos S v v' free') (hw : WellFormed v inos free) (hi : i ∉ S) (hmem : i ∈ inos) :
    v'.inode i = v.inode i := h.spares.inode i hi (hw.number i hmem)

theorem Confined.filesize (h : Confined inos S v v' free') (hw : WellFormed v inos free) (hi : i ∉ S) (hmem : i ∈ inos) :
    v'.filesize i = v.filesize i := by
  rw [VDisk.filesize, h.inode hw hi hmem]
  rfl

theorem Confined.dirents (h : Confined inos S v v' free') (hw : WellFormed v inos free) (hi : i ∉ S) (hmem : i ∈ inos) :
    v'.dirents i = v.dirents i :=
  h.spares.dirents hw.geometry hi (hw.number i hmem) (if_pos hmem)
    (by rw [VDisk.counts, if_pos hmem]; exact hw.le_maxBlocks hmem)

theorem Confined.isdir_mem (h : Confined inos S v v' free') (hw : WellFormed v inos free) (hmem : i ∈ inos) :
    (v'.inode i).isdir = (v.inode i).isdir := h.isdir (hw.number i hmem)

theorem Confined.room (h : Confined inos S v v' free') {k : Nat} (hroom : ∀ i, v.uses i + k < 65536) (i : Nat) :
    v'.uses i + k < 65536 := by
  rw [h.held.uses]
  exact hroom i

theorem Confined.cached (h : Confined inos S v v' free') (huse : 0 < v.uses i) : v'.Cached i :=
  cached_of_uses (by rw [h.held.uses]; exact huse)

/-- An update between the two references of a call. -/
theorem Confined.between {v₁ w : VDisk} (h : Confined inos S v₁ v' free') (hw : WellFormed v inos free) (s : SameView v v₁)
    (s' : SameView v' w) (hheld : Held v [] w) : Confined inos S v w free' := by
  have hspares : Spares S (v.counts inos) v v' :=
    (s.spares _ _).trans (fun i hi => counts_other (s.spares _ (v.counts inos)) hi hw.number Iff.rfl) h.spares
  refine ⟨s'.wellFormed h.wellFormed, fun i hi => s'.inSlot.mpr (h.coherent i (s'.number.mp hi)), hheld,
    hspares.trans (fun i hi => counts_other hspares hi hw.number Iff.rfl) (s'.spares _ _), ?_, fun i hi => ?_,
    fun i hi hfile => ?_⟩
  · obtain ⟨_, _, _, _, hsb⟩ := h.sb
    exact ⟨_, _, _, _, by rw [s'.same, hsb, s.same]⟩
  · rw [s'.inode, h.mode i (s.number.mpr hi), s.inode]
  · rw [s'.content, h.files i hi (by rwa [s.inode]), s.content]

theorem Relisted.confined {es : List Dirent} {l : UInt16} (h : Relisted (v.counts inos) {b | b ∈ v.allBlocks inos free} d es l v v' free')
    (hw : WellFormed v inos free) (hd : d ∈ inos) (hdir : (v.inode d).isdir = true) (hsize : SizeOk v (direntSize * es.length))
    (hc : v.Coherent) (hheld : Held v [] v') : Confined inos {d} v v' free' where
  wellFormed := h.wellFormed hw hd hsize
  coherent := h.beside.spares.coherent hc fun i hi => by
    rw [Set.mem_singleton_iff.mp hi]
    exact h.inSlot (hc d (hw.number d hd))
  held := hheld
  spares := h.beside.spares
  sb := h.beside.sb
  mode _ hi := h.beside.mode hi
  files := h.beside.spares.filesKept hw fun i hi _ => by rwa [Set.mem_singleton_iff.mp hi]

end Confined

/-! The inode. -/

section Inode

variable {v v' : VDisk} {y : Nat} {cnt : Nat → Nat} {all : Set Nat} {inos free free' : List Nat} {name : List UInt8}

/-- An inode that loses all its blocks. -/
theorem Resized.relisted_none (h : Stored cnt all y v free) (hnew : FileSize v 0) (r : Resized cnt all y 0 v free v' free') :
    Relisted cnt all y [] (v.inode y).nlink v v' free' := by
  have hsize : v'.filesize y = direntSize * 0 := r.filesize_eq h hnew
  refine ⟨r.stored h hnew, r.beside h, hsize, List.eq_nil_of_length_eq_zero (dirents_length hsize), ?_, fun hin => ?_⟩
  · obtain ⟨_, _, hown⟩ := r.own
    rw [h.cached.deref, Option.map_some] at hown
    rw [VDisk.inode_some hown, VDisk.inode_some h.cached.deref]
  · rcases r.synced with rfl | hsync
    · exact hin
    · exact hsync

theorem deallocateInode_stuck (hcached : v.Cached y) (hstuck : (v.inode y).Stuck name) :
    ∃ rc, (deallocateInode y name).run v = (rc, v) ∧ rc ≠ .ok := by
  obtain ⟨hdir, hstuck⟩ := hstuck
  by_cases hdots : direntFilename name = [dot, dot] ∨ direntFilename name = [dot]
  · exact ⟨.einval, by simp only [deallocateInode, Prog.run_bind, hcached.din, hdir, hdots, if_true, Prog.run_pure],
      Rc.noConfusion⟩
  · obtain ⟨hpos, hmore⟩ := hstuck.resolve_left (fun h => hdots (.inl h)) |>.resolve_left fun h => hdots (.inr h)
    exact ⟨.enotempty, by simp only [deallocateInode, Prog.run_bind, hcached.din, hdir, hdots, hpos, hmore, ne_eq,
      not_false_eq_true, if_true, if_false, Prog.run_pure], Rc.noConfusion⟩

/-- An inode that gives up its name: a directory loses its block and its links, another inode one link. -/
structure Unlinked (inos free : List Nat) (y : Nat) (v v' : VDisk) (free' : List Nat) : Prop where
  wellFormed : WellFormed v' inos free'
  beside : Beside (v.counts inos) y v v'
  inSlot : v'.InSlot y
  length : free.length ≤ free'.length
  nlink : (v'.inode y).nlink = (v.inode y).unlinked
  filesize : v'.filesize y = if (v.inode y).isdir then 0 else v.filesize y
  content : ¬ (v.inode y).isdir = true → v'.content y = v.content y

/-- A directory without entries, or one that the call has just emptied. -/
theorem Relisted.unlinked {free₁ : List Nat} {v₁ : VDisk} {l : UInt16} (hw : WellFormed v inos free) (hy : y ∈ inos)
    (hdir : (v.inode y).isdir = true) (h : Relisted (v.counts inos) {b | b ∈ v.allBlocks inos free} y [] l v v₁ free₁)
    (hlength : free.length ≤ free₁.length) :
    (inodeWriteback y).run (v₁.setDinode y fun d => { d with nlink := 0 }) =
        (.ok, (v₁.setDinode y fun d => { d with nlink := 0 }).writtenBack y) ∧
      Unlinked inos free y v ((v₁.setDinode y fun d => { d with nlink := 0 }).writtenBack y) free₁ := by
  have hlinked := h.relink (g := fun d => { d with nlink := 0 }) fun _ => ⟨_, rfl⟩
  have hset := SameData.setDinode (g := fun d => { d with nlink := 0 }) (fun _ => rfl) (fun _ => rfl) v₁ y
  have h₁ := h.stored.same hset
  refine ⟨writeback_run h.stored.owned h.stored.number, hlinked.wellFormed hw hy (.inl (Nat.zero_le _)), hlinked.beside,
    inSlot_back h₁.owned.geometry h₁.number h₁.cached, hlength, ?_, ?_, fun hfile => absurd hdir hfile⟩
  · rw [hlinked.nlink, Dinode.unlinked, if_pos hdir]
  · rw [hlinked.filesize, if_pos hdir]
    rfl

theorem deallocateInode_run (hw : WellFormed v inos free) (hy : y ∈ inos) (hcached : v.Cached y) (hfree : free ≠ [])
    (hfreed : ¬ (v.inode y).Stuck name) :
    ∃ v' free', (deallocateInode y name).run v = (.ok, v') ∧ Unlinked inos free y v v' free' := by
  have h := hw.stored hy hcached
  by_cases hdir : (v.inode y).isdir = true
  · rw [Dinode.Stuck, and_iff_right hdir, not_or, not_or, not_and, not_not] at hfreed
    obtain ⟨hdots, hdot, hsmall⟩ := hfreed
    have hnot : ¬ (direntFilename name = [dot, dot] ∨ direntFilename name = [dot]) := fun heq => heq.elim hdots hdot
    by_cases hpos : 0 < (v.inode y).filesize.toNat
    · have hsize := hsmall hpos
      have hnew : FileSize v 0 := SizeOk.fileSize hw.geometry (.inl (Nat.zero_le _))
      rcases datablockSizeChange_spec h.owned h.numbers h.number hcached h.count h.size hnew (by omega)
        (by rw [hsize]; decide) (fun _ => .inl hfree) with ⟨_, _, _, _, hshort, _⟩ | ⟨v₁, free₁, hrun, r⟩
      · rw [ceil_zero hw.geometry.blockSize.pos] at hshort
        exact absurd hshort (Nat.not_lt_zero _)
      have hlength := r.length
      rw [ceil_zero hw.geometry.blockSize.pos] at hlength
      obtain ⟨hback, hgone⟩ := (r.relisted_none h hnew).unlinked hw hy hdir (by
        have hnil : (placesOf v.nidx 0).length = 0 := rfl
        omega)
      refine ⟨_, free₁, ?_, hgone⟩
      simp only [deallocateInode, Prog.run_bind, hcached.din, hdir, hnot, hsize, ne_eq, not_true_eq_false, if_true, if_false,
        hrun, modifyDinode, hback, Prog.run_pure, show 0 < direntSize * 2 from by decide]
    · have hzero : v.filesize y = direntSize * 0 := Nat.eq_zero_of_not_pos hpos
      have hself := h.relisted_self hzero
      rw [List.eq_nil_of_length_eq_zero (dirents_length hzero)] at hself
      obtain ⟨hback, hgone⟩ := hself.unlinked hw hy hdir (Nat.le_refl _)
      refine ⟨_, free, ?_, hgone⟩
      simp only [deallocateInode, Prog.run_bind, hcached.din, hdir, hnot, hpos, if_true, if_false, modifyDinode, hback,
        Prog.run_pure]
  · have hg : ∀ x : Dinode, ∃ l, { x with nlink := if 0 < x.nlink then x.nlink - 1 else x.nlink } = { x with nlink := l } :=
      fun _ => ⟨_, rfl⟩
    obtain ⟨hbeside, hs, hown⟩ := h.beside_nlink hg
    have hset := SameData.setDinode (g := fun x => { x with nlink := if 0 < x.nlink then x.nlink - 1 else x.nlink })
      (fun _ => rfl) (fun _ => rfl) v y
    have h₁ := h.same hset
    refine ⟨_, free, ?_, hs.wellFormed hw, hbeside, inSlot_back h₁.owned.geometry h₁.number h₁.cached, Nat.le_refl _, ?_, ?_,
      fun _ => h.content_same hs⟩
    · simp only [deallocateInode, Prog.run_bind, hcached.din, hdir, Bool.false_eq_true, if_false, modifyDinode,
        writeback_run h.owned h.number, Prog.run_pure]
    · rw [hown, Dinode.unlinked, if_neg hdir]
    · rw [hs.filesize y (.inl hcached), if_neg hdir]

end Inode

/-! The entry. -/

/-- A directory that is in use and can be worked on. -/
structure OpenDirectory (inos : List Nat) (v : VDisk) (d : Nat) : Prop where
  mem : d ∈ inos
  used : 0 < v.uses d
  isdir : (v.inode d).isdir = true
  whole : direntSize ∣ v.filesize d
  named : ∀ e ∈ v.dirents d, e.inodeNumber ∈ inos
  apart : Apart (v.dirents d)

/-- From `v` to `v'` directory `d` got the entries `P`, `sz` bytes and `l` links. -/
structure Edited (inos : List Nat) (d : Nat) (P : Dirent → Prop) (sz : Nat) (l : UInt16) (v v' : VDisk) (free' : List Nat) :
    Prop where
  confined : Confined inos {d} v v' free'
  opened : OpenDirectory inos v' d
  entries : ∀ x, x ∈ v'.dirents d ↔ P x
  filesize : v'.filesize d = sz
  nlink : (v'.inode d).nlink = l
  room : v'.room d = v.room d

section Entries

variable {v v' : VDisk} {d i c t : Nat} {inos free free' : List Nat} {S : Set Nat} {name : List UInt8} {es : List Dirent}
  {l : UInt16}

theorem OpenDirectory.entries_eq (h : OpenDirectory inos v d) : v.filesize d = direntSize * (v.dirents d).length := by
  obtain ⟨n, hn⟩ := h.whole
  rw [dirents_length hn, hn]

theorem OpenDirectory.stored (h : OpenDirectory inos v d) (hw : WellFormed v inos free) :
    Stored (v.counts inos) {b | b ∈ v.allBlocks inos free} d v free := hw.stored h.mem (cached_of_uses h.used)

/-- A directory that was let be. -/
theorem OpenDirectory.confined (h : OpenDirectory inos v d) (hw : WellFormed v inos free) (hd : d ∉ S)
    (hc : Confined inos S v v' free') : OpenDirectory inos v' d where
  mem := h.mem
  used := by
    rw [hc.held.uses]
    exact h.used
  isdir := (hc.isdir_mem hw h.mem).trans h.isdir
  whole := by
    rw [hc.filesize hw hd h.mem]
    exact h.whole
  named := by
    rw [hc.dirents hw hd h.mem]
    exact h.named
  apart := by
    rw [hc.dirents hw hd h.mem]
    exact h.apart

theorem OpenDirectory.find (h : OpenDirectory inos v d) (hw : WellFormed v inos free) (hplain : slash ∉ name) :
    (fileLookupByName d name).run v =
      ((match (v.dirents d).find? fun e => decide (e.name = direntFilename name) with
        | some e => .ok e.inodeNumber
        | none => .error .enoent), v) := by
  have hsame : ((v.dirents d).find? fun e => decide (1 ≤ e.inodeNumber ∧ e.name = direntFilename (lookupName name))) =
      (v.dirents d).find? fun e => decide (e.name = direntFilename name) := by
    refine List.find?_congr fun e he => ?_
    rw [lookupName_plain hplain, direntFilename_idem]
    exact decide_eq_decide.mpr (and_iff_right (hw.number _ (h.named e he)).pos)
  have hrun := fileLookupByName_run (h.stored hw) h.entries_eq h.isdir name
  rw [hsame] at hrun
  exact hrun

theorem OpenDirectory.lookup (h : OpenDirectory inos v d) (hw : WellFormed v inos free) (hplain : slash ∉ name)
    (hname : v.names d (direntFilename name) c) : (fileLookupByName d name).run v = (.ok c, v) := by
  rw [h.find hw hplain]
  cases hfind : (v.dirents d).find? fun e => decide (e.name = direntFilename name) with
  | none => exact absurd (decide_eq_true rfl) (List.find?_eq_none.mp hfind _ hname)
  | some e =>
    have he := List.find?_some hfind
    rw [decide_eq_true_eq] at he
    rw [h.apart.eq hname (List.mem_of_find?_eq_some hfind) he]

theorem OpenDirectory.lookup_none (h : OpenDirectory inos v d) (hw : WellFormed v inos free) (hplain : slash ∉ name)
    (hnone : ∀ c, ¬ v.names d (direntFilename name) c) : (fileLookupByName d name).run v = (.error .enoent, v) := by
  have hfind : ((v.dirents d).find? fun e => decide (e.name = direntFilename name)) = none := by
    refine List.find?_eq_none.mpr fun e he hname => hnone e.inodeNumber ?_
    rw [VDisk.names, ← of_decide_eq_true hname]
    exact he
  rw [h.find hw hplain, hfind]

/-- A directory with a free block besides those that it may need has one free block. -/
theorem free_of_room (hw : WellFormed v inos free) {sz : Nat} (hle : v.filesize d ≤ sz)
    (hroom : (placesOf v.nidx (ceil sz v.blksize)).length < v.room d) : free ≠ [] := by
  rintro rfl
  have hmono : (placesOf v.nidx (ceil (v.filesize d) v.blksize)).length ≤ (placesOf v.nidx (ceil sz v.blksize)).length :=
    placesOf_length_mono _ (Nat.div_le_div_right (by omega))
  rw [VDisk.room, hw.list.total, List.length_nil] at hroom
  omega

theorem Relisted.edited (h : Relisted (v.counts inos) {b | b ∈ v.allBlocks inos free} d es l v v' free')
    (hw : WellFormed v inos free) (hopen : OpenDirectory inos v d) (hsize : SizeOk v (direntSize * es.length))
    (hc : v.Coherent) (hheld : Held v [] v') (hnamed : ∀ e ∈ es, e.inodeNumber ∈ inos) (hapart : Apart es)
    {P : Dirent → Prop} (hP : ∀ x, x ∈ es ↔ P x)
    (hlength : free.length + (placesOf v.nidx (v.counts inos d)).length =
      free'.length + (placesOf v.nidx (ceil (direntSize * es.length) v.blksize)).length) :
    Edited inos d P (direntSize * es.length) l v v' free' := by
  have hconfined := h.confined hw hopen.mem hopen.isdir hsize hc hheld
  refine ⟨hconfined, ⟨hopen.mem, ?_, (hconfined.isdir_mem hw hopen.mem).trans hopen.isdir, ⟨_, h.filesize⟩, ?_, ?_⟩,
    fun x => ?_, h.filesize, h.nlink, ?_⟩
  · rw [hheld.uses]
    exact hopen.used
  · rwa [h.dirents]
  · rwa [h.dirents]
  · rw [h.dirents]
    exact hP x
  · have hnidx : v'.nidx = v.nidx := by rw [VDisk.nidx, h.beside.blksize]; rfl
    rw [VDisk.room, VDisk.room, hconfined.wellFormed.list.total, hw.list.total, hnidx, h.beside.blksize, h.filesize,
      ← hlength, (hopen.stored hw).count]

/-- `ufs_directory_remove_entry` takes an entry away. -/
theorem OpenDirectory.remove (h : OpenDirectory inos v d) (hw : WellFormed v inos free) (hc : v.Coherent) (ht : Tended v)
    (hfree : free ≠ []) (hname : v.names d (direntFilename name) c) :
    ∃ v' free', (directoryRemoveEntry d name).run v = (.ok, v') ∧ Edited inos d
      (fun x => x ∈ v.dirents d ∧ x.name ≠ direntFilename name) (v.filesize d - direntSize)
      (if (v.inode c).isdir then (v.inode d).nlink - 1 else (v.inode d).nlink) v v' free' := by
  have hs := h.stored hw
  have hlen := List.length_pos_of_mem hname
  obtain ⟨n, hn⟩ := Nat.exists_eq_add_of_lt hlen
  rw [Nat.zero_add] at hn
  have hsize : v.filesize d = direntSize * (n + 1) := h.entries_eq.trans (by rw [hn])
  have hrun := directoryRemoveEntry_run hs ht h.used hsize hfree (fun e he => hw.number _ (h.named e he)) name
  cases hfind : (v.dirents d).findIdx? fun e => decide (e.name = direntFilename name) with
  | none => exact absurd (decide_eq_true rfl) (Bool.eq_false_iff.mp (List.findIdx?_eq_none_iff.mp hfind _ hname))
  | some k =>
    rw [hfind] at hrun
    obtain ⟨v', free', hrun, hlisted, -, hheld, hlength⟩ := hrun
    obtain ⟨hk, hfound, -⟩ := List.findIdx?_eq_some_iff_getElem.mp hfind
    rw [decide_eq_true_eq] at hfound
    have hentry : (v.dirents d)[k] = ⟨c, direntFilename name⟩ := h.apart.eq hname (List.getElem_mem hk) hfound
    rw [← (getElem_dirents hsize (h := hk)).2, hentry] at hlisted
    have hlen' : (swapRemove (v.dirents d) k).length = n := by rw [length_swapRemove, hn, Nat.add_sub_cancel]
    have hmem (x : Dirent) : x ∈ swapRemove (v.dirents d) k ↔ x ∈ v.dirents d ∧ x.name ≠ direntFilename name := by
      rw [h.apart.mem_swapRemove hk, hfound]
    have hsize' : v.filesize d - direntSize = direntSize * (swapRemove (v.dirents d) k).length := by
      rw [hsize, hlen', Nat.mul_succ, Nat.add_sub_cancel]
    rw [hsize']
    refine ⟨v', free', hrun, hlisted.edited hw h ?_ hc hheld (fun e he => h.named e ((hmem e).mp he).1)
      (h.apart.swapRemove hk) hmem (by rwa [hlen'])⟩
    rw [← hsize']
    exact (hw.size d h.mem).mono (Nat.sub_le ..)

/-- `ufs_directory_add_entry` adds an entry where there is room for it. -/
theorem OpenDirectory.add (h : OpenDirectory inos v d) (hw : WellFormed v inos free) (hc : v.Coherent) (ht : Tended v)
    (hsize : SizeOk v (v.filesize d + direntSize))
    (hroom : (placesOf v.nidx (ceil (v.filesize d + direntSize) v.blksize)).length ≤ v.room d) (hmem : t ∈ inos)
    (hnew : ∀ c, ¬ v.names d (direntFilename name) c) :
    ∃ v' free', (directoryAddEntry d t name).run v = (.ok, v') ∧ Edited inos d
      (fun x => x ∈ v.dirents d ∨ x = ⟨t, direntFilename name⟩) (v.filesize d + direntSize)
      (if (v.inode t).isdir then (v.inode d).nlink + 1 else (v.inode d).nlink) v v' free' := by
  have hs := h.stored hw
  have hgrown : v.filesize d + direntSize = direntSize * ((v.dirents d).length + 1) := by rw [h.entries_eq, Nat.mul_succ]
  rcases directoryAddEntry_run hs ht (fun _ => h.used) h.entries_eq (by rw [← hgrown]; exact hsize.fileSize hw.geometry)
    (hw.number t hmem) ((hw.number t hmem).lt hw.geometry) name with
    ⟨_, _, hshort, _⟩ | ⟨v', free', hrun, hlength, hlisted, -, hheld⟩
  · rw [← hgrown, hs.count] at hshort
    rw [VDisk.room, hw.list.total] at hroom
    omega
  have hlen : (v.dirents d ++ [Dirent.mk t (direntFilename name)]).length = (v.dirents d).length + 1 := by
    rw [List.length_append, List.length_singleton]
  rw [hgrown, ← hlen]
  refine ⟨v', free', hrun, hlisted.edited hw h (by rwa [hlen, ← hgrown]) hc hheld (fun e he => ?_)
    (h.apart.concat fun y hy heq => ?_) (fun x => by rw [List.mem_append, List.mem_singleton]) (by rwa [hlen])⟩
  · rcases List.mem_append.mp he with he | he
    · exact h.named e he
    · rw [List.mem_singleton.mp he]
      exact hmem
  · refine hnew y.inodeNumber ?_
    rw [VDisk.names, ← show y.name = direntFilename name from heq]
    exact hy

end Entries

/-! The call. -/

section Call

variable {v : VDisk} {d y : Nat} {inos free : List Nat} {name : List UInt8}

/-- The part of `ufs_file_deallocate` up to the entry. -/
theorem deallocate_start (h : OpenDirectory inos v d) (hw : WellFormed v inos free) (hone : v.OneHandle) (hroom : v.Room)
    (hmount : ∀ i, v.mounted i = none) (hplain : slash ∉ name) (hname : v.names d (direntFilename name) y) :
    ∃ v₁, Taken y v v₁ ∧ Held v [y] v₁ ∧ (fileDeallocate d name).run v = ((do
      let error ← deallocateInode y name
      let error ← if error ≠ .ok then pure error else directoryRemoveEntry d name
      inodeRel y
      return error : Prog VDisk Rc).run v₁) := by
  obtain ⟨v₁, hget, htaken⟩ := inodeGet_live hw.geometry hw.live (hw.number y (h.named _ hname))
  have hnone : (v₁.deref y).mountedVdisk = none := by
    rw [VDisk.deref_some htaken.own, ← mounted_eq_loaded]
    exact hmount y
  refine ⟨v₁, htaken, (Held.refl hone).taken hroom (by decide) htaken, ?_⟩
  simp only [fileDeallocate, Prog.run_bind, h.lookup hw hplain hname, hget, hnone, Option.isSome_none, Bool.false_eq_true,
    if_false]

/-- A name that is not taken away. -/
theorem fileDeallocate_stuck (h : OpenDirectory inos v d) (hw : WellFormed v inos free) (hc : v.Coherent) (hone : v.OneHandle)
    (hroom : v.Room) (hmount : ∀ i, v.mounted i = none) (hplain : slash ∉ name) (hname : v.names d (direntFilename name) y)
    (hstuck : (v.inode y).Stuck name) :
    ∃ rc v', (fileDeallocate d name).run v = (rc, v') ∧ rc ≠ .ok ∧ SameView v v' ∧ Held v [] v' := by
  obtain ⟨v₁, htaken, hheld, hrun⟩ := deallocate_start h hw hone hroom hmount hplain hname
  have s₁ := SameView.of_taken htaken
  obtain ⟨rc, hstop, hrc⟩ := deallocateInode_stuck (v := v₁) htaken.cached (by rw [s₁.inode]; exact hstuck)
  obtain ⟨v₂, hrel, hreleased⟩ := inodeRel_run htaken.cached
  have s₂ := SameView.of_released hheld.oneHandle htaken.cached
    (fun _ => s₁.inSlot.mpr (hc y (hw.number y (h.named _ hname)))) hreleased
  refine ⟨rc, v₂, ?_, hrc, s₁.trans s₂, hheld.released hreleased⟩
  rw [hrun]
  simp only [Prog.run_bind, hstop, ne_eq, hrc, not_false_eq_true, if_true, Prog.run_pure, hrel]

/-- From `v` to `v'` the name of inode `y` in directory `d` was taken away. -/
structure Deallocated (inos free : List Nat) (d y : Nat) (name : List UInt8) (v v' : VDisk) (free' : List Nat) : Prop where
  confined : Confined inos {d, y} v v' free'
  opened : OpenDirectory inos v' d
  entries : ∀ x, x ∈ v'.dirents d ↔ x ∈ v.dirents d ∧ x.name ≠ name
  filesize : v'.filesize d = v.filesize d - direntSize
  room : v.room d ≤ v'.room d
  nlink : (v'.inode d).nlink = if (v.inode y).isdir then (v.inode d).nlink - 1 else (v.inode d).nlink
  nlinkGone : (v'.inode y).nlink = (v.inode y).unlinked
  filesizeGone : v'.filesize y = if (v.inode y).isdir then 0 else v.filesize y

theorem fileDeallocate_run (h : OpenDirectory inos v d) (hw : WellFormed v inos free) (hc : v.Coherent) (hone : v.OneHandle)
    (hroom : ∀ i, v.uses i + 5 < 65536) (hmount : ∀ i, v.mounted i = none) (hfree : free ≠ []) (hplain : slash ∉ name)
    (hname : v.names d (direntFilename name) y) (hne : y ≠ d) (hfreed : ¬ (v.inode y).Stuck name) :
    ∃ v' free', (fileDeallocate d name).run v = (.ok, v') ∧
      Deallocated inos free d y (direntFilename name) v v' free' := by
  have hroom₄ : v.Room := fun i => by
    have := hroom i
    omega
  have hy : y ∈ inos := h.named _ hname
  have hnum := hw.number y hy
  have hheldAll := Held.fileDeallocate hroom₄ hone d name
  obtain ⟨v₁, htaken, hheld₁, hrun⟩ := deallocate_start h hw hone hroom₄ hmount hplain hname
  have s₁ := SameView.of_taken htaken
  have hw₁ := s₁.wellFormed hw
  have hfreed₁ : ¬ (v₁.inode y).Stuck name := by
    rw [s₁.inode]
    exact hfreed
  obtain ⟨v₂, free₂, hempty, hgone⟩ := deallocateInode_run hw₁ hy htaken.cached hfree hfreed₁
  have hheld₂ := hheld₁.keeps (Held.deallocateInode y name)
  rw [hempty] at hheld₂
  have hc₂ : v₂.Coherent := hgone.beside.spares.coherent (fun i hi => s₁.inSlot.mpr (hc i (s₁.number.mp hi)))
    fun i hi => (Set.mem_singleton_iff.mp hi) ▸ hgone.inSlot
  have hspares₂ : Spares {y} (v.counts inos) v v₂ := (s₁.spares {y} _).trans
    (fun i hi => counts_other (s₁.spares {y} (v.counts inos)) hi hw.number Iff.rfl) hgone.beside.spares
  have hd : d ∉ ({y} : Set Nat) := fun heq => hne (Set.mem_singleton_iff.mp heq).symm
  have hdnum := hw.number d h.mem
  have hinode₂ : v₂.inode d = v.inode d := hspares₂.inode d hd hdnum
  have hsize₂ : v₂.filesize d = v.filesize d := by
    rw [VDisk.filesize, hinode₂]
    rfl
  have hdirents₂ : v₂.dirents d = v.dirents d := hspares₂.dirents hw.geometry hd hdnum (if_pos h.mem)
    (by rw [VDisk.counts, if_pos h.mem]; exact hw.le_maxBlocks h.mem)
  have hmode₂ (i : Nat) (hi : InodeNumber v i) : (v₂.inode i).mode = (v.inode i).mode := by
    rw [hgone.beside.mode (s₁.number.mpr hi), s₁.inode]
  have hisdir₂ (i : Nat) (hi : InodeNumber v i) : (v₂.inode i).isdir = (v.inode i).isdir := by
    rw [Dinode.isdir, Dinode.isdir, hmode₂ i hi]
  have hfiles₂ : FilesKept inos v v₂ := fun i hi hfile => by
    rw [← s₁.inode] at hfile
    by_cases hiy : i = y
    · subst hiy
      rw [hgone.content hfile, s₁.content]
    · rw [hgone.beside.spares.content hw₁ (fun heq => hiy (Set.mem_singleton_iff.mp heq)) hi, s₁.content]
  have hopen₂ : OpenDirectory inos v₂ d := by
    refine ⟨h.mem, ?_, (hisdir₂ d hdnum).trans h.isdir, by rw [hsize₂]; exact h.whole, by rw [hdirents₂]; exact h.named,
      by rw [hdirents₂]; exact h.apart⟩
    rw [hheld₂.uses]
    exact Nat.lt_of_lt_of_le h.used (Nat.le_add_right ..)
  have hroom₂ : v₂.Room := fun i => by
    have huses := hheld₂.uses i
    have hcount := List.count_le_length (a := i) (l := [y])
    have := hroom i
    rw [List.length_singleton] at hcount
    rw [huses]
    omega
  have hfree₂ : free₂ ≠ [] := fun hnil => by
    have hlength := hgone.length
    rw [hnil] at hlength
    exact hfree (List.eq_nil_of_length_eq_zero (Nat.le_zero.mp hlength))
  have hname₂ : v₂.names d (direntFilename name) y := by
    rw [VDisk.names, hdirents₂]
    exact hname
  obtain ⟨v₃, free₃, hremove, hedited⟩ := hopen₂.remove hgone.wellFormed hc₂ (hc₂.tended hheld₂.oneHandle hroom₂) hfree₂ hname₂
  have hheld₃ := (Held.directoryRemoveEntry hroom₄ (show [y].length < 4 from Nat.lt_add_left 2 Nat.one_lt_two) d name).run v₂ hheld₂
  rw [hremove] at hheld₃
  have hcached₃ : v₃.Cached y := cached_of_uses (by
    rw [hheld₃.uses, List.count_singleton_self]
    exact Nat.succ_pos _)
  obtain ⟨v₄, hrel, hreleased⟩ := inodeRel_run hcached₃
  have hlay₃ := hspares₂.layout.trans hedited.confined.spares.layout
  have s₄ := SameView.of_released hheld₃.oneHandle hcached₃ (fun _ => hedited.confined.coherent y (hlay₃.inodeNumber hnum))
    hreleased
  have hend : (fileDeallocate d name).run v = (.ok, v₄) := by
    rw [hrun]
    simp only [Prog.run_bind, hempty, ne_eq, not_true_eq_false, if_false, hremove, hrel, Prog.run_pure]
  rw [hend] at hheldAll
  have hy₃ : y ∉ ({d} : Set Nat) := fun heq => hne (Set.mem_singleton_iff.mp heq)
  have hcounts₂ (i : Nat) (hi : i ∉ ({d, y} : Set Nat)) : v₂.counts inos i = v.counts inos i :=
    counts_other (hspares₂.mono (T := {d, y}) (by simp)) hi hw.number Iff.rfl
  have hspares₃ : Spares {d, y} (v.counts inos) v v₃ := (hspares₂.mono (by simp)).trans hcounts₂
    (hedited.confined.spares.mono (by simp))
  have hinode₃ : v₃.inode y = v₂.inode y := hedited.confined.inode hgone.wellFormed hy₃ hy
  have hdirents₄ : v₄.dirents d = v₃.dirents d := by rw [s₄.dirents]
  have hroomd : v₄.room d = v₃.room d := by
    rw [VDisk.room, VDisk.room, s₄.filesize, s₄.same]
    rfl
  refine ⟨v₄, free₃, hend, ⟨s₄.wellFormed hedited.confined.wellFormed, fun i hi =>
    s₄.inSlot.mpr (hedited.confined.coherent i (s₄.number.mp hi)), hheldAll, ?_, ?_, fun i hi => ?_, ?_⟩, ⟨h.mem, ?_, ?_, ?_, ?_, ?_⟩,
    fun x => ?_, ?_, ?_, ?_, ?_, ?_⟩
  · exact hspares₃.trans (fun i hi => counts_other hspares₃ hi hw.number Iff.rfl) (s₄.spares _ _)
  · obtain ⟨_, _, _, _, hsb₂⟩ := hgone.beside.sb
    obtain ⟨_, _, _, _, hsb₃⟩ := hedited.confined.sb
    exact ⟨_, _, _, _, by rw [s₄.same, hsb₃, hsb₂, s₁.same]⟩
  · rw [s₄.inode, hedited.confined.mode i (hspares₂.layout.inodeNumber hi), hmode₂ i hi]
  · exact (hfiles₂.trans (fun i hi => hisdir₂ i (hw.number i hi)) hedited.confined.files).trans
      (fun i hi => by rw [hedited.confined.isdir_mem hgone.wellFormed hi, hisdir₂ i (hw.number i hi)]) s₄.filesKept
  · rw [hheldAll.uses]
    exact h.used
  · rw [s₄.inode]
    exact hedited.opened.isdir
  · rw [s₄.filesize]
    exact hedited.opened.whole
  · rw [hdirents₄]
    exact hedited.opened.named
  · rw [hdirents₄]
    exact hedited.opened.apart
  · rw [hdirents₄, hedited.entries, hdirents₂]
  · rw [s₄.filesize, hedited.filesize, hsize₂]
  · rw [hroomd, hedited.room, VDisk.room, VDisk.room, hw.list.total, hgone.wellFormed.list.total, hsize₂]
    have hblk : v₂.blksize = v.blksize := hspares₂.layout.blksize
    have hnidx : v₂.nidx = v.nidx := by rw [VDisk.nidx, hblk]; rfl
    rw [hblk, hnidx]
    exact Nat.add_le_add_right hgone.length _
  · rw [s₄.inode, hedited.nlink, hisdir₂ y hnum, hinode₂]
  · rw [s₄.inode, hinode₃, hgone.nlink, s₁.inode]
  · rw [s₄.filesize, hedited.confined.filesize hgone.wellFormed hy₃ hy, hgone.filesize, s₁.inode, s₁.filesize]

end Call

end Ufs370
