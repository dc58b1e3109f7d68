import Ufs370.Spared
import Ufs370.Files

/-! What `ufs_file_allocate` makes: an inode, the entries of a new directory and the entry in its parent. -/

namespace Ufs370

open Lib Lib.IndexForest Lib.IndexLayout

namespace Entry

variable {b : Block} {i j ino : Nat} {name : List UInt8}

theorem dirent_strcpy_same (hino : ino < 4294967296) (hlen : name.length < nameMax) :
    dirent (setInodeNumber (strcpyName b i name) i ino) i = ⟨ino, CString.read nameMax (CString.chars name)⟩ := by
  have hnumber : inodeNumber (setInodeNumber (strcpyName b i name) i ino) i = ino := by
    rw [inodeNumber, setInodeNumber, Bytes.word_setWord_same]
    exact Nat.mod_eq_of_lt hino
  rw [dirent, hnumber]
  congr 1
  refine CString.read_congr_end (m := name.length) (fun k hk => ?_) (by
    rw [CString.chars, List.getD_eq_getElem?_getD, List.getElem?_eq_none (Nat.le_refl _)]
    rfl)
  have hk' : 4 + k < direntSize := by
    simp only [direntSize, nameMax] at hlen ⊢
    omega
  have hdiv : (direntSize * i + (4 + k)) / 4 ≠ 16 * i := by
    simp only [direntSize]
    omega
  have hle : 4 + k ≤ 4 + name.length := Nat.add_le_add_left hk 4
  simp only [Entry.name, setInodeNumber, Bytes.setWord, Nat.add_assoc, hdiv, if_false, strcpyName, div_direntSize hk',
    mod_direntSize hk', Nat.le_add_right, hle, and_self, if_true, Nat.add_sub_cancel_left]

theorem dirent_strcpy_other (h : i ≠ j) : dirent (setInodeNumber (strcpyName b j name) j ino) i = dirent b i :=
  dirent_congr fun k hk => by
    have hdiv : (direntSize * i + k) / 4 ≠ 16 * j := by
      simp only [direntSize] at hk ⊢
      omega
    simp only [setInodeNumber, Bytes.setWord, hdiv, if_false, strcpyName, div_direntSize hk, h, false_and]

end Entry

/-- The entries of a new directory. -/
def dotEntries (ino parentDir : Nat) : List Dirent := [⟨ino, [dot]⟩, ⟨parentDir, [dot, dot]⟩]

section Dots

variable {v v' : VDisk} {d ino parentDir : Nat} {cnt : Nat → Nat} {all : Set Nat} {free free' : List Nat}

/-- An inode without blocks that gets a first block with two entries. -/
theorem Resized.relisted_first (h : Stored cnt all d v free) (hnew : FileSize v (direntSize * 2))
    (r : Resized cnt all d (direntSize * 2) v free v' free') {buf : Block} {x y : Dirent}
    (hx : Entry.dirent buf 0 = x) (hy : Entry.dirent buf 1 = y) :
    Relisted cnt all d [x, y] (v.inode d).nlink v (v'.setBlock (v'.fileBlock d 0) buf) free' := by
  have h' := r.stored h hnew
  have hsize : v'.filesize d = direntSize * 2 := r.filesize_eq h hnew
  obtain ⟨hbs, -⟩ := h'.owned.geometry.perBlock
  have hper : 1 < v'.perBlock := by
    have := h'.owned.geometry.blksize_bounds
    rw [hbs, direntSize] at this
    omega
  have hm : 0 * v'.blksize < v'.filesize d := by
    rw [hsize, Nat.zero_mul]
    decide
  have hset := h'.setBlock hm buf
  have hsize' := (h'.filesize_setBlock hm buf d).trans hsize
  have hentry {e : Nat} (he : e < v'.perBlock) :
      (v'.setBlock (v'.fileBlock d 0) buf).direntAt d e = Entry.dirent buf e := by
    rw [VDisk.direntAt]
    change Entry.dirent ((v'.setBlock _ buf).io.blocks ((v'.setBlock _ buf).fileBlock d (e / v'.perBlock)))
      (e % v'.perBlock) = _
    rw [Nat.div_eq_of_lt he, Nat.mod_eq_of_lt he, h'.fileBlock_setBlock hm buf hm, VDisk.setBlock_self]
  refine ⟨hset, (r.beside h).trans (fun i hi => countsAt_other hi) (h'.beside_setBlock hm _), hsize', ?_, ?_, fun hin => ?_⟩
  · rw [dirents_eq hsize']
    change [_, _] = _
    rw [hentry (Nat.lt_trans Nat.one_pos hper), hentry hper, hx, hy]
  · obtain ⟨_, _, hown⟩ := r.own
    rw [h.cached.deref, Option.map_some] at hown
    rw [VDisk.inode_setBlock (h'.owned.data_of_mem (h'.block_mem hm)), VDisk.inode_some hown, VDisk.inode_some h.cached.deref]
  · refine h'.inSlot_setBlock hm _ ?_
    rcases r.synced with rfl | hsync
    · exact hin
    · exact hsync

/-- A new directory gets its entries, or there is no free block and its inode is given back. -/
theorem allocateDots_run (h : Stored cnt all ino v free) (hhandle : v.OneHandle) (hsize : v.filesize ino = 0) (hino : ino < 4294967296)
    (hparent : parentDir < 4294967296) :
    (free = [] ∧ ∃ v₁, Exhausted cnt ino v v₁ ∧
      (allocateDots ino parentDir).run v = (.enospc, ((inodeDeallocate ino).run v₁).2)) ∨
    ∃ v' free', (allocateDots ino parentDir).run v = (.ok, v') ∧ v'.handles = v.handles ∧
      free.length = free'.length + 1 ∧
      Relisted cnt all ino (dotEntries ino parentDir) (v.inode ino).nlink v v' free' := by
  have hbs := h.owned.geometry.blksize_bounds
  have hn := h.owned.geometry.nidx_bounds
  have hfits : direntSize * 2 ≤ v.blksize := Nat.le_trans (by decide) hbs.1
  have hnew : FileSize v (direntSize * 2) := SizeOk.fileSize h.owned.geometry (.inl (by
    calc direntSize * 2
      _ ≤ v.blksize := hfits
      _ ≤ (16 + v.nidx) * v.blksize := Nat.le_mul_of_pos_left _ (by omega)))
  have hone : ceil (direntSize * 2) v.blksize = 1 := by
    rw [ceil]
    exact Nat.div_eq_of_lt_le (by rw [direntSize]; omega) (by rw [direntSize] at hfits ⊢; omega)
  have hgrow : direntSize * 2 = (v.inode ino).filesize.toNat + direntSize * 2 := by
    change _ = v.filesize ino + _
    rw [hsize, Nat.zero_add]
  have hplaces : (placesOf v.nidx 1).length = 1 := by
    rw [placesOf_length (by omega), indexCount_direct (by decide)]
  rcases datablockExpand_spec h.owned h.numbers h.number h.cached h.count h.size hnew hgrow with
    ⟨v₁, hrun, hshort, hfull⟩ | ⟨v₁, free', hrun, r⟩
  · refine .inl ⟨?_, v₁, hfull, ?_⟩
    · rw [hone, hplaces] at hshort
      exact List.eq_nil_of_length_eq_zero (by omega)
    · simp only [allocateDots, Prog.run_bind, hrun, ne_eq, reduceCtorEq, not_false_eq_true, if_true, Prog.run_pure]
  · right
    have h₁ := r.stored h hnew
    have hblk : (v₁.din ino).addrAt 0 = v₁.fileBlock ino 0 := by
      rw [VDisk.fileBlock, placeOf_direct (by decide), h₁.cached.din]
      rfl
    have hhandles := (KeepsHandles.datablockExpand ino (direntSize * 2)).run v hhandle
    rw [hrun] at hhandles
    simp only [allocateDots, Prog.run_bind, hrun, ne_eq, not_true_eq_false, if_false, hblk, diskGetBuf_live h₁.owned.live,
      if_true, vdiskRead_live h₁.owned.live, vdiskWrite_live h₁.owned.live, Prog.run_pure]
    refine ⟨_, free', rfl, hhandles, ?_, r.relisted_first h hnew ?_ ?_⟩
    · have hlength := r.length
      have hcount : cnt ino = 0 := by
        rw [h.count, hsize, ceil_zero h.owned.geometry.blockSize.pos]
      rw [hone, hplaces, hcount] at hlength
      exact hlength
    · rw [Entry.dirent_strcpy_other (by decide), Entry.dirent_strcpy_same hino (by decide)]
      rfl
    · rw [Entry.dirent_strcpy_same hparent (by decide)]
      rfl

end Dots

section Back

variable {v v' : VDisk} {d i : Nat} {cnt : Nat → Nat} {all : Set Nat} {inos free free' : List Nat} {es : List Dirent}
  {l : UInt16}

theorem setDinode_id (v : VDisk) (d : Nat) : v.setDinode d id = v := by
  change { v with minodes := (v.setDinode d id).minodes } = v
  rw [setDinode_minodes_id]

theorem Relisted.writtenBack (h : Relisted cnt all d es l v v' free') :
    Relisted cnt all d es l v (v'.writtenBack d) free' := by
  have hback := h.relink (g := id) fun x => ⟨x.nlink, rfl⟩
  rw [setDinode_id, id, h.nlink] at hback
  exact hback

theorem inSlot_back (g : Geometry v) (hnum : InodeNumber v d) (hcached : v.Cached d) : (v.writtenBack d).InSlot d := by
  rw [VDisk.InSlot, slot_writtenBack_same g.table hnum, hcached.din, inode_writtenBack g hnum hcached (.inl hcached)]

/-- An inode whose entries stay as they are. -/
theorem Stored.relisted_self {n : Nat} (h : Stored cnt all d v free) (hn : v.filesize d = direntSize * n) :
    Relisted cnt all d (v.dirents d) (v.inode d).nlink v v free := by
  have hcnt : countsAt v cnt d (direntSize * (v.dirents d).length) = cnt := by
    rw [dirents_length hn, countsAt, ← hn, ← h.count, Function.update_eq_self]
  refine ⟨by rwa [hcnt], (SameView.refl v).beside cnt d, by rw [dirents_length hn, hn], rfl, rfl, id⟩

theorem cached_handles (h : v'.handles = v.handles) : v'.Cached i ↔ v.Cached i := by
  have hfind := handles_find v' i
  rw [h, handles_find v i] at hfind
  rw [VDisk.Cached, VDisk.Cached]
  cases hv : v.minode? i <;> cases hv' : v'.minode? i <;> simp [hv, hv'] at hfind ⊢

theorem SameData.counts (hs : SameData v v') (hnum : ∀ i ∈ inos, InodeNumber v i) : v'.counts inos = v.counts inos := by
  funext i
  rw [VDisk.counts, VDisk.counts]
  split
  · rename_i hi
    change ceil (v'.filesize i) v'.blksize = ceil (v.filesize i) v.blksize
    rw [hs.filesize i (.inr (hnum i hi)), hs.blksize]
  · rfl

theorem SameData.wellFormed (hs : SameData v v') (hw : WellFormed v inos free) : WellFormed v' inos free := by
  have hnum (i : Nat) (hi : v.counts inos i ≠ 0) : InodeNumber v i := hw.number i (by
    by_contra hnot
    exact hi (if_neg hnot))
  have hcounts := hs.counts hw.number
  have howned := hw.owned.same hs (within_number hnum)
  rw [← hcounts, ← hs.nidx] at howned
  refine (howned.wellFormed hw.distinct (fun i hi => hs.number (hw.number i hi)) fun i hi => ?_).1
  change SizeOk v' (v'.filesize i)
  rw [hs.filesize i (.inr (hw.number i hi))]
  exact (hw.size i hi).congr hs.blksize

/-- Calls that keep the handles and write back the inode that they change. -/
theorem Spares.tended (h : Spares {d} cnt v v') (hin : v'.InSlot d) (ht : Tended v) (hheld : Held v [] v') : Tended v' where
  oneHandle := hheld.oneHandle
  room i := by
    rw [hheld.uses]
    exact ht.room i
  idle i hi huses := by
    have hi' : InodeNumber v i := h.layout.symm.inodeNumber hi
    rw [hheld.uses, List.count_nil, Nat.add_zero] at huses
    by_cases hid : i = d
    · exact hid ▸ hin
    · rw [VDisk.InSlot, h.slot i hid hi', h.inode i hid hi']
      exact ht.idle i hi' huses

end Back

/-! The new inode. -/

/-- The types of inodes but for directories. -/
def plainTypes : List Nat := [ifchr, ifblk, iffifo, ifsock, iflnk, ifreg]

/-- A mode that `ufs_file_allocate` accepts. -/
def KnownType (mode : UInt16) : Prop := mode.toNat &&& ifmt = ifdir ∨ mode.toNat &&& ifmt ∈ plainTypes

/-- The entries of a new inode. -/
def newEntries (mode : UInt16) (ino parentDir : Nat) : List Dirent :=
  if mode.toNat &&& ifmt = ifdir then dotEntries ino parentDir else []

/-- The links of a new inode. -/
def newLinks (mode : UInt16) : UInt16 := if mode.toNat &&& ifmt = ifdir then 2 else 1

/-- The blocks of a new inode. -/
def newBlocks (mode : UInt16) : Nat := if mode.toNat &&& ifmt = ifdir then 1 else 0

section Types

variable {v v' : VDisk} {d i ino parentDir : Nat} {mode : UInt16} {cnt : Nat → Nat} {all : Set Nat} {free free' : List Nat}

/-- The new inode gets its links and its entries, or it is a directory and there is no free block. -/
theorem allocateType_run (h : Stored cnt all ino v free) (hhandle : v.OneHandle) (hsize : v.filesize ino = 0)
    (hino : ino < 4294967296) (hparent : parentDir < 4294967296)
    (htype : KnownType mode) :
    (mode.toNat &&& ifmt = ifdir ∧ free = [] ∧ ∃ v₁, Exhausted cnt ino (v.setDinode ino fun d => { d with nlink := 2 }) v₁ ∧
      (allocateType ino parentDir mode).run v = (.enospc, ((inodeDeallocate ino).run v₁).2)) ∨
    ∃ v' free', (allocateType ino parentDir mode).run v = (.ok, v') ∧
      v'.handles = v.handles ∧ free.length = free'.length + newBlocks mode ∧
      Relisted cnt all ino (newEntries mode ino parentDir) (newLinks mode)
        (v.setDinode ino fun d => { d with nlink := newLinks mode }) v' free' := by
  have hset (l : UInt16) := SameData.setDinode (g := fun d => { d with nlink := l }) (fun _ => rfl) (fun _ => rfl) v ino
  have hone (l : UInt16) : (v.setDinode ino fun d => { d with nlink := l }).handles = v.handles :=
    (KeepsHandles.modifyDinode ino fun d => { d with nlink := l }).run v hhandle
  have hlinks (l : UInt16) : ((v.setDinode ino fun d => { d with nlink := l }).inode ino).nlink = l := by
    rw [VDisk.inode_setDinode_same h.cached]
  have hzero (l : UInt16) : (v.setDinode ino fun d => { d with nlink := l }).filesize ino = 0 :=
    ((hset l).filesize ino (.inl h.cached)).trans hsize
  by_cases hdir : mode.toNat &&& ifmt = ifdir
  · simp only [newEntries, newLinks, newBlocks, hdir, if_true, allocateType, Prog.run_bind, modifyDinode]
    rcases allocateDots_run (h.same (hset 2)) ((oneHandle_congr (hone 2)).mpr hhandle) (hzero 2) hino hparent with
      ⟨hnone, v₁, hfull, hrun⟩ | ⟨v', free', hrun, hhandles, hlength, hlisted⟩
    · exact .inl ⟨trivial, hnone, v₁, hfull, hrun⟩
    · rw [hlinks] at hlisted
      exact .inr ⟨v', free', hrun, hhandles.trans (hone 2), hlength, hlisted⟩
  · have hplain : mode.toNat &&& ifmt ∈ [ifchr, ifblk, iffifo, ifsock, iflnk, ifreg] := htype.resolve_left hdir
    simp only [newEntries, newLinks, newBlocks, hdir, if_false, allocateType, hplain, if_true, Prog.run_bind, modifyDinode,
      Prog.run_pure]
    have hself := (h.same (hset 1)).relisted_self (n := 0) (hzero 1)
    rw [hlinks, List.eq_nil_of_length_eq_zero (dirents_length (n := 0) (hzero 1))] at hself
    exact .inr ⟨_, free, rfl, hone 1, rfl, hself⟩

theorem allocateType_unknown (htype : ¬ KnownType mode) :
    (allocateType ino parentDir mode).run v = (.einval, ((inodeDeallocate ino).run v).2) := by
  obtain ⟨hdir, hplain⟩ := not_or.mp htype
  have hplain' : mode.toNat &&& ifmt ∉ [ifchr, ifblk, iffifo, ifsock, iflnk, ifreg] := hplain
  simp only [allocateType, hplain', hdir, if_false, Prog.run_bind, Prog.run_pure]

end Types

/-- From `v` to `v'` inode `ino` was made, with the entries `es` and `l` links. -/
structure Created (inos : List Nat) (ino : Nat) (es : List Dirent) (mode l : UInt16) (v v' : VDisk) (free free' : List Nat) :
    Prop where
  wellFormed : WellFormed v' (ino :: inos) free'
  tended : Tended v'
  spares : Spares {ino} (v.counts inos) v v'
  held : Held v [] v'
  cached : ∀ i, i ≠ ino → v.Cached i → v'.Cached i
  inSlot : v'.InSlot ino
  filesize : v'.filesize ino = direntSize * es.length
  dirents : v'.dirents ino = es
  length : free.length = free'.length + newBlocks mode
  mode : (v'.inode ino).mode = mode
  nlink : (v'.inode ino).nlink = l

section Create

variable {v : VDisk} {ino parentDir : Nat} {inos free : List Nat}

theorem setAttr_same (attr : Attr) (now : Timev) (d : Dinode) :
    (d.setAttr attr now).addr = d.addr ∧ (d.setAttr attr now).filesize = d.filesize ∧ (d.setAttr attr now).mode = attr.mode :=
  ⟨rfl, rfl, rfl⟩

theorem counts_other {v' : VDisk} {S : Set Nat} {cnt : Nat → Nat} (h : Spares S cnt v v') {i : Nat} (hi : i ∉ S)
    (hnum : ∀ j ∈ inos, InodeNumber v j) {inos' : List Nat} (hinos : i ∈ inos' ↔ i ∈ inos) :
    v'.counts inos' i = v.counts inos i := by
  rw [VDisk.counts, VDisk.counts]
  simp only [hinos]
  split
  · rename_i hmem
    rw [VDisk.blockCount, VDisk.blockCount, h.inode i hi (hnum i hmem), h.layout.blksize]
  · rfl

theorem newEntries_size (g : Geometry v) (mode : UInt16) :
    SizeOk v (direntSize * (newEntries mode ino parentDir).length) := by
  have hbs := g.blksize_bounds
  have hlen : (newEntries mode ino parentDir).length ≤ 2 := by
    rw [newEntries]
    split <;> simp [dotEntries]
  refine .inl ?_
  calc direntSize * (newEntries mode ino parentDir).length
    _ ≤ direntSize * 2 := Nat.mul_le_mul_left _ hlen
    _ ≤ v.blksize := Nat.le_trans (by decide) hbs.1
    _ ≤ (16 + v.nidx) * v.blksize := Nat.le_mul_of_pos_left _ (by omega)

/-- The part of `ufs_file_allocate` that makes the inode, which a directory without a free block gives back. -/
theorem createInode_run (hw : WellFormed v inos free) (ht : Tended v) (hnum : InodeNumber v ino) (hnew : ino ∉ inos)
    (hsize : v.filesize ino = 0) (hparent : parentDir < 4294967296) (attr : Attr) (now : Timev)
    (htype : KnownType attr.mode) :
    (attr.mode.toNat &&& ifmt = ifdir ∧ free = [] ∧ ∃ v₁ u v₂, (inodeGet ino).run v = (some ino, v₁) ∧
      (allocateType ino parentDir attr.mode).run (v₁.setDinode ino fun d => d.setAttr attr now) =
        (.enospc, ((inodeDeallocate ino).run v₂).2) ∧
      Spares {ino} (v.counts inos) v u ∧ WellFormed u (ino :: inos) free ∧ u.filesize ino = 0 ∧
      Exhausted (u.counts (ino :: inos)) ino u v₂) ∨
    ∃ v₁ v₂ v₃ v' free', (inodeGet ino).run v = (some ino, v₁) ∧
      (allocateType ino parentDir attr.mode).run (v₁.setDinode ino fun d => d.setAttr attr now) = (.ok, v₂) ∧
      (inodeWriteback ino).run v₂ = (.ok, v₃) ∧ (inodeRel ino).run v₃ = ((), v') ∧
      Created inos ino (newEntries attr.mode ino parentDir) attr.mode (newLinks attr.mode) v v' free free' := by
  obtain ⟨v₁, hget, htaken⟩ := inodeGet_live hw.geometry hw.live hnum
  have s₁ := SameView.of_taken htaken
  have hheld₁ := Held.of_taken ht htaken
  have hset := SameData.setDinode (g := fun d => d.setAttr attr now) (fun _ => rfl) (fun _ => rfl) v₁ ino
  have hw₁ := s₁.wellFormed (hw.cons hnum hnew hsize)
  have hmem := List.mem_cons_self (a := ino) (l := inos)
  have hhandles₁ : (v₁.setDinode ino fun d => d.setAttr attr now).handles = v₁.handles :=
    (KeepsHandles.modifyDinode ino fun d => d.setAttr attr now).run v₁ hheld₁.oneHandle
  have hsize₁ : (v₁.setDinode ino fun d => d.setAttr attr now).filesize ino = 0 :=
    (hset.filesize ino (.inl htaken.cached)).trans ((s₁.filesize ino).trans hsize)
  have hmode₁ : ((v₁.setDinode ino fun d => d.setAttr attr now).inode ino).mode = attr.mode := by
    rw [VDisk.inode_setDinode_same htaken.cached, (setAttr_same attr now _).2.2]
  have hspares₁ : Spares {ino} (v.counts inos) v (v₁.setDinode ino fun d => d.setAttr attr now) :=
    (s₁.spares {ino} _).trans (fun _ _ => rfl) (.setDinode _ v₁ ino _)
  have hwell := hset.wellFormed hw₁
  have hcached₁ := (hset.cached ino).mpr htaken.cached
  have hlinks (l : UInt16) := SameData.setDinode (g := fun d => { d with nlink := l }) (fun _ => rfl) (fun _ => rfl)
    (v₁.setDinode ino fun d => d.setAttr attr now) ino
  generalize hu : v₁.setDinode ino (fun d => d.setAttr attr now) = u at *
  -- `u` has the attributes, and the links and the entries come next
  have hcounts (i : Nat) (hi : i ∉ ({ino} : Set Nat)) : u.counts (ino :: inos) i = v.counts inos i :=
    counts_other hspares₁ hi hw.number (List.mem_cons.trans (or_iff_right hi))
  rcases allocateType_run (hwell.stored hmem hcached₁) ((oneHandle_congr hhandles₁).mpr hheld₁.oneHandle) hsize₁
    (hnum.lt hw.geometry) hparent htype with
    ⟨hdir, hnone, v₂, hfull, hrun⟩ | ⟨v₂, free', htyped, hhandles₂, hlength, hlisted⟩
  · rw [← (hlinks 2).counts hwell.number] at hfull
    exact .inl ⟨hdir, hnone, v₁, _, v₂, hget, by rwa [hu], hspares₁.trans hcounts (.setDinode _ u ino _),
      (hlinks 2).wellFormed hwell, ((hlinks 2).filesize ino (.inl hcached₁)).trans hsize₁, hfull⟩
  right
  replace hlinks := hlinks (newLinks attr.mode)
  have hstored := hlisted.stored
  have hback := inodeWriteback_live hstored.owned.geometry hstored.owned.live hstored.number
  have hlast := hlisted.writtenBack
  have hhandles₃ := (KeepsHandles.inodeWriteback ino).run v₂
    ((oneHandle_congr (hhandles₂.trans hhandles₁)).mpr hheld₁.oneHandle)
  rw [hback] at hhandles₃
  have hhandles : (v₂.writtenBack ino).handles = v₁.handles := (hhandles₃.trans hhandles₂).trans hhandles₁
  have hheld₃ := hheld₁.handles hhandles
  have hin := inSlot_back hstored.owned.geometry hstored.number hstored.cached
  have hw₃ : WellFormed (v₂.writtenBack ino) (ino :: inos) free' := by
    rw [← hlinks.counts hwell.number] at hlast
    exact hlast.wellFormed (hlinks.wellFormed hwell) hmem (newEntries_size (hlinks.wellFormed hwell).geometry _)
  obtain ⟨v', hrel, hreleased⟩ := inodeRel_run hlast.stored.cached
  have s' := SameView.of_released hheld₃.oneHandle hlast.stored.cached (fun _ => hin) hreleased
  have hheld' := hheld₃.released hreleased
  have hspares : Spares {ino} (v.counts inos) v v' :=
    ((hspares₁.trans hcounts (.setDinode _ u ino _)).trans hcounts hlast.beside.spares).trans (fun _ _ => rfl)
      (s'.spares {ino} _)
  have hmode : (v'.inode ino).mode = attr.mode := by
    obtain ⟨_, _, _, hown⟩ := hlast.beside.own
    rw [s'.inode, hown, VDisk.inode_setDinode_same hcached₁, ← hmode₁]
  refine ⟨v₁, v₂, _, v', free', hget, by rwa [hu], hback, hrel, s'.wellFormed hw₃, hspares.tended (s'.inSlot.mpr hin) ht hheld',
    hspares, hheld', fun i hi hcached => ?_, s'.inSlot.mpr hin, (s'.filesize ino).trans hlast.filesize, ?_, hlength, hmode, ?_⟩
  · rw [VDisk.Cached, hreleased.other i hi]
    refine (cached_handles hhandles).mpr ?_
    rwa [VDisk.Cached, htaken.other i hi]
  · rw [s'.dirents, hlast.dirents]
  · rw [s'.inode, hlast.nlink]

end Create

/-- Blocks for a new inode and for its entry in directory `d`. -/
def VDisk.EntryRoom (v : VDisk) (d : Nat) (mode : UInt16) : Prop :=
  (placesOf v.nidx (ceil (v.filesize d + direntSize) v.blksize)).length + newBlocks mode ≤ v.room d

/-- From `v` to `v'` inode `ino` was made and entered in directory `d`. -/
structure FileMade (inos : List Nat) (d ino : Nat) (name : List UInt8) (mode : UInt16) (v v' : VDisk) : Prop where
  wellFormed : ∃ free', WellFormed v' (ino :: inos) free'
  tended : Tended v'
  held : Held v [] v'
  cached : v'.Cached d
  inSlot : v.InSlot d → v'.InSlot d
  inSlotNew : v'.InSlot ino
  spares : Spares {d, ino} (v.counts inos) v v'
  dirents : v'.dirents d = v.dirents d ++ [⟨ino, name⟩]
  entries : v'.dirents ino = newEntries mode ino d
  mode : (v'.inode ino).mode = mode

/-- What a call of `ufs_file_allocate` starts from: no inode that is free is in use. -/
structure CreateReady (inos : List Nat) (v : VDisk) (free : List Nat) : Prop where
  wellFormed : WellFormed v inos free
  tended : Tended v
  counted : FreeCounted v
  unused : ∀ i ∈ v.freeInodes, i ∉ inos ∧ v.filesize i = 0

theorem Held.trans {v v' v'' : VDisk} {held : List Nat} (h : Held v held v') (h' : Held v' [] v'') : Held v held v'' where
  oneHandle := h'.oneHandle
  uses i := (h'.uses i).trans (h.uses i)
  mounted i hi := (h'.mounted i (by rw [h.uses]; exact Nat.lt_of_lt_of_le hi (Nat.le_add_right ..))).trans (h.mounted i hi)

section Made

variable {v : VDisk} {d n : Nat} {inos free : List Nat} {attr : Attr} {srcname : List UInt8}

/-- How a call of `ufs_file_allocate` ends: the code, the number and the disk. -/
inductive AllocateEnds (inos free : List Nat) (d : Nat) (srcname : List UInt8) (attr : Attr) (v : VDisk) :
    Rc × Nat → VDisk → Prop
  | found {e : Dirent} : e ∈ v.dirents d → 1 ≤ e.inodeNumber →
      e.name = direntFilename (lookupName (direntFilename srcname)) →
      AllocateEnds inos free d srcname attr v (.eexist, e.inodeNumber) v
  | noInode {v' : VDisk} : (inodeAllocate.run v).1.1 ≠ .ok → SameFiles v v' →
      AllocateEnds inos free d srcname attr v (.enospc, 0) v'
  | noBlock {ino : Nat} {w u v₁ : VDisk} : attr.mode.toNat &&& ifmt = ifdir → free = [] → ino ∈ v.freeInodes →
      SameFiles v w → Spares {ino} (w.counts inos) w u → WellFormed u (ino :: inos) free → u.filesize ino = 0 →
      Exhausted (u.counts (ino :: inos)) ino u v₁ →
      AllocateEnds inos free d srcname attr v (.enospc, ino) ((inodeDeallocate ino).run v₁).2
  | badType {ino : Nat} {v' : VDisk} : ¬ KnownType attr.mode → AllocateEnds inos free d srcname attr v (.einval, ino) v'
  | noGrowth {ino : Nat} {v' : VDisk} : ¬ v.EntryRoom d attr.mode → ¬ (attr.mode.toNat &&& ifmt = ifdir ∧ free = []) →
      (inodeAllocate.run v).1.1 = .ok → KnownType attr.mode → ino ∈ v.freeInodes → (v'.slot ino).mode = attr.mode →
      (∀ e ∈ v.dirents d, ¬ (1 ≤ e.inodeNumber ∧ e.name = direntFilename (lookupName (direntFilename srcname)))) →
      AllocateEnds inos free d srcname attr v (.enospc, ino) v'
  | made {ino : Nat} {v' : VDisk} :
      (∀ e ∈ v.dirents d, ¬ (1 ≤ e.inodeNumber ∧ e.name = direntFilename (lookupName (direntFilename srcname)))) →
      (inodeAllocate.run v).1.1 = .ok → v.EntryRoom d attr.mode → ino ∈ v.freeInodes →
      FileMade inos d ino (direntFilename (afterSlash (direntFilename srcname))) attr.mode v v' →
      AllocateEnds inos free d srcname attr v (.ok, ino) v'

theorem inodeNumberSanity_cases (v : VDisk) (ino : Nat) :
    inodeNumberSanity v ino = .ok ∨ inodeNumberSanity v ino = .enospc := by
  rw [inodeNumberSanity]
  split
  · exact .inr rfl
  · exact .inl rfl

theorem fileAllocate_ends (h : CreateReady inos v free) (hd : d ∈ inos) (hcached : v.Cached d)
    (hdir : (v.inode d).isdir = true) (hn : v.filesize d = direntSize * n) (hsize : SizeOk v (direntSize * (n + 1)))
    (now : Timev) :
    AllocateEnds inos free d srcname attr v ((fileAllocate d srcname attr now).run v).1
      ((fileAllocate d srcname attr now).run v).2 := by
  have hw := h.wellFormed
  have hlookup := fileLookupByName_run (hw.stored hd hcached) hn hdir (direntFilename srcname)
  cases hfind : (v.dirents d).find? fun e =>
      decide (1 ≤ e.inodeNumber ∧ e.name = direntFilename (lookupName (direntFilename srcname))) with
  | some e =>
    rw [hfind] at hlookup
    have hfound := List.find?_some hfind
    rw [decide_eq_true_eq] at hfound
    obtain ⟨hpos, hname⟩ := hfound
    simp only [fileAllocate, Prog.run_bind, hlookup]
    exact .found (List.mem_of_find?_eq_some hfind) hpos hname
  | none =>
  rw [hfind] at hlookup
  have habsent (e : Dirent) (he : e ∈ v.dirents d) :
      ¬ (1 ≤ e.inodeNumber ∧ e.name = direntFilename (lookupName (direntFilename srcname))) := fun hboth =>
    List.find?_eq_none.mp hfind e he (decide_eq_true hboth)
  have hfiles := inodeAllocate_files h.counted.geometry h.counted.table h.counted.live
  rcases inodeAllocate_free h.counted with ⟨_, hrun⟩ | ⟨ino, hfree, w, htook, hrun⟩
  · simp only [fileAllocate, Prog.run_bind, hlookup, hrun, ne_eq, reduceCtorEq, not_false_eq_true, if_true, Prog.run_pure]
    exact .noInode (by rw [hrun]; exact Rc.noConfusion) (.refl v)
  rw [hrun] at hfiles
  rcases inodeNumberSanity_cases v ino with hsane | hsane
  swap
  · rw [hsane, if_neg (by decide)] at hrun
    simp only [fileAllocate, Prog.run_bind, hlookup, hrun, ne_eq, reduceCtorEq, not_false_eq_true, if_true, Prog.run_pure]
    exact .noInode (by rw [hrun]; exact Rc.noConfusion) hfiles
  rw [hsane, if_pos rfl] at hrun
  obtain ⟨hnum, -⟩ := (mem_freeInodes h.counted.geometry h.counted.table).mp hfree
  obtain ⟨hnew, hzero⟩ := h.unused ino hfree
  have hne : d ≠ ino := fun heq => hnew (heq ▸ hd)
  have hlay := (hfiles.spares ∅ fun _ => 0).layout
  by_cases htype : KnownType attr.mode
  swap
  · obtain ⟨v₁, hget, -⟩ := inodeGet_live (hlay.geometry hw.geometry) (hfiles.wellFormed hw).live (hlay.inodeNumber hnum)
    simp only [fileAllocate, Prog.run_bind, hlookup, hrun, ne_eq, not_true_eq_false, if_false, hget, modifyDinode,
      allocateType_unknown htype, reduceCtorEq, not_false_eq_true, if_true, Prog.run_pure]
    exact .badType htype
  rcases createInode_run (hfiles.wellFormed hw) (hfiles.tended h.tended) (hlay.inodeNumber hnum) hnew
    (by rwa [VDisk.filesize, hfiles.inode]) ((hw.number d hd).lt hw.geometry) attr now htype with
    ⟨hisdir, hnone, v₁, u, v₂, hget, htyped, hspares, hu, hempty, hfull⟩ |
    ⟨v₁, v₂, v₃, v', free', hget, htyped, hback, hrel, hmade⟩
  · simp only [fileAllocate, Prog.run_bind, hlookup, hrun, ne_eq, not_true_eq_false, if_false, hget, modifyDinode, htyped,
      reduceCtorEq, not_false_eq_true, if_true, Prog.run_pure]
    exact .noBlock hisdir hnone hfree hfiles hspares hu hempty hfull
  have hinode' := (hmade.spares.inode d hne (hlay.inodeNumber (hw.number d hd))).trans (congrFun hfiles.inode d)
  have hn' : v'.filesize d = direntSize * n := by
    rw [VDisk.filesize, hinode']
    exact hn
  have hblk : v'.blksize = v.blksize := hmade.spares.layout.blksize.trans hlay.blksize
  have hnidx : v'.nidx = v.nidx := by rw [VDisk.nidx, hblk]; rfl
  have hmem := List.mem_cons_of_mem ino hd
  have hnum' := hmade.spares.layout.inodeNumber (hlay.inodeNumber hnum)
  have hcounts : v'.counts (ino :: inos) d = ceil (v.filesize d) v.blksize := by
    rw [VDisk.counts, if_pos hmem, VDisk.blockCount, hinode', hblk]
    rfl
  have hadd := directoryAddEntry_run
    (hmade.wellFormed.stored hmem (hmade.cached d hne (hfiles.cached.mpr hcached))) hmade.tended
    (fun heq => absurd heq.symm hne) hn' ((hsize.congr hblk).fileSize hmade.wellFormed.geometry) hnum'
    (hnum.lt hw.geometry) (afterSlash (direntFilename srcname))
  rw [hcounts, hnidx, hblk, Nat.mul_succ, ← hn] at hadd
  have hlength := hmade.length
  simp only [fileAllocate, Prog.run_bind, hlookup, hrun, ne_eq, not_true_eq_false, if_false, hget, modifyDinode, htyped,
    hback, hrel, Prog.run_pure]
  rcases hadd with ⟨v'', hadd, hshort, -, hslot⟩ | ⟨v'', free'', hadd, hgrown, hlisted, htended, hheld⟩
  · rw [hadd]
    refine .noGrowth ?_ ?_ (by rw [hrun]) htype hfree ?_ habsent
    · rw [VDisk.EntryRoom, VDisk.room, hw.list.total]
      omega
    · rintro ⟨hisdir, hnil⟩
      rw [hnil, newBlocks, if_pos hisdir, List.length_nil] at hlength
      exact absurd hlength (Nat.succ_ne_zero _).symm
    · rw [hslot ino hnum', hmade.inSlot, hmade.mode]
  rw [hadd]
  have hspares : Spares {d, ino} (v.counts inos) v v' :=
    (hfiles.spares {d, ino} _).trans (fun _ _ => by rw [hfiles.counts]) (hmade.spares.mono (by simp))
  have hspares' : Spares {d, ino} (v.counts inos) v v'' :=
    hspares.trans (fun i hi => counts_other hspares hi hw.number (by
      rw [Set.mem_insert_iff, Set.mem_singleton_iff, not_or] at hi
      rw [List.mem_cons]
      exact or_iff_right hi.2)) (hlisted.beside.spares.mono (by simp))
  have hmode : v''.inode ino = v'.inode ino := hlisted.beside.inode ino (Ne.symm hne) hnum'
  have hslot : v'.slot d = v.slot d := by
    rw [hmade.spares.slot d hne (hlay.inodeNumber (hw.number d hd)), (hfiles.spares ∅ fun _ => 0).slot d (Set.notMem_empty _)
      (hw.number d hd)]
  refine .made habsent (by rw [hrun]) ?_ hfree ⟨⟨free'', hlisted.wellFormed hmade.wellFormed hmem ?_⟩, htended, ?_,
    hlisted.stored.cached, fun hin => hlisted.inSlot ?_, ?_, hspares', ?_, ?_, ?_⟩
  · rw [VDisk.EntryRoom, VDisk.room, hw.list.total]
    omega
  · rw [List.length_append, dirents_length hn', List.length_singleton]
    exact hsize.congr hblk
  · have hheld₀ : Held v [] w := (Held.refl h.tended.oneHandle).handles (by rw [VDisk.handles, hfiles.minodes]; rfl)
    exact (hheld₀.trans hmade.held).trans hheld
  · rw [VDisk.InSlot, hslot, hinode', hin]
  · rw [VDisk.InSlot, hlisted.beside.slot ino (Ne.symm hne) hnum', hmode, hmade.inSlot]
  · rw [hlisted.dirents, hmade.spares.dirents (hlay.geometry hw.geometry) hne (hlay.inodeNumber (hw.number d hd))
      (if_pos hd) (by rw [VDisk.counts, if_pos hd]; exact (hfiles.wellFormed hw).le_maxBlocks hd), hfiles.dirents]
  · have hself := List.mem_cons_self (a := ino) (l := inos)
    rw [hlisted.beside.spares.dirents hmade.wellFormed.geometry (Ne.symm hne) (hmade.wellFormed.number ino hself)
      (if_pos hself) (by rw [VDisk.counts, if_pos hself]; exact hmade.wellFormed.le_maxBlocks hself), hmade.dirents]
  · rw [hmode, hmade.mode]

end Made

end Ufs370
