import Ufs370.Creation

/-! What a call of `ufs_file_allocate` that runs out of space leaves behind. -/

namespace Ufs370

open Lib Lib.IndexForest Lib.IndexLayout

/-- The number that an allocation of an inode takes. -/
def VDisk.nextInode (v : VDisk) : Nat :=
  let sb := (if v.sb.nfreeinode = 0 then (freeinodeUpdate.run v).2 else v).sb
  sb.freeinode (sb.nfreeinode - 1)

/-- There is a free inode, and the one that is next has an accepted number. -/
def VDisk.InodeRoom (v : VDisk) : Prop := v.freeInodes ≠ [] ∧ inodeNumberSanity v v.nextInode = .ok

section InodeRoom

variable {v : VDisk}

theorem inodeTake_code (hn : 0 < v.sb.nfreeinode) :
    (inodeTake.run v).1.1 = inodeNumberSanity v (v.sb.freeinode (v.sb.nfreeinode - 1)) := by
  have hsub : u32sub v.sb.nfreeinode 1 = v.sb.nfreeinode - 1 := u32sub_of_le hn
  have hsanity (w : VDisk) (hb : w.blksize = v.blksize) (hs : w.sb.datablockStartSector = v.sb.datablockStartSector)
      (x : Nat) : inodeNumberSanity w x = inodeNumberSanity v x := by
    rw [inodeNumberSanity, inodeNumberSanity, hb, hs]
  simp only [inodeTake, Prog.run_bind, Prog.run_ite, hsub]
  rw [hsanity _ rfl rfl]
  split
  · rfl
  · rename_i hok
    exact (not_not.mp hok).symm

theorem inodeAllocate_code (h : FreeCounted v) : (inodeAllocate.run v).1.1 = .ok ↔ v.InodeRoom := by
  by_cases hfree : v.freeInodes = []
  · have htotal : v.sb.totalFreeinode = 0 := by rw [h.total, hfree, List.length_nil]
    have hrun : (inodeAllocate.run v).1.1 = .enospc := by
      simp only [inodeAllocate, Prog.run_bind, h.writable, Bool.false_eq_true, if_false, htotal, if_true, Prog.run_pure]
    rw [hrun]
    exact iff_of_false Rc.noConfusion fun hroom => hroom.1 hfree
  have htotal : v.sb.totalFreeinode ≠ 0 := fun hzero => hfree (List.eq_nil_of_length_eq_zero (h.total ▸ hzero))
  have hcode : (inodeAllocate.run v).1.1 = inodeNumberSanity v v.nextInode := by
    simp only [inodeAllocate, Prog.run_bind, Prog.run_ite, h.writable, Bool.false_eq_true, if_false, htotal,
      VDisk.nextInode]
    by_cases hempty : v.sb.nfreeinode = 0
    · obtain ⟨w, hrun, hlay, -, -, -, -, -, hn⟩ := freeinodeUpdate_free h hempty hfree
      simp only [hempty, if_true, hrun, ne_eq, not_true_eq_false, if_false]
      rw [inodeTake_code hn, hlay.numberSanity]
    · simp only [hempty, if_false]
      exact inodeTake_code (Nat.pos_of_ne_zero hempty)
  rw [hcode]
  exact (and_iff_right hfree).symm

/-- The number does not depend on the handles. -/
theorem diskWriteSuper_blind (ms : List Minode) : Prog.Blind (fun v : VDisk => { v with minodes := ms }) diskWriteSuper := by
  refine .get (fun _ => rfl) fun _ => .ite (.pure _) (.bind (fun _ => rfl) fun a => .ite ?_ (.pure _))
  refine .bind ?_ fun rc => .ite (.pure _) (.bind (fun _ => rfl) fun _ => ?_)
  · exact .get (fun _ => rfl) fun _ => .ite (.pure _) (.bind (fun _ => rfl) fun f =>
      .ite (.bind (fun _ => rfl) fun _ => .pure _) (.pure _))
  · refine .get (fun _ => rfl) fun _ => .ite (.pure _) (.bind (fun _ => rfl) fun a => .ite ?_ (.pure _))
    exact .get (fun _ => rfl) fun _ => .ite (.pure _) (.bind (fun _ => rfl) fun _ => .pure _)

theorem freeinodeUpdate_blind (ms : List Minode) :
    Prog.Blind (fun v : VDisk => { v with minodes := ms }) freeinodeUpdate := by
  have hscan (left i k inode : Nat) : Prog.Blind (fun v : VDisk => { v with minodes := ms }) (freeinodeScan left i k inode) := by
    induction left generalizing i k inode with
    | zero => exact .pure _
    | succ left ih =>
      refine .bind (fun _ => rfl) fun a => .ite (.bind (fun _ => rfl) fun r => ?_) (.pure _)
      cases r with
      | error rc => exact .get (fun _ => rfl) fun _ => ih _ _ _
      | ok buf => exact .get (fun _ => rfl) fun _ => .bind (fun _ => rfl) fun _ => ih _ _ _
  refine .get (fun _ => rfl) fun _ => .ite (.pure _) (.bind (hscan _ _ _ _) fun r => .get (fun _ => rfl) fun _ => ?_)
  refine .ite (.bind (fun _ => rfl) fun _ => .bind (diskWriteSuper_blind ms) fun rc => ?_) (.pure _)
  exact .ite (.bind (fun _ => rfl) fun _ => .pure _) (.pure _)

theorem SameView.inodeRoom {v' : VDisk} (h : SameView v v') : v'.InodeRoom ↔ v.InodeRoom := by
  have hfree : v'.freeInodes = v.freeInodes := (SameLayout.of_sb (by rw [h.same]) (by rw [h.same])).freeInodes (by rw [h.same])
  have hnext : v'.nextInode = v.nextInode := by
    have hblind := congrArg (fun r => r.2.sb) (freeinodeUpdate_blind v'.minodes v)
    rw [h.same, VDisk.nextInode, VDisk.nextInode]
    dsimp only at hblind ⊢
    split
    · rw [hblind]
    · rfl
  have hsanity : inodeNumberSanity v' v.nextInode = inodeNumberSanity v v.nextInode := by
    rw [inodeNumberSanity, inodeNumberSanity, h.same]
  rw [VDisk.InodeRoom, VDisk.InodeRoom, hfree, hnext, hsanity]

end InodeRoom

section Back

variable {v v' : VDisk} {i ino : Nat} {cnt : Nat → Nat} {all : Set Nat} {free : List Nat}

theorem Exhausted.spares (h : Exhausted cnt ino v v') (g : Geometry v) : Spares {ino} cnt v v' where
  layout := by
    obtain ⟨_, _, _, _, hsb⟩ := h.sb
    exact ⟨h.blksize, by rw [hsb], by rw [hsb], by rw [hsb], by rw [hsb], by rw [hsb]⟩
  inode i hi hnum := by
    have hslot := h.slot g hnum
    have hother := h.other i hi
    rw [VDisk.inode, VDisk.inode, hother, hslot]
  slot i _ hnum := h.slot g hnum
  data i hi m hm hmax := by
    have hn := g.nidx_bounds
    have hplace := placeOf_data (n := v.nidx) (by omega) hmax
    have hmem : ((i, (placeOf v.nidx m).1), (placeOf v.nidx m).2) ∈ Within v.nidx cnt := hplace.mem_within _ hm
    have hnidx : v'.nidx = v.nidx := by rw [VDisk.nidx, h.blksize]; rfl
    exact ⟨by rw [VDisk.fileBlock, hnidx]; exact h.node _ hmem, h.data _ hmem fun _ => hplace.full⟩

theorem Spares.writtenBack (h : Owned v (Within v.nidx cnt) [] free all) (hnum : InodeNumber v ino)
    (hnumbers : ∀ i, cnt i ≠ 0 → InodeNumber v i) (hcached : v.Cached ino) :
    Spares {ino} cnt v (v.writtenBack ino) where
  layout := .of_sb rfl rfl
  inode i _ hi := inode_writtenBack h.geometry hnum hcached (.inr hi)
  slot i hne hi := slot_writtenBack_other h.geometry.table hnum hi hne
  data i _ m hm hmax := by
    have hn := h.geometry.nidx_bounds
    have hmem : ((i, (placeOf v.nidx m).1), (placeOf v.nidx m).2) ∈ Within v.nidx cnt :=
      (placeOf_data (by omega) hmax).mem_within _ hm
    exact ⟨(h.agree_writtenBack (within_number hnumbers) hnum hcached).node h.partition.closed hmem,
      h.blocks_writtenBack hnum (h.node_mem hmem)⟩

/-- An inode without blocks that is given back. -/
theorem inodeDeallocate_run (h : Owned v (Within v.nidx cnt) [] free all) (hnum : InodeNumber v ino)
    (hnumbers : ∀ i, cnt i ≠ 0 → InodeNumber v i) (hcnt : cnt ino = 0) :
    ∃ v', (inodeDeallocate ino).run v = ((), v') ∧ Spares {ino} cnt v v' ∧ v'.slot ino = .zero ∧ FreeList v' free := by
  obtain ⟨v₁, hget, htaken⟩ := inodeGet_live h.geometry h.live hnum
  have s₁ := SameView.of_taken htaken
  let g : Minode → Minode := fun _ => ⟨ino, false, 0, none, .zero⟩
  have hg : ∀ m : Minode, m.inodeNumber = ino → (g m).inodeNumber = ino := fun _ _ => rfl
  let v₂ := v₁.setMinode ino g
  have hinode (i : Nat) (hi : i ≠ ino) : v₂.inode i = v.inode i := by
    rw [← s₁.inode, VDisk.inode, VDisk.inode, VDisk.minode?_setMinode_other hg hi]
    rfl
  have hsame : v₂ = { v with minodes := v₂.minodes } := by
    change { v₁ with minodes := v₂.minodes } = _
    rw [htaken.same]
  have hio : v₂.io = v.io := by rw [hsame]
  have howned : Owned v₂ (Within v.nidx cnt) [] free all := (h.setMinodes hsame fun p hp => by
    rw [hinode p.1.1 fun heq => ?_]
    have hpos := hp.2
    rw [heq, hcnt] at hpos
    exact absurd hpos (Nat.not_lt_zero _)).1
  have hlay : SameLayout v v₂ := .of_sb (by rw [hsame]) (by rw [hsame])
  have hcached : v₂.Cached ino := htaken.cached.setMinode hg
  have hspares₂ : Spares {ino} cnt v v₂ := ⟨hlay, fun i hi _ => hinode i hi, fun i _ _ => by rw [hsame]; rfl,
    fun i hi m _ _ => ⟨fileBlock_congr (hinode i hi) hlay.blksize hio m, by rw [hio]⟩⟩
  have hnum₂ := hlay.inodeNumber hnum
  have hnumbers₂ (i : Nat) (hi : cnt i ≠ 0) := hlay.inodeNumber (hnumbers i hi)
  have hnidx : v₂.nidx = v.nidx := by rw [VDisk.nidx, hlay.blksize]; rfl
  rw [← hnidx] at howned
  have hback := inodeWriteback_live howned.geometry howned.live hnum₂
  have hlist := (howned.writtenBack (within_number hnumbers₂) hnum₂ hcached).list
  have hdin : v₂.din ino = .zero := by
    rw [hcached.din, VDisk.inode_some (m := g (v₁.deref ino)) (by
      rw [VDisk.minode?_setMinode_same hg, htaken.cached.deref, Option.map_some])]
  obtain ⟨v', hrun, hfiles⟩ : ∃ v', (inodeDeallocate ino).run v = ((), v') ∧ SameFiles (v₂.writtenBack ino) v' := by
    have hback' : (inodeWriteback ino).run (v₁.setMinode ino fun _ => ⟨ino, false, 0, none, .zero⟩) = _ := hback
    simp only [inodeDeallocate, Prog.run_bind, hget, modifyMinode, hback']
    exact ⟨_, rfl, _, _, _, _, _, rfl⟩
  have hlast := hfiles.spares {ino} cnt
  have hlayₙ : SameLayout v (v₂.writtenBack ino) := hlay.trans (.of_sb rfl rfl)
  refine ⟨v', hrun, (hspares₂.trans (fun _ _ => rfl) (.writtenBack howned hnum₂ hnumbers₂ hcached)).trans (fun _ _ => rfl) hlast,
    ?_, hfiles.freeList hlist⟩
  rw [(hfiles.spares ∅ cnt).slot ino (Set.notMem_empty _) (hlayₙ.inodeNumber hnum), slot_writtenBack_same howned.geometry.table
    hnum₂, hdin]

end Back

/-- What is as before after a call that failed: the entries and the links of directory `d`, the free inodes and the free
blocks. -/
structure NoTrace (d : Nat) (free : List Nat) (v v' : VDisk) : Prop where
  dirents : v'.dirents d = v.dirents d
  nlink : (v'.inode d).nlink = (v.inode d).nlink
  freeInodes : v'.freeInodes = v.freeInodes
  freeBlocks : ∃ free', FreeList v' free' ∧ ∀ b, b ∈ free' ↔ b ∈ free

section NoTrace

variable {v v' : VDisk} {d n : Nat} {inos free : List Nat} {attr : Attr} {srcname : List UInt8}

theorem SameFiles.noTrace (h : SameFiles v v') (hw : WellFormed v inos free) : NoTrace d free v v' where
  dirents := congrFun h.dirents d
  nlink := by rw [h.inode]
  freeInodes := by
    have hlay := (h.spares ∅ fun _ => 0).layout
    obtain ⟨_, _, _, _, _, rfl⟩ := h
    exact hlay.freeInodes rfl
  freeBlocks := ⟨free, h.freeList hw.list, fun _ => Iff.rfl⟩

/-- The inode that was taken is free again, the others were let be. -/
theorem Spares.freeInodes {ino : Nat} {cnt : Nat → Nat} (h : Spares {ino} cnt v v') (g : Geometry v) (hper : v.TableLayout)
    (hino : (v.slot ino).mode = 0) (hslot : (v'.slot ino).mode = 0) : v'.freeInodes = v.freeInodes := by
  rw [VDisk.freeInodes, VDisk.freeInodes, h.layout.inodes]
  refine List.filter_congr fun m hm => ?_
  rw [decide_eq_decide]
  by_cases hne : m = ino
  · rw [hne, hino, hslot]
  have hnum : InodeNumber v m := by
    rw [List.mem_range'_1] at hm
    exact (g.tableGeometry hper).number.mpr ⟨hm.1, by omega⟩
  rw [h.slot m hne hnum]

/-- An allocation of a file that finds no space for it has no effect, but for the one that finds no block for the entry. -/
theorem AllocateEnds.noTrace_iff {rc : Rc} {ino : Nat} (h : CreateReady inos v free) (hd : d ∈ inos)
    (hends : AllocateEnds inos free d srcname attr v (rc, ino) v') :
    (rc = .enospc → NoTrace d free v v') ↔ (∃ e ∈ v.dirents d, 1 ≤ e.inodeNumber ∧
      e.name = direntFilename (lookupName (direntFilename srcname))) ∨ ¬ v.InodeRoom ∨ ¬ KnownType attr.mode ∨
      (attr.mode.toNat &&& ifmt = ifdir ∧ v.sb.totalFreeblock = 0) ∨ v.EntryRoom d attr.mode := by
  have hw := h.wellFormed
  have g := hw.geometry
  rw [hw.list.total, List.length_eq_zero_iff]
  cases hends with
  | found he hpos hname => exact iff_of_true Rc.noConfusion (.inl ⟨_, he, hpos, hname⟩)
  | noInode hrefused hfiles =>
    exact iff_of_true (fun _ => hfiles.noTrace hw) (.inr (.inl (mt (inodeAllocate_code h.counted).mpr hrefused)))
  | badType htype => exact iff_of_true Rc.noConfusion (.inr (.inr (.inl htype)))
  | made _ _ hroom => exact iff_of_true Rc.noConfusion (.inr (.inr (.inr (.inr hroom))))
  | @noBlock ino w u v₁ hisdir hnone hfree hfiles hspares hu hempty hfull =>
    refine iff_of_true (fun _ => ?_) (.inr (.inr (.inr (.inl ⟨hisdir, hnone⟩))))
    obtain ⟨hnum, hmode⟩ := (mem_freeInodes g h.counted.table).mp hfree
    have hne : d ∉ ({ino} : Set Nat) := fun heq => (h.unused ino hfree).1 (Set.mem_singleton_iff.mp heq ▸ hd)
    have hspares₁ : Spares {ino} (v.counts inos) v u :=
      (hfiles.spares {ino} _).trans (fun _ _ => by rw [hfiles.counts]) hspares
    have hcounts (i : Nat) (hi : i ∉ ({ino} : Set Nat)) : u.counts (ino :: inos) i = v.counts inos i :=
      counts_other hspares₁ hi hw.number (List.mem_cons.trans (or_iff_right hi))
    have hspares₂ := hspares₁.trans hcounts (hfull.spares hu.geometry)
    have hlay := (hfull.spares hu.geometry).layout
    have hnone' : u.counts (ino :: inos) ino = 0 := by
      rw [VDisk.counts, if_pos (List.mem_cons_self ..)]
      change ceil (u.filesize ino) u.blksize = 0
      rw [hempty, ceil_zero hu.geometry.blockSize.pos]
    have hnumbers (i : Nat) (hi : u.counts (ino :: inos) i ≠ 0) : InodeNumber v₁ i := by
      refine hlay.inodeNumber (hu.number i ?_)
      by_contra hnot
      exact hi (if_neg hnot)
    obtain ⟨all, howned⟩ := hfull.owned
    have hnidx : v₁.nidx = u.nidx := by rw [VDisk.nidx, hlay.blksize]; rfl
    rw [← hnidx] at howned
    obtain ⟨v', hrun, hspares₃, hslot, hlist⟩ :=
      inodeDeallocate_run howned (hspares₂.layout.inodeNumber hnum) hnumbers hnone'
    have hspares' := hspares₂.trans hcounts hspares₃
    rw [hrun]
    refine ⟨hspares'.dirents g hne (hw.number d hd) (if_pos hd) ?_, ?_, hspares'.freeInodes g h.counted.table hmode ?_,
      [], hlist, by rw [hnone]; exact fun _ => Iff.rfl⟩
    · rw [VDisk.counts, if_pos hd]
      exact hw.le_maxBlocks hd
    · rw [hspares'.inode d hne (hw.number d hd)]
    · rw [hslot]
      rfl
  | @noGrowth _ _ hroom hblock hallocated htype hfree hmode habsent =>
    refine iff_of_false (fun htrace => ?_) ?_
    · have hmem : _ ∈ v'.freeInodes := (htrace rfl).freeInodes ▸ hfree
      have hzero := of_decide_eq_true (List.mem_filter.mp hmem).2
      rw [hmode] at hzero
      rw [KnownType, hzero] at htype
      exact absurd htype (by decide)
    · rintro (⟨e, he, hfound⟩ | hrefused | hunknown | hnone | henough)
      · exact habsent e he hfound
      · exact hrefused ((inodeAllocate_code h.counted).mp hallocated)
      · exact hunknown htype
      · exact hblock hnone
      · exact hroom henough

/-- A call of `ufs_file_allocate` that finds too few blocks or inodes leaves no trace unless it is the entry of the new
inode that has no block. -/
theorem fileAllocate_noTrace_iff (h : CreateReady inos v free) (hd : d ∈ inos) (hcached : v.Cached d)
    (hdir : (v.inode d).isdir = true) (hn : v.filesize d = direntSize * n) (hsize : SizeOk v (direntSize * (n + 1)))
    (now : Timev) :
    (((fileAllocate d srcname attr now).run v).1.1 = .enospc →
      NoTrace d free v ((fileAllocate d srcname attr now).run v).2) ↔
    (∃ e ∈ v.dirents d, 1 ≤ e.inodeNumber ∧ e.name = direntFilename (lookupName (direntFilename srcname))) ∨
      ¬ v.InodeRoom ∨ ¬ KnownType attr.mode ∨ (attr.mode.toNat &&& ifmt = ifdir ∧ v.sb.totalFreeblock = 0) ∨
      v.EntryRoom d attr.mode :=
  (fileAllocate_ends h hd hcached hdir hn hsize now).noTrace_iff h hd

end NoTrace

section Crowded

/-- A directory whose block is full, one free inode and no free block. -/
def crowdedDisk : VDisk := { pairDisk with
  sb := { pairSuper with
    volumeSize := 16, totalFreeblock := 0, nfreeblock := 0, totalFreeinode := 1, nfreeinode := 1, freeinode := fun _ => 3 }
  io := ⟨fun b => if b = 12 then
      ([[dot], [dot, dot], [1], [2], [3], [4], [5], [6]].zipIdx.foldl
        (fun buf e => Entry.setName (Entry.setInodeNumber buf e.2 2) e.2 e.1) zeroBlock)
    else fun o => if b = 2 ∧ o / dinodeSize = 2 then 0 else 1, []⟩
  minodes := [⟨2, false, 1, none, { Dinode.zero with mode := 0x41ED, nlink := 2, filesize := 512, addr := fun _ => 12 }⟩] }

theorem crowdedDisk_minode {i : Nat} (hi : i ≠ 2) : crowdedDisk.minode? i = none := by
  rw [VDisk.minode?]
  refine List.find?_eq_none.mpr fun m hm => ?_
  obtain rfl := List.mem_singleton.mp hm
  simpa using Ne.symm hi

theorem crowdedDisk_ready : CreateReady [2] crowdedDisk [] where
  wellFormed := {
    geometry := by constructor <;> decide
    live := ⟨rfl, rfl⟩
    distinct := by decide
    number := by
      intro i hi
      obtain rfl := List.mem_singleton.mp hi
      constructor <;> decide
    size := by
      intro i hi
      obtain rfl := List.mem_singleton.mp hi
      exact .inl (by decide)
    list := ⟨by decide, .nil, by decide, by decide, rfl⟩
    blocks := by decide
    sane := by decide }
  tended := {
    oneHandle := by
      rw [VDisk.OneHandle]
      decide
    room := fun i => by
      by_cases hi : i = 2
      · subst hi
        decide
      · rw [uses_none (crowdedDisk_minode hi)]
        decide
    idle := fun i _ huses => by
      by_cases hi : i = 2
      · subst hi
        exact absurd huses (by decide)
      · exact (VDisk.inode_none (crowdedDisk_minode hi)).symm }
  counted := {
    geometry := by constructor <;> decide
    table := rfl
    live := ⟨rfl, rfl⟩
    writable := rfl
    total := by decide +kernel
    nodup := by decide +kernel
    cached := by decide +kernel }
  unused := by
    have hfree : crowdedDisk.freeInodes = [3] := by decide +kernel
    rw [hfree]
    intro i hi
    obtain rfl := List.mem_singleton.mp hi
    exact ⟨by decide, by decide +kernel⟩

/-- The attributes of a file or directory of mode `mode`. -/
def bareAttr (mode : UInt16) : Attr := ⟨[], [], mode, 0, ⟨0, 0⟩, ⟨0, 0⟩, ⟨0, 0⟩⟩

/-- A directory is refused without a trace. -/
theorem fileAllocate_noTrace_crowded :
    ((fileAllocate 2 [100] (bareAttr 0x41ED) ⟨0, 0⟩).run crowdedDisk).1.1 = .enospc ∧
      NoTrace 2 [] crowdedDisk ((fileAllocate 2 [100] (bareAttr 0x41ED) ⟨0, 0⟩).run crowdedDisk).2 := by
  have hcode : ((fileAllocate 2 [100] (bareAttr 0x41ED) ⟨0, 0⟩).run crowdedDisk).1.1 = .enospc := by decide +kernel
  refine ⟨hcode, (fileAllocate_noTrace_iff (n := 8) crowdedDisk_ready (List.mem_singleton_self 2) rfl (by decide)
    (by decide) (.inl (by decide)) ⟨0, 0⟩).mpr (.inr (.inr (.inr (.inl ⟨by decide, rfl⟩)))) hcode⟩

/-- A file is refused after its inode was written. -/
theorem not_noTrace_crowded : CreateReady [2] crowdedDisk [] ∧
    ((fileAllocate 2 [100] (bareAttr 0x81A4) ⟨0, 0⟩).run crowdedDisk).1.1 = .enospc ∧
      ¬ NoTrace 2 [] crowdedDisk ((fileAllocate 2 [100] (bareAttr 0x81A4) ⟨0, 0⟩).run crowdedDisk).2 := by
  refine ⟨crowdedDisk_ready, by decide +kernel, fun htrace => ?_⟩
  have hnone : ((fileAllocate 2 [100] (bareAttr 0x81A4) ⟨0, 0⟩).run crowdedDisk).2.freeInodes ≠
      crowdedDisk.freeInodes := by decide +kernel
  exact hnone htrace.freeInodes

end Crowded

end Ufs370
