import Ufs370.EntryUpdates
import Ufs370.FreeInodes

/-! Inodes that a call does not concern, and what a change of the list of free inodes lets be. -/

namespace Ufs370

open Lib Lib.IndexForest Lib.IndexLayout

/-- From `v` to `v'` all inodes but those of `S` were let be; each inode `i` has `cnt i` blocks. -/
structure Spares (S : Set Nat) (cnt : Nat → Nat) (v v' : VDisk) : Prop where
  layout : SameLayout v v'
  inode : ∀ i, i ∉ S → InodeNumber v i → v'.inode i = v.inode i
  slot : ∀ i, i ∉ S → InodeNumber v i → v'.slot i = v.slot i
  data : ∀ i, i ∉ S → ∀ m, m < cnt i → m < maxBlocks v.nidx → v'.fileBlock i m = v.fileBlock i m ∧
    v'.io.blocks (v.fileBlock i m) = v.io.blocks (v.fileBlock i m)

/-- From `v` to `v'` only the list of free inodes changed. -/
def SameFiles (v v' : VDisk) : Prop := ∃ n f t m s, v' = { v with
  sb := { v.sb with nfreeinode := n, freeinode := f, totalFreeinode := t, modified := m }, super := s }

section Spares

variable {S T : Set Nat} {cnt cnt' : Nat → Nat} {v v' v'' : VDisk} {d i : Nat}

theorem Spares.trans (hcnt : ∀ i, i ∉ S → cnt' i = cnt i) (h : Spares S cnt v v') (h' : Spares S cnt' v' v'') :
    Spares S cnt v v'' where
  layout := h.layout.trans h'.layout
  inode i hi hnum := (h'.inode i hi (h.layout.inodeNumber hnum)).trans (h.inode i hi hnum)
  slot i hi hnum := (h'.slot i hi (h.layout.inodeNumber hnum)).trans (h.slot i hi hnum)
  data i hi m hm hmax := by
    obtain ⟨hblock, hdata⟩ := h.data i hi m hm hmax
    have hnidx : v'.nidx = v.nidx := by rw [VDisk.nidx, h.layout.blksize]; rfl
    obtain ⟨hblock', hdata'⟩ := h'.data i hi m (hcnt i hi ▸ hm) (hnidx ▸ hmax)
    rw [hblock] at hblock' hdata'
    exact ⟨hblock', hdata'.trans hdata⟩

theorem Spares.mono (hST : S ⊆ T) (h : Spares S cnt v v') : Spares T cnt v v' where
  layout := h.layout
  inode i hi := h.inode i fun hmem => hi (hST hmem)
  slot i hi := h.slot i fun hmem => hi (hST hmem)
  data i hi := h.data i fun hmem => hi (hST hmem)

theorem Beside.spares (h : Beside cnt d v v') : Spares {d} cnt v v' where
  layout := by
    obtain ⟨_, _, _, _, hsb⟩ := h.sb
    exact ⟨h.blksize, by rw [hsb], by rw [hsb], by rw [hsb], by rw [hsb], by rw [hsb]⟩
  inode := h.inode
  slot := h.slot
  data := h.data

theorem SameView.spares (h : SameView v v') (S : Set Nat) (cnt : Nat → Nat) : Spares S cnt v v' where
  layout := .of_sb (by rw [h.same]) (by rw [h.same])
  inode i _ _ := congrFun h.inode i
  slot i _ _ := congrFun h.slot i
  data i _ m _ _ := ⟨by rw [h.fileBlock], by rw [h.same]⟩

theorem SameFiles.spares (h : SameFiles v v') (S : Set Nat) (cnt : Nat → Nat) : Spares S cnt v v' := by
  obtain ⟨_, _, _, _, _, rfl⟩ := h
  exact ⟨⟨rfl, rfl, rfl, rfl, rfl, rfl⟩, fun _ _ _ => rfl, fun _ _ _ => rfl, fun _ _ _ _ _ => ⟨rfl, rfl⟩⟩

theorem fileBlock_congr (hinode : v'.inode i = v.inode i) (hblk : v'.blksize = v.blksize) (hio : v'.io = v.io) (m : Nat) :
    v'.fileBlock i m = v.fileBlock i m := by
  have hnidx : v'.nidx = v.nidx := by rw [VDisk.nidx, hblk]; rfl
  have hword : v'.word = v.word := by
    change (fun b i => Bytes.word (v'.io.blocks b) i) = _
    rw [hio]
    rfl
  rw [VDisk.fileBlock, VDisk.fileBlock, hnidx, VDisk.blockAt, VDisk.blockAt, VDisk.forest, VDisk.forest, hword]
  simp only [Forest.node, hinode]

/-- A change of the handle of `d`. -/
theorem Spares.setDinode (f : Dinode → Dinode) (v : VDisk) (d : Nat) (cnt : Nat → Nat) :
    Spares {d} cnt v (v.setDinode d f) where
  layout := .of_sb rfl rfl
  inode _ hi _ := VDisk.inode_setDinode_other hi
  slot _ _ _ := rfl
  data _ hi m _ _ := ⟨fileBlock_congr (VDisk.inode_setDinode_other hi) rfl rfl m, rfl⟩

/-- The entries of a directory that was let be. -/
theorem Spares.dirents (h : Spares S cnt v v') (g : Geometry v) (hi : i ∉ S) (hnum : InodeNumber v i)
    (hcnt : cnt i = v.blockCount i) (hmax : cnt i ≤ maxBlocks v.nidx) : v'.dirents i = v.dirents i := by
  have hinode := h.inode i hi hnum
  have hbs := g.blksize_bounds
  rw [VDisk.dirents, VDisk.dirents, hinode]
  refine List.map_congr_left fun e he => ?_
  have hlt : e / v.perBlock < cnt i := by
    rw [hcnt]
    refine (lt_ceil (by omega)).mpr (Nat.lt_of_lt_of_le (block_lt g (List.mem_range.mp he)) ?_)
    exact Nat.mul_div_le ..
  obtain ⟨hblock, hdata⟩ := h.data i hi _ hlt (Nat.lt_of_lt_of_le hlt hmax)
  rw [VDisk.direntAt, VDisk.direntAt, perBlock_congr h.layout.blksize]
  change Entry.dirent (v'.io.blocks (v'.fileBlock i _)) _ = _
  rw [hblock, hdata]
  rfl

end Spares

section Files

variable {v v' : VDisk} {inos free : List Nat} {i : Nat}

theorem SameFiles.refl (v : VDisk) : SameFiles v v := ⟨_, _, _, _, _, rfl⟩

theorem SameFiles.trans {v'' : VDisk} (h : SameFiles v v') (h' : SameFiles v' v'') : SameFiles v v'' := by
  obtain ⟨_, _, _, _, _, rfl⟩ := h
  obtain ⟨_, _, _, _, _, rfl⟩ := h'
  exact ⟨_, _, _, _, _, rfl⟩

theorem SameFiles.inode (h : SameFiles v v') : v'.inode = v.inode := by
  obtain ⟨_, _, _, _, _, rfl⟩ := h
  rfl

theorem SameFiles.minodes (h : SameFiles v v') : v'.minodes = v.minodes := by
  obtain ⟨_, _, _, _, _, rfl⟩ := h
  rfl

theorem SameFiles.dirents (h : SameFiles v v') : v'.dirents = v.dirents := by
  obtain ⟨_, _, _, _, _, rfl⟩ := h
  rfl

theorem SameFiles.counts (h : SameFiles v v') : v'.counts inos = v.counts inos := by
  obtain ⟨_, _, _, _, _, rfl⟩ := h
  rfl

theorem SameFiles.cached (h : SameFiles v v') : v'.Cached i ↔ v.Cached i := by
  obtain ⟨_, _, _, _, _, rfl⟩ := h
  rfl

theorem SameFiles.wellFormed (h : SameFiles v v') (hw : WellFormed v inos free) : WellFormed v' inos free := by
  have hlay := (h.spares ∅ fun _ => 0).layout
  obtain ⟨_, _, _, _, _, rfl⟩ := h
  exact ⟨hlay.geometry hw.geometry, ⟨hw.live.faults, hw.live.writable⟩, hw.distinct, fun i hi => hlay.inodeNumber (hw.number i hi),
    hw.size, ⟨hw.list.volume, hw.list.holds, hw.list.nodup, hw.list.sane, hw.list.total⟩, hw.blocks, hw.sane⟩

theorem SameFiles.freeList (h : SameFiles v v') (hl : FreeList v free) : FreeList v' free := by
  obtain ⟨_, _, _, _, _, rfl⟩ := h
  exact ⟨hl.volume, hl.holds, hl.nodup, hl.sane, hl.total⟩

theorem SameFiles.tended (h : SameFiles v v') (ht : Tended v) : Tended v' := by
  obtain ⟨_, _, _, _, _, rfl⟩ := h
  exact ⟨ht.oneHandle, ht.room, fun i hi => ht.idle i ⟨hi.pos, hi.slot⟩⟩

theorem SameView.wellFormed (h : SameView v v') (hw : WellFormed v inos free) : WellFormed v' inos free := by
  have hcounts : v'.counts inos = v.counts inos := by
    funext i
    rw [VDisk.counts, VDisk.counts, VDisk.blockCount, VDisk.blockCount, h.inode, h.same]
  have hnidx : v'.nidx = v.nidx := by rw [h.same]; rfl
  have howned := (hw.owned.setMinodes h.same fun _ _ => by rw [h.inode]).1
  rw [← hcounts, ← hnidx] at howned
  refine (howned.wellFormed hw.distinct (fun i hi => h.number.mpr (hw.number i hi)) fun i hi => ?_).1
  rw [h.inode]
  exact (hw.size i hi).congr (by rw [h.same])

/-- An inode without blocks. -/
theorem WellFormed.cons (hw : WellFormed v inos free) (hnum : InodeNumber v i) (hi : i ∉ inos)
    (hsize : v.filesize i = 0) : WellFormed v (i :: inos) free := by
  have hnone : v.inodeBlocks i = [] := by
    have hcount : v.blockCount i = 0 := by
      change ceil (v.filesize i) v.blksize = 0
      rw [hsize, ceil_zero hw.geometry.blockSize.pos]
    rw [VDisk.inodeBlocks, VDisk.dataBlocks, VDisk.indexBlocks, hcount]
    rfl
  refine ⟨hw.geometry, hw.live, List.nodup_cons.mpr ⟨hi, hw.distinct⟩, fun j hj => ?_, fun j hj => ?_, hw.list, ?_, ?_⟩
  · rcases List.mem_cons.mp hj with rfl | hj
    · exact hnum
    · exact hw.number j hj
  · rcases List.mem_cons.mp hj with rfl | hj
    · change SizeOk v (v.filesize j)
      rw [hsize]
      exact .inl (Nat.zero_le _)
    · exact hw.size j hj
  · rw [List.flatMap_cons, hnone]
    exact hw.blocks
  · rw [List.flatMap_cons, hnone]
    exact hw.sane

end Files

section Allocate

variable {v : VDisk}

theorem inodeTake_files (v : VDisk) : SameFiles v (inodeTake.run v).2 := by
  simp only [inodeTake, Prog.run_bind, Prog.run_ite, Prog.run_pure]
  split <;> exact ⟨_, _, _, _, _, rfl⟩

/-- An allocation of an inode changes no file. -/
theorem inodeAllocate_files (g : Geometry v) (hper : v.TableLayout) (hv : v.Live) : SameFiles v (inodeAllocate.run v).2 := by
  simp only [inodeAllocate, Prog.run_bind, Prog.run_ite, Prog.run_pure]
  by_cases hro : v.sb.readonly = true
  · rw [if_pos hro]
    exact .refl v
  rw [if_neg hro]
  by_cases htotal : v.sb.totalFreeinode = 0
  · rw [if_pos htotal]
    exact .refl v
  rw [if_neg htotal]
  by_cases hempty : v.sb.nfreeinode = 0
  swap
  · rw [if_neg hempty]
    exact inodeTake_files v
  rw [if_pos hempty]
  obtain ⟨rc, xs, w, hrun, hw⟩ := freeinodeUpdate_spec g hper (Bool.not_eq_true _ ▸ hro) hempty
  have hquiet := freeinodeUpdate_quiet.run v ⟨hv, Bool.not_eq_true _ ▸ hro⟩
  rw [hrun] at hquiet ⊢
  have hfiles : SameFiles v w := by
    obtain ⟨f, m, hfill⟩ := Superblock.fill_same v.sb 0 xs
    have hsb := hw.sb
    have hsame := hw.same
    rw [hfill] at hsb
    rw [hquiet.2.live.faults, ← hv.faults, hsb] at hsame
    exact ⟨_, _, _, _, _, hsame⟩
  dsimp only
  split
  · exact hfiles
  · exact hfiles.trans (inodeTake_files w)

end Allocate

end Ufs370
