import Ufs370.Append

/-! Where a seek may go: the targets that it must refuse, and what a refused seek leaves alone. -/

namespace Ufs370

open Lib Lib.IndexLayout

/-- The position that lies `offset` behind the base that `whence` names. -/
def seekSum (filepos filesize : Nat) (offset : Int) : Whence → Option Int
  | .set => some offset
  | .cur => some (filepos + offset)
  | .fin => some (filesize + offset)
  | .other => none

/-- A seek that works goes to the sum of base and offset, which is a position, and one that is refused changes
nothing but the error of the handle. -/
structure SeekExact (fp : File) (v : VDisk) (offset : Int) (whence : Whence) : Prop where
  done : ((fseek fp offset whence).run v).1.1 = .ok →
    ∃ pos : Int, seekSum fp.filepos (v.filesize fp.minode.ino) offset whence = some pos ∧ 0 ≤ pos ∧
      pos < 4294967296 ∧ (((fseek fp offset whence).run v).1.2.filepos : Int) = pos
  refused : ((fseek fp offset whence).run v).1.1 ≠ .ok →
    (∃ rc, ((fseek fp offset whence).run v).1.2 = fp.fail rc) ∧
      ((fseek fp offset whence).run v).2.filesize fp.minode.ino = v.filesize fp.minode.ino ∧
      ((fseek fp offset whence).run v).2.content fp.minode.ino = v.content fp.minode.ino

/-- The buffer of a handle, if it has to be written, belongs to a block of the file. -/
def File.Buffers (fp : File) (v : VDisk) : Prop := fp.dirty = true →
  ∃ m, m * v.blksize < v.filesize fp.minode.ino ∧ (fp.blkno = v.fileBlock fp.minode.ino m ∨
    fp.blkno = 0 ∧ m * v.blksize < fp.filepos ∧ fp.filepos ≤ (m + 1) * v.blksize)

/-- A change of size by a seek that `ufs_datablock_size_change` is up to. -/
structure SeekFits (fp : File) (v : VDisk) (newpos : Nat) : Prop where
  grow : v.filesize fp.minode.ino < newpos → FileSize v newpos ∧ newpos < v.filesize fp.minode.ino + 2147483648
  shrink : newpos < v.filesize fp.minode.ino →
    v.filesize fp.minode.ino ≤ newpos + 2147483648 ∧ 0 < v.sb.totalFreeblock ∧ fp.Buffers v

section Target

variable {base : Nat} {offset : Int}

theorem seekFrom_eq (hbase : base < 4294967296) (hoffset : offset < 2147483648) : seekFrom base offset =
    if 0 ≤ base + offset ∧ base + offset < 4294967296 then some (base + offset).toNat else none := by
  rw [seekFrom]
  by_cases hneg : offset < 0
  · rw [if_pos hneg]
    by_cases hunder : base < (-offset).toNat
    · rw [if_pos hunder, if_neg (by omega)]
    · rw [if_neg hunder, if_pos (by omega)]
      congr 1
      omega
  · rw [if_neg hneg]
    by_cases hover : base + offset.toNat < 4294967296
    · rw [u32_of_lt hover, if_neg (by omega), if_pos (by omega)]
      congr 1
      omega
    · have hwrap : u32 (base + offset.toNat) = base + offset.toNat - 4294967296 := by
        rw [u32]
        omega
      rw [hwrap, if_pos (by omega), if_neg (by omega)]

/-- A target of a seek with valid arguments is the sum, if that is a position. -/
theorem seekTarget_eq {filepos filesize : Nat} {whence : Whence} (hpos : filepos < 4294967296)
    (hsize : filesize < 4294967296) (hoffset : offset < 2147483648) (hwhence : whence ≠ .other)
    (hset : whence = .set → 0 ≤ offset) : ∃ pos, seekSum filepos filesize offset whence = some pos ∧
      seekTarget filepos filesize offset whence =
        if 0 ≤ pos ∧ pos < 4294967296 then some pos.toNat else none := by
  cases whence with
  | set =>
    have hnonneg := hset rfl
    refine ⟨offset, rfl, ?_⟩
    rw [seekTarget, if_pos hnonneg, if_pos ⟨hnonneg, by omega⟩]
  | cur => exact ⟨_, rfl, seekFrom_eq hpos hoffset⟩
  | fin => exact ⟨_, rfl, seekFrom_eq hsize hoffset⟩
  | other => exact absurd rfl hwhence

/-- With other arguments the target is the start of the file. -/
theorem seekTarget_bad {whence : Whence} (filepos filesize : Nat)
    (hbad : ¬ (whence ≠ .other ∧ (whence = .set → 0 ≤ offset))) :
    seekTarget filepos filesize offset whence = some 0 ∧
      ∀ pos, seekSum filepos filesize offset whence = some pos → pos < 0 := by
  cases whence with
  | set =>
    have hneg : ¬ 0 ≤ offset := fun h => hbad ⟨by decide, fun _ => h⟩
    refine ⟨by rw [seekTarget, if_neg hneg], fun pos hpos => ?_⟩
    obtain rfl : offset = pos := Option.some.inj hpos
    omega
  | cur => exact absurd ⟨by decide, fun h => absurd h (by decide)⟩ hbad
  | fin => exact absurd ⟨by decide, fun h => absurd h (by decide)⟩ hbad
  | other => exact ⟨rfl, fun pos hpos => absurd hpos (by simp [seekSum])⟩

end Target

section Moving

variable {v : VDisk} {fp : File} {newpos : Nat}

/-- The move to a position does not fail. -/
theorem seekMove_live (hv : v.Live) (fp : File) (newpos : Nat) : ∃ fp', (seekMove fp newpos).run v = ((.ok, fp'), v) ∧ fp'.filepos = newpos := by
  have hsame := datablockLast_same hv fp.minode.ino newpos
  rcases hlast : (datablockLast fp.minode.ino newpos).run v with ⟨blk, w⟩
  rw [hlast] at hsame
  obtain rfl : w = v := hsame
  by_cases h0 : blk = 0
  · simp only [seekMove, Prog.run_bind, hlast, h0, if_true, Prog.run_pure, ne_eq, not_true_eq_false, if_false]
    exact ⟨_, rfl, rfl⟩
  by_cases heq : blk = fp.blkno
  · simp only [seekMove, Prog.run_bind, hlast, h0, ← heq, Prog.run_pure, ne_eq, not_true_eq_false, if_false]
    exact ⟨_, rfl, rfl⟩
  · simp only [seekMove, fileLoad, Prog.run_bind, hlast, h0, heq, if_true, Prog.run_pure, ne_eq,
      not_true_eq_false, not_false_eq_true, if_false, vdiskRead_live hv]
    exact ⟨_, rfl, rfl⟩

/-- What writing the buffer of any handle leaves alone. -/
structure Flushed (fp : File) (v : VDisk) (fp' : File) (v' : VDisk) : Prop where
  live : v'.Live
  moved : fp.Moved fp'
  cached : v'.Cached fp.minode.ino
  filesize : v'.filesize fp.minode.ino = v.filesize fp.minode.ino

theorem fileSyncBlock_flushed (hv : v.Live) (fp : File) : ∃ fp' v', (fileSyncBlock fp).run v = (fp', v') ∧ fp.Moved fp' ∧
    (v' = v ∨ ∃ b buf, v' = v.setBlock b buf) := by
  have hwrite (b : Nat) := vdiskWrite_live hv fp.blkbuf b
  have hsame := datablockLast_same hv fp.minode.ino fp.filepos
  rcases hlast : (datablockLast fp.minode.ino fp.filepos).run v with ⟨blk, w⟩
  rw [hlast] at hsame
  obtain rfl : w = v := hsame
  by_cases hno : fp.blkno = 0
  · by_cases hblk : blk = 0
    · simp only [fileSyncBlock, hno, if_true, Prog.run_bind, hlast, hblk, Prog.run_pure]
      exact ⟨_, _, rfl, ⟨rfl, rfl⟩, .inl rfl⟩
    · simp only [fileSyncBlock, hno, if_true, Prog.run_bind, hlast, hblk, if_false, hwrite, Prog.run_pure]
      exact ⟨_, _, rfl, ⟨rfl, rfl⟩, .inr ⟨_, _, rfl⟩⟩
  · simp only [fileSyncBlock, hno, if_false, Prog.run_bind, hwrite, Prog.run_pure]
    exact ⟨_, _, rfl, ⟨rfl, rfl⟩, .inr ⟨_, _, rfl⟩⟩

/-- A handle, whatever is in it, is written without a change of sizes. -/
theorem fileSync_flushed (fp : File) (g : Geometry v) (hv : v.Live) (hnum : InodeNumber v fp.minode.ino)
    (hcached : v.Cached fp.minode.ino) : ∃ fp' v', (fileSync fp).run v = (fp', v') ∧ Flushed fp v fp' v' := by
  obtain ⟨fp', w, hblock, hmoved, hw⟩ : ∃ fp' w, (fp.dirty = true ∧ (fileSyncBlock fp).run v = (fp', w) ∨
      fp.dirty = false ∧ fp' = fp ∧ w = v) ∧ fp.Moved fp' ∧ (w = v ∨ ∃ b buf, w = v.setBlock b buf) := by
    cases hdirty : fp.dirty with
    | true =>
      obtain ⟨fp', w, hrun, hmoved, hw⟩ := fileSyncBlock_flushed hv fp
      exact ⟨fp', w, .inl ⟨rfl, hrun⟩, hmoved, hw⟩
    | false => exact ⟨fp, v, .inr ⟨rfl, rfl, rfl⟩, .refl fp, .inl rfl⟩
  have hlive : w.Live := by
    rcases hw with rfl | ⟨b, buf, rfl⟩
    · exact hv
    · exact hv.setBlock b buf
  have hminode : w.minodes = v.minodes ∧ w.sb = v.sb ∧ w.blksize = v.blksize := by
    rcases hw with rfl | ⟨b, buf, rfl⟩
    · exact ⟨rfl, rfl, rfl⟩
    · exact ⟨rfl, rfl, rfl⟩
  obtain ⟨hminodes, hsb, hbs⟩ := hminode
  have hlay : SameLayout v w := .of_sb hbs hsb
  have hfind : w.minode? fp.minode.ino = v.minode? fp.minode.ino := by
    rw [VDisk.minode?, hminodes]
    rfl
  have hcached' : w.Cached fp.minode.ino := by
    rw [VDisk.Cached, hfind]
    exact hcached
  have hsize : w.filesize fp.minode.ino = v.filesize fp.minode.ino := by
    rw [VDisk.filesize, VDisk.inode_some hcached'.deref, VDisk.filesize, VDisk.inode_some (hfind ▸ hcached'.deref)]
  by_cases hflag : (w.deref fp.minode.ino).dirty = true
  · have gw := hlay.geometry g
    have hnumw := hlay.inodeNumber hnum
    have hwriteback := inodeWriteback_live gw hlive hnumw
    have hflags := SameData.setMinode (g := fun m => { m with dirty := false }) (fun _ => rfl) (fun _ => rfl)
      (fun _ => rfl) (w.writtenBack fp.minode.ino) fp.minode.ino
    have hs := (SameData.writtenBack gw hnumw hcached').trans hflags
    refine ⟨fp', _, ?_, ⟨hs.faults.trans hlive.faults, hs.readonly.trans hlive.writable⟩, hmoved,
      (hs.cached _).mpr hcached', (hs.filesize _ (.inl hcached')).trans hsize⟩
    rcases hblock with ⟨hdirty, hrun⟩ | ⟨hclean, rfl, rfl⟩
    · simp only [fileSync, hdirty, if_true, Prog.run_bind, hrun, hmoved.minode, hflag, hwriteback, modifyMinode,
        Prog.run_pure]
    · simp only [fileSync, hclean, Bool.false_eq_true, if_false, if_true, Prog.run_bind, Prog.run_pure, hflag,
        hwriteback, modifyMinode]
  · refine ⟨fp', w, ?_, hlive, hmoved, hcached', hsize⟩
    rcases hblock with ⟨hdirty, hrun⟩ | ⟨hclean, rfl, rfl⟩
    · simp only [fileSync, hdirty, if_true, Prog.run_bind, hrun, hmoved.minode, hflag, Bool.false_eq_true, if_false,
        Prog.run_pure]
    · simp only [fileSync, hclean, Bool.false_eq_true, if_false, Prog.run_bind, Prog.run_pure, hflag]

end Moving

section Resizing

variable {cnt : Nat → Nat} {all : Set Nat} {v v' : VDisk} {free : List Nat} {fp : File} {newpos ino : Nat}

/-- A refused growth leaves the bytes of the file alone. -/
theorem Exhausted.content (h : Stored cnt all ino v free) (he : Exhausted cnt ino v v') :
    v'.filesize ino = v.filesize ino ∧ v'.content ino = v.content ino := by
  obtain ⟨a, hown⟩ := he.own
  have hsize : v'.filesize ino = v.filesize ino := by
    rw [h.cached.deref, Option.map_some] at hown
    rw [VDisk.filesize, VDisk.inode_some hown, VDisk.filesize, VDisk.inode_some h.cached.deref]
  have hnidx : v'.nidx = v.nidx := by rw [VDisk.nidx, he.blksize]; rfl
  refine ⟨hsize, ?_⟩
  rw [VDisk.content, VDisk.content, hsize]
  refine List.map_congr_left fun k hk => ?_
  have hlt : k / v.blksize * v.blksize < v.filesize ino := block_start_lt (List.mem_range.mp hk)
  have hmem := h.mem_within hlt
  have hfile : v'.fileBlock ino (k / v.blksize) = v.fileBlock ino (k / v.blksize) := by
    rw [VDisk.fileBlock, hnidx]
    exact he.node _ hmem
  rw [VDisk.fileByte, he.blksize, hfile, VDisk.fileByte]
  exact congrFun (he.data _ hmem fun _ => (h.dataPlace hlt).full) _

/-- A file that gives back blocks while others are free. -/
theorem Stored.shrink {newsz : Nat} (h : Stored cnt all ino v free) (hless : newsz ≤ v.filesize ino)
    (hdown : v.filesize ino ≤ newsz + 2147483648) (hfree : 0 < v.sb.totalFreeblock) :
    ∃ v' free', (datablockSizeChange newsz ino).run v = (.ok, v') ∧ Resized cnt all ino newsz v free v' free' := by
  have hceil : ceil newsz v.blksize ≤ ceil (v.filesize ino) v.blksize := Nat.div_le_div_right (by omega)
  have hnew : FileSize v newsz := ⟨Nat.lt_of_le_of_lt hless h.size.lt, h.size.addr.mono hceil⟩
  have hne : free ≠ [] := List.ne_nil_of_length_pos (h.owned.list.total ▸ hfree)
  rcases datablockSizeChange_spec h.owned h.numbers h.number h.cached h.count h.size hnew
    (Nat.lt_of_le_of_lt hless (Nat.lt_add_of_pos_right (by decide))) hdown fun _ => .inl hne with ⟨_, _, _, _, hshort, _⟩ | hdone
  · have hmono := placesOf_length_mono v.nidx hceil
    rw [h.count] at hshort
    omega
  · exact hdone

/-- A buffer that belongs to a block of the file is written there. -/
theorem File.Buffers.sync (h : Stored cnt all fp.minode.ino v free) (hbuf : fp.Buffers v) :
    ∃ fp' v', (fileSync fp).run v = (fp', v') ∧ Stored cnt all fp.minode.ino v' free ∧ fp.Moved fp' ∧
      v'.filesize fp.minode.ino = v.filesize fp.minode.ino ∧ v'.sb.totalFreeblock = v.sb.totalFreeblock := by
  cases hdirty : fp.dirty with
  | false =>
    obtain ⟨v', hrun, hs, -⟩ := fileSync_clean h hdirty
    exact ⟨fp, v', hrun, h.same hs, .refl fp, hs.filesize _ (.inl h.cached), by rw [hs.sb]⟩
  | true =>
    obtain ⟨m, hlt, hblock⟩ := hbuf hdirty
    have hne := h.block_pos hlt
    have hwrite := vdiskWrite_live h.owned.live fp.blkbuf (v.fileBlock fp.minode.ino m)
    have hsync : (fileSyncBlock fp).run v = ({ fp with blkno := v.fileBlock fp.minode.ino m, dirty := false },
        v.setBlock (v.fileBlock fp.minode.ino m) fp.blkbuf) := by
      rcases hblock with hb | ⟨hb, hlo, hhi⟩
      · simp only [fileSyncBlock, hb, hne, if_false, Prog.run_bind, Prog.run_pure, hwrite]
      · simp only [fileSyncBlock, hb, if_true, h.last hlt hlo hhi, hne, if_false, Prog.run_bind, Prog.run_pure, hwrite]
    have hw := h.setBlock hlt fp.blkbuf
    obtain ⟨v', hrun, hs, -⟩ := @fileSync_clean _ _ _ _
      { fp with blkno := v.fileBlock fp.minode.ino m, dirty := false } hw rfl
    rw [← fileSync_dirty hdirty rfl hsync] at hrun
    refine ⟨_, v', hrun, hw.same hs, ⟨rfl, rfl⟩, ?_, by rw [hs.sb]; rfl⟩
    rw [hs.filesize _ (.inl hw.cached), h.filesize_setBlock hlt]

/-- A seek of a handle for output changes the size of the file, or it is refused and leaves the file alone. -/
theorem seekResize_done (h : Stored cnt all fp.minode.ino v free)
    (hfits : fp.mode.read = false → SeekFits fp v newpos) :
    (∃ fp' v', (seekResize fp newpos).run v = ((.ok, fp'), v') ∧ v'.Live) ∨
      ∃ rc v', (seekResize fp newpos).run v = ((rc, fp), v') ∧ rc ≠ .ok ∧ newpos ≠ 0 ∧
        v'.filesize fp.minode.ino = v.filesize fp.minode.ino ∧ v'.content fp.minode.ino = v.content fp.minode.ino := by
  by_cases hup : v.filesize fp.minode.ino < newpos ∧ (!fp.mode.read) = true
  · obtain ⟨hless, hread⟩ := hup
    obtain ⟨hnew, hnear⟩ := (hfits (by simpa using hread)).grow hless
    have hup : (v.din fp.minode.ino).filesize.toNat < newpos ∧ (!fp.mode.read) = true := ⟨h.din ▸ hless, hread⟩
    have hceil : ceil (v.filesize fp.minode.ino) v.blksize ≤ ceil newpos v.blksize := Nat.div_le_div_right (by omega)
    rcases datablockSizeChange_spec h.owned h.numbers h.number h.cached h.count h.size hnew hnear
      (Nat.le_trans (Nat.le_of_lt hless) (Nat.le_add_right ..)) fun hlt => absurd hlt (Nat.not_lt.mpr hceil) with
      ⟨rc, v', hrun, hrc, -, hex⟩ | ⟨v', free', hrun, r⟩
    · refine .inr ⟨rc, v', ?_, hrc, by omega, hex.content h⟩
      simp only [seekResize, Prog.run_bind, hup, and_self, if_true, hrun, hrc, ne_eq, not_false_eq_true, Prog.run_pure]
    · have hs := r.stored h hnew
      obtain ⟨fp', w, hsync, hw⟩ := fileSync_flushed fp hs.owned.geometry hs.owned.live hs.number hs.cached
      have hfile : (w.din fp.minode.ino).filesize.toNat = newpos := by
        rw [hw.cached.din]
        exact hw.filesize.trans (r.filesize_eq h hnew)
      refine .inl ⟨fp', w, ?_, hw.live⟩
      simp only [seekResize, Prog.run_bind, hup, and_self, if_true, hrun, ne_eq, not_true_eq_false, if_false, hsync, hfile,
        Nat.lt_irrefl, false_and, Prog.run_pure]
  · have hno : ¬ ((v.din fp.minode.ino).filesize.toNat < newpos ∧ (!fp.mode.read) = true) := h.din ▸ hup
    left
    by_cases hdown : newpos < v.filesize fp.minode.ino ∧ (!fp.mode.read) = true
    · obtain ⟨hless, hread⟩ := hdown
      obtain ⟨hnear, hfree, hbuf⟩ := (hfits (by simpa using hread)).shrink hless
      obtain ⟨fp', w, hsync, hs, hmoved, hsize, htotal⟩ := hbuf.sync h
      have hle : newpos ≤ w.filesize fp.minode.ino := hsize ▸ Nat.le_of_lt hless
      obtain ⟨v', free', hrun, r⟩ := hs.shrink hle (hsize ▸ hnear) (htotal ▸ hfree)
      have hdown : newpos < (w.din fp.minode.ino).filesize.toNat ∧ (!fp'.mode.read) = true := by
        rw [hs.din, hsize, hmoved.mode]
        exact ⟨hless, hread⟩
      refine ⟨fp', v', ?_, r.owned.live⟩
      simp only [seekResize, Prog.run_bind, hno, if_false, Prog.run_pure, ne_eq, not_true_eq_false, hsync, hdown,
        and_self, if_true, hrun]
    · obtain ⟨fp', w, hsync, hw⟩ := fileSync_flushed fp h.owned.geometry h.owned.live h.number h.cached
      have hstays : ¬ (newpos < (w.din fp.minode.ino).filesize.toNat ∧ (!fp'.mode.read) = true) := by
        have hsize : (w.din fp.minode.ino).filesize.toNat = v.filesize fp.minode.ino := by
          rw [hw.cached.din]
          exact hw.filesize
        rwa [hsize, hw.moved.mode]
      refine ⟨fp', w, ?_, hw.live⟩
      simp only [seekResize, Prog.run_bind, hno, if_false, Prog.run_pure, ne_eq, not_true_eq_false, hsync, hstays]

/-- A seek of any handle to a target reaches it, or it is refused and leaves the file alone. -/
theorem fseek_done (h : Stored cnt all fp.minode.ino v free) {offset : Int} {whence : Whence}
    (htarget : seekTarget fp.filepos (v.filesize fp.minode.ino) offset whence = some newpos)
    (hfits : fp.mode.write = true → fp.mode.read = false → SeekFits fp v newpos) :
    (∃ fp' v', (fseek fp offset whence).run v = ((.ok, fp'), v') ∧ fp'.filepos = newpos) ∨
      ∃ rc v', (fseek fp offset whence).run v = ((rc, fp.fail rc), v') ∧ rc ≠ .ok ∧ newpos ≠ 0 ∧
        v'.filesize fp.minode.ino = v.filesize fp.minode.ino ∧ v'.content fp.minode.ino = v.content fp.minode.ino := by
  rw [← h.din] at htarget
  cases hwrite : fp.mode.write with
  | false =>
    obtain ⟨fp', hmove, hpos⟩ := seekMove_live h.owned.live fp newpos
    exact .inl ⟨fp', v, fseek_run (r := (_, _)) htarget (.inr ⟨hwrite, rfl, rfl⟩) hmove, hpos⟩
  | true =>
    rcases seekResize_done h (hfits hwrite) with ⟨fp', v', hresize, hlive⟩ | ⟨rc, v', hresize, hrc, hne, hsame⟩
    · obtain ⟨fp'', hmove, hpos⟩ := seekMove_live hlive fp' newpos
      exact .inl ⟨fp'', v', fseek_run (r := (_, _)) htarget (.inl ⟨hwrite, hresize⟩) hmove, hpos⟩
    · refine .inr ⟨rc, v', ?_, hrc, hne, hsame⟩
      simp only [fseek, Prog.run_bind, htarget, hwrite, if_true, hresize, hrc, ne_eq, not_false_eq_true, Prog.run_pure]

end Resizing

end Ufs370
