import Ufs370.Bytewise
import Ufs370.Content
import Ufs370.Lib.Cursor

/-! What an open file holds, with one of its blocks in the buffer of the handle. -/

namespace Ufs370

open Lib

/-- Byte `k` of a file, of which block `m` is in the buffer. -/
def File.shown (fp : File) (m : Nat) (v : VDisk) (k : Nat) : UInt8 :=
  if k / v.blksize = m then fp.blkbuf (k % v.blksize) else v.fileByte fp.minode.ino k

/-- A handle with block `m` of its file in the buffer, and the values of `f` in the blocks of the file.
A handle of an empty file has no block number, and finds the number of the block that it fills when it
writes it. -/
structure Holds (fp : File) (m : Nat) (f : Nat → UInt8) (v : VDisk) : Prop where
  byte : ∀ k, f k = if k / v.blksize * v.blksize < v.filesize fp.minode.ino then fp.shown m v k else 0
  clean : fp.dirty = false → ∀ o < v.blksize, fp.blkbuf o =
    if m * v.blksize < v.filesize fp.minode.ino then v.io.blocks (v.fileBlock fp.minode.ino m) o else 0
  err : fp.err = false
  eof : fp.eof = true → v.filesize fp.minode.ino ≤ fp.filepos
  pos : fp.filepos = m * v.blksize + fp.blkpos
  bound : fp.blkpos ≤ v.blksize
  within : fp.dirty = true → fp.filepos ≤ v.filesize fp.minode.ino
  block : fp.blkno = v.fileBlock fp.minode.ino m ∧ m * v.blksize < v.filesize fp.minode.ino ∨
    fp.blkno = 0 ∧ (fp.dirty = true → 0 < fp.blkpos)

/-- `fp'` is `fp` at another position and with another buffer. -/
structure File.Moved (fp fp' : File) : Prop where
  mode : fp'.mode = fp.mode
  minode : fp'.minode = fp.minode

section Handle

variable {cnt : Nat → Nat} {all : Set Nat} {v : VDisk} {free : List Nat} {fp fp' : File} {m n k : Nat}
  {f : Nat → UInt8} {ys : List UInt8}

theorem File.Moved.refl (fp : File) : fp.Moved fp := ⟨rfl, rfl⟩

theorem File.Moved.trans {fp'' : File} (h : fp.Moved fp') (h' : fp'.Moved fp'') : fp.Moved fp'' :=
  ⟨h'.mode.trans h.mode, h'.minode.trans h.minode⟩

/-- A buffer with a block as it is on the disk shows the file as it is on the disk. -/
theorem File.shown_disk (hbuf : fp.blkbuf = v.io.blocks (v.fileBlock fp.minode.ino m)) (k : Nat) :
    fp.shown m v k = v.fileByte fp.minode.ino k := by
  rw [File.shown, hbuf, VDisk.fileByte]
  split
  · rename_i heq
    rw [heq]
  · rfl

namespace Holds

variable (h : Stored cnt all fp.minode.ino v free) (hf : Holds fp m f v)
include h hf

omit h in
/-- A dirty buffer belongs to a block. -/
theorem dirty_block (hdirty : fp.dirty = true) : m * v.blksize < v.filesize fp.minode.ino := by
  rcases hf.block with ⟨_, hlt⟩ | ⟨_, hpos⟩
  · exact hlt
  · have hwithin := hf.within hdirty
    have := hpos hdirty
    rw [hf.pos] at hwithin
    omega

omit h in
theorem byte_of_lt (hk : k < v.filesize fp.minode.ino) : f k = fp.shown m v k := by
  rw [hf.byte, if_pos (block_start_lt hk)]

omit h in
/-- Behind the blocks of the file there is nothing. -/
theorem byte_zero (hk : v.filesize fp.minode.ino ≤ k / v.blksize * v.blksize) : f k = 0 := by
  rw [hf.byte, if_neg (Nat.not_lt.mpr hk)]

/-- A buffer with nothing to write back shows what is on the disk. -/
theorem shown_clean (hclean : fp.dirty = false)
    (hk : k / v.blksize * v.blksize < v.filesize fp.minode.ino) :
    fp.shown m v k = v.fileByte fp.minode.ino k := by
  rw [File.shown]
  split
  · rename_i heq
    rw [hf.clean hclean _ (Nat.mod_lt _ h.blksize_pos), if_pos (heq ▸ hk), VDisk.fileByte, heq]
  · rfl

/-- With nothing to write back, the file is on the disk. -/
theorem content (hclean : fp.dirty = false) :
    v.content fp.minode.ino = (List.range (v.filesize fp.minode.ino)).map f := by
  refine List.map_congr_left fun k hk => ?_
  have hk := List.mem_range.mp hk
  rw [hf.byte_of_lt hk, hf.shown_clean h hclean (block_start_lt hk)]

omit h in
/-- The byte at the position, where the buffer has it. -/
theorem byte_buffer (hmore : fp.filepos < v.filesize fp.minode.ino) (hpos : fp.blkpos < v.blksize) :
    f fp.filepos = fp.blkbuf fp.blkpos := by
  have hdiv : fp.filepos / v.blksize = m := by
    rw [hf.pos]
    exact Nat.div_eq_of_lt_le (Nat.le_add_right ..) (by rw [Nat.succ_mul]; omega)
  have hmod : fp.filepos % v.blksize = fp.blkpos := by
    rw [hf.pos, Nat.add_comm, Nat.add_mul_mod_self_right, Nat.mod_eq_of_lt hpos]
  rw [hf.byte_of_lt hmore, File.shown, if_pos hdiv, hmod]

omit h in
theorem take (hn : fp.filepos + n ≤ v.filesize fp.minode.ino) (hroom : fp.blkpos + n ≤ v.blksize)
    (heof : n ≠ 0 → fp.eof = false) : Holds (fp.take n).2 m f v where
  byte := hf.byte
  clean := hf.clean
  err := hf.err
  eof he := by
    by_cases hn0 : n = 0
    · subst hn0
      exact hf.eof he
    · rw [show (fp.take n).2.eof = fp.eof from rfl, heof hn0] at he
      cases he
  pos := by
    change fp.filepos + n = m * v.blksize + (fp.blkpos + n)
    rw [hf.pos, Nat.add_assoc]
  bound := hroom
  within _ := hn
  block := hf.block.imp_right fun ⟨h0, hpos⟩ => ⟨h0, fun hd => Nat.add_pos_left (hpos hd) n⟩

/-- At the end of a buffer with nothing to write back comes the next block. -/
theorem next (hclean : fp.dirty = false) (hmore : fp.filepos < v.filesize fp.minode.ino)
    (hend : fp.blkpos = v.blksize) :
    ∃ fp', (nextBlock fp).run v = ((true, fp'), v) ∧ Holds fp' (m + 1) f v ∧ fp.Moved fp' ∧
      fp'.filepos = fp.filepos ∧ fp'.blkpos = 0 ∧ fp'.dirty = false := by
  have hstart : fp.filepos = (m + 1) * v.blksize := by rw [hf.pos, hend, Nat.succ_mul]
  have hlt : (m + 1) * v.blksize < v.filesize fp.minode.ino := hstart ▸ hmore
  have hlen := h.size.lt
  have hpos := h.blksize_pos
  have hu : u32 (fp.filepos + 1) = (m + 1) * v.blksize + 1 := by
    rw [← hstart]
    exact u32_of_lt (by omega)
  have hmod : fp.filepos % v.blksize = 0 := by rw [hstart, Nat.mul_mod_left]
  have hlast : (datablockLast fp.minode.ino ((m + 1) * v.blksize + 1)).run v =
      (v.fileBlock fp.minode.ino (m + 1), v) :=
    h.last hlt (Nat.lt_succ_self _) (by rw [Nat.succ_mul (m + 1)]; omega)
  have hne := h.block_pos hlt
  refine ⟨{ fp with
    blkno := v.fileBlock fp.minode.ino (m + 1)
    blkbuf := v.io.blocks (v.fileBlock fp.minode.ino (m + 1))
    blkpos := fp.filepos % v.blksize }, ?_, ?_, ⟨rfl, rfl⟩, rfl, hmod, hclean⟩
  · simp only [nextBlock, fileLoad, Prog.run_bind, hu, hlast, hne, if_false, vdiskRead_live h.owned.live,
      ne_eq, not_true_eq_false, Prog.run_pure]
  · refine ⟨fun k => ?_, fun _ o _ => (if_pos hlt).symm ▸ rfl, hf.err, hf.eof, ?_, ?_, hf.within,
      .inl ⟨rfl, hlt⟩⟩
    · rw [hf.byte k]
      refine if_ctx_congr Iff.rfl (fun hk => ?_) fun _ => rfl
      rw [hf.shown_clean h hclean hk, File.shown_disk (m := m + 1) rfl k]
    · change fp.filepos = (m + 1) * v.blksize + fp.filepos % v.blksize
      rw [hmod, Nat.add_zero, hstart]
    · change fp.filepos % v.blksize ≤ v.blksize
      rw [hmod]
      exact Nat.zero_le _

end Holds

section Reading

theorem fileGetc_end (h : Stored cnt all fp.minode.ino v free) (herr : fp.err = false)
    (hread : fp.mode.read = true) (hend : v.filesize fp.minode.ino ≤ fp.filepos) :
    (fileGetc fp).run v = ((none, { fp with eof := true }), v) := by
  by_cases heof : fp.eof
  · rw [show ({ fp with eof := true } : File) = fp by rw [← heof]]
    simp only [fileGetc, heof, if_true, Prog.run_pure]
  · exact fileGetc_eof (Bool.eq_false_iff.mpr heof) herr hread (h.din.symm ▸ hend)

variable (h : Stored cnt all fp.minode.ino v free) (hf : Holds fp m f v) (hread : fp.mode.read = true)
include h hf hread

/-- A byte that is there is read, unless the buffer is at its end and has yet to be written. -/
theorem Holds.getc_more (hmore : fp.filepos < v.filesize fp.minode.ino)
    (hdirty : fp.dirty = true → fp.blkpos < v.blksize) :
    ∃ fp' m', (fileGetc fp).run v = ((some (f fp.filepos), fp'), v) ∧
      Holds fp' m' f v ∧ fp.Moved fp' ∧ fp'.filepos = fp.filepos + 1 ∧ fp'.dirty = fp.dirty ∧
      (fp.blkpos < v.blksize → fp'.blkpos = fp.blkpos + 1) := by
  have heof : fp.eof = false := Bool.eq_false_iff.mpr fun he => Nat.not_lt.mpr (hf.eof he) hmore
  have hsize : fp.filepos < (v.din fp.minode.ino).filesize.toNat := h.din.symm ▸ hmore
  have hreadable : fp.Readable v := ⟨heof, hf.err, hread, hsize⟩
  by_cases hpos : fp.blkpos < v.blksize
  · rw [hf.byte_buffer hmore hpos]
    exact ⟨_, m, fileGetc_buffer hreadable hpos, hf.take hmore hpos fun _ => heof, ⟨rfl, rfl⟩, rfl, rfl,
      fun _ => rfl⟩
  · have hclean : fp.dirty = false := Bool.eq_false_iff.mpr fun hd => hpos (hdirty hd)
    have hend : fp.blkpos = v.blksize := Nat.le_antisymm hf.bound (Nat.not_lt.mp hpos)
    obtain ⟨fp', hnext, hf', hmoved, hfilepos, hblkpos, hclean'⟩ := hf.next h hclean hmore hend
    have hmore' : fp'.filepos < v.filesize fp'.minode.ino := by rwa [hfilepos, hmoved.minode]
    have hpos' : fp'.blkpos < v.blksize := by
      rw [hblkpos]
      exact h.blksize_pos
    have heof' : fp'.eof = false := Bool.eq_false_iff.mpr fun he => Nat.not_lt.mpr (hf'.eof he) hmore'
    refine ⟨(fp'.take 1).2, m + 1, ?_, hf'.take hmore' hpos' fun _ => heof', hmoved.trans ⟨rfl, rfl⟩, ?_,
      hclean'.trans hclean.symm, fun h => absurd h hpos⟩
    · rw [← hfilepos, hf'.byte_buffer hmore' hpos']
      simp only [fileGetc, heof, hf.err, hread, Nat.not_le.mpr hsize, Nat.not_lt.mp hpos, Bool.not_true,
        Bool.false_eq_true, if_false, if_true, Prog.run_bind, hnext, Prog.run_pure]
    · change fp'.filepos + 1 = fp.filepos + 1
      rw [hfilepos]

/-- Reading is reading at the cursor, if what is to be written stays in the buffer. -/
theorem Holds.getcs (hdirty : fp.dirty = true → fp.blkpos + n ≤ v.blksize ∨
      v.filesize fp.minode.ino ≤ fp.filepos + (v.blksize - fp.blkpos)) :
    ∃ fp' m', (Ufs370.getcs n fp).run v =
        (((Cursor.get ⟨(List.range (v.filesize fp.minode.ino)).map f, fp.filepos⟩ n).1, fp'), v) ∧
      Holds fp' m' f v ∧ fp.Moved fp' ∧ fp'.filepos =
        (Cursor.get ⟨(List.range (v.filesize fp.minode.ino)).map f, fp.filepos⟩ n).2.pos ∧
      fp'.dirty = fp.dirty := by
  have hlen : ((List.range (v.filesize fp.minode.ino)).map f).length = v.filesize fp.minode.ino := by
    rw [List.length_map, List.length_range]
  induction n generalizing fp m with
  | zero =>
    refine ⟨fp, m, ?_, hf, .refl fp, ?_, rfl⟩
    · rw [Cursor.get_zero]
      rfl
    · rw [Cursor.get_zero]
  | succ n ih =>
    by_cases hend : v.filesize fp.minode.ino ≤ fp.filepos
    · have hget := Cursor.get_end (c := ⟨(List.range (v.filesize fp.minode.ino)).map f, fp.filepos⟩)
        (n := n + 1) (hlen.symm ▸ hend)
      refine ⟨{ fp with eof := true }, m, ?_, { hf with eof := fun _ => hend }, ⟨rfl, rfl⟩, ?_, rfl⟩
      · rw [getcs_stop (fileGetc_end h hf.err hread hend), hget]
      · rw [hget]
    · have hmore := Nat.not_le.mp hend
      obtain ⟨fp₁, m₁, hrun, hf₁, hmoved, hpos, hdirty₁, hblkpos⟩ :=
        hf.getc_more h hread hmore fun hd => by rcases hdirty hd with _ | _ <;> omega
      have hminode := hmoved.minode
      have h₁ : Stored cnt all fp₁.minode.ino v free := hminode ▸ h
      obtain ⟨fp₂, m₂, hrest, hf₂, hmoved₂, hpos₂, hdirty₂⟩ :=
        ih h₁ hf₁ (hmoved.mode ▸ hread) (fun hd => by
          have hbuf : fp.blkpos < v.blksize := by
            rcases hdirty (hdirty₁ ▸ hd) with _ | _ <;> omega
          rw [hblkpos hbuf, hpos, hminode]
          rcases hdirty (hdirty₁ ▸ hd) with _ | _ <;> omega) (hminode ▸ hlen)
      have hcons := Cursor.get_succ (n := n)
        (c := ⟨(List.range (v.filesize fp.minode.ino)).map f, fp.filepos⟩) (hlen.symm ▸ hmore)
      rw [List.getElem_map, List.getElem_range] at hcons
      rw [hpos, hminode] at hrest hpos₂
      refine ⟨fp₂, m₂, ?_, hf₂, hmoved.trans hmoved₂, ?_, hdirty₂.trans hdirty₁⟩
      · rw [getcs_byte hrun, hrest, hcons]
      · rw [hpos₂, hcons]

theorem Holds.getn (hdirty : fp.dirty = true → fp.blkpos + n ≤ v.blksize ∨
      v.filesize fp.minode.ino ≤ fp.filepos + (v.blksize - fp.blkpos)) :
    ∃ fp' m', (fileGetn fp n).run v =
        (((Cursor.get ⟨(List.range (v.filesize fp.minode.ino)).map f, fp.filepos⟩ n).1, fp'), v) ∧
      Holds fp' m' f v ∧ fp.Moved fp' ∧ fp'.filepos =
        (Cursor.get ⟨(List.range (v.filesize fp.minode.ino)).map f, fp.filepos⟩ n).2.pos ∧
      fp'.dirty = fp.dirty := by
  rw [fileGetn_getcs h.blksize_pos hf.bound]
  exact hf.getcs h hread hdirty

end Reading

section Syncing

variable {v' : VDisk}

/-- Times, flags and inode slots are nothing to a handle. -/
theorem Holds.same (hf : Holds fp m f v) (h : Stored cnt all fp.minode.ino v free) (hs : SameData v v') :
    Holds fp m f v' := by
  have hsize := hs.filesize _ (.inl h.cached)
  refine ⟨fun k => ?_, fun hclean o ho => ?_, hf.err, ?_, ?_, ?_, ?_, ?_⟩
  · rw [hf.byte k, hsize, hs.blksize]
    refine if_ctx_congr Iff.rfl (fun hk => ?_) fun _ => rfl
    rw [File.shown, File.shown, hs.blksize, h.fileByte_same hs hk]
  · rw [hs.blksize] at ho ⊢
    rw [hf.clean hclean o ho, hsize]
    split
    · rename_i hlt
      rw [h.data_same hs hlt]
    · rfl
  · rw [hsize]
    exact hf.eof
  · rw [hs.blksize, hf.pos]
  · rw [hs.blksize]
    exact hf.bound
  · rw [hsize]
    exact hf.within
  · rw [hs.blksize, hsize]
    refine hf.block.imp_left fun ⟨hb, hlt⟩ => ⟨?_, hlt⟩
    rw [h.fileBlock_same hs hlt, hb]

variable (h : Stored cnt all fp.minode.ino v free) (hf : Holds fp m f v)
include h hf

theorem Holds.syncBlock (hdirty : fp.dirty = true) : (fileSyncBlock fp).run v =
    ({ fp with blkno := v.fileBlock fp.minode.ino m, dirty := false },
      v.setBlock (v.fileBlock fp.minode.ino m) fp.blkbuf) := by
  have hlt := hf.dirty_block hdirty
  have hne := h.block_pos hlt
  have hwrite := vdiskWrite_live h.owned.live fp.blkbuf (v.fileBlock fp.minode.ino m)
  rcases hf.block with ⟨hb, _⟩ | ⟨hb, hpos⟩
  · simp only [fileSyncBlock, hb, hne, if_false, Prog.run_bind, Prog.run_pure, hwrite]
  · have hbound := hf.bound
    have hfilepos := hf.pos
    have hlast : (datablockLast fp.minode.ino fp.filepos).run v = (v.fileBlock fp.minode.ino m, v) :=
      h.last hlt (by have := hpos hdirty; omega) (by rw [hfilepos, Nat.succ_mul]; omega)
    simp only [fileSyncBlock, hb, if_true, hlast, hne, if_false, Prog.run_bind, Prog.run_pure, hwrite]

theorem Holds.written (hdirty : fp.dirty = true) :
    Stored cnt all fp.minode.ino (v.setBlock (v.fileBlock fp.minode.ino m) fp.blkbuf) free ∧
      Holds { fp with blkno := v.fileBlock fp.minode.ino m, dirty := false } m f
        (v.setBlock (v.fileBlock fp.minode.ino m) fp.blkbuf) := by
  have hlt := hf.dirty_block hdirty
  have hsize := h.filesize_setBlock hlt fp.blkbuf
  refine ⟨h.setBlock hlt _, ⟨fun k => ?_, fun _ o _ => ?_, hf.err, ?_, hf.pos, hf.bound, ?_,
    .inl ⟨(h.fileBlock_setBlock hlt _ hlt).symm, ?_⟩⟩⟩
  · rw [hf.byte k, hsize]
    refine if_ctx_congr Iff.rfl (fun hk => ?_) fun _ => rfl
    rw [File.shown, File.shown, h.fileByte_setBlock hlt _ hk]
    simp only [VDisk.setBlock_blksize]
    split <;> rfl
  · rw [hsize, if_pos (show m * (v.setBlock _ _).blksize < _ from hlt), h.fileBlock_setBlock hlt _ hlt,
      VDisk.setBlock_self]
  · rw [hsize]
    exact hf.eof
  · exact fun hd => absurd hd Bool.false_ne_true
  · rw [hsize]
    exact hlt

omit h hf in
theorem fileSync_dirty {w : VDisk} (hdirty : fp.dirty = true) (hclean : fp'.dirty = false)
    (hrun : (fileSyncBlock fp).run v = (fp', w)) : (fileSync fp).run v = (fileSync fp').run w := by
  simp only [fileSync, hdirty, hclean, Bool.false_eq_true, if_true, if_false, Prog.run_bind, hrun,
    Prog.run_pure]

omit hf in
/-- Only the inode is written if the buffer is not dirty. -/
theorem fileSync_clean (hclean : fp.dirty = false) : ∃ v', (fileSync fp).run v = (fp, v') ∧
    SameData v v' ∧ (v.InSlot fp.minode.ino → v'.InSlot fp.minode.ino) := by
  simp only [fileSync, hclean, Bool.false_eq_true, if_false, Prog.run_bind, Prog.run_pure]
  by_cases hflag : (v.deref fp.minode.ino).dirty
  · have hwriteback := inodeWriteback_live h.owned.geometry h.owned.live h.number
    simp only [hflag, if_true, Prog.run_bind, hwriteback, modifyMinode, Prog.run_pure]
    exact ⟨_, rfl, (SameData.writtenBack h.owned.geometry h.number h.cached).trans
      (.setMinode (g := fun m => { m with dirty := false }) (fun _ => rfl) (fun _ => rfl) (fun _ => rfl) ..),
      fun _ => inSlot_writtenBack h.owned.geometry h.number h.cached⟩
  · simp only [hflag, Bool.false_eq_true, if_false, Prog.run_pure]
    exact ⟨v, rfl, .refl v, id⟩

/-- From `v` to `v'` only data blocks were written, and what is not in the data blocks. -/
structure SameSize (ino : Nat) (v v' : VDisk) : Prop where
  blksize : v'.blksize = v.blksize
  free : v'.sb.totalFreeblock = v.sb.totalFreeblock
  filesize : v'.filesize ino = v.filesize ino
  inSlot : v.InSlot ino → v'.InSlot ino

omit h hf in
theorem SameSize.room {ino : Nat} (hs : SameSize ino v v') : v'.room ino = v.room ino := by
  have hnidx : v'.nidx = v.nidx := by rw [VDisk.nidx, hs.blksize]; rfl
  rw [VDisk.room, VDisk.room, hs.free, hs.filesize, hs.blksize, hnidx]

/-- `ufs_file_sync` leaves the file as the handle showed it. -/
theorem Holds.sync : ∃ v' fp', (fileSync fp).run v = (fp', v') ∧
    Stored cnt all fp.minode.ino v' free ∧ Holds fp' m f v' ∧ fp.Moved fp' ∧
    fp'.filepos = fp.filepos ∧ fp'.blkpos = fp.blkpos ∧ fp'.dirty = false ∧ SameSize fp.minode.ino v v' := by
  by_cases hdirty : fp.dirty
  · obtain ⟨hw, hf'⟩ := hf.written h hdirty
    have hlt := hf.dirty_block hdirty
    have hin := h.inSlot_setBlock hlt fp.blkbuf
    obtain ⟨v', hrun, hs, hin'⟩ := @fileSync_clean _ _ _ _
      { fp with blkno := v.fileBlock fp.minode.ino m, dirty := false } hw rfl
    rw [← fileSync_dirty hdirty rfl (hf.syncBlock h hdirty)] at hrun
    refine ⟨v', _, hrun, hw.same hs, hf'.same hw hs, ⟨rfl, rfl⟩, rfl, rfl, rfl,
      ⟨hs.blksize, by rw [hs.sb]; rfl, ?_, fun h => hin' (hin h)⟩⟩
    rw [hs.filesize _ (.inl hw.cached), h.filesize_setBlock hlt]
  · have hclean := Bool.eq_false_iff.mpr hdirty
    obtain ⟨v', hrun, hs, hin⟩ := fileSync_clean h hclean
    exact ⟨v', fp, hrun, h.same hs, hf.same h hs, .refl fp, rfl, rfl, hclean,
      ⟨hs.blksize, by rw [hs.sb], hs.filesize _ (.inl h.cached), hin⟩⟩

end Syncing

end Handle

end Ufs370
