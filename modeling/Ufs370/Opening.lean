import Ufs370.CallRefs
import Ufs370.HandlePut

/-! From the opening of a file to its end: where a handle starts, and what is on the disk when it is closed. -/

namespace Ufs370

open Lib Lib.IndexLayout

/-- The handle that `ufs_file_new` makes, with an open mode. -/
def File.blank (minode : Minptr) (fm : Mode) : File := ⟨0, fm, false, false, false, .ok, minode, 0, 0, zeroBlock⟩

/-- What `ufs_fclose` does on the disk. -/
def closeHandle (fp : File) : Prog VDisk Unit := do
  let fp ← fileSync fp
  inodeRel fp.minode.ino

/-- The values in the blocks of a file on the disk. -/
def VDisk.fileBytes (v : VDisk) (ino k : Nat) : UInt8 :=
  if k / v.blksize * v.blksize < v.filesize ino then v.fileByte ino k else 0

/-- A handle after `ufs_fseek` to `newpos`, where `ufs_datablock_last` returned `blk`. -/
def File.seek (fp : File) (v : VDisk) (newpos blk : Nat) : File := { fp with
  filepos := newpos
  blkpos := newpos % v.blksize
  blkno := if blk = 0 then fp.blkno else blk
  blkbuf := if blk = 0 then zeroBlock else if blk = fp.blkno then fp.blkbuf else v.io.blocks blk
  eof := decide (v.filesize fp.minode.ino ≤ newpos)
  err := false
  error := .ok }

section Seek

variable {cnt : Nat → Nat} {all : Set Nat} {v v' : VDisk} {free : List Nat} {fp : File} {newpos blk ino : Nat}
  {f : Nat → UInt8}

theorem VDisk.content_eq (v : VDisk) (ino : Nat) :
    v.content ino = (List.range (v.filesize ino)).map (v.fileBytes ino) := by
  refine List.map_congr_left fun k hk => ?_
  rw [VDisk.fileBytes, if_pos (block_start_lt (List.mem_range.mp hk))]

theorem Holds.fileBytes {m : Nat} (h : Stored cnt all fp.minode.ino v free) (hf : Holds fp m f v)
    (hclean : fp.dirty = false) : v.fileBytes fp.minode.ino = f := by
  funext k
  rw [hf.byte k]
  exact if_ctx_congr Iff.rfl (fun hk => (hf.shown_clean h hclean hk).symm) fun _ => rfl

theorem Stored.fileBytes_same (h : Stored cnt all ino v free) (hs : SameData v v') :
    v'.fileBytes ino = v.fileBytes ino := by
  funext k
  rw [VDisk.fileBytes, VDisk.fileBytes, hs.blksize, hs.filesize ino (.inl h.cached)]
  exact if_ctx_congr Iff.rfl (fun hk => h.fileByte_same hs hk) fun _ => rfl

theorem datablockLast_same (hv : v.Live) (ino offset : Nat) : ((datablockLast ino offset).run v).2 = v := by
  simp only [datablockLast, Prog.run_bind, Prog.run_ite, Prog.run_pure]
  split
  · rfl
  split <;> simp only [Prog.run_bind, datablockLink_live hv, Prog.run_pure]

/-- The address of position 0 is the first one of the list, also where the file has no block. -/
theorem Stored.last_zero (h : Stored cnt all ino v free) :
    (datablockLast ino 0).run v = ((v.inode ino).addrAt 0, v) := by
  rw [← h.cached.din]
  rfl

/-- The position that `ufs_datablock_last` finds the block of: not at the boundary between two blocks,
where it finds the one before. -/
theorem Stored.last_at (h : Stored cnt all ino v free) (hpos : newpos = 0 ∨ newpos % v.blksize ≠ 0)
    (hblock : newpos / v.blksize * v.blksize < v.filesize ino) :
    (datablockLast ino newpos).run v = (v.fileBlock ino (newpos / v.blksize), v) := by
  rcases hpos with rfl | hmod
  · have hsize : 0 * v.blksize < v.filesize ino := by simpa using hblock
    have hplace := h.dataPlace hsize
    rw [h.last_zero, Nat.zero_div, VDisk.fileBlock]
    rfl
  · have hsplit := Nat.div_add_mod' newpos v.blksize
    have hlt := Nat.mod_lt newpos h.blksize_pos
    exact h.last hblock (by omega) (by rw [Nat.succ_mul]; omega)

theorem seekMove_run (h : Stored cnt all fp.minode.ino v free)
    (hlast : (datablockLast fp.minode.ino newpos).run v = (blk, v)) :
    (seekMove fp newpos).run v = ((.ok, fp.seek v newpos blk), v) := by
  have hdin := h.din
  by_cases h0 : blk = 0
  · simp only [seekMove, Prog.run_bind, hlast, h0, if_true, Prog.run_pure, ne_eq, not_true_eq_false, if_false,
      hdin, File.seek]
  by_cases heq : blk = fp.blkno
  · subst heq
    simp only [seekMove, Prog.run_bind, hlast, h0, if_true, Prog.run_pure, ne_eq, not_true_eq_false, if_false,
      hdin, File.seek]
  · simp only [seekMove, fileLoad, Prog.run_bind, hlast, h0, heq, if_true, Prog.run_pure, ne_eq,
      not_true_eq_false, not_false_eq_true, if_false, vdiskRead_live h.owned.live, hdin, File.seek]

/-- A seek that neither grows nor shrinks the file writes the buffer and the inode at most. -/
theorem seekResize_quiet (hfile : (v.din fp.minode.ino).filesize.toNat = v.filesize fp.minode.ino)
    {fp' : File} (hsync : (fileSync fp).run v = (fp', v'))
    (hdin : (v'.din fp.minode.ino).filesize.toNat = v.filesize fp.minode.ino) (hmode : fp'.mode = fp.mode)
    (hquiet : fp.mode.read = true ∨ newpos = v.filesize fp.minode.ino) :
    (seekResize fp newpos).run v = ((.ok, fp'), v') := by
  have hup : ¬ ((v.din fp.minode.ino).filesize.toNat < newpos ∧ (!fp.mode.read) = true) := by
    rw [hfile]
    rcases hquiet with hread | rfl
    · simp [hread]
    · simp
  have hdown : ¬ (newpos < (v'.din fp.minode.ino).filesize.toNat ∧ (!fp'.mode.read) = true) := by
    rw [hdin, hmode]
    rcases hquiet with hread | rfl
    · simp [hread]
    · simp
  simp only [seekResize, Prog.run_bind, hup, if_false, Prog.run_pure, ne_eq, not_true_eq_false, hsync, hdown]

theorem fseek_run {fp' : File} {offset : Int} {whence : Whence}
    (htarget : seekTarget fp.filepos (v.din fp.minode.ino).filesize.toNat offset whence = some newpos)
    (hresize : fp.mode.write = true ∧ (seekResize fp newpos).run v = ((.ok, fp'), v') ∨
      fp.mode.write = false ∧ fp' = fp ∧ v' = v)
    {r : File × VDisk} (hmove : (seekMove fp' newpos).run v' = ((.ok, r.1), r.2)) :
    (fseek fp offset whence).run v = ((.ok, r.1), r.2) := by
  rcases hresize with ⟨hwrite, hrun⟩ | ⟨hwrite, rfl, rfl⟩
  · simp only [fseek, Prog.run_bind, htarget, hwrite, if_true, hrun, hmove, ne_eq, not_true_eq_false, if_false,
      Prog.run_pure]
  · simp only [fseek, Prog.run_bind, htarget, hwrite, Bool.false_eq_true, hmove, ne_eq, not_true_eq_false,
      if_false, Prog.run_pure]

/-- A seek of a handle with nothing to write, if the file keeps its size. -/
theorem fseek_quiet (h : Stored cnt all fp.minode.ino v free) (hclean : fp.dirty = false) {offset : Int}
    {whence : Whence}
    (htarget : seekTarget fp.filepos (v.din fp.minode.ino).filesize.toNat offset whence = some newpos)
    (hquiet : fp.mode.write = true → fp.mode.read = true ∨ newpos = v.filesize fp.minode.ino) :
    ∃ v', SameData v v' ∧ (v.InSlot fp.minode.ino → v'.InSlot fp.minode.ino) ∧
      (fp.mode.write = false → v' = v) ∧
      ∀ blk, (datablockLast fp.minode.ino newpos).run v' = (blk, v') →
        (fseek fp offset whence).run v = ((.ok, fp.seek v' newpos blk), v') := by
  by_cases hwrite : fp.mode.write
  · obtain ⟨v', hsync, hs, hin⟩ := fileSync_clean h hclean
    have h' := h.same hs
    have hfile : (v'.din fp.minode.ino).filesize.toNat = v.filesize fp.minode.ino := by
      rw [h'.din, hs.filesize _ (.inl h.cached)]
    refine ⟨v', hs, hin, fun hno => absurd hwrite (Bool.eq_false_iff.mp hno), fun blk hlast => ?_⟩
    exact fseek_run (r := (_, _)) htarget
      (.inl ⟨hwrite, seekResize_quiet h.din hsync hfile rfl (hquiet hwrite)⟩) (seekMove_run h' hlast)
  · refine ⟨v, .refl v, id, fun _ => rfl, fun blk hlast => ?_⟩
    exact fseek_run (r := (_, _)) htarget (.inr ⟨Bool.eq_false_iff.mpr hwrite, rfl, rfl⟩)
      (seekMove_run h hlast)

/-- A seek into the file, away from the boundaries between its blocks. -/
theorem Stored.seek_holds (h : Stored cnt all fp.minode.ino v free) (hclean : fp.dirty = false)
    (hblock : newpos / v.blksize * v.blksize < v.filesize fp.minode.ino)
    (hbuf : v.fileBlock fp.minode.ino (newpos / v.blksize) = fp.blkno → ∀ o < v.blksize,
      fp.blkbuf o = v.io.blocks (v.fileBlock fp.minode.ino (newpos / v.blksize)) o) :
    Holds (fp.seek v newpos (v.fileBlock fp.minode.ino (newpos / v.blksize))) (newpos / v.blksize)
      (v.fileBytes fp.minode.ino) v := by
  have hne := h.block_pos hblock
  have hshow : ∀ o < v.blksize, (fp.seek v newpos (v.fileBlock fp.minode.ino (newpos / v.blksize))).blkbuf o =
      v.io.blocks (v.fileBlock fp.minode.ino (newpos / v.blksize)) o := fun o ho => by
    simp only [File.seek, if_neg hne]
    split
    · rename_i heq
      exact hbuf heq o ho
    · rfl
  refine ⟨fun k => ?_, fun _ o ho => ?_, rfl, fun he => of_decide_eq_true he, ?_, ?_, fun hd => ?_,
    .inl ⟨if_neg hne, hblock⟩⟩
  · refine if_ctx_congr Iff.rfl (fun _ => ?_) fun _ => rfl
    rw [File.shown, VDisk.fileByte]
    split
    · rename_i heq
      rw [hshow _ (Nat.mod_lt _ h.blksize_pos), heq]
    · rfl
  · rw [hshow o ho]
    exact (if_pos hblock).symm
  · exact (Nat.div_add_mod' newpos v.blksize).symm
  · exact Nat.le_of_lt (Nat.mod_lt _ h.blksize_pos)
  · exact absurd (hclean.symm.trans hd) Bool.false_ne_true

/-- A seek to where the file has no block, and the handle has none either. -/
theorem Stored.seek_none (h : Stored cnt all fp.minode.ino v free) (hclean : fp.dirty = false)
    (hblkno : fp.blkno = 0) (hblock : v.filesize fp.minode.ino ≤ newpos / v.blksize * v.blksize) :
    Holds (fp.seek v newpos 0) (newpos / v.blksize) (v.fileBytes fp.minode.ino) v := by
  refine ⟨fun k => ?_, fun _ o _ => ?_, rfl, fun he => of_decide_eq_true he, ?_, ?_, fun hd => ?_,
    .inr ⟨hblkno, fun hd => ?_⟩⟩
  · refine if_ctx_congr Iff.rfl (fun hk => ?_) fun _ => rfl
    refine (if_neg fun heq : k / v.blksize = newpos / v.blksize => ?_).symm
    rw [heq] at hk
    exact Nat.not_lt.mpr hblock hk
  · exact (if_neg (Nat.not_lt.mpr hblock)).symm
  · exact (Nat.div_add_mod' newpos v.blksize).symm
  · exact Nat.le_of_lt (Nat.mod_lt _ h.blksize_pos)
  · exact absurd (hclean.symm.trans hd) Bool.false_ne_true
  · exact absurd (hclean.symm.trans hd) Bool.false_ne_true

end Seek

/-- Where the handle of a file starts. -/
def VDisk.startPos (v : VDisk) (ino : Nat) (fm : Mode) : Nat := if fm.append then v.filesize ino else 0

/-- A handle can start at position `pos` of a file: it is not at a boundary between two blocks, and an
empty file has no address left from blocks that it had. -/
structure VDisk.Sound (v : VDisk) (ino pos : Nat) : Prop where
  inside : pos = 0 ∨ pos % v.blksize ≠ 0
  empty : v.filesize ino = 0 → (v.inode ino).addrAt 0 = 0

/-- A new handle at the position `pos` of its file, which it holds if it can start there. -/
structure Opened (cnt : Nat → Nat) (all : Set Nat) (free : List Nat) (p : Minptr) (fm : Mode) (pos : Nat)
    (f : Nat → UInt8) (fp : File) (v : VDisk) : Prop where
  minode : fp.minode = p
  mode : fp.mode = fm
  filepos : fp.filepos = pos
  clean : fp.dirty = false
  err : fp.err = false
  bound : fp.blkpos ≤ v.blksize
  stored : Stored cnt all p.ino v free
  holds : v.Sound p.ino pos → Holds fp (pos / v.blksize) f v
  inSlot : v.InSlot p.ino

/-- A file of a well-formed disk that is in use. -/
theorem WellFormed.stored {v : VDisk} {inos free : List Nat} {ino : Nat} (h : WellFormed v inos free)
    (hino : ino ∈ inos) (hcached : v.Cached ino) :
    Stored (v.counts inos) {b | b ∈ v.allBlocks inos free} ino v free where
  owned := h.owned
  numbers i hi := h.number i (by
    by_contra hnot
    exact hi (if_neg hnot))
  number := h.number ino hino
  cached := hcached
  count := if_pos hino
  size := SizeOk.fileSize h.geometry (h.size ino hino)

section Opening

variable {cnt : Nat → Nat} {all : Set Nat} {v v' : VDisk} {free : List Nat} {fp : File} {ino pos : Nat}
  {f : Nat → UInt8} {p : Minptr} {fm : Mode}

theorem SameData.setDinode {g : Dinode → Dinode} (haddr : ∀ d, (g d).addr = d.addr)
    (hsize : ∀ d, (g d).filesize = d.filesize) (v : VDisk) (ino : Nat) : SameData v (v.setDinode ino g) :=
  .setMinode (g := fun m => { m with dinode := g m.dinode }) (fun _ => rfl) (fun m => haddr m.dinode)
    (fun m => hsize m.dinode) v ino

theorem SameData.sound (h : Stored cnt all ino v free) (hs : SameData v v') :
    v'.Sound ino pos ↔ v.Sound ino pos := by
  have haddr : (v'.inode ino).addrAt 0 = (v.inode ino).addrAt 0 := by
    simp only [Dinode.addrAt, hs.addr ino (.inl h.cached)]
  refine ⟨fun hv => ⟨hs.blksize ▸ hv.inside, ?_⟩, fun hv => ⟨hs.blksize.symm ▸ hv.inside, ?_⟩⟩
  · have hempty := hv.empty
    rwa [hs.filesize ino (.inl h.cached), haddr] at hempty
  · rw [hs.filesize ino (.inl h.cached), haddr]
    exact hv.empty

theorem startPos_lt (hsound : v.Sound ino (v.startPos ino fm))
    (hsize : 0 < v.filesize ino) : v.startPos ino fm / v.blksize * v.blksize < v.filesize ino := by
  have hsplit := Nat.div_add_mod' (v.startPos ino fm) v.blksize
  have hle : v.startPos ino fm ≤ v.filesize ino := by
    rw [VDisk.startPos]
    split <;> omega
  rcases hsound.inside with hzero | hmod
  · rw [hzero, Nat.zero_div, Nat.zero_mul]
    exact hsize
  · omega

theorem SameData.startPos (h : Stored cnt all ino v free) (hs : SameData v v') :
    v'.startPos ino fm = v.startPos ino fm := by
  rw [VDisk.startPos, hs.filesize ino (.inl h.cached), VDisk.startPos]

/-- A handle with no block at a first position. -/
theorem Stored.seek_start (h : Stored cnt all fp.minode.ino v free) (hclean : fp.dirty = false)
    (hblkno : fp.blkno = 0) (hsound : v.Sound fp.minode.ino (v.startPos fp.minode.ino fm)) :
    ∃ blk, (datablockLast fp.minode.ino (v.startPos fp.minode.ino fm)).run v = (blk, v) ∧
      Holds (fp.seek v (v.startPos fp.minode.ino fm) blk) (v.startPos fp.minode.ino fm / v.blksize)
        (v.fileBytes fp.minode.ino) v := by
  rcases Nat.eq_zero_or_pos (v.filesize fp.minode.ino) with hsize | hsize
  · have hpos : v.startPos fp.minode.ino fm = 0 := by
      rw [VDisk.startPos]
      split
      · exact hsize
      · rfl
    refine ⟨0, ?_, h.seek_none hclean hblkno ?_⟩
    · rw [hpos, h.last_zero, hsound.empty hsize]
    · rw [hsize]
      exact Nat.zero_le _
  · have hblock := startPos_lt hsound hsize
    refine ⟨_, h.last_at hsound.inside hblock, h.seek_holds hclean hblock fun heq => ?_⟩
    exact absurd (heq.trans hblkno) (h.block_pos hblock)

/-- The seek of a fresh handle to its first position. -/
theorem fseek_opened (h : Stored cnt all p.ino v free) (hmode : fm.append = true ∨ fm.read = true) :
    ∃ fp v', (fseek (.blank p fm) 0 (if fm.append then .fin else .set)).run v = ((.ok, fp), v') ∧
      SameData v v' ∧ fp.minode = p ∧ fp.mode = fm ∧ fp.filepos = v.startPos p.ino fm ∧
      fp.dirty = false ∧ fp.err = false ∧ fp.blkpos ≤ v'.blksize ∧
      (v'.Sound p.ino (v.startPos p.ino fm) →
        Holds fp (v.startPos p.ino fm / v'.blksize) (v.fileBytes p.ino) v') := by
  have htarget : seekTarget 0 (v.din p.ino).filesize.toNat 0 (if fm.append then .fin else .set) =
      some (v.startPos p.ino fm) := by
    rw [h.din, VDisk.startPos]
    split
    · simp [seekTarget, seekFrom, u32_of_lt h.size.lt]
    · rfl
  obtain ⟨v', hs, _, _, hseek⟩ := @fseek_quiet _ _ _ _ (.blank p fm) _ h rfl _ _ htarget
    fun _ => hmode.symm.imp_right fun happend => if_pos happend
  have h' := h.same hs
  have hpos : v'.startPos p.ino fm = v.startPos p.ino fm := hs.startPos h
  rcases hlast : (datablockLast p.ino (v.startPos p.ino fm)).run v' with ⟨blk, w⟩
  obtain rfl : w = v' := by
    have hsame := datablockLast_same h'.owned.live p.ino (v.startPos p.ino fm)
    rw [hlast] at hsame
    exact hsame
  refine ⟨_, w, hseek blk hlast, hs, rfl, rfl, rfl, rfl, rfl, Nat.le_of_lt (Nat.mod_lt _ h'.blksize_pos),
    fun hsound => ?_⟩
  obtain ⟨blk', hlast', hholds⟩ := @Stored.seek_start _ _ _ _ (.blank p fm) fm h' rfl rfl
    (hpos.symm ▸ hsound)
  change (datablockLast p.ino (w.startPos p.ino fm)).run w = (blk', w) at hlast'
  change Holds (File.seek (.blank p fm) w (w.startPos p.ino fm) blk') (w.startPos p.ino fm / w.blksize)
    (w.fileBytes p.ino) w at hholds
  rw [hpos, hlast] at hlast'
  rw [hpos, ← (Prod.mk.inj hlast').1, h.fileBytes_same hs] at hholds
  exact hholds

/-- `ufs_open` of a file that is not truncated. -/
theorem openHandle_opened (h : Stored cnt all p.ino v free) (htrunc : fm.trunc = false)
    (hmode : fm.append = true ∨ fm.read = true) (now : Timev) :
    ∃ fp v', (openHandle (.blank p .none) fm now).run v = (fp, v') ∧ SameData v v' ∧
      Opened cnt all free p fm (v.startPos p.ino fm) (v.fileBytes p.ino) fp v' := by
  have hs₁ : SameData v (v.setDinode p.ino fun d =>
      { d with atime := now, mtime := if fm.write then now else d.mtime }) :=
    .setDinode (g := fun d => { d with atime := now, mtime := if fm.write then now else d.mtime })
      (fun _ => rfl) (fun _ => rfl) ..
  generalize hv₁ : (v.setDinode p.ino fun d =>
    { d with atime := now, mtime := if fm.write then now else d.mtime }) = v₁ at hs₁
  have h₁ := h.same hs₁
  have hpos : v₁.startPos p.ino fm = v.startPos p.ino fm := hs₁.startPos h
  obtain ⟨fp, v₂, hseek, hs₂, hminode, hfm, hfilepos, hclean, herr, hbound, hholds⟩ := fseek_opened h₁ hmode
  rw [hpos] at hfilepos hholds
  rw [h.fileBytes_same hs₁] at hholds
  have h₂ := h₁.same hs₂
  have hwriteback := inodeWriteback_live h₂.owned.geometry h₂.owned.live h₂.number
  have hs₃ : SameData v₂ ((v₂.writtenBack p.ino).setMinode p.ino fun m => { m with dirty := false }) :=
    (SameData.writtenBack h₂.owned.geometry h₂.number h₂.cached).trans
      (.setMinode (g := fun m => { m with dirty := false }) (fun _ => rfl) (fun _ => rfl) (fun _ => rfl) ..)
  have h₃ := h₂.same hs₃
  refine ⟨fp, _, ?_, (hs₁.trans hs₂).trans hs₃, hminode, hfm, hfilepos, hclean, herr, hs₃.blksize ▸ hbound, h₃,
    fun hsound => ?_,
    inSlot_writtenBack h₂.owned.geometry h₂.number h₂.cached⟩
  · subst hv₁
    simp only [openHandle, File.blank, modifyDinode, modifyMinode, Prog.run_bind, htrunc, Bool.false_eq_true,
      if_false, Prog.run_pure] at hseek ⊢
    rw [hseek]
    simp only [hwriteback]
  · have hsound₂ : v₂.Sound p.ino (v.startPos p.ino fm) := (hs₃.sound h₂).mp hsound
    subst hminode
    rw [hs₃.blksize]
    exact (hholds hsound₂).same h₂ hs₃

end Opening

namespace KeepsHandles

theorem nextBlock (fp : File) : KeepsHandles (nextBlock fp) := (ReadsOnly.nextBlock fp).keepsHandles

theorem putnExtend (fp : File) (n : Nat) : KeepsHandles (putnExtend fp n) :=
  .ite (.pure _) (.ite (.pure _) (.bind .get fun _ => .ite (.pure _)
    (.bind (datablockSizeChange ..) fun _ => .ite (.pure _) (.pure _))))

theorem putnLoop (calls : Nat) (fp : File) (buf : List UInt8) : KeepsHandles (putnLoop calls fp buf) := by
  induction calls generalizing fp buf with
  | zero => exact .pure _
  | succ calls ih =>
    exact .ite (.pure _) (.bind (putnExtend ..) fun _ => .ite (.pure _) (.bind .get fun _ => .ite (.pure _)
      (.bind (fileSync _) fun _ => .bind (nextBlock _) fun _ => .ite (.pure _) (.bind (ih ..) fun _ => .pure _))))

theorem filePutn (fp : File) (buf : List UInt8) : KeepsHandles (filePutn fp buf) := putnLoop ..

end KeepsHandles

/-- What keeps the handles of a disk keeps it with one handle for each inode. -/
theorem VDisk.OneHandle.after {α : Type} {x : Prog VDisk α} {v v' : VDisk} {a : α} (hone : v.OneHandle)
    (hx : KeepsHandles x) (hrun : x.run v = (a, v')) : v'.OneHandle := by
  have hkeeps := hx.run v hone
  rw [hrun] at hkeeps
  exact (oneHandle_congr hkeeps).mpr hone

section Closing

variable {cnt : Nat → Nat} {all : Set Nat} {v v' : VDisk} {free : List Nat} {fp : File} {ino m : Nat}
  {f : Nat → UInt8}

theorem fileSync_minode (fp : File) (v : VDisk) : ((fileSync fp).run v).1.minode = fp.minode := by
  have hblock (w : VDisk) : ((fileSyncBlock fp).run w).1.minode = fp.minode := by
    simp only [fileSyncBlock, Prog.run_bind, Prog.run_ite, Prog.run_pure]
    split
    · split <;> rfl
    · rfl
  simp only [fileSync, Prog.run_bind, Prog.run_ite, Prog.run_pure]
  split
  · split
    · exact hblock v
    · exact hblock v
  · split <;> rfl

/-- The release of an inode that is on the disk as its handle shows it leaves its file alone. -/
theorem Released.content (h : Stored cnt all ino v free) (hone : v.OneHandle) (hin : v.InSlot ino)
    (hrel : Released ino v v') : v'.content ino = v.content ino := by
  have hslot : v'.slot ino = v.slot ino := by rw [hrel.same]; rfl
  have hinode : v'.inode = v.inode := by
    funext i
    by_cases hi : i = ino
    · subst hi
      by_cases hstays : (v.deref i).Stays
      · exact hrel.inode_stays h.cached.deref hstays
      · rw [VDisk.inode_none (hrel.gone hone _ h.cached.deref hstays), hslot, hin]
    · exact hrel.inode_other hi
  have hforest : v'.forest = v.forest := by
    have hword : v'.word = v.word := by rw [hrel.same]; rfl
    rw [VDisk.forest, VDisk.forest, hinode, hword]
  have hblksize : v'.blksize = v.blksize := by rw [hrel.same]
  have hnidx : v'.nidx = v.nidx := by rw [VDisk.nidx, hblksize, VDisk.nidx]
  have hio : v'.io = v.io := by rw [hrel.same]
  have hbyte : v'.fileByte ino = v.fileByte ino := by
    funext k
    simp only [VDisk.fileByte, VDisk.fileBlock, VDisk.blockAt, hforest, hblksize, hnidx, hio]
  rw [VDisk.content, VDisk.content, hbyte, VDisk.filesize, VDisk.filesize, hinode]

/-- What is on the disk after `ufs_fclose` is what the handle held. -/
theorem Holds.close (h : Stored cnt all fp.minode.ino v free) (hf : Holds fp m f v) (hone : v.OneHandle)
    (hin : v.InSlot fp.minode.ino) : ((closeHandle fp).run v).2.content fp.minode.ino =
      (List.range (v.filesize fp.minode.ino)).map f := by
  obtain ⟨v', fp', hsync, hv', hf', hmoved, _, _, hclean, hs⟩ := hf.sync h
  have hminode := hmoved.minode
  have hone' := hone.after (.fileSync fp) hsync
  obtain ⟨v'', hrun, hrel⟩ := inodeRel_run hv'.cached
  have hcontent := hf'.content (hminode ▸ hv') hclean
  rw [hminode, hs.filesize] at hcontent
  simp only [closeHandle, Prog.run_bind, hsync, hminode, hrun]
  rw [hrel.content hv' hone' (hs.inSlot hin), hcontent]

end Closing

section Calls

variable {s s₁ : Ufs} {walk : Walker} {path : List UInt8} {fm : Mode} {now : Timev} {out : Found} {last : Minptr}

@[simp] theorem setVdisk_vdisk (s : Ufs) (i : Nat) : s.setVdisk i (s.vdisk i) = s := by
  rw [Ufs.setVdisk, Function.update_eq_self]

theorem fileNew_live {p : Minptr} (h : (s.vdisk p.vdisk).Live) :
    (fileNew p).run s = (some (.blank p .none), s) := by
  have halloc : (VDisk.onStore Store.alloc).run (s.vdisk p.vdisk) = (true, s.vdisk p.vdisk) := by
    simp only [VDisk.onStore, Prog.run_lift, Store.alloc_nil h.faults]
  simp only [fileNew, onDisk, diskGetBuf, Prog.run_bind, halloc, setVdisk_vdisk, if_true, Prog.run_pure,
    File.blank]

/-- `ufs_open` of a path that leads to a file is what it does with the handle of the file. -/
theorem openFile_run (hfm : fm.read = true ∨ fm.write = true) (hwalk : (walk path true true).run s = ((.ok, out), s₁))
    (hlast : out.last = some last) (hcheck : openCheck s₁ fm last = .ok) (hlive : (s₁.vdisk last.vdisk).Live) :
    (openFile walk path fm now).run s =
      ((.ok, some ((openHandle (.blank last .none) fm now).run (s₁.vdisk last.vdisk)).1),
        ((relOpt out.dir).run (s₁.setVdisk last.vdisk
          ((openHandle (.blank last .none) fm now).run (s₁.vdisk last.vdisk)).2)).2) := by
  have hmode : ¬ ((!fm.read) = true ∧ (!fm.write) = true) := by
    rcases hfm with h | h <;> simp [h]
  simp only [openFile, hmode, if_false, Prog.run_bind, hwalk, ne_eq, not_true_eq_false, hlast, hcheck,
    fileNew_live hlive, Prog.run_pure]
  rfl

theorem fclose_run (fp : File) (s : Ufs) : (fclose fp).run s =
    ((), s.setVdisk fp.minode.vdisk ((closeHandle fp).run (s.vdisk fp.minode.vdisk)).2) := by
  simp only [fclose, fileFree, Minptr.rel, closeHandle, onDisk, Prog.run_bind, fileSync_minode, setVdisk_same]
  rw [Ufs.setVdisk, Ufs.setVdisk, Ufs.setVdisk, Function.update_idem]

end Calls

end Ufs370
