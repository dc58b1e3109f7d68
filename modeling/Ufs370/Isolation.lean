import Ufs370.FailedAllocate
import Ufs370.SeekTargets
import Ufs370.Update

/-! A call on the handle of a file lets all other files be. -/

namespace Ufs370

open Lib Lib.IndexForest Lib.IndexLayout

/-- From `v` to `v'` file `d` changed and no other; each inode `i` had `cnt i` blocks and has `cnt' i` now. -/
structure Alters (cnt : Nat → Nat) (all : Set Nat) (d : Nat) (v : VDisk) (cnt' : Nat → Nat) (v' : VDisk) : Prop where
  stored : ∃ free', Stored cnt' all d v' free'
  counts : ∀ i, i ≠ d → cnt' i = cnt i
  spares : Spares {d} cnt v v'

section Alters

variable {cnt cnt' cnt'' : Nat → Nat} {all : Set Nat} {d m : Nat} {v v' v'' : VDisk} {free free' : List Nat}

theorem Spares.setMinode {g : Minode → Minode} (hg : ∀ m, (g m).inodeNumber = m.inodeNumber) (v : VDisk) (d : Nat)
    (cnt : Nat → Nat) : Spares {d} cnt v (v.setMinode d g) := by
  have hinode (i : Nat) (hi : i ≠ d) : (v.setMinode d g).inode i = v.inode i := by
    simp only [VDisk.inode, VDisk.minode?_setMinode_other (fun m hm => (hg m).trans hm) hi]
    rfl
  exact ⟨.of_sb rfl rfl, fun i hi _ => hinode i hi, fun _ _ _ => rfl,
    fun i hi m _ _ => ⟨fileBlock_congr (hinode i hi) rfl rfl m, rfl⟩⟩

/-- A data block of one file is no block of another. -/
theorem Stored.spares_setBlock (h : Stored cnt all d v free) (hm : m * v.blksize < v.filesize d) (buf : Block) :
    Spares {d} cnt v (v.setBlock (v.fileBlock d m) buf) where
  layout := .of_sb rfl rfl
  inode i _ _ := by rw [VDisk.inode_setBlock (h.owned.data_of_mem (h.block_mem hm))]
  slot i _ hi := slot_congr h.owned.geometry hi rfl ⟨_, _, _, _, rfl⟩ fun b hb =>
    VDisk.setBlock_other _ _ (Nat.ne_of_lt (Nat.lt_of_lt_of_le hb (h.owned.data_of_mem (h.block_mem hm))))
  data i hi k hk hmax := by
    have hn := h.owned.geometry.nidx_bounds
    have hmem : ((i, (placeOf v.nidx k).1), (placeOf v.nidx k).2) ∈ Within v.nidx cnt :=
      (placeOf_data (by omega) hmax).mem_within _ hk
    refine ⟨(h.owned.agree_data (h.mem_within hm) (h.dataPlace hm).full buf).node h.owned.partition.closed hmem,
      VDisk.setBlock_other v buf fun heq => hi ?_⟩
    exact congrArg (fun p : BlockPath => p.1.1) (h.owned.node_inj hmem (h.mem_within hm) heq)

namespace Alters

theorem refl (h : Stored cnt all d v free) : Alters cnt all d v cnt v :=
  ⟨⟨free, h⟩, fun _ _ => rfl, (SameView.refl v).spares ..⟩

theorem trans (h : Alters cnt all d v cnt' v') (h' : Alters cnt' all d v' cnt'' v'') : Alters cnt all d v cnt'' v'' where
  stored := h'.stored
  counts i hi := (h'.counts i hi).trans (h.counts i hi)
  spares := h.spares.trans h.counts h'.spares

theorem setMinode {g : Minode → Minode} (h : Stored cnt all d v free) (hnum : ∀ m, (g m).inodeNumber = m.inodeNumber)
    (haddr : ∀ m, (g m).dinode.addr = m.dinode.addr) (hsize : ∀ m, (g m).dinode.filesize = m.dinode.filesize) :
    Alters cnt all d v cnt (v.setMinode d g) :=
  ⟨⟨free, h.same (.setMinode hnum haddr hsize v d)⟩, fun _ _ => rfl, .setMinode hnum v d cnt⟩

theorem writtenBack (h : Stored cnt all d v free) : Alters cnt all d v cnt (v.writtenBack d) :=
  ⟨⟨free, h.same (.writtenBack h.owned.geometry h.number h.cached)⟩, fun _ _ => rfl,
    .writtenBack h.owned h.number h.numbers h.cached⟩

theorem setBlock (h : Stored cnt all d v free) (hm : m * v.blksize < v.filesize d) (buf : Block) :
    Alters cnt all d v cnt (v.setBlock (v.fileBlock d m) buf) :=
  ⟨⟨free, h.setBlock hm buf⟩, fun _ _ => rfl, h.spares_setBlock hm buf⟩

theorem resized {newsz : Nat} (h : Stored cnt all d v free) (r : Resized cnt all d newsz v free v' free')
    (hnew : FileSize v newsz) : Alters cnt all d v (countsAt v cnt d newsz) v' :=
  ⟨⟨free', r.stored h hnew⟩, fun _ hi => Function.update_of_ne hi .., (r.beside h).spares⟩

end Alters

end Alters

section Calls

variable {cnt : Nat → Nat} {all : Set Nat} {v v' : VDisk} {free : List Nat} {fp : File} {m : Nat} {f : Nat → UInt8}
  {ys : List UInt8}

theorem fileSync_alters (h : Stored cnt all fp.minode.ino v free) (hclean : fp.dirty = false) :
    Alters cnt all fp.minode.ino v cnt ((fileSync fp).run v).2 := by
  simp only [fileSync, hclean, Bool.false_eq_true, if_false, Prog.run_bind, Prog.run_pure]
  by_cases hflag : (v.deref fp.minode.ino).dirty
  · simp only [hflag, if_true, Prog.run_bind, inodeWriteback_live h.owned.geometry h.owned.live h.number,
      modifyMinode, Prog.run_pure]
    obtain ⟨_, hback⟩ := (Alters.writtenBack h).stored
    exact (Alters.writtenBack h).trans
      (.setMinode (g := fun m => { m with dirty := false }) hback (fun _ => rfl) (fun _ => rfl) fun _ => rfl)
  · simp only [hflag, Bool.false_eq_true, if_false, Prog.run_pure]
    exact .refl h

theorem Holds.sync_alters (h : Stored cnt all fp.minode.ino v free) (hf : Holds fp m f v) :
    Alters cnt all fp.minode.ino v cnt ((fileSync fp).run v).2 := by
  by_cases hdirty : fp.dirty
  · rw [fileSync_dirty hdirty rfl (hf.syncBlock h hdirty)]
    have hput := Alters.setBlock h (hf.dirty_block hdirty) fp.blkbuf
    exact hput.trans (@fileSync_alters _ _ _ _ { fp with blkno := v.fileBlock fp.minode.ino m, dirty := false }
      (hf.written h hdirty).1 rfl)
  · exact fileSync_alters h (Bool.eq_false_iff.mpr hdirty)

theorem Holds.putnLoop_alters (h : Stored cnt all fp.minode.ino v free) (hf : Holds fp m f v)
    (hwrite : fp.mode.write = true) (hlen : fp.filepos + ys.length ≤ v.filesize fp.minode.ino) (calls : Nat) :
    Alters cnt all fp.minode.ino v cnt ((Ufs370.putnLoop calls fp ys).run v).2 := by
  induction calls generalizing fp v m f ys with
  | zero => exact .refl h
  | succ calls ih =>
    by_cases hnil : ys = []
    · subst hnil
      exact .refl h
    have havail : u32sub v.blksize fp.blkpos = v.blksize - fp.blkpos := u32sub_of_le hf.bound
    simp only [Ufs370.putnLoop, hnil, if_false, Prog.run_bind, putnExtend_within hf h hwrite hlen,
      Bool.not_true, Bool.false_eq_true, havail]
    by_cases hfits : ys.length ≤ v.blksize - fp.blkpos
    · rw [if_pos hfits]
      exact .refl h
    rw [if_neg hfits]
    generalize hav : v.blksize - fp.blkpos = avail at hfits ⊢
    have hbound := hf.bound
    have htake : (ys.take avail).length = avail := List.length_take_of_le (by omega)
    have hdrop : (ys.drop avail).length = ys.length - avail := List.length_drop
    obtain ⟨fp₀, hfill, hf₀, hmoved₀, hpos₀, hend₀⟩ := @Holds.fill _ _ _ _ _ _ _ (ys.take avail) h hf
      (by omega) (by omega)
    rw [htake] at hfill hpos₀
    have hsynced := hf₀.sync_alters (hmoved₀.minode ▸ h)
    obtain ⟨v₁, fp₁, hsync, hv₁, hf₁, hmoved₁, hpos₁, hend₁, hclean₁, hs⟩ := hf₀.sync (hmoved₀.minode ▸ h)
    have hsize₁ := hs.filesize
    rw [hmoved₀.minode] at hsize₁
    obtain ⟨fp₂, hnext, hf₂, hmoved₂, hpos₂, _, _⟩ :=
      hf₁.next (hmoved₁.minode ▸ hv₁) hclean₁
        (by rw [hmoved₁.minode, hmoved₀.minode, hsize₁, hpos₁, hpos₀]; omega) (by rw [hend₁, hend₀, hs.blksize])
    have hmoved : fp.Moved fp₂ := hmoved₀.trans (hmoved₁.trans hmoved₂)
    have hrest := @ih v₁ fp₂ _ _ (ys.drop avail) (by rw [hmoved.minode, ← hmoved₀.minode]; exact hv₁) hf₂
      (hmoved.mode ▸ hwrite) (by rw [hmoved.minode, hsize₁, hpos₂, hpos₁, hpos₀, hdrop]; omega)
    rw [hsync, hmoved₀.minode] at hsynced
    rw [hmoved.minode] at hrest
    simp only [hfill, hsync, hnext, Bool.not_true, Bool.false_eq_true, if_false, Prog.run_bind, Prog.run_pure]
    exact hsynced.trans hrest

theorem Holds.putn_alters (h : Stored cnt all fp.minode.ino v free) (hf : Holds fp m f v)
    (hwrite : fp.mode.write = true) (htakes : Takes v fp.minode.ino fp.filepos ys.length) :
    ∃ cnt', Alters cnt all fp.minode.ino v cnt' ((filePutn fp ys).run v).2 := by
  by_cases hne : ys = []
  · subst hne
    exact ⟨cnt, .refl h⟩
  by_cases hlen : fp.filepos + ys.length ≤ v.filesize fp.minode.ino
  · exact ⟨cnt, hf.putnLoop_alters h hwrite hlen _⟩
  have hmore := Nat.not_le.mp hlen
  obtain ⟨v', free', hgrow, r, hf'⟩ := hf.grow h (htakes.size hmore) hmore htakes.small (htakes.free hmore)
  have hv' := r.stored h (htakes.size hmore)
  have hu : u32 (fp.filepos + ys.length) = fp.filepos + ys.length := u32_of_lt (htakes.size hmore).lt
  have hext : (putnExtend fp ys.length).run v = ((true, { fp with eof := false }), v') := by
    have hgt : ¬ fp.filepos + ys.length ≤ (v.din fp.minode.ino).filesize.toNat := h.din.symm ▸ hlen
    simp only [putnExtend, hf.err, hwrite, hu, hgt, Bool.not_true, Bool.false_eq_true, if_false,
      Prog.run_bind, hgrow, ne_eq, not_true_eq_false, Prog.run_pure]
  have hlen' : fp.filepos + ys.length ≤ v'.filesize fp.minode.ino :=
    Nat.le_of_eq (r.filesize_eq h (htakes.size hmore)).symm
  have hrest := @Holds.putnLoop_alters _ _ _ _ { fp with eof := false } _ _ ys hv' hf' hwrite hlen'
    (2 * ys.length + 1)
  rw [← putnLoop_extended hne hext (putnExtend_within hf' hv' hwrite hlen')] at hrest
  exact ⟨_, (Alters.resized h r (htakes.size hmore)).trans hrest⟩

end Calls

section Seeks

variable {cnt : Nat → Nat} {all : Set Nat} {v v' : VDisk} {free : List Nat} {fp : File} {m newpos : Nat}
  {f : Nat → UInt8} {offset : Int} {whence : Whence} {p : Minptr} {fm : Mode}

/-- A seek of a handle with nothing to write, if the file keeps its size. -/
theorem fseek_alters (h : Stored cnt all fp.minode.ino v free) (hclean : fp.dirty = false)
    (htarget : seekTarget fp.filepos (v.din fp.minode.ino).filesize.toNat offset whence = some newpos)
    (hquiet : fp.mode.write = true → fp.mode.read = true ∨ newpos = v.filesize fp.minode.ino) :
    Alters cnt all fp.minode.ino v cnt ((fseek fp offset whence).run v).2 := by
  by_cases hwrite : fp.mode.write
  · have hsynced := fileSync_alters h hclean
    obtain ⟨v', hsync, hs, _⟩ := fileSync_clean h hclean
    have h' := h.same hs
    have hfile : (v'.din fp.minode.ino).filesize.toNat = v.filesize fp.minode.ino := by
      rw [h'.din, hs.filesize _ (.inl h.cached)]
    obtain ⟨fp', hmove, _⟩ := seekMove_live h'.owned.live fp newpos
    rw [hsync] at hsynced
    rw [fseek_run (r := (fp', v')) htarget
      (.inl ⟨hwrite, seekResize_quiet h.din hsync hfile rfl (hquiet hwrite)⟩) hmove]
    exact hsynced
  · obtain ⟨fp', hmove, _⟩ := seekMove_live h.owned.live fp newpos
    rw [fseek_run (r := (fp', v)) htarget (.inr ⟨Bool.eq_false_iff.mpr hwrite, rfl, rfl⟩) hmove]
    exact .refl h

/-- The move of a clean handle to a position at which it can be. -/
theorem Holds.move (h : Stored cnt all fp.minode.ino v free) (hf : Holds fp m f v) (hclean : fp.dirty = false)
    (hle : newpos ≤ v.filesize fp.minode.ino) (hsound : v.Sound fp.minode.ino newpos) :
    ∃ fp', (seekMove fp newpos).run v = ((.ok, fp'), v) ∧ Holds fp' (newpos / v.blksize) f v ∧
      fp.Moved fp' ∧ fp'.filepos = newpos ∧ fp'.dirty = false := by
  have hbytes := hf.fileBytes h hclean
  rcases Nat.eq_zero_or_pos (v.filesize fp.minode.ino) with hzero | hsize
  · obtain rfl : newpos = 0 := by omega
    have hlast := h.last_zero
    rw [hsound.empty hzero] at hlast
    have hblkno : fp.blkno = 0 := by
      rcases hf.block with ⟨_, hlt⟩ | ⟨hb, _⟩
      · omega
      · exact hb
    refine ⟨_, seekMove_run h hlast, hbytes ▸ h.seek_none hclean hblkno (by omega), ⟨rfl, rfl⟩, rfl, hclean⟩
  · have hblock : newpos / v.blksize * v.blksize < v.filesize fp.minode.ino := by
      have hsplit := Nat.div_add_mod' newpos v.blksize
      rcases hsound.inside with rfl | hmod
      · simpa using hsize
      · omega
    refine ⟨_, seekMove_run h (h.last_at hsound.inside hblock),
      hbytes ▸ h.seek_holds hclean hblock fun heq o ho => ?_, ⟨rfl, rfl⟩, rfl, hclean⟩
    rcases hf.block with ⟨hb, hlt⟩ | ⟨hb, _⟩
    · obtain rfl := h.block_inj hblock hlt (heq.trans hb)
      rw [hf.clean hclean o ho, if_pos hlt]
    · exact absurd (heq.trans hb) (h.block_pos hblock)

/-- A seek of a handle that may read, to a position of the file at which a handle can be. -/
theorem Holds.seek (h : Stored cnt all fp.minode.ino v free) (hf : Holds fp m f v) (hread : fp.mode.read = true)
    (hout : fp.mode.write = false → fp.dirty = false)
    (htarget : seekTarget fp.filepos (v.filesize fp.minode.ino) offset whence = some newpos)
    (hle : newpos ≤ v.filesize fp.minode.ino) (hsound : v.Sound fp.minode.ino newpos) :
    ∃ fp' v', (fseek fp offset whence).run v = ((.ok, fp'), v') ∧ Stored cnt all fp.minode.ino v' free ∧
      Holds fp' (newpos / v.blksize) f v' ∧ fp.Moved fp' ∧ fp'.filepos = newpos ∧ fp'.dirty = false ∧
      SameSize fp.minode.ino v v' ∧ Alters cnt all fp.minode.ino v cnt v' := by
  rw [← h.din] at htarget
  by_cases hwrite : fp.mode.write
  · have hsynced := hf.sync_alters h
    have hsound' : ((fileSync fp).run v).2.Sound fp.minode.ino newpos := by
      by_cases hdirty : fp.dirty
      · obtain ⟨v', fp', hsync, -, -, -, -, -, -, hs⟩ := hf.sync h
        have hlt := hf.dirty_block hdirty
        rw [hsync]
        refine ⟨hs.blksize ▸ hsound.inside, fun hzero => ?_⟩
        rw [hs.filesize] at hzero
        omega
      · obtain ⟨v', hsync, hs, _⟩ := fileSync_clean h (Bool.eq_false_iff.mpr hdirty)
        rw [hsync]
        exact (hs.sound h).mpr hsound
    obtain ⟨v', fp₁, hsync, hv', hf', hmoved, -, -, hclean, hs⟩ := hf.sync h
    rw [hsync] at hsynced hsound'
    have hminode := hmoved.minode
    rw [← hminode] at hv' hsound'
    obtain ⟨fp₂, hmove, hf₂, hmoved₂, hpos, hclean₂⟩ := @Holds.move _ _ _ _ _ _ newpos _ hv' hf' hclean
      (by rw [hminode, hs.filesize]; exact hle) hsound'
    have hdin : (v'.din fp.minode.ino).filesize.toNat = v.filesize fp.minode.ino := by
      rw [← hs.filesize, ← hminode]
      exact hv'.din
    rw [hs.blksize] at hf₂
    exact ⟨fp₂, v', fseek_run (r := (fp₂, v')) htarget
      (.inl ⟨hwrite, seekResize_quiet h.din hsync hdin hmoved.mode (.inl hread)⟩) hmove, hminode ▸ hv', hf₂,
      hmoved.trans hmoved₂, hpos, hclean₂, hs, hsynced⟩
  · have hno := Bool.eq_false_iff.mpr hwrite
    obtain ⟨fp₂, hmove, hf₂, hmoved₂, hpos, hclean₂⟩ := hf.move h (hout hno) hle hsound
    exact ⟨fp₂, v, fseek_run (r := (fp₂, v)) htarget (.inr ⟨hno, rfl, rfl⟩) hmove, h, hf₂, hmoved₂, hpos,
      hclean₂, ⟨rfl, rfl, rfl, id⟩, .refl h⟩

end Seeks

/-- A handle of mode `fm` comes to hold inode `ino` when it is opened: nothing is cut off, and the handle can
start where it does. -/
structure VDisk.Opens (v : VDisk) (ino : Nat) (fm : Mode) : Prop where
  kept : fm.trunc = true → v.filesize ino = 0
  start : fm.append = true ∨ fm.read = true ∨ v.filesize ino = 0
  sound : v.Sound ino (v.startPos ino fm)

section Opening

variable {cnt : Nat → Nat} {all : Set Nat} {v v' : VDisk} {free : List Nat} {p : Minptr} {fm : Mode}

theorem startPos_le (v : VDisk) (ino : Nat) (fm : Mode) : v.startPos ino fm ≤ v.filesize ino := by
  rw [VDisk.startPos]
  split
  · exact Nat.le_refl _
  · exact Nat.zero_le _

theorem startPos_end (h : fm.append = true ∨ v.filesize p.ino = 0) : v.startPos p.ino fm = v.filesize p.ino := by
  rcases h with h | h
  · exact if_pos h
  · have := startPos_le v p.ino fm
    omega

/-- The seek with which a handle is opened. -/
theorem fseek_starts (h : Stored cnt all p.ino v free) (ho : v.Opens p.ino fm) :
    ∃ fp v', (fseek (.blank p fm) 0 (if fm.append then .fin else .set)).run v = ((.ok, fp), v') ∧
      SameData v v' ∧ Alters cnt all p.ino v cnt v' ∧ fp.minode = p ∧ fp.mode = fm ∧
      fp.filepos = v.startPos p.ino fm ∧ fp.dirty = false ∧
      Holds fp (v.startPos p.ino fm / v.blksize) (v.fileBytes p.ino) v' := by
  have htarget : seekTarget 0 (v.din p.ino).filesize.toNat 0 (if fm.append then .fin else .set) =
      some (v.startPos p.ino fm) := by
    rw [h.din, VDisk.startPos]
    split
    · simp [seekTarget, seekFrom, u32_of_lt h.size.lt]
    · rfl
  have hquiet : fm.write = true → fm.read = true ∨ v.startPos p.ino fm = v.filesize p.ino := fun _ => by
    rcases ho.start with happend | hread | hempty
    · exact .inr (startPos_end (.inl happend))
    · exact .inl hread
    · exact .inr (startPos_end (.inr hempty))
  obtain ⟨v', hs, _, _, hseek⟩ := @fseek_quiet _ _ _ _ (.blank p fm) _ h rfl _ _ htarget hquiet
  have halters := @fseek_alters _ _ _ _ (.blank p fm) _ _ _ h rfl htarget hquiet
  have h' := h.same hs
  obtain ⟨blk, hlast, hholds⟩ := @Stored.seek_start _ _ _ _ (.blank p fm) fm h' rfl rfl
    ((hs.startPos h).symm ▸ (hs.sound h).mpr ho.sound)
  change (datablockLast p.ino (v'.startPos p.ino fm)).run v' = (blk, v') at hlast
  change Holds (File.seek (.blank p fm) v' (v'.startPos p.ino fm) blk) (v'.startPos p.ino fm / v'.blksize)
    (v'.fileBytes p.ino) v' at hholds
  rw [hs.startPos h] at hlast hholds
  have hrun := hseek blk hlast
  rw [hrun] at halters
  rw [h.fileBytes_same hs, hs.blksize] at hholds
  exact ⟨_, v', hrun, hs, halters, rfl, rfl, rfl, rfl, hholds⟩

/-- `ufs_open` of a file that it does not truncate. -/
theorem openHandle_starts (h : Stored cnt all p.ino v free) (ho : v.Opens p.ino fm) (now : Timev) :
    ∃ fp v', (openHandle (.blank p .none) fm now).run v = (fp, v') ∧ SameData v v' ∧
      Alters cnt all p.ino v cnt v' ∧ fp.minode = p ∧ fp.mode = fm ∧ fp.filepos = v.startPos p.ino fm ∧
      fp.dirty = false ∧ Holds fp (v.startPos p.ino fm / v.blksize) (v.fileBytes p.ino) v' ∧ v'.InSlot p.ino := by
  let g : Dinode → Dinode := fun d => { d with atime := now, mtime := if fm.write then now else d.mtime }
  have hs₁ : SameData v (v.setDinode p.ino g) := .setDinode (g := g) (fun _ => rfl) (fun _ => rfl) ..
  have halters₁ : Alters cnt all p.ino v cnt (v.setDinode p.ino g) :=
    .setMinode (g := fun m => { m with dinode := g m.dinode }) h (fun _ => rfl) (fun _ => rfl) fun _ => rfl
  generalize hv₁ : v.setDinode p.ino g = v₁ at hs₁ halters₁
  have h₁ := h.same hs₁
  have hsize₁ : v₁.filesize p.ino = v.filesize p.ino := hs₁.filesize _ (.inl h.cached)
  have ho₁ : v₁.Opens p.ino fm := ⟨fun ht => hsize₁.trans (ho.kept ht), hsize₁.symm ▸ ho.start,
    (hs₁.startPos h).symm ▸ (hs₁.sound h).mpr ho.sound⟩
  have hcut (htrunc : fm.trunc = true) : (datablockSizeChange 0 p.ino).run v₁ = (.ok, v₁) := by
    have hzero : u32sub 0 (v₁.din p.ino).filesize.toNat = 0 := by rw [h₁.din, ho₁.kept htrunc]; rfl
    simp only [datablockSizeChange, Prog.run_bind, hzero, if_true, Prog.run_pure]
  obtain ⟨fp, v₂, hseek, hs₂, halters₂, hminode, hfm, hfilepos, hclean, hholds⟩ := fseek_starts h₁ ho₁
  have h₂ := h₁.same hs₂
  have hwriteback := inodeWriteback_live h₂.owned.geometry h₂.owned.live h₂.number
  have hs₃ : SameData v₂ ((v₂.writtenBack p.ino).setMinode p.ino fun m => { m with dirty := false }) :=
    (SameData.writtenBack h₂.owned.geometry h₂.number h₂.cached).trans
      (.setMinode (g := fun m => { m with dirty := false }) (fun _ => rfl) (fun _ => rfl) (fun _ => rfl) ..)
  have halters₃ : Alters cnt all p.ino v₂ cnt
      ((v₂.writtenBack p.ino).setMinode p.ino fun m => { m with dirty := false }) := by
    obtain ⟨_, hback⟩ := (Alters.writtenBack h₂).stored
    exact (Alters.writtenBack h₂).trans
      (.setMinode (g := fun m => { m with dirty := false }) hback (fun _ => rfl) (fun _ => rfl) fun _ => rfl)
  rw [hs₁.startPos h] at hfilepos hholds
  rw [h.fileBytes_same hs₁, hs₁.blksize] at hholds
  refine ⟨fp, _, ?_, (hs₁.trans hs₂).trans hs₃, (halters₁.trans halters₂).trans halters₃, hminode, hfm, hfilepos,
    hclean, ?_, inSlot_writtenBack h₂.owned.geometry h₂.number h₂.cached⟩
  · subst hv₁
    simp only [openHandle, File.blank, modifyDinode, modifyMinode, Prog.run_bind] at hseek ⊢
    by_cases htrunc : fm.trunc
    · simp only [htrunc, if_true, Prog.run_bind, g] at hcut hseek ⊢
      simp only [hcut, hseek, hwriteback, Prog.run_pure]
    · simp only [htrunc, Bool.false_eq_true, if_false, Prog.run_bind, Prog.run_pure, g] at hseek ⊢
      simp only [hseek, hwriteback]
  · subst hminode
    exact hholds.same h₂ hs₃

end Opening

end Ufs370
