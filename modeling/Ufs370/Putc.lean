import Ufs370.Append
import Ufs370.BlockMoves

/-! Writing a byte with `ufs_file_putc` and with `ufs_file_putn`. -/

namespace Ufs370

open Lib

/-- From `v` to `v'` the blocks keep their size. -/
def SameBlksize (v v' : VDisk) : Prop := v'.blksize = v.blksize

instance : Std.Refl SameBlksize := ⟨fun _ => rfl⟩

instance : IsTrans VDisk SameBlksize where
  trans _ _ _ h h' := Eq.trans h' h

theorem sameBlksize_blind : Blind SameBlksize where
  rest _ _ _ _ := rfl
  minode _ _ _ _ := rfl
  restore _ h := h

/-- The two calls for the byte `c` leave the same handle and the same disk, and either both work or none. -/
def PutsAlike (fp : File) (c : UInt8) (v : VDisk) : Prop :=
  (filePutn fp [c]).run v = (((if ((filePutc fp c).run v).1.1 then 1 else 0), ((filePutc fp c).run v).1.2),
    ((filePutc fp c).run v).2)

section Any

variable {fp : File} {c : UInt8} {v v' : VDisk} {rc : Rc}

theorem putsAlike_refused (h : fp.err = true ∨ fp.mode.write = false) : PutsAlike fp c v := by
  rcases herr : fp.err
  · have hwrite := h.resolve_left (by rw [herr]; exact Bool.false_ne_true)
    simp [PutsAlike, filePutn, putnLoop, putnExtend, filePutc, herr, hwrite]
  · simp [PutsAlike, filePutn, putnLoop, putnExtend, filePutc, herr]

variable (herr : fp.err = false) (hwrite : fp.mode.write = true)
include herr hwrite

section Within

variable (hmore : fp.filepos < (v.din fp.minode.ino).filesize.toNat) (hbuf : fp.blkpos < v.blksize)
include hmore hbuf

theorem filePutc_within : (filePutc fp c).run v = ((true, fp.put [c]), v) := by
  have hnot : ¬ (v.din fp.minode.ino).filesize.toNat ≤ fp.filepos := Nat.not_le.mpr hmore
  simp only [filePutc, herr, hwrite, hnot, hbuf, Bool.not_true, Bool.false_eq_true, if_false, if_true,
    Prog.run_bind, Prog.run_pure, ne_eq, not_true_eq_false]

theorem filePutn_within : (filePutn fp [c]).run v = ((1, fp.put [c]), v) := by
  have hlt := (v.din fp.minode.ino).filesize.toNat_lt
  have hu : u32 (fp.filepos + 1) = fp.filepos + 1 := u32_of_lt (by omega)
  have havail : 1 ≤ u32sub v.blksize fp.blkpos := by
    rw [u32sub_of_le (Nat.le_of_lt hbuf)]
    omega
  have hle : fp.filepos + 1 ≤ (v.din fp.minode.ino).filesize.toNat := hmore
  simp only [filePutn, putnLoop, putnExtend, herr, hwrite, hu, hle, havail, List.length_singleton,
    Bool.not_true, Bool.false_eq_true, if_false, if_true, Prog.run_bind, Prog.run_pure, List.cons_ne_self]

/-- With room in the buffer both calls put the byte into it. -/
theorem putsAlike_within : PutsAlike fp c v := by
  rw [PutsAlike, filePutc_within herr hwrite hmore hbuf, filePutn_within herr hwrite hmore hbuf]
  rfl

end Within

section Beyond

variable (hend : (v.din fp.minode.ino).filesize.toNat ≤ fp.filepos) (hpos : fp.filepos + 1 < 4294967296)
  (hrun : (datablockSizeChange (fp.filepos + 1) fp.minode.ino).run v = (rc, v'))
include hend hpos hrun

/-- If the file cannot grow both calls fail with the same error. -/
theorem putsAlike_refusedGrowth (hrc : rc ≠ .ok) : PutsAlike fp c v := by
  have hu : u32 (fp.filepos + 1) = fp.filepos + 1 := u32_of_lt hpos
  have hnot : ¬ fp.filepos + 1 ≤ (v.din fp.minode.ino).filesize.toNat := by omega
  simp only [PutsAlike, filePutn, putnLoop, putnExtend, filePutc, herr, hwrite, hu, hnot, hend, hrun, hrc,
    List.length_singleton, Bool.not_true, Bool.not_false, Bool.false_eq_true, if_false, if_true, Prog.run_bind,
    Prog.run_pure, ne_eq, List.cons_ne_self, not_false_eq_true]

theorem filePutc_grown (hbuf : fp.blkpos < v.blksize) (hrc : rc = .ok) :
    (filePutc fp c).run v = ((true, fp.put [c]), v') := by
  have hu : u32 (fp.filepos + 1) = fp.filepos + 1 := u32_of_lt hpos
  simp only [filePutc, herr, hwrite, hu, hend, hrun, hrc, hbuf, Bool.not_true, Bool.false_eq_true, if_false,
    if_true, Prog.run_bind, Prog.run_pure, ne_eq, not_true_eq_false]

theorem filePutn_grown (hbuf : fp.blkpos < v.blksize) (hrc : rc = .ok) :
    (filePutn fp [c]).run v = ((1, File.put { fp with eof := false } [c]), v') := by
  have hu : u32 (fp.filepos + 1) = fp.filepos + 1 := u32_of_lt hpos
  have hnot : ¬ fp.filepos + 1 ≤ (v.din fp.minode.ino).filesize.toNat := by omega
  have hsize : v'.blksize = v.blksize := by
    have hkept := (Blind.datablockSizeChange sameBlksize_blind (fp.filepos + 1) fp.minode.ino).run v
    rw [hrun] at hkept
    exact hkept
  have havail : 1 ≤ u32sub v.blksize fp.blkpos := by
    rw [u32sub_of_le (Nat.le_of_lt hbuf)]
    omega
  simp only [filePutn, putnLoop, putnExtend, herr, hwrite, hu, hnot, hrun, hrc, hsize, havail,
    List.length_singleton, Bool.not_true, Bool.false_eq_true, if_false, if_true, Prog.run_bind,
    Prog.run_pure, ne_eq, List.cons_ne_self, not_true_eq_false]

/-- Only `ufs_file_putn` takes back the end-of-file indicator of a file that grows. -/
theorem putsAlike_grown (hbuf : fp.blkpos < v.blksize) (hrc : rc = .ok) :
    PutsAlike fp c v ↔ fp.eof = false := by
  rw [PutsAlike, filePutn_grown herr hwrite hend hpos hrun hbuf hrc,
    filePutc_grown herr hwrite hend hpos hrun hbuf hrc]
  constructor
  · intro h
    have heof : (File.put { fp with eof := false } [c]).eof = (fp.put [c]).eof :=
      congrArg (fun r : (Nat × File) × VDisk => r.1.2.eof) h
    exact heof.symm
  · intro heof
    rw [show ({ fp with eof := false } : File) = fp by rw [← heof]]
    rfl

end Beyond

/-- In the buffer the two calls do the same unless the end-of-file indicator is to be taken back. -/
theorem putsAlike_buffer (hbuf : fp.blkpos < v.blksize)
    (hend : fp.filepos < (v.din fp.minode.ino).filesize.toNat ∨ fp.eof = false ∧ fp.filepos + 1 < 4294967296) :
    PutsAlike fp c v := by
  by_cases hmore : fp.filepos < (v.din fp.minode.ino).filesize.toNat
  · exact putsAlike_within herr hwrite hmore hbuf
  obtain ⟨heof, hpos⟩ := hend.resolve_left hmore
  rcases hrun : (datablockSizeChange (fp.filepos + 1) fp.minode.ino).run v with ⟨rc, v'⟩
  by_cases hrc : rc = .ok
  · exact (putsAlike_grown herr hwrite (Nat.not_lt.mp hmore) hpos hrun hbuf hrc).mpr heof
  · exact putsAlike_refusedGrowth herr hwrite (Nat.not_lt.mp hmore) hpos hrun hrc

end Any

section Held

variable {cnt : Nat → Nat} {all : Set Nat} {v v' : VDisk} {free : List Nat} {fp : File} {m : Nat}
  {f : Nat → UInt8} {c : UInt8}

/-- The end-of-file indicator is nothing to `ufs_file_sync`. -/
theorem fileSync_eof (fp : File) (eof : Bool) (v : VDisk) : (fileSync { fp with eof }).run v =
    ({ ((fileSync fp).run v).1 with eof }, ((fileSync fp).run v).2) := by
  obtain ⟨filepos, mode, _, err, dirty, error, minode, blkno, blkpos, blkbuf⟩ := fp
  cases dirty with
  | false =>
    simp only [fileSync, Bool.false_eq_true, if_false, Prog.run_bind, Prog.run_pure, Prog.run_ite]
    split <;> rfl
  | true =>
    by_cases hblk : blkno = 0
    · simp only [fileSync, fileSyncBlock, hblk, if_true, Prog.run_bind]
      by_cases hlast : ((datablockLast minode.ino filepos).run v).1 = 0
      · simp only [hlast, if_true, Prog.run_pure, Prog.run_ite, Prog.run_bind]
        split <;> rfl
      · simp only [hlast, if_false, Prog.run_pure, Prog.run_ite, Prog.run_bind]
        split <;> rfl
    · simp only [fileSync, fileSyncBlock, hblk, if_true, if_false, Prog.run_bind, Prog.run_pure, Prog.run_ite]
      split <;> rfl

theorem filePutc_next {fp₁ : File} {v₀ v₁ : VDisk} {blk : Nat} (herr : fp.err = false)
    (hwrite : fp.mode.write = true)
    (hgrow : (v.din fp.minode.ino).filesize.toNat ≤ fp.filepos ∧
        (datablockSizeChange (u32 (fp.filepos + 1)) fp.minode.ino).run v = (.ok, v₀) ∨
      ¬ (v.din fp.minode.ino).filesize.toNat ≤ fp.filepos ∧ v₀ = v)
    (hfull : ¬ fp.blkpos < v.blksize) (hsync : (fileSync fp).run v₀ = (fp₁, v₁))
    (hlast : (datablockLast fp₁.minode.ino fp₁.filepos).run v₁ = (blk, v₁)) (hne : blk ≠ 0) (hv : v₁.Live) :
    (filePutc fp c).run v = ((true, File.put { fp₁ with
      blkno := blk, blkbuf := v₁.io.blocks blk, blkpos := fp₁.filepos % v.blksize } [c]), v₁) := by
  rcases hgrow with ⟨hend, hrun⟩ | ⟨hend, rfl⟩
  · simp only [filePutc, fileLoad, herr, hwrite, hend, hrun, hfull, hsync, hlast, hne, vdiskRead_live hv,
      Bool.not_true, Bool.false_eq_true, if_false, if_true, Prog.run_bind, Prog.run_pure, ne_eq,
      not_true_eq_false]
  · simp only [filePutc, fileLoad, herr, hwrite, hend, hfull, hsync, hlast, hne, vdiskRead_live hv,
      Bool.not_true, Bool.false_eq_true, if_false, Prog.run_bind, Prog.run_pure, ne_eq, not_true_eq_false]

/-- At the end of the buffer `ufs_file_putc` takes the block that it was for the next one. -/
theorem Holds.putc_boundary {v₀ : VDisk} (h : Stored cnt all fp.minode.ino v₀ free)
    (hf : Holds { fp with eof := false } m f v₀) (hwrite : fp.mode.write = true)
    (hgrow : (v.din fp.minode.ino).filesize.toNat ≤ fp.filepos ∧
        (datablockSizeChange (u32 (fp.filepos + 1)) fp.minode.ino).run v = (.ok, v₀) ∨
      ¬ (v.din fp.minode.ino).filesize.toNat ≤ fp.filepos ∧ v₀ = v)
    (hlt : m * v₀.blksize < v₀.filesize fp.minode.ino) (hsize : v₀.blksize = v.blksize)
    (hfull : fp.blkpos = v.blksize) :
    ∃ fp' w, (filePutc fp c).run v = ((true, fp'), w) ∧ Stored cnt all fp.minode.ino w free ∧
      m * w.blksize < w.filesize fp.minode.ino ∧ w.blksize = v.blksize ∧ fp'.minode = fp.minode ∧
      fp'.blkno = w.fileBlock fp.minode.ino m ∧ fp'.blkpos = 1 := by
  have h' : Stored cnt all ({ fp with eof := false } : File).minode.ino v₀ free := h
  obtain ⟨w, fp₁, hsync, hw, hf₁, hmoved, hpos₁, hblkpos₁, hclean₁, hs⟩ := hf.sync h'
  have hpos : fp.filepos = (m + 1) * w.blksize := by
    have hpos := hf.pos
    dsimp only at hpos
    rw [hpos, hfull, hs.blksize, hsize, Nat.succ_mul]
  have hlt' : m * w.blksize < w.filesize fp.minode.ino := by
    rw [hs.blksize, hs.filesize]
    exact hlt
  have hback := fileSync_eof { fp with eof := false } fp.eof v₀
  rw [hsync] at hback
  change (fileSync fp).run v₀ = ({ fp₁ with eof := fp.eof }, w) at hback
  have hpos₁' : fp₁.filepos = fp.filepos := hpos₁
  have hmod : fp.filepos % v.blksize = 0 := by rw [hpos, hs.blksize, hsize, Nat.mul_mod_left]
  have hminode : fp₁.minode = fp.minode := hmoved.minode
  have hlast : (datablockLast fp₁.minode.ino fp₁.filepos).run w = (w.fileBlock fp.minode.ino m, w) := by
    rw [hminode, hpos₁', hpos]
    exact Stored.last hw hlt' (Nat.mul_lt_mul_of_pos_right (Nat.lt_succ_self m) hw.blksize_pos) (Nat.le_refl _)
  refine ⟨_, w, filePutc_next hf.err hwrite hgrow (by rw [hfull]; exact Nat.lt_irrefl _) hback hlast
    (hw.block_pos hlt') hw.owned.live, hw, hlt', hs.blksize.trans hsize, hminode, rfl, ?_⟩
  change fp₁.filepos % v.blksize + 1 = 1
  rw [hpos₁', hmod]

/-- A handle that writing can lead to: at the end of its buffer it is not past the end of the file, and the
file is asked to grow to a size with an address map, by less than 2 GiB. -/
structure PutReady (fp : File) (v : VDisk) : Prop where
  full : fp.blkpos = v.blksize → fp.filepos ≤ v.filesize fp.minode.ino
  size : v.filesize fp.minode.ino ≤ fp.filepos → FileSize v (fp.filepos + 1)
  small : fp.filepos + 1 < v.filesize fp.minode.ino + 2147483648

theorem PutReady.takes (hready : PutReady fp v)
    (hfree : v.filesize fp.minode.ino ≤ fp.filepos → v.FreeFor fp.minode.ino (fp.filepos + 1)) :
    Takes v fp.minode.ino fp.filepos 1 :=
  ⟨fun hlt => hready.size (Nat.lt_succ_iff.mp hlt), hready.small, fun hlt => hfree (Nat.lt_succ_iff.mp hlt)⟩

section Put

variable (h : Stored cnt all fp.minode.ino v free) (hf : Holds fp m f v) (hwrite : fp.mode.write = true)
include h hf hwrite

/-- One of the two writes into a block that the file has already. -/
theorem Holds.not_putsAlike (hready : PutReady fp v)
    (hfree : v.filesize fp.minode.ino ≤ fp.filepos → v.FreeFor fp.minode.ino (fp.filepos + 1))
    (hfull : fp.blkpos = v.blksize) : ¬ PutsAlike fp c v := by
  intro halike
  have hle := hready.full hfull
  have hstart : fp.filepos = m * v.blksize + v.blksize := hfull ▸ hf.pos
  have hpos := h.blksize_pos
  obtain ⟨fp', w, hputc, hw, hlt, hsize, hminode, hblkno, hblkpos⟩ :
      ∃ fp' w, (filePutc fp c).run v = ((true, fp'), w) ∧ (∃ cnt free, Stored cnt all fp.minode.ino w free) ∧
        m * w.blksize < w.filesize fp.minode.ino ∧ w.blksize = v.blksize ∧ fp'.minode = fp.minode ∧
        fp'.blkno = w.fileBlock fp.minode.ino m ∧ fp'.blkpos = 1 := by
    rcases Nat.lt_or_ge fp.filepos (v.filesize fp.minode.ino) with hmore | hend
    · have heof : fp.eof = false := Bool.eq_false_iff.mpr fun he => Nat.not_lt.mpr (hf.eof he) hmore
      have hf' : Holds { fp with eof := false } m f v := { hf with eof := fun he => absurd he Bool.false_ne_true }
      obtain ⟨fp', w, hrun, hw, hrest⟩ := hf'.putc_boundary (c := c) h hwrite
        (.inr ⟨by rw [h.din]; omega, rfl⟩) (by omega) rfl hfull
      exact ⟨fp', w, hrun, ⟨cnt, free, hw⟩, hrest⟩
    · obtain ⟨v₀, free₀, hgrow, r, hf'⟩ :=
        hf.grow h (hready.size hend) (Nat.lt_succ_of_le hend) hready.small (hfree hend)
      have hnew := hready.size hend
      have hv₀ := r.stored h hnew
      have hsize₀ := r.filesize_eq h hnew
      obtain ⟨fp', w, hrun, hw, hrest⟩ := hf'.putc_boundary (c := c) hv₀ hwrite
        (.inl ⟨h.din.symm ▸ hend, by rw [u32_of_lt hnew.lt]; exact hgrow⟩)
        (by rw [r.blksize, hsize₀]; omega) r.blksize hfull
      exact ⟨fp', w, hrun, ⟨_, free₀, hw⟩, hrest⟩
  obtain ⟨cnt', free', hw⟩ := hw
  have htakes : Takes v fp.minode.ino fp.filepos [c].length := hready.takes hfree
  obtain ⟨fp₂, v₂, cnt₂, free₂, m₂, hputn, hputs⟩ := hf.putn h hwrite htakes
  rw [PutsAlike, hputn, hputc] at halike
  obtain ⟨hfp, rfl⟩ := Prod.mk.inj halike
  obtain ⟨-, rfl⟩ := Prod.mk.inj hfp
  have hheld := hputs.holds
  -- the position says which block the buffer has to have
  have hm : m₂ = m + 1 := by
    have hpos₂ := hheld.pos
    rw [hputs.filepos, hblkpos, hputs.blksize, hstart, List.length_singleton, ← Nat.succ_mul] at hpos₂
    exact (Nat.eq_of_mul_eq_mul_right hpos (Nat.succ.inj hpos₂)).symm
  subst hm
  rcases hheld.block with ⟨hb, hlt'⟩ | ⟨hb, -⟩
  · rw [hminode] at hb hlt'
    exact absurd (hw.block_inj hlt hlt' (hblkno.symm.trans hb)) (Nat.ne_of_lt (Nat.lt_succ_self m))
  · exact hw.block_pos hlt (hblkno.symm.trans hb)

omit hwrite in
theorem Holds.putsAlike_iff (hready : PutReady fp v) : PutsAlike fp c v ↔ fp.mode.write = false ∨
    v.filesize fp.minode.ino ≤ fp.filepos ∧ ¬ v.FreeFor fp.minode.ino (fp.filepos + 1) ∨
    fp.blkpos < v.blksize ∧ (fp.filepos < v.filesize fp.minode.ino ∨ fp.eof = false) := by
  rcases hwrite : fp.mode.write
  · exact iff_of_true (putsAlike_refused (.inr hwrite)) (.inl rfl)
  simp only [Bool.true_eq_false, false_or]
  by_cases hroom : v.filesize fp.minode.ino ≤ fp.filepos ∧ ¬ v.FreeFor fp.minode.ino (fp.filepos + 1)
  · obtain ⟨hend, hfree⟩ := hroom
    have hnew := hready.size hend
    obtain ⟨rc, v', hrun, hrc⟩ := h.grow_refused hnew (Nat.le_succ_of_le hend) hready.small hfree
    exact iff_of_true (putsAlike_refusedGrowth hf.err hwrite (h.din.symm ▸ hend) hnew.lt hrun hrc)
      (.inl ⟨hend, hfree⟩)
  have hfree (hend : v.filesize fp.minode.ino ≤ fp.filepos) : v.FreeFor fp.minode.ino (fp.filepos + 1) := by
    by_contra hno
    exact hroom ⟨hend, hno⟩
  simp only [hroom, false_or]
  by_cases hbuf : fp.blkpos < v.blksize
  · simp only [hbuf, true_and]
    rcases Nat.lt_or_ge fp.filepos (v.filesize fp.minode.ino) with hmore | hend
    · exact iff_of_true (putsAlike_within hf.err hwrite (h.din.symm ▸ hmore) hbuf) (.inl hmore)
    · have hnew := hready.size hend
      obtain ⟨v₀, free₀, hgrow, -⟩ := h.grow hnew (Nat.le_succ_of_le hend) hready.small (hfree hend)
      rw [putsAlike_grown hf.err hwrite (h.din.symm ▸ hend) hnew.lt hgrow hbuf rfl]
      exact (or_iff_right (Nat.not_lt.mpr hend)).symm
  · exact iff_of_false (hf.not_putsAlike h hwrite hready hfree
      (Nat.le_antisymm hf.bound (Nat.not_lt.mp hbuf))) fun hand => hbuf hand.1

/-- In the buffer `ufs_file_putc` is a write of one byte at the position. -/
theorem Holds.putc (htakes : Takes v fp.minode.ino fp.filepos 1) (hbuf : fp.blkpos < v.blksize) :
    ∃ fp' v' cnt' free' m', (filePutc fp c).run v = ((true, fp'), v') ∧ fp'.blkpos = fp.blkpos + 1 ∧
      Puts fp f [c] (putSize (v.filesize fp.minode.ino) fp.filepos [c]) v cnt' all free' m' fp' v' := by
  have hone : Takes v fp.minode.ino fp.filepos [c].length := htakes
  obtain ⟨fp', v', cnt', free', m', hrun, hputs⟩ := hf.putn h hwrite hone
  rcases Nat.lt_or_ge fp.filepos (v.filesize fp.minode.ino) with hmore | hend
  · rw [filePutn_within hf.err hwrite (h.din.symm ▸ hmore) hbuf] at hrun
    obtain ⟨hfp, rfl⟩ := Prod.mk.inj hrun
    obtain ⟨-, rfl⟩ := Prod.mk.inj hfp
    exact ⟨_, v, cnt', free', m', filePutc_within hf.err hwrite (h.din.symm ▸ hmore) hbuf, rfl, hputs⟩
  · have hlt := Nat.lt_succ_of_le hend
    have hnew := htakes.size hlt
    obtain ⟨v₀, free₀, hgrow, -⟩ := h.grow hnew (Nat.le_of_lt hlt) htakes.small (htakes.free hlt)
    rw [filePutn_grown hf.err hwrite (h.din.symm ▸ hend) hnew.lt hgrow hbuf rfl] at hrun
    obtain ⟨hfp, rfl⟩ := Prod.mk.inj hrun
    obtain ⟨-, rfl⟩ := Prod.mk.inj hfp
    refine ⟨_, v₀, cnt', free', m', filePutc_grown hf.err hwrite (h.din.symm ▸ hend) hnew.lt hgrow hbuf rfl,
      rfl, ⟨rfl, rfl⟩, hputs.stored, ?_, hputs.filepos, hputs.size, hputs.blksize, hputs.room, hputs.inSlot⟩
    -- the indicator that is left on is right: the position is at the end
    have hsize := hputs.size
    rw [putSize, if_neg (List.cons_ne_nil c []), List.length_singleton, Nat.max_eq_right (Nat.le_of_lt hlt)] at hsize
    exact { hputs.holds with eof := fun _ => (hsize.trans hputs.filepos.symm).le }

/-- In the buffer a string goes byte by byte to where it goes at once. -/
theorem Holds.putcs {ys : List UInt8} (htakes : Takes v fp.minode.ino fp.filepos ys.length)
    (hbuf : fp.blkpos + ys.length ≤ v.blksize) :
    ∃ fp' v' cnt' free' m', (Ufs370.putcs fp ys).run v = ((ys.length, fp'), v') ∧
      Puts fp f ys (putSize (v.filesize fp.minode.ino) fp.filepos ys) v cnt' all free' m' fp' v' := by
  induction ys generalizing fp v cnt free m f with
  | nil => exact ⟨fp, v, cnt, free, m, rfl, .none h hf⟩
  | cons c ys ih =>
    rw [List.length_cons] at hbuf htakes
    obtain ⟨fp₁, v₁, cnt₁, free₁, m₁, hrun₁, hblkpos, hputs₁⟩ :=
      hf.putc h hwrite (c := c) (htakes.mono (Nat.le_add_left ..)) (by omega)
    have htakes₁ := hputs₁.takes (n := ys.length) (by rw [List.length_singleton, Nat.add_comm]; exact htakes)
    obtain ⟨fp₂, v₂, cnt₂, free₂, m₂, hrun₂, hputs₂⟩ :=
      ih hputs₁.stored' hputs₁.holds (hputs₁.moved.mode ▸ hwrite) htakes₁ (by rw [hblkpos, hputs₁.blksize]; omega)
    have hwhole := hputs₁.trans hputs₂
    rw [hputs₁.moved.minode, hputs₁.size, hputs₁.filepos, putSize_append] at hwhole
    refine ⟨fp₂, v₂, cnt₂, free₂, m₂, ?_, hwhole⟩
    simp only [Ufs370.putcs, Prog.run_bind, hrun₁, hrun₂, Bool.not_true, Bool.false_eq_true, if_false,
      Prog.run_pure, List.length_cons]

end Put

/-- What is on the disk after `ufs_fsync`. -/
theorem Puts.content {fp' : File} {ys : List UInt8} {size : Nat}
    (h : Puts fp f ys size v cnt all free m fp' v') :
    ((fileSync fp').run v').2.content fp.minode.ino = (List.range size).map (splice f fp.filepos ys) := by
  obtain ⟨w, fp₁, hrun, hw, hf₁, hmoved, -, -, hclean, hs⟩ := h.holds.sync h.stored'
  have hcontent := hf₁.content (hmoved.minode ▸ hw) hclean
  rw [hmoved.minode, h.moved.minode] at hcontent
  rw [hrun, hcontent]
  have hsize := hs.filesize
  rw [h.moved.minode, h.size] at hsize
  rw [hsize]

end Held

/-- The byte-wise write is the bulk write unless the buffer is full or the file grows under an end-of-file
indicator; a string that fits in the buffer makes the same file. -/
theorem putc_eq_putn (fp : File) (c : UInt8) (v : VDisk) :
    (fp.err = true ∨ fp.mode.write = false ∨ fp.blkpos < v.blksize ∧
      (fp.filepos < (v.din fp.minode.ino).filesize.toNat ∨ fp.eof = false ∧ fp.filepos + 1 < 4294967296) →
        PutsAlike fp c v) ∧
    ∀ cnt all free m f, Stored cnt all fp.minode.ino v free → Holds fp m f v →
      (PutReady fp v → (PutsAlike fp c v ↔ fp.mode.write = false ∨
        v.filesize fp.minode.ino ≤ fp.filepos ∧ ¬ v.FreeFor fp.minode.ino (fp.filepos + 1) ∨
        fp.blkpos < v.blksize ∧ (fp.filepos < v.filesize fp.minode.ino ∨ fp.eof = false))) ∧
      ∀ ys, fp.mode.write = true → fp.blkpos + ys.length ≤ v.blksize →
        Takes v fp.minode.ino fp.filepos ys.length →
        let bytes := (putcs fp ys).run v
        let bulk := (filePutn fp ys).run v
        bytes.1.1 = ys.length ∧ bulk.1.1 = ys.length ∧
          ((fileSync bytes.1.2).run bytes.2).2.content fp.minode.ino =
            ((fileSync bulk.1.2).run bulk.2).2.content fp.minode.ino := by
  refine ⟨fun hcond => ?_, fun cnt all free m f h hf => ⟨hf.putsAlike_iff h, fun ys hwrite hbuf htakes => ?_⟩⟩
  · rcases herr : fp.err
    · rcases hwrite : fp.mode.write
      · exact putsAlike_refused (.inr hwrite)
      · simp only [herr, hwrite, Bool.false_eq_true, Bool.true_eq_false, false_or] at hcond
        exact putsAlike_buffer herr hwrite hcond.1 hcond.2
    · exact putsAlike_refused (.inl herr)
  · obtain ⟨fp₁, v₁, cnt₁, free₁, m₁, hbytes, hputs₁⟩ := hf.putcs h hwrite htakes hbuf
    obtain ⟨fp₂, v₂, cnt₂, free₂, m₂, hbulk, hputs₂⟩ := hf.putn h hwrite htakes
    rw [hbytes, hbulk]
    exact ⟨rfl, rfl, hputs₁.content.trans hputs₂.content.symm⟩

/-- The handle of a file that was opened for update. -/
def halfHandle : File := File.seek (.blank ⟨0, 2⟩ (fileMode [0x99, 0x4E])) halfBlock 0 10

theorem halfHandle_holds {cnt : Nat → Nat} {all : Set Nat} {free : List Nat} (h : Stored cnt all 2 halfBlock free) :
    Holds halfHandle 0 (halfBlock.fileBytes 2) halfBlock := by
  obtain ⟨blk, hlast, hholds⟩ := @Stored.seek_start _ _ _ _ (.blank ⟨0, 2⟩ (fileMode [0x99, 0x4E]))
    (fileMode [0x99, 0x4E]) h rfl rfl ⟨.inl rfl, fun h => absurd h (by decide +kernel)⟩
  have hblk : blk = 10 := (congrArg Prod.fst hlast).symm.trans (by decide +kernel)
  subst hblk
  exact hholds

/-- A byte and a string at the start of a file. -/
theorem putc_eq_putn_half :
    let bytes := (putcs halfHandle [1, 2, 3]).run halfBlock
    let bulk := (filePutn halfHandle [1, 2, 3]).run halfBlock
    PutsAlike halfHandle 7 halfBlock ∧ bytes.1.1 = 3 ∧ bulk.1.1 = 3 ∧
      ((fileSync bytes.1.2).run bytes.2).2.content 2 = ((fileSync bulk.1.2).run bulk.2).2.content 2 := by
  intro bytes bulk
  obtain ⟨cnt, all, free, hstored⟩ := halfBlock_stored
  obtain ⟨-, hheld⟩ := putc_eq_putn halfHandle 7 halfBlock
  obtain ⟨hbyte, hstring⟩ := hheld cnt all free 0 _ hstored (halfHandle_holds hstored)
  have hmore : halfHandle.filepos < halfBlock.filesize halfHandle.minode.ino := by decide +kernel
  have hsize : halfHandle.filepos + 3 ≤ halfBlock.filesize halfHandle.minode.ino := by decide +kernel
  exact ⟨(hbyte ⟨fun _ => Nat.le_of_lt hmore, fun hend => absurd hmore (Nat.not_lt.mpr hend),
      by decide +kernel⟩).mpr (.inr (.inr ⟨by decide +kernel, .inl hmore⟩)),
    hstring [1, 2, 3] (by decide) (by decide +kernel) ⟨fun hlt => absurd hlt (Nat.not_lt.mpr hsize),
      by decide +kernel, fun hlt => absurd hlt (Nat.not_lt.mpr hsize)⟩⟩

/-- The byte behind the first block goes over its first byte, and the first byte of a file leaves the handle
at its end. -/
theorem not_putc_eq_putn :
    let opened := (openHandle (.blank ⟨0, 2⟩ .none) (fileMode [0xA6]) ⟨0, 0⟩).run pairDisk
    let full := (filePutn opened.1 (List.replicate 512 0)).run opened.2
    let byte := (filePutc full.1.2 7).run full.2
    let bulk := (filePutn full.1.2 [7]).run full.2
    ¬ PutsAlike opened.1 7 opened.2 ∧ ¬ PutsAlike full.1.2 7 full.2 ∧ byte.1.1 = true ∧ bulk.1.1 = 1 ∧
      ((fileSync byte.1.2).run byte.2).2.content 2 ≠ ((fileSync bulk.1.2).run bulk.2).2.content 2 := by
  intro opened full byte bulk
  refine ⟨fun h => ?_, fun h => ?_, by decide +kernel, by decide +kernel, fun h => ?_⟩
  · have heof := congrArg (fun r : (Nat × File) × VDisk => r.1.2.eof) h
    revert heof
    decide +kernel
  · have hblkno := congrArg (fun r : (Nat × File) × VDisk => r.1.2.blkno) h
    revert hblkno
    decide +kernel
  · have hfirst := congrArg List.head? h
    revert hfirst
    decide +kernel

end Ufs370
