import Ufs370.Bytewise
import Ufs370.FreeInodeLaws
import Ufs370.Update
import Ufs370.HandleLaws

/-! What becomes of a block buffer that could not be written. -/

namespace Ufs370

open Lib

namespace File

/-- The block that `ufs_file_sync` writes the buffer to, and the disk when it is found. -/
def target (fp : File) (v : VDisk) : Nat × VDisk :=
  if fp.blkno = 0 then (datablockLast fp.minode.ino fp.filepos).run v else (fp.blkno, v)

/-- The block buffer could not be written. -/
def Unwritten (fp : File) (v : VDisk) : Prop := fp.dirty = true ∧ (fp.target v).1 ≠ 0 ∧
  ((vdiskWrite fp.blkbuf (fp.target v).1).run (fp.target v).2).1 ≠ .ok

/-- The error indicator is set, with an error. -/
def Failed (fp : File) : Prop := fp.err = true ∧ fp.error ≠ .ok

end File

/-- A call of `ufs_file_sync` within another call: the handle and the disk that it starts with, and whether a
later part of that call fails. -/
structure Flush where
  fp : File
  disk : VDisk
  fails : Bool

/-- The buffer is still to be written, as it was and to the same block. -/
structure Flush.Kept (f : Flush) : Prop where
  dirty : ((fileSync f.fp).run f.disk).1.dirty = true
  blkbuf : ((fileSync f.fp).run f.disk).1.blkbuf = f.fp.blkbuf
  blkno : ((fileSync f.fp).run f.disk).1.blkno = (f.fp.target f.disk).1

def readFails (block : Nat) (v : VDisk) : Bool :=
  match ((vdiskRead block).run v).1 with
  | .error _ => true
  | .ok _ => false

/-- The flushes of `putnLoop`, and whether it fails. -/
def putnFlushes : Nat → File → List UInt8 → VDisk → Bool × List Flush
  | 0, _, _, _ => (false, [])
  | calls + 1, fp, buf, v =>
    if buf = [] then (false, [])
    else
      let r := (putnExtend fp buf.length).run v
      if !r.1.1 then (true, [])
      else
        let avail := u32sub r.2.blksize r.1.2.blkpos
        if buf.length ≤ avail then (false, [])
        else
          let fp := if 0 < avail then r.1.2.put (buf.take avail) else r.1.2
          let s := (fileSync fp).run r.2
          let t := (nextBlock s.1).run s.2
          let rest := if t.1.1 then putnFlushes calls t.1.2 (buf.drop avail) t.2 else (true, [])
          (rest.1, ⟨fp, r.2, rest.1⟩ :: rest.2)

/-- `ufs_file_putc` once the file has its size: a flush at the end of the buffer, then the search for the next
block and its read. -/
def putcFlushes (fp : File) (v : VDisk) : List Flush :=
  let r := if (v.din fp.minode.ino).filesize.toNat ≤ fp.filepos
    then (datablockSizeChange (u32 (fp.filepos + 1)) fp.minode.ino).run v else (.ok, v)
  if fp.err = true ∨ fp.mode.write = false ∨ r.1 ≠ .ok ∨ fp.blkpos < v.blksize then []
  else
    let s := (fileSync fp).run r.2
    let t := (datablockLast s.1.minode.ino s.1.filepos).run s.2
    [⟨fp, r.2, decide (t.1 = 0) || readFails t.1 t.2⟩]

/-- `ufs_fseek` once the file has grown to the new position: a flush, then the file shrinks, and the new block is
looked for and read. -/
def seekFlushes (fp : File) (newpos : Nat) (v : VDisk) : List Flush :=
  let r := if (v.din fp.minode.ino).filesize.toNat < newpos ∧ !fp.mode.read
    then (datablockSizeChange newpos fp.minode.ino).run v else (.ok, v)
  if fp.mode.write = false ∨ r.1 ≠ .ok then []
  else
    let s := (fileSync fp).run r.2
    let t := if newpos < (s.2.din fp.minode.ino).filesize.toNat ∧ !s.1.mode.read
      then (datablockSizeChange newpos fp.minode.ino).run s.2 else (.ok, s.2)
    let u := (datablockLast s.1.minode.ino newpos).run t.2
    [⟨fp, r.2, decide (t.1 ≠ .ok) || decide (u.1 ≠ 0 ∧ u.1 ≠ s.1.blkno) && readFails u.1 u.2⟩]

/-- A call on a handle that may write its buffer. -/
inductive HandleCall
  | putn (buf : List UInt8)
  | putc (c : UInt8)
  | seek (offset : Int) (whence : Whence)
  | sync

namespace HandleCall

def step : HandleCall → Prog (File × VDisk) Unit
  | .putn buf => do let _ ← onHandle (filePutn · buf)
  | .putc c => do let _ ← onHandle (filePutc · c)
  | .seek offset whence => do let _ ← onHandle (fseek · offset whence)
  | .sync => do let _ ← onHandle fun fp => do return ((), ← fileSync fp)

/-- Nothing comes after the flush of `ufs_fsync`, which leaves the indicator as it is. -/
def flushes : HandleCall → File × VDisk → List Flush
  | .putn buf, s => (putnFlushes (2 * buf.length + 1) s.1 buf s.2).2
  | .putc _, s => putcFlushes s.1 s.2
  | .seek offset whence, s =>
    match seekTarget s.1.filepos (s.2.din s.1.minode.ino).filesize.toNat offset whence with
    | none => []
    | some newpos => seekFlushes s.1 newpos s.2
  | .sync, s => [⟨s.1, s.2, s.1.err && decide (s.1.error ≠ .ok)⟩]

/-- A buffer that could not be written is kept or reported. -/
def Reports (s : File × VDisk) (call : HandleCall) : Prop :=
  ∀ f ∈ call.flushes s, f.fp.Unwritten f.disk → f.Kept ∨ (call.step.run s).2.1.Failed

/-- A later part of the call fails if a buffer could not be written. -/
def FailsAfter (s : File × VDisk) (call : HandleCall) : Prop :=
  ∀ f ∈ call.flushes s, f.fp.Unwritten f.disk → f.fails = true

end HandleCall

section Sync

variable {fp : File} {v : VDisk}

theorem fileSyncBlock_handle (hdirty : fp.dirty = true) : ((fileSyncBlock fp).run v).1 =
    { fp with blkno := (fp.target v).1, dirty := decide ((fp.target v).1 = 0) } := by
  have hrest (r : Nat × VDisk) : (Prog.run (if r.1 = 0 then pure { fp with blkno := r.1 } else do
      let _ ← vdiskWrite fp.blkbuf r.1
      return { fp with blkno := r.1, dirty := false } : Prog VDisk File) r.2).1 =
        { fp with blkno := r.1, dirty := decide (r.1 = 0) } := by
    by_cases h0 : r.1 = 0
    · rw [if_pos h0, h0, Prog.run_pure]
      simp only [decide_true, hdirty]
    · rw [if_neg h0]
      simp only [Prog.run_bind, Prog.run_pure, h0, decide_false]
  by_cases hno : fp.blkno = 0
  · rw [File.target, if_pos hno]
    simp only [fileSyncBlock, hno, if_true, Prog.run_bind]
    exact hrest _
  · rw [File.target, if_neg hno]
    simp only [fileSyncBlock, hno, if_false, Prog.run_bind, Prog.run_pure, decide_false]

theorem fileSync_handle (fp : File) (v : VDisk) : ((fileSync fp).run v).1 =
    if fp.dirty then { fp with blkno := (fp.target v).1, dirty := decide ((fp.target v).1 = 0) } else fp := by
  have hrest (r : File × VDisk) : (Prog.run (do
      if ((← Prog.get).deref r.1.minode.ino).dirty then
        let _ ← inodeWriteback r.1.minode.ino
        modifyMinode r.1.minode.ino fun m => { m with dirty := false }
        return r.1
      else
        return r.1 : Prog VDisk File) r.2).1 = r.1 := by
    simp only [Prog.run_bind]
    split
    · rfl
    · rfl
  cases hdirty : fp.dirty with
  | true =>
    rw [if_pos rfl, ← fileSyncBlock_handle hdirty]
    simp only [fileSync, hdirty, if_true, Prog.run_bind]
    exact hrest _
  | false =>
    rw [if_neg Bool.false_ne_true]
    simp only [fileSync, hdirty, Bool.false_eq_true, if_false, Prog.run_bind, Prog.run_pure]
    exact hrest (fp, v)

theorem not_kept {f : Flush} (h : f.fp.Unwritten f.disk) : ¬ f.Kept := by
  intro hkept
  have hdirty := hkept.dirty
  rw [fileSync_handle, if_pos h.1, decide_eq_true_eq] at hdirty
  exact h.2.1 hdirty

theorem fileSync_err (fp : File) (v : VDisk) : ((fileSync fp).run v).1.err = fp.err ∧
    ((fileSync fp).run v).1.error = fp.error ∧ ((fileSync fp).run v).1.mode = fp.mode ∧
    ((fileSync fp).run v).1.minode = fp.minode := by
  rw [fileSync_handle]
  split
  · exact ⟨rfl, rfl, rfl, rfl⟩
  · exact ⟨rfl, rfl, rfl, rfl⟩

/-- A read works or fails with the code of the request. -/
theorem vdiskRead_cases (block : Nat) (v : VDisk) :
    (∃ buf, ((vdiskRead block).run v).1 = .ok buf ∧ readFails block v = false) ∨
      ((vdiskRead block).run v).1 = .error .decb ∧ readFails block v = true := by
  by_cases hf : v.io.faults.headD .none = .none
  · exact .inl ⟨v.io.blocks block, by simp only [vdiskRead_run, hf, if_true],
      by simp only [readFails, vdiskRead_run, hf, if_true]⟩
  · exact .inr ⟨by simp only [vdiskRead_run, hf, if_false], by simp only [readFails, vdiskRead_run, hf, if_false]⟩

theorem File.failed_fail {rc : Rc} (fp : File) (hrc : rc ≠ .ok) : (fp.fail rc).Failed := ⟨rfl, hrc⟩

theorem fileLoad_cases (fp : File) (newblk : Nat) (v : VDisk) :
    (((fileLoad fp newblk).run v).1.1 = .ok ∧ ((fileLoad fp newblk).run v).1.2.err = fp.err ∧
      readFails newblk v = false) ∨
      ((fileLoad fp newblk).run v).1.1 = .decb ∧ readFails newblk v = true := by
  simp only [fileLoad, Prog.run_bind]
  rcases vdiskRead_cases newblk v with ⟨buf, hread, hfails⟩ | ⟨hread, hfails⟩
  · rw [hread]
    exact .inl ⟨rfl, rfl, hfails⟩
  · rw [hread]
    exact .inr ⟨rfl, hfails⟩

end Sync

section Putn

variable {fp : File} {v : VDisk} {buf : List UInt8}

theorem nextBlock_cases (fp : File) (v : VDisk) :
    (((nextBlock fp).run v).1.1 = true ∧ ((nextBlock fp).run v).1.2.err = fp.err) ∨
      ((nextBlock fp).run v).1.1 = false ∧ ((nextBlock fp).run v).1.2.Failed := by
  simp only [nextBlock, Prog.run_bind]
  rcases (datablockLast fp.minode.ino (u32 (fp.filepos + 1))).run v with ⟨blk, w⟩
  by_cases h0 : blk = 0
  · simp only [h0, if_true, Prog.run_pure]
    exact .inr ⟨trivial, fp.failed_fail (by decide)⟩
  · simp only [h0, if_false, Prog.run_bind]
    rcases fileLoad_cases fp blk w with ⟨hok, herr, -⟩ | ⟨hrc, -⟩
    · simp only [hok, ne_eq, not_true_eq_false, if_false, Prog.run_bind, Prog.run_pure]
      exact .inl ⟨trivial, herr⟩
    · simp only [hrc, ne_eq, reduceCtorEq, not_false_eq_true, if_true, Prog.run_pure]
      exact .inr ⟨trivial, File.failed_fail _ (by decide)⟩

theorem putnExtend_cases (herr : fp.err = false) (n : Nat) (v : VDisk) :
    (((putnExtend fp n).run v).1.1 = true ∧ ((putnExtend fp n).run v).1.2.err = false) ∨
      ((putnExtend fp n).run v).1.1 = false ∧ ((putnExtend fp n).run v).1.2.Failed := by
  simp only [putnExtend, herr, Bool.false_eq_true, if_false]
  split
  · exact .inr ⟨rfl, fp.failed_fail (by decide)⟩
  · simp only [Prog.run_bind]
    split
    · exact .inl ⟨rfl, herr⟩
    · simp only [Prog.run_bind]
      split
      · exact .inr ⟨rfl, fp.failed_fail ‹_›⟩
      · exact .inl ⟨rfl, rfl⟩

/-- The call ends with an error exactly if one of its parts fails, whichever of its flushes it is after. -/
theorem putnLoop_failed (calls : Nat) (herr : fp.err = false) :
    ((putnFlushes calls fp buf v).1 = true ↔ ((putnLoop calls fp buf).run v).1.2.Failed) ∧
      ∀ f ∈ (putnFlushes calls fp buf v).2, f.fails = (putnFlushes calls fp buf v).1 := by
  induction calls generalizing fp buf v with
  | zero =>
    refine ⟨iff_of_false Bool.false_ne_true fun h => ?_, by simp [putnFlushes]⟩
    exact absurd (herr.symm.trans h.1) Bool.false_ne_true
  | succ calls ih =>
    have hclean {fp : File} (h : fp.err = false) : ¬ fp.Failed := fun hf =>
      absurd (h.symm.trans hf.1) Bool.false_ne_true
    rw [putnFlushes, putnLoop]
    by_cases hnil : buf = []
    · rw [if_pos hnil, if_pos hnil]
      exact ⟨iff_of_false Bool.false_ne_true (hclean herr), by simp⟩
    rw [if_neg hnil, if_neg hnil]
    simp only [Prog.run_bind]
    rcases putnExtend_cases herr buf.length v with ⟨hok, herr'⟩ | ⟨hok, hfailed⟩
    · generalize (putnExtend fp buf.length).run v = r at hok herr' ⊢
      simp only [hok, Bool.not_true, Bool.false_eq_true, if_false, Prog.run_bind]
      by_cases hfit : buf.length ≤ u32sub r.2.blksize r.1.2.blkpos
      · simp only [hfit, if_true, Prog.run_pure]
        exact ⟨iff_of_false Bool.false_ne_true (hclean herr'), by simp⟩
      · simp only [hfit, if_false, Prog.run_bind]
        generalize hput : (if 0 < u32sub r.2.blksize r.1.2.blkpos
          then r.1.2.put (buf.take (u32sub r.2.blksize r.1.2.blkpos)) else r.1.2) = fp'
        have hput : fp'.err = false := by
          rw [← hput]
          split
          · exact herr'
          · exact herr'
        have hsync := (fileSync_err fp' r.2).1.trans hput
        generalize (fileSync fp').run r.2 = s at hsync ⊢
        rcases nextBlock_cases s.1 s.2 with ⟨hnext, herrn⟩ | ⟨hnext, hfailed⟩
        · generalize (nextBlock s.1).run s.2 = t at hnext herrn ⊢
          have hrest := @ih t.1.2 t.2 (buf.drop (u32sub r.2.blksize r.1.2.blkpos)) (herrn.trans hsync)
          simp only [hnext, if_true, Bool.not_true, Bool.false_eq_true, if_false, Prog.run_bind, Prog.run_pure,
            List.forall_mem_cons, true_and]
          exact hrest
        · simp only [hnext, Bool.false_eq_true, if_false, Bool.not_false, if_true, Prog.run_pure,
            List.forall_mem_cons, true_and]
          exact ⟨iff_of_true trivial hfailed, by simp⟩
    · simp only [hok, Bool.not_false, if_true, Prog.run_pure]
      exact ⟨iff_of_true trivial hfailed, by simp⟩

end Putn

section Calls

variable {fp : File} {v : VDisk} {f : Flush}

theorem filePutc_failed (c : UInt8) (hf : f ∈ putcFlushes fp v) :
    f.fails = true ↔ ((filePutc fp c).run v).1.2.Failed := by
  rw [putcFlushes] at hf
  generalize hgrow : (if (v.din fp.minode.ino).filesize.toNat ≤ fp.filepos
    then (datablockSizeChange (u32 (fp.filepos + 1)) fp.minode.ino).run v else (.ok, v)) = r at hf
  by_cases hguard : fp.err = true ∨ fp.mode.write = false ∨ r.1 ≠ .ok ∨ fp.blkpos < v.blksize
  · rw [if_pos hguard] at hf
    exact absurd hf List.not_mem_nil
  rw [if_neg hguard] at hf
  obtain rfl := List.mem_singleton.mp hf
  obtain ⟨herr, hwrite, hrc, hfull⟩ :
      fp.err = false ∧ fp.mode.write = true ∧ r.1 = .ok ∧ ¬ fp.blkpos < v.blksize := by
    simpa [not_or] using hguard
  let rest : Prog VDisk (Bool × File) := do
    let fp ← fileSync fp
    let newblk ← datablockLast fp.minode.ino fp.filepos
    if newblk = 0 then
      return (false, fp.fail .eio)
    let r ← fileLoad fp newblk
    if r.1 ≠ .ok then
      return (false, r.2.fail r.1)
    return (true, { r.2 with blkpos := r.2.filepos % v.blksize }.put [c])
  have hrun : (filePutc fp c).run v = rest.run r.2 := by
    simp only [filePutc, herr, hwrite, Bool.not_true, Bool.false_eq_true, if_false, Prog.run_bind]
    by_cases hend : (v.din fp.minode.ino).filesize.toNat ≤ fp.filepos
    · rw [if_pos hend] at hgrow ⊢
      simp only [Prog.run_bind, hgrow, hrc, hfull, ne_eq, not_true_eq_false, if_false, rest]
    · rw [if_neg hend] at hgrow ⊢
      obtain rfl := hgrow
      simp only [Prog.run_bind, Prog.run_pure, hfull, ne_eq, not_true_eq_false, if_false, rest]
  rw [hrun]
  have hsync := (fileSync_err fp r.2).1.trans herr
  simp only [rest, Prog.run_bind]
  generalize (fileSync fp).run r.2 = s at hsync ⊢
  generalize (datablockLast s.1.minode.ino s.1.filepos).run s.2 = t
  by_cases h0 : t.1 = 0
  · simp only [h0, decide_true, Bool.true_or, if_true, Prog.run_pure, true_iff]
    exact File.failed_fail _ (by decide)
  simp only [h0, decide_false, Bool.false_or, if_false, Prog.run_bind]
  rcases fileLoad_cases s.1 t.1 t.2 with ⟨hok, hload, hread⟩ | ⟨hload, hread⟩
  · simp only [hok, hread, ne_eq, not_true_eq_false, if_false, Prog.run_pure]
    exact iff_of_false Bool.false_ne_true fun h => absurd ((hload.trans hsync).symm.trans h.1) Bool.false_ne_true
  · simp only [hload, hread, ne_eq, reduceCtorEq, not_false_eq_true, if_true, Prog.run_pure, true_iff]
    exact File.failed_fail _ (by decide)

theorem seekMove_failed (newpos : Nat) : let u := (datablockLast fp.minode.ino newpos).run v
    ((seekMove fp newpos).run v).1.1 = .ok ∧ ((seekMove fp newpos).run v).1.2.err = false ∧
      (decide (u.1 ≠ 0 ∧ u.1 ≠ fp.blkno) && readFails u.1 u.2) = false ∨
    ((seekMove fp newpos).run v).1.1 ≠ .ok ∧ (decide (u.1 ≠ 0 ∧ u.1 ≠ fp.blkno) && readFails u.1 u.2) = true := by
  simp only [seekMove, Prog.run_bind]
  generalize (datablockLast fp.minode.ino newpos).run v = u
  by_cases h0 : u.1 = 0
  · simp only [h0, ne_eq, not_true_eq_false, false_and, decide_false, Bool.false_and, if_true, if_false, Prog.run_bind,
      Prog.run_pure, true_and]
    exact .inl trivial
  by_cases hsame : u.1 = fp.blkno
  · have hno : ¬ fp.blkno = 0 := hsame ▸ h0
    simp only [hsame, hno, ne_eq, not_true_eq_false, and_false, decide_false, Bool.false_and, if_false, Prog.run_bind,
      Prog.run_pure, true_and]
    exact .inl trivial
  · simp only [h0, hsame, ne_eq, not_false_eq_true, and_self, decide_true, Bool.true_and, if_true, if_false, Prog.run_bind]
    rcases fileLoad_cases { fp with filepos := newpos, blkpos := newpos % v.blksize } u.1 u.2 with
      ⟨hok, -, hread⟩ | ⟨hload, hread⟩
    · simp only [hok, hread, not_true_eq_false, if_false, Prog.run_bind, Prog.run_pure]
      exact .inl ⟨trivial, trivial, trivial⟩
    · simp only [hload, hread, reduceCtorEq, not_false_eq_true, if_true, Prog.run_pure]
      exact .inr ⟨trivial, trivial⟩

theorem fseek_failed {offset : Int} {whence : Whence} {newpos : Nat}
    (htarget : seekTarget fp.filepos (v.din fp.minode.ino).filesize.toNat offset whence = some newpos)
    (hf : f ∈ seekFlushes fp newpos v) : f.fails = true ↔ ((fseek fp offset whence).run v).1.2.Failed := by
  rw [seekFlushes] at hf
  generalize hgrow : (if (v.din fp.minode.ino).filesize.toNat < newpos ∧ !fp.mode.read
    then (datablockSizeChange newpos fp.minode.ino).run v else (.ok, v)) = r at hf
  by_cases hguard : fp.mode.write = false ∨ r.1 ≠ .ok
  · rw [if_pos hguard] at hf
    exact absurd hf List.not_mem_nil
  rw [if_neg hguard] at hf
  obtain rfl := List.mem_singleton.mp hf
  obtain ⟨hwrite, hrc⟩ : fp.mode.write = true ∧ r.1 = .ok := by simpa [not_or] using hguard
  have hminode := (fileSync_err fp r.2).2.2.2
  have hresize : (seekResize fp newpos).run v =
      let s := (fileSync fp).run r.2
      let t := if newpos < (s.2.din fp.minode.ino).filesize.toNat ∧ !s.1.mode.read
        then (datablockSizeChange newpos fp.minode.ino).run s.2 else (.ok, s.2)
      ((t.1, s.1), t.2) := by
    simp only [seekResize, Prog.run_bind]
    by_cases hup : (v.din fp.minode.ino).filesize.toNat < newpos ∧ (!fp.mode.read) = true
    · rw [if_pos hup] at hgrow ⊢
      simp only [Prog.run_bind, hgrow, hrc, ne_eq, not_true_eq_false, if_false]
      split
      · rfl
      · rfl
    · rw [if_neg hup] at hgrow ⊢
      obtain rfl := hgrow
      simp only [Prog.run_bind, Prog.run_pure, ne_eq, not_true_eq_false, if_false]
      split
      · rfl
      · rfl
  simp only [fseek, Prog.run_bind, htarget, hwrite, if_true, hresize]
  generalize (fileSync fp).run r.2 = s at hminode ⊢
  generalize (if newpos < (s.2.din fp.minode.ino).filesize.toNat ∧ (!s.1.mode.read) = true
    then (datablockSizeChange newpos fp.minode.ino).run s.2 else (.ok, s.2)) = t
  by_cases hshrink : t.1 = .ok
  · simp only [hshrink, ne_eq, not_true_eq_false, decide_false, Bool.false_or, if_false, Prog.run_bind]
    rcases @seekMove_failed s.1 t.2 newpos with ⟨hok, herr, hfails⟩ | ⟨hne, hfails⟩
    · rw [hfails]
      simp only [hok, not_true_eq_false, if_false, Prog.run_pure]
      exact iff_of_false Bool.false_ne_true fun h => absurd (herr.symm.trans h.1) Bool.false_ne_true
    · rw [hfails]
      simp only [hne, not_false_eq_true, if_true, Prog.run_pure, true_iff]
      exact File.failed_fail _ hne
  · simp only [hshrink, ne_eq, not_false_eq_true, decide_true, Bool.true_or, if_true, Prog.run_pure, true_iff]
    exact File.failed_fail _ hshrink

theorem HandleCall.fails_iff {s : File × VDisk} {call : HandleCall} (hf : f ∈ call.flushes s) :
    f.fails = true ↔ (call.step.run s).2.1.Failed := by
  cases call with
  | putn buf =>
    cases herr : s.1.err with
    | false =>
      obtain ⟨hiff, hall⟩ := @putnLoop_failed s.1 s.2 buf (2 * buf.length + 1) herr
      rw [hall f hf]
      exact hiff
    | true =>
      have hnone : (putnFlushes (2 * buf.length + 1) s.1 buf s.2).2 = [] := by
        rw [putnFlushes]
        split
        · rfl
        · simp [putnExtend, herr]
      exact absurd hf (by rw [HandleCall.flushes, hnone]; exact List.not_mem_nil)
  | putc c => exact filePutc_failed c hf
  | seek offset whence =>
    rw [HandleCall.flushes] at hf
    split at hf
    · exact absurd hf List.not_mem_nil
    · exact fseek_failed ‹_› hf
  | sync =>
    obtain rfl := List.mem_singleton.mp hf
    obtain ⟨herr, herror, -⟩ := fileSync_err s.1 s.2
    change (s.1.err && decide (s.1.error ≠ .ok)) = true ↔ ((fileSync s.1).run s.2).1.Failed
    rw [File.Failed, herr, herror, Bool.and_eq_true, decide_eq_true_eq]

theorem HandleCall.reports_iff (s : File × VDisk) (call : HandleCall) : call.Reports s ↔ call.FailsAfter s := by
  refine forall_congr' fun f => forall_congr' fun hf => forall_congr' fun hun => ?_
  rw [fails_iff hf]
  exact or_iff_right (not_kept hun)

end Calls

/-- A handle of a file of one block, with a byte that has yet to be written. -/
def dirtyHandle : File := ((filePutn ⟨0, fileMode [0x99, 0x4E], false, false, false, .ok, ⟨0, 2⟩, 10, 0, zeroBlock⟩ [7]).run
  ((sizeStep (2, 512)).run pairDisk).2).1.2

end Ufs370
