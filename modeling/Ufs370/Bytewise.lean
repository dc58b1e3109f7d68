import Ufs370.File
import Ufs370.HandleLaws
import Ufs370.BlockPartition

/-! Reading and writing by single bytes and by items. -/

namespace Ufs370

open Lib

/-- `ufs_file_getc`; nothing for a negative value. -/
def fileGetc (fp : File) : Prog VDisk (Option UInt8 × File) := do
  if fp.eof then
    return (none, fp)
  if fp.err then
    return (none, fp)
  if !fp.mode.read then
    return (none, fp.fail .eperm)
  let v ← Prog.get
  if (v.din fp.minode.ino).filesize.toNat ≤ fp.filepos then
    return (none, { fp with eof := true })
  let (ok, fp) ← if v.blksize ≤ fp.blkpos then nextBlock fp else pure (true, fp)
  if !ok then
    return (none, fp)
  return (some (fp.blkbuf fp.blkpos), (fp.take 1).2)

/-- `ufs_file_putc`; whether it returned 0. -/
def filePutc (fp : File) (c : UInt8) : Prog VDisk (Bool × File) := do
  if fp.err then
    return (false, fp)
  if !fp.mode.write then
    return (false, fp.fail .eperm)
  let v ← Prog.get
  let rc ← if (v.din fp.minode.ino).filesize.toNat ≤ fp.filepos
    then datablockSizeChange (u32 (fp.filepos + 1)) fp.minode.ino else pure .ok
  if rc ≠ .ok then
    return (false, fp.fail rc)
  if fp.blkpos < v.blksize then
    return (true, fp.put [c])
  let fp ← fileSync fp
  let newblk ← datablockLast fp.minode.ino fp.filepos
  if newblk = 0 then
    return (false, fp.fail .eio)
  let (rc, fp) ← fileLoad fp newblk
  if rc ≠ .ok then
    return (false, fp.fail rc)
  return (true, { fp with blkpos := fp.filepos % v.blksize }.put [c])

/-- The item loop of `ufs_fread`. -/
def freadLoop (size : Nat) : Nat → Nat → File → Prog VDisk (Nat × List UInt8 × File)
  | 0, items, fp => return (items, [], fp)
  | left + 1, items, fp => do
    let (buf, fp) ← fileGetn fp size
    if buf.length < size then
      return (items, buf, fp)
    let (items, rest, fp) ← freadLoop size left (items + 1) fp
    return (items, buf ++ rest, fp)

/-- `ufs_fread`: the number of items, and the bytes that are in the buffer then. -/
def fread (fp : File) (size nitems : Nat) : Prog VDisk (Nat × List UInt8 × File) := do
  if size = 0 ∨ nitems = 0 then
    return (0, [], fp)
  if size = 1 ∨ nitems = 1 then
    let (buf, fp) ← fileGetn fp (u32 (size * nitems))
    return (buf.length / size, buf, fp)
  freadLoop size nitems 0 fp

/-- The item loop of `ufs_fwrite`, over a buffer of `left` items and maybe more. -/
def fwriteLoop (size : Nat) : Nat → Nat → File → List UInt8 → Prog VDisk (Nat × File)
  | 0, items, fp, _ => return (items, fp)
  | left + 1, items, fp, buf => do
    let (n, fp) ← filePutn fp (buf.take size)
    if n < size then
      return (items, fp)
    fwriteLoop size left (items + 1) fp (buf.drop size)

/-- `ufs_fwrite` of `nitems` items out of a buffer that holds them. -/
def fwrite (fp : File) (buf : List UInt8) (size nitems : Nat) : Prog VDisk (Nat × File) := do
  if size = 0 ∨ nitems = 0 then
    return (0, fp)
  if size = 1 ∨ nitems = 1 then
    let (n, fp) ← filePutn fp (buf.take (u32 (size * nitems)))
    return (n / size, fp)
  fwriteLoop size nitems 0 fp buf

/-- Up to `n` calls of `ufs_file_getc`, until one returns a negative value. -/
def getcs : Nat → File → Prog VDisk (List UInt8 × File)
  | 0, fp => return ([], fp)
  | n + 1, fp => do
    let r ← fileGetc fp
    match r.1 with
    | none => return ([], r.2)
    | some c =>
      let (rest, fp) ← getcs n r.2
      return (c :: rest, fp)

/-- Up to all of a string by `ufs_file_putc`, until a call fails; the number of bytes put. -/
def putcs (fp : File) : List UInt8 → Prog VDisk (Nat × File)
  | [] => return (0, fp)
  | c :: buf => do
    let (ok, fp) ← filePutc fp c
    if !ok then
      return (0, fp)
    let (count, fp) ← putcs fp buf
    return (count + 1, fp)

namespace ReadsOnly

theorem datablockLast (ino offset : Nat) : ReadsOnly (datablockLast ino offset) := by
  refine .bind .get fun v => .ite (.pure _) ?_
  dsimp only
  split
  · exact .pure _
  · exact .datablockLink ..
  · exact .bind (.datablockLink ..) fun _ => .datablockLink ..
  · exact .bind (.datablockLink ..) fun _ => .bind (.datablockLink ..) fun _ => .datablockLink ..
  · exact .pure _

theorem fileLoad (fp : File) (newblk : Nat) : ReadsOnly (fileLoad fp newblk) :=
  .bind (.vdiskRead _) fun r => by cases r <;> exact .pure _

theorem nextBlock (fp : File) : ReadsOnly (nextBlock fp) :=
  .bind (.datablockLast ..) fun _ => .ite (.pure _)
    (.bind (.fileLoad ..) fun _ => .ite (.pure _) (.bind .get fun _ => .pure _))

end ReadsOnly

section Getc

variable {fp : File} {v : VDisk} {n : Nat}

/-- A handle that can be read, with more of the file to come. -/
structure File.Readable (fp : File) (v : VDisk) : Prop where
  eof : fp.eof = false
  err : fp.err = false
  read : fp.mode.read = true
  more : fp.filepos < (v.din fp.minode.ino).filesize.toNat

theorem getcs_stop {fp' : File} {v' : VDisk} (h : (fileGetc fp).run v = ((none, fp'), v')) :
    (getcs (n + 1) fp).run v = (([], fp'), v') := by
  simp only [getcs, Prog.run_bind, h, Prog.run_pure]

theorem getcs_byte {c : UInt8} {fp' : File} {v' : VDisk}
    (h : (fileGetc fp).run v = ((some c, fp'), v')) : (getcs (n + 1) fp).run v =
      ((c :: ((getcs n fp').run v').1.1, ((getcs n fp').run v').1.2), ((getcs n fp').run v').2) := by
  simp only [getcs, Prog.run_bind, h, Prog.run_pure]

theorem fileGetc_buffer (h : fp.Readable v) (hpos : fp.blkpos < v.blksize) :
    (fileGetc fp).run v = ((some (fp.blkbuf fp.blkpos), (fp.take 1).2), v) := by
  simp only [fileGetc, h.eof, h.err, h.read, Nat.not_le.mpr h.more, Nat.not_le.mpr hpos,
    Bool.not_true, Bool.false_eq_true, if_false, Prog.run_bind, Prog.run_pure]

/-- The bytes that the buffer and the file have left come one by one. -/
theorem getcs_take (m : Nat) (h : fp.Readable v) (hn : 0 < n) (hpos : fp.blkpos + n ≤ v.blksize)
    (hmore : fp.filepos + n ≤ (v.din fp.minode.ino).filesize.toNat) :
    (getcs (n + m) fp).run v =
      let r := (getcs m (fp.take n).2).run v
      (((fp.take n).1 ++ r.1.1, r.1.2), r.2) := by
  induction n generalizing fp with
  | zero => exact absurd hn (Nat.lt_irrefl 0)
  | succ n ih =>
    have hone := fileGetc_buffer h (by omega)
    rw [Nat.succ_add]
    simp only [getcs, Prog.run_bind, hone]
    rcases Nat.eq_zero_or_pos n with rfl | hpos'
    · rw [Nat.zero_add]
      rfl
    · have hnext : (fp.take 1).2.Readable v :=
        ⟨h.eof, h.err, h.read, show fp.filepos + 1 < (v.din fp.minode.ino).filesize.toNat by omega⟩
      have hbytes : (fp.take (n + 1)).1 = fp.blkbuf fp.blkpos :: ((fp.take 1).2.take n).1 := by
        simp only [File.take, List.range_succ_eq_map, List.map_cons, List.map_map]
        refine congrArg (_ :: ·) (List.map_congr_left fun k _ => ?_)
        simp only [Function.comp_apply, Nat.succ_eq_add_one]
        rw [Nat.add_assoc, Nat.add_comm 1 k]
      have hstate : ((fp.take 1).2.take n).2 = (fp.take (n + 1)).2 := by
        simp only [File.take, Nat.add_assoc, Nat.add_comm 1 n]
      have hrest := ih hnext hpos' (show fp.blkpos + 1 + n ≤ v.blksize by omega)
        (show fp.filepos + 1 + n ≤ (v.din fp.minode.ino).filesize.toNat by omega)
      simp only [hrest, Prog.run_pure, hbytes, hstate, List.cons_append]

theorem fileGetc_eof (heof : fp.eof = false) (herr : fp.err = false) (hread : fp.mode.read = true)
    (hend : (v.din fp.minode.ino).filesize.toNat ≤ fp.filepos) :
    (fileGetc fp).run v = ((none, { fp with eof := true }), v) := by
  simp only [fileGetc, heof, herr, hread, hend, Bool.not_true, Bool.false_eq_true, if_false, if_true,
    Prog.run_bind, Prog.run_pure]

/-- The handle that `nextBlock` leaves. -/
theorem nextBlock_handle (fp : File) (v : VDisk) : ∃ fs, ((nextBlock fp).run v).2 = v.withFaults fs ∧
    (((nextBlock fp).run v).1.1 = true → ∃ blkno blkbuf, ((nextBlock fp).run v).1.2 =
      { fp with blkno, blkbuf, blkpos := fp.filepos % v.blksize }) := by
  obtain ⟨fs, hfs⟩ := (ReadsOnly.datablockLast fp.minode.ino (u32 (fp.filepos + 1))).run v
  simp only [nextBlock, Prog.run_bind]
  generalize ((datablockLast fp.minode.ino (u32 (fp.filepos + 1))).run v).1 = newblk
  rw [hfs]
  by_cases hblk : newblk = 0
  · simp only [hblk, if_true, Prog.run_pure]
    exact ⟨fs, rfl, fun h => absurd h (by decide)⟩
  · obtain ⟨fs', hfs'⟩ := (ReadsOnly.vdiskRead newblk).run (v.withFaults fs)
    simp only [hblk, if_false, fileLoad, Prog.run_bind]
    rw [hfs']
    refine ⟨fs', ?_⟩
    cases ((vdiskRead newblk).run (v.withFaults fs)).1 with
    | error rc =>
      by_cases hrc : rc = .ok
      · simp only [hrc, ne_eq, not_true_eq_false, if_false, Prog.run_bind, Prog.run_pure]
        exact ⟨rfl, fun _ => ⟨_, _, rfl⟩⟩
      · simp only [hrc, ne_eq, not_false_eq_true, if_true, Prog.run_pure]
        exact ⟨rfl, fun h => absurd h (by decide)⟩
    | ok buf =>
      simp only [ne_eq, not_true_eq_false, if_false, Prog.run_bind, Prog.run_pure]
      exact ⟨rfl, fun _ => ⟨_, _, rfl⟩⟩

/-- At the end of the buffer the next byte is that of the next block. -/
theorem getcs_next (n : Nat) (h : fp.Readable v) (hblksize : 0 < v.blksize)
    (hpos : v.blksize ≤ fp.blkpos) : (getcs (n + 1) fp).run v =
      let r := (nextBlock fp).run v
      if r.1.1 then (getcs (n + 1) r.1.2).run r.2 else (([], r.1.2), r.2) := by
  have hgetc : (fileGetc fp).run v =
      let r := (nextBlock fp).run v
      if r.1.1 then ((some (r.1.2.blkbuf r.1.2.blkpos), (r.1.2.take 1).2), r.2)
        else ((none, r.1.2), r.2) := by
    simp only [fileGetc, h.eof, h.err, h.read, Nat.not_le.mpr h.more, hpos, Bool.not_true,
      Bool.false_eq_true, if_false, if_true, Prog.run_bind]
    cases ((nextBlock fp).run v).1.1 <;> rfl
  obtain ⟨fs, hstate, hhandle⟩ := nextBlock_handle fp v
  simp only [getcs, Prog.run_bind, hgetc]
  by_cases hok : ((nextBlock fp).run v).1.1
  · obtain ⟨blkno, blkbuf, hfp⟩ := hhandle hok
    have hread : ((nextBlock fp).run v).1.2.Readable ((nextBlock fp).run v).2 := by
      rw [hfp, hstate]
      exact ⟨h.eof, h.err, h.read, h.more⟩
    have hroom : ((nextBlock fp).run v).1.2.blkpos < ((nextBlock fp).run v).2.blksize := by
      rw [hfp, hstate]
      exact Nat.mod_lt _ hblksize
    simp only [hok, if_true, fileGetc_buffer hread hroom]
  · simp only [hok, Bool.false_eq_true, if_false, Prog.run_pure]

/-- `ufs_file_getn` with enough calls of itself reads like that many calls of `ufs_file_getc`. -/
theorem getnLoop_getcs (hblksize : 0 < v.blksize) (hpos : fp.blkpos ≤ v.blksize) {calls : Nat}
    (hcalls : n = 0 ∨ 2 * n + (if fp.blkpos < v.blksize then 0 else 1) ≤ calls) :
    (getnLoop calls fp n).run v = (getcs n fp).run v := by
  induction calls generalizing fp v n with
  | zero =>
    obtain rfl : n = 0 := by omega
    rfl
  | succ calls ih =>
    rcases n with _ | n
    · rfl
    by_cases heof : fp.eof
    · simp [getnLoop, getcs, fileGetc, heof]
    by_cases herr : fp.err
    · simp [getnLoop, getcs, fileGetc, heof, herr]
    rw [Bool.not_eq_true] at heof herr
    by_cases hread : fp.mode.read
    swap
    · simp [getnLoop, getcs, fileGetc, heof, herr, hread]
    by_cases hend : (v.din fp.minode.ino).filesize.toNat ≤ fp.filepos
    · rw [getcs_stop (fileGetc_eof heof herr hread hend)]
      simp [getnLoop, heof, herr, hread, hend]
    have hreadable : fp.Readable v := ⟨heof, herr, hread, Nat.not_le.mp hend⟩
    have havail : u32sub v.blksize fp.blkpos = v.blksize - fp.blkpos := u32sub_of_le hpos
    simp only [getnLoop, Nat.succ_ne_zero, heof, herr, hread, hend, havail, Bool.not_true,
      Bool.false_eq_true, or_self, if_false, Prog.run_bind]
    generalize hdef : min (v.blksize - fp.blkpos) ((v.din fp.minode.ino).filesize.toNat - fp.filepos) = avail
    by_cases hn : n + 1 ≤ avail
    · have htake := getcs_take 0 hreadable (Nat.succ_pos n) (by omega) (by omega)
      rw [if_pos hn, htake]
      simp only [getcs, Prog.run_pure, List.append_nil]
    -- the rest of the buffer, and then the next block
    obtain ⟨m, hm⟩ : ∃ m, n + 1 = avail + (m + 1) := ⟨n - avail, by omega⟩
    have hsplit : (getcs (n + 1) fp).run v =
        let r := (getcs (m + 1) (fp.take avail).2).run v
        (((fp.take avail).1 ++ r.1.1, r.1.2), r.2) := by
      rw [hm]
      rcases Nat.eq_zero_or_pos avail with hzero | hpos'
      · rw [hzero, Nat.zero_add]
        rfl
      · exact getcs_take (m + 1) hreadable hpos' (by omega) (by omega)
    have hminode : (fp.take avail).2.minode = fp.minode := rfl
    have hfilepos : (fp.take avail).2.filepos = fp.filepos + avail := rfl
    rw [if_neg hn, hsplit, hm, Nat.add_sub_cancel_left]
    by_cases hend' : (v.din fp.minode.ino).filesize.toNat ≤ (fp.take avail).2.filepos
    · rw [getcs_stop (@fileGetc_eof (fp.take avail).2 _ heof herr hread hend')]
      simp only [hend', if_true, Prog.run_pure, List.append_nil]
    have hreadable' : (fp.take avail).2.Readable v := ⟨heof, herr, hread, Nat.not_le.mp hend'⟩
    have hblkpos : (fp.take avail).2.blkpos = v.blksize := by
      rw [hfilepos] at hend'
      change fp.blkpos + avail = v.blksize
      omega
    rw [getcs_next m hreadable' hblksize (Nat.le_of_eq hblkpos.symm)]
    simp only [hend', if_false, Prog.run_bind]
    by_cases hok : ((nextBlock (fp.take avail).2).run v).1.1
    · obtain ⟨fs, hstate, hhandle⟩ := nextBlock_handle (fp.take avail).2 v
      obtain ⟨blkno, blkbuf, hfp⟩ := hhandle hok
      have hsize : ((nextBlock (fp.take avail).2).run v).2.blksize = v.blksize := by rw [hstate]; rfl
      have hroom : ((nextBlock (fp.take avail).2).run v).1.2.blkpos < v.blksize := by
        rw [hfp]
        exact Nat.mod_lt _ hblksize
      have hrest := @ih ((nextBlock (fp.take avail).2).run v).1.2
        ((nextBlock (fp.take avail).2).run v).2 (m + 1) (by rwa [hsize])
        (by rw [hsize]; exact Nat.le_of_lt hroom) (.inr (by
          rw [hsize, if_pos hroom]
          split at hcalls <;> omega))
      simp only [hok, Bool.not_true, Bool.false_eq_true, if_false, if_true, Prog.run_bind, hrest,
        Prog.run_pure]
    · simp only [hok, Bool.not_false, Bool.false_eq_true, if_true, if_false, Prog.run_pure,
        List.append_nil]

theorem fileGetn_getcs (hblksize : 0 < v.blksize) (hpos : fp.blkpos ≤ v.blksize) (n : Nat) :
    (fileGetn fp n).run v = (getcs n fp).run v :=
  getnLoop_getcs hblksize hpos (by split <;> omega)

/-- A byte leaves the position within the buffer, or it is not there. -/
theorem fileGetc_keeps (fp : File) (hblksize : 0 < v.blksize) :
    ((fileGetc fp).run v).2.blksize = v.blksize ∧
      (((fileGetc fp).run v).1.1 ≠ none → ((fileGetc fp).run v).1.2.blkpos ≤ v.blksize) := by
  by_cases heof : fp.eof
  · simp [fileGetc, heof]
  by_cases herr : fp.err
  · simp [fileGetc, heof, herr]
  rw [Bool.not_eq_true] at heof herr
  by_cases hread : fp.mode.read
  swap
  · simp [fileGetc, heof, herr, hread]
  by_cases hend : (v.din fp.minode.ino).filesize.toNat ≤ fp.filepos
  · rw [fileGetc_eof heof herr hread hend]
    exact ⟨rfl, fun h => absurd rfl h⟩
  have hreadable : fp.Readable v := ⟨heof, herr, hread, Nat.not_le.mp hend⟩
  by_cases hbuf : fp.blkpos < v.blksize
  · rw [fileGetc_buffer hreadable hbuf]
    exact ⟨rfl, fun _ => hbuf⟩
  · obtain ⟨fs, hstate, hhandle⟩ := nextBlock_handle fp v
    simp only [fileGetc, heof, herr, hread, hend, Nat.not_lt.mp hbuf, Bool.not_true,
      Bool.false_eq_true, if_false, if_true, Prog.run_bind]
    by_cases hok : ((nextBlock fp).run v).1.1
    · obtain ⟨blkno, blkbuf, hfp⟩ := hhandle hok
      simp only [hok, Bool.not_true, Bool.false_eq_true, if_false, Prog.run_pure, hstate, hfp]
      exact ⟨rfl, fun _ => Nat.mod_lt _ hblksize⟩
    · simp only [hok, Bool.not_false, if_true, Prog.run_pure, hstate]
      exact ⟨rfl, fun h => absurd rfl h⟩

theorem getcs_keeps (n : Nat) (fp : File) (v : VDisk) (hblksize : 0 < v.blksize)
    (hpos : fp.blkpos ≤ v.blksize) : ((getcs n fp).run v).2.blksize = v.blksize ∧
      ((getcs n fp).run v).1.1.length ≤ n ∧
      (((getcs n fp).run v).1.1.length = n → ((getcs n fp).run v).1.2.blkpos ≤ v.blksize) := by
  induction n generalizing fp v with
  | zero => exact ⟨rfl, Nat.le_refl 0, fun _ => hpos⟩
  | succ n ih =>
    obtain ⟨hsize, hnext⟩ := fileGetc_keeps fp hblksize
    simp only [getcs, Prog.run_bind]
    cases hc : ((fileGetc fp).run v).1.1 with
    | none => exact ⟨hsize, Nat.zero_le _, fun h => absurd h (Nat.succ_ne_zero n).symm⟩
    | some c =>
      have hpos' := hnext (by rw [hc]; exact Option.some_ne_none c)
      rw [← hsize] at hblksize hpos'
      obtain ⟨hsize', hlen, hfull⟩ := ih _ _ hblksize hpos'
      refine ⟨hsize'.trans hsize, Nat.succ_le_succ hlen, fun h => ?_⟩
      rw [← hsize]
      exact hfull (Nat.succ.inj h)

/-- Calls go on where earlier ones stopped, unless one of those returned a negative value. -/
theorem getcs_add (a b : Nat) (fp : File) (v : VDisk) : (getcs (a + b) fp).run v =
    let r := (getcs a fp).run v
    let r' := (getcs b r.1.2).run r.2
    if r.1.1.length < a then r else ((r.1.1 ++ r'.1.1, r'.1.2), r'.2) := by
  induction a generalizing fp v with
  | zero =>
    rw [Nat.zero_add]
    rfl
  | succ a ih =>
    rw [Nat.succ_add]
    rcases hr : (fileGetc fp).run v with ⟨⟨_ | c, fp'⟩, v'⟩
    · rw [getcs_stop hr, getcs_stop hr]
      exact (if_pos (Nat.succ_pos a)).symm
    · rw [getcs_byte hr, getcs_byte hr, ih]
      simp only [List.length_cons, Nat.add_lt_add_iff_right]
      split <;> rfl

theorem freadLoop_getcs {size : Nat} (hsize : 0 < size) (left items : Nat) (fp : File) (v : VDisk)
    (hblksize : 0 < v.blksize) (hpos : fp.blkpos ≤ v.blksize) :
    (freadLoop size left items fp).run v =
      let r := (getcs (size * left) fp).run v
      ((items + r.1.1.length / size, r.1), r.2) := by
  induction left generalizing items fp v with
  | zero =>
    rw [Nat.mul_zero]
    simp only [freadLoop, getcs, Prog.run_pure, List.length_nil, Nat.zero_div, Nat.add_zero]
  | succ left ih =>
    obtain ⟨hkeep, hlen, hfull⟩ := getcs_keeps size fp v hblksize hpos
    rw [Nat.mul_succ, Nat.add_comm (size * left), getcs_add]
    simp only [freadLoop, Prog.run_bind, fileGetn_getcs hblksize hpos]
    by_cases hshort : ((getcs size fp).run v).1.1.length < size
    · simp only [hshort, if_true, Prog.run_pure, Nat.div_eq_of_lt hshort, Nat.add_zero]
    · have hall : ((getcs size fp).run v).1.1.length = size := by omega
      have hrest := ih (items + 1) ((getcs size fp).run v).1.2 ((getcs size fp).run v).2
        (by rwa [hkeep]) (by rw [hkeep]; exact hfull hall)
      simp only [hall, Nat.lt_irrefl, if_false, Prog.run_bind, hrest, Prog.run_pure,
        List.length_append, Nat.add_div_left _ hsize]
      rw [Nat.add_assoc, Nat.add_comm 1]

/-- Reading in bulk or by items is reading byte by byte, whatever requests fail. -/
theorem getn_eq_getcs (v : VDisk) (fp : File) (hblksize : 0 < v.blksize)
    (hpos : fp.blkpos ≤ v.blksize) :
    (∀ n calls, 2 * n + 1 ≤ calls → (getnLoop calls fp n).run v = (getcs n fp).run v) ∧
    (∀ n, (fileGetn fp n).run v = (getcs n fp).run v) ∧
    ∀ size nitems : UInt32, (fread fp size.toNat nitems.toNat).run v =
      let r := (getcs (size.toNat * nitems.toNat) fp).run v
      ((r.1.1.length / size.toNat, r.1), r.2) := by
  refine ⟨fun n calls hcalls => getnLoop_getcs hblksize hpos (by split <;> omega),
    fileGetn_getcs hblksize hpos, fun size nitems => ?_⟩
  simp only [fread]
  by_cases hnone : size.toNat = 0 ∨ nitems.toNat = 0
  · have hzero : size.toNat * nitems.toNat = 0 := Nat.mul_eq_zero.mpr hnone
    simp only [hnone, if_true, hzero, getcs, Prog.run_pure, List.length_nil, Nat.zero_div]
  rw [if_neg hnone]
  by_cases hone : size.toNat = 1 ∨ nitems.toNat = 1
  · have hu : u32 (size.toNat * nitems.toNat) = size.toNat * nitems.toNat := by
      refine u32_of_lt ?_
      rcases hone with h | h
      · rw [h, Nat.one_mul]
        exact nitems.toNat_lt
      · rw [h, Nat.mul_one]
        exact size.toNat_lt
    simp only [hone, if_true, hu, Prog.run_bind, fileGetn_getcs hblksize hpos, Prog.run_pure]
  · rw [if_neg hone, freadLoop_getcs (by omega) _ _ _ _ hblksize hpos]
    simp only [Nat.zero_add]

end Getc

/-- A handle at the end of the first block of inode 2. -/
def pairHandle : File :=
  ⟨512, fileMode [0x99, 0x4E], false, false, false, .ok, ⟨0, 2⟩, 10, 512, zeroBlock⟩

/-- Its second block cannot be read. -/
def pairFaulty : VDisk := ((sizeStep (2, 1024)).run pairDisk).2.withFaults [.fail]

theorem getn_eq_getcs_pair :
    (fileGetn pairHandle 3).run pairFaulty = (getcs 3 pairHandle).run pairFaulty ∧
    ((fread pairHandle 2 3).run pairFaulty).1.1 = ((getcs 6 pairHandle).run pairFaulty).1.1.length / 2 := by
  obtain ⟨-, hbulk, hitems⟩ := getn_eq_getcs pairFaulty pairHandle (by decide) (by decide)
  exact ⟨hbulk 3, congrArg (fun r => r.1.1) (hitems 2 3)⟩

end Ufs370
