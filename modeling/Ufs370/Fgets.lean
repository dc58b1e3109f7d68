import Ufs370.Isolation
import Ufs370.Lib.Lines

/-! Reading by lines, and writing strings. -/

namespace Ufs370

open Lib Lib.IndexForest Lib.IndexLayout

/-- `'\n'` in EBCDIC or in ASCII. -/
def isNewline (c : UInt8) : Bool := c = 0x15 ∨ c = 0x0A

/-- The loop of `ufs_fgets`, with `n` bytes of the buffer left. -/
def fgetsLoop : Nat → File → Prog VDisk (List UInt8 × File)
  | 0, fp => return ([], fp)
  | n + 1, fp => do
    let (c, fp) ← fileGetc fp
    match c with
    | none => return ([], fp)
    | some c =>
      if isNewline c then
        return ([c], fp)
      let (rest, fp) ← fgetsLoop n fp
      return (c :: rest, fp)

/-- `ufs_fgets` into a buffer of `num` bytes; nothing for `NULL`. -/
def fgets (fp : File) (num : Nat) : Prog VDisk (Option (List UInt8) × File) := do
  if num = 0 then
    return (none, fp)
  if !fp.mode.read then
    return (none, fp.fail .eperm)
  let (str, fp) ← fgetsLoop (num - 1) fp
  return (if str = [] then none else some str, fp)

/-- `ufs_fputs`; whether it returned 0. -/
def fputs (fp : File) (str : List UInt8) : Prog VDisk (Bool × File) := do
  let str := str.takeWhile (· ≠ 0)
  if str = [] then
    return (true, fp)
  let (n, fp) ← filePutn fp str
  return (n = str.length, fp)

/-- The loop of `ufs_fstab` over the lines of its file, which are only collected. -/
def fgetsAll (num : Nat) : Nat → File → Prog VDisk (List (List UInt8) × File)
  | 0, fp => return ([], fp)
  | fuel + 1, fp => do
    let (p, fp) ← fgets fp num
    match p with
    | none => return ([], fp)
    | some buf =>
      let (rest, fp) ← fgetsAll num fuel fp
      return (buf :: rest, fp)

theorem fputs_putn (fp : File) (str : List UInt8) (v : VDisk) : (fputs fp str).run v =
    let r := (filePutn fp (str.takeWhile (· ≠ 0))).run v
    ((decide (r.1.1 = (str.takeWhile (· ≠ 0)).length), r.1.2), r.2) := by
  by_cases hstr : str.takeWhile (· ≠ 0) = []
  · simp only [fputs, hstr, if_true]
    rfl
  · simp only [fputs, hstr, if_false, Prog.run_bind, Prog.run_pure]

section Lines

variable {cnt : Nat → Nat} {all : Set Nat} {free : List Nat} {v : VDisk} {fp : File} {m n : Nat} {f : Nat → UInt8}

/-- The loop calls `ufs_file_getc` up to the byte that ends the line, or as often as the buffer has room. -/
theorem fgetsLoop_getcs {k : Nat} (hk : Lines.reach isNewline n ((getcs k fp).run v).1.1 = k) :
    (fgetsLoop n fp).run v = (getcs k fp).run v := by
  induction n generalizing fp v k with
  | zero =>
    obtain rfl : 0 = k := hk
    rfl
  | succ n ih =>
    cases k with
    | zero => exact absurd hk (Nat.succ_ne_zero n)
    | succ k =>
      rcases hr : (fileGetc fp).run v with ⟨⟨_ | c, fp'⟩, v'⟩
      · rw [getcs_stop hr]
        simp only [fgetsLoop, Prog.run_bind, hr, Prog.run_pure]
      · rw [getcs_byte hr, Lines.reach] at hk
        rw [getcs_byte hr]
        simp only [fgetsLoop, Prog.run_bind, hr, Prog.run_ite]
        by_cases hc : isNewline c = true
        · rw [if_pos hc] at hk ⊢
          obtain rfl : 0 = k := Nat.succ.inj hk
          rfl
        · rw [if_neg hc] at hk ⊢
          rw [ih (Nat.succ.inj hk)]
          rfl

variable {bytes : List UInt8} (h : Stored cnt all fp.minode.ino v free) (hf : Holds fp m f v)
  (hread : fp.mode.read = true) (hbytes : (List.range (v.filesize fp.minode.ino)).map f = bytes)
include h hf hread hbytes

/-- The loop reads the line at the position, if what is to be written stays in the buffer. -/
theorem Holds.fgetsLoop (hdirty : fp.dirty = true →
      fp.blkpos + Lines.reach isNewline n (bytes.drop fp.filepos) ≤ v.blksize ∨
        v.filesize fp.minode.ino ≤ fp.filepos + (v.blksize - fp.blkpos)) :
    ∃ fp' m', (Ufs370.fgetsLoop n fp).run v = ((Lines.line isNewline n (bytes.drop fp.filepos), fp'), v) ∧
      Holds fp' m' f v ∧ fp.Moved fp' ∧
      fp'.filepos = fp.filepos + (Lines.line isNewline n (bytes.drop fp.filepos)).length ∧ fp'.dirty = fp.dirty := by
  obtain ⟨fp', m', hrun, hf', hmoved, hpos, hdirty'⟩ := hf.getcs h hread hdirty
  simp only [hbytes, Cursor.get, Lines.take_reach] at hrun hpos
  refine ⟨fp', m', ?_, hf', hmoved, hpos, hdirty'⟩
  rw [← hrun]
  refine fgetsLoop_getcs ?_
  rw [hrun, ← Lines.take_reach, Lines.reach_take]

/-- `ufs_fgets` reads the line at the position, of one byte less than the buffer takes. -/
theorem Holds.fgets (num : Nat) (hdirty : fp.dirty = true →
      fp.blkpos + Lines.reach isNewline (num - 1) (bytes.drop fp.filepos) ≤ v.blksize ∨
        v.filesize fp.minode.ino ≤ fp.filepos + (v.blksize - fp.blkpos)) :
    let str := Lines.line isNewline (num - 1) (bytes.drop fp.filepos)
    ∃ fp' m', (Ufs370.fgets fp num).run v = ((if str = [] then none else some str, fp'), v) ∧
      Holds fp' m' f v ∧ fp.Moved fp' ∧ fp'.filepos = fp.filepos + str.length ∧ fp'.dirty = fp.dirty := by
  intro str
  by_cases hnum : num = 0
  · subst hnum
    refine ⟨fp, m, ?_, hf, .refl fp, rfl, rfl⟩
    simp only [Ufs370.fgets, if_true, Prog.run_pure]
    rfl
  · obtain ⟨fp', m', hrun, hf', hmoved, hpos, hdirty'⟩ := hf.fgetsLoop h hread hbytes hdirty
    refine ⟨fp', m', ?_, hf', hmoved, hpos, hdirty'⟩
    simp only [Ufs370.fgets, hnum, if_false, hread, Bool.not_true, Bool.false_eq_true, Prog.run_bind, hrun, Prog.run_pure]
    rfl

/-- Line after line up to `NULL`, by a handle with nothing to write. -/
theorem Holds.fgetsAll (hclean : fp.dirty = false) (hwithin : fp.filepos ≤ bytes.length) {fuel : Nat}
    (hfuel : bytes.length - fp.filepos < fuel) :
    ∃ fp', (Ufs370.fgetsAll (n + 2) fuel fp).run v = ((Lines.lines isNewline n (bytes.drop fp.filepos), fp'), v) ∧
      fp'.filepos = bytes.length := by
  induction fuel generalizing fp m with
  | zero => exact absurd hfuel (Nat.not_lt_zero _)
  | succ fuel ih =>
    obtain ⟨fp₁, m₁, hrun, hf₁, hmoved, hpos, hdirty⟩ := hf.fgets h hread hbytes (n + 2)
      fun hd => absurd (hclean.symm.trans hd) (by decide)
    change _ = fp.filepos + (Lines.line isNewline (n + 1) (bytes.drop fp.filepos)).length at hpos
    change _ = ((if Lines.line isNewline (n + 1) (bytes.drop fp.filepos) = [] then none else
      some (Lines.line isNewline (n + 1) (bytes.drop fp.filepos)), fp₁), v) at hrun
    simp only [Ufs370.fgetsAll, Prog.run_bind, hrun]
    by_cases hend : bytes.drop fp.filepos = []
    · rw [hend] at hpos ⊢
      refine ⟨fp₁, ?_, ?_⟩
      · rw [Lines.lines_nil]
        rfl
      · rw [hpos]
        have := List.drop_eq_nil_iff.mp hend
        simp only [Lines.line, List.length_nil]
        omega
    · have hne := Lines.line_ne_nil (p := isNewline) (n := n) hend
      have hlen := List.length_pos_iff.mpr hne
      have hle := Lines.line_length_le (p := isNewline) (n + 1) (bytes.drop fp.filepos)
      rw [List.length_drop] at hle
      have hminode := hmoved.minode
      obtain ⟨fp₂, hrest, hpos₂⟩ := ih (hminode ▸ h) hf₁ (hmoved.mode ▸ hread) (hminode ▸ hbytes)
        (hdirty.trans hclean) (by omega) (by omega)
      rw [hpos, ← List.drop_drop] at hrest
      refine ⟨fp₂, ?_, hpos₂⟩
      simp only [hne, if_false, Prog.run_bind, hrest, Prog.run_pure]
      rw [Lines.lines_of_ne_nil hend]

end Lines

section Whole

variable {cnt : Nat → Nat} {all : Set Nat} {free : List Nat} {v : VDisk} {p : Minptr} {fm : Mode}

/-- A file that is opened for reading and read line by line up to `NULL` comes in its lines, which have at most one byte
less than the buffer, end behind a newline and together are the file. -/
theorem fgets_lines (h : Stored cnt all p.ino v free) (ho : v.Opens p.ino fm) (hread : fm.read = true)
    (happend : fm.append = false) (now : Timev) (n : Nat) {fuel : Nat} (hfuel : v.filesize p.ino < fuel) :
    let lines := ((do fgetsAll (n + 2) fuel (← openHandle (.blank p .none) fm now)).run v).1.1
    lines = Lines.lines isNewline n (v.content p.ino) ∧ lines.flatten = v.content p.ino ∧
      ∀ l ∈ lines, l ≠ [] ∧ l.length ≤ n + 1 ∧ ∀ c ∈ l.dropLast, isNewline c = false := by
  obtain ⟨fp, v', hopen, hs, -, rfl, rfl, hfilepos, hclean, hholds, -⟩ := openHandle_starts h ho now
  have hsize := hs.filesize fp.minode.ino (.inl h.cached)
  have hbytes : (List.range (v'.filesize fp.minode.ino)).map (v.fileBytes fp.minode.ino) = v.content fp.minode.ino := by
    rw [hsize, VDisk.content_eq]
  have hstart : fp.filepos = 0 := by
    rw [hfilepos, VDisk.startPos, happend]
    rfl
  obtain ⟨fp', hrun, -⟩ := hholds.fgetsAll (n := n) (h.same hs) hread hbytes hclean
    (by rw [hstart]; exact Nat.zero_le _) (by rw [hstart, VDisk.content_length]; exact hfuel)
  rw [hstart, List.drop_zero] at hrun
  intro lines
  have hlines : lines = Lines.lines isNewline n (v.content fp.minode.ino) := by
    simp only [lines, Prog.run_bind, hopen, hrun]
  rw [hlines]
  exact ⟨rfl, Lines.flatten_lines n _, Lines.lines_shape n _⟩

end Whole

/-- Two short lines, and then one that is longer than a buffer of 256 bytes. -/
def linesDisk : VDisk := twoBlocks.setBlock (twoBlocks.fileBlock 2 0) fun o => if o = 3 ∨ o = 9 then 0x15 else 0x40

theorem fgets_lines_disk :
    let lines := ((do fgetsAll 256 1025 (← openHandle (.blank ⟨0, 2⟩ .none) (fileMode [0x99]) ⟨0, 0⟩)).run linesDisk).1.1
    (lines = Lines.lines isNewline 254 (linesDisk.content 2) ∧ lines.flatten = linesDisk.content 2 ∧
      ∀ l ∈ lines, l ≠ [] ∧ l.length ≤ 255 ∧ ∀ c ∈ l.dropLast, isNewline c = false) ∧
    lines.map List.length = [4, 6, 255, 255, 255, 249] := by
  obtain ⟨cnt, all, free, hstored⟩ := twoBlocks_stored
  have hlines : Stored cnt all 2 linesDisk free := hstored.setBlock (m := 0) (by decide +kernel) _
  have hopens : linesDisk.Opens 2 (fileMode [0x99]) := ⟨fun h => absurd h (by decide), .inr (.inl (by decide)),
    .inl (by decide +kernel), fun h => absurd h (by decide +kernel)⟩
  have hres := fgets_lines (p := ⟨0, 2⟩) hlines hopens (by decide) (by decide) ⟨0, 0⟩ 254
    (show linesDisk.filesize 2 < 1025 by decide +kernel)
  simp only [Nat.reduceAdd] at hres
  refine ⟨hres, ?_⟩
  decide +kernel

end Ufs370
