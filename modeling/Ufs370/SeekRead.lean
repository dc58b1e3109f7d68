import Ufs370.AddrExact
import Ufs370.Update

/-! Seeking and reading through one handle. -/

namespace Ufs370

open Lib

/-- A mode of the kind `r`. -/
structure Mode.Input (fm : Mode) : Prop where
  read : fm.read = true
  write : fm.write = false
  append : fm.append = false
  trunc : fm.trunc = false

/-- A call on a handle that is open for input. -/
inductive InputCall
  | seek (offset : Int) (whence : Whence)
  | read (size nitems : UInt32)

/-- The call, with its code and the bytes that it read. -/
def InputCall.step : InputCall → Prog (File × VDisk) (Rc × List UInt8)
  | .seek offset whence => do
    return (← onHandle (fseek · offset whence), [])
  | .read size nitems => do
    return (.ok, ← onHandle fun fp => do
      let r ← fread fp size.toNat nitems.toNat
      return (r.2.1, r.2.2))

/-- The call as one on the bytes of the file. -/
def InputCall.onCursor : InputCall → Prog (Cursor UInt8) (Rc × List UInt8)
  | .seek offset whence => ⟨fun c =>
    match seekTarget c.pos c.data.length offset whence with
    | none => ((.einval, []), c)
    | some newpos => ((.ok, []), { c with pos := newpos })⟩
  | .read size nitems => ⟨fun c =>
    let r := c.get (size.toNat * nitems.toNat)
    ((.ok, r.1), r.2)⟩

/-- A seek has a target with an address.  In the file it is not at a boundary between two blocks, and
where it is in the block of the handle, the buffer still has that block. -/
def InputOk (s : File × VDisk) : InputCall → Prop
  | .seek offset whence => ∃ newpos,
      seekTarget s.1.filepos (s.2.filesize s.1.minode.ino) offset whence = some newpos ∧
      (datablockAddrChecked s.2 newpos).isSome ∧
      (newpos < s.2.filesize s.1.minode.ino → (newpos = 0 ∨ newpos % s.2.blksize ≠ 0) ∧
        (s.2.fileBlock s.1.minode.ino (newpos / s.2.blksize) = s.1.blkno →
          ∀ o < s.2.blksize, s.1.blkbuf o = s.2.io.blocks s.1.blkno o))
  | .read _ _ => True

/-- The handle of inode `p`, open for input, and the bytes of its file with the position. -/
structure Inputs (all : Set Nat) (p : Minptr) (s : File × VDisk) (c : Cursor UInt8) : Prop where
  minode : s.1.minode = p
  read : s.1.mode.read = true
  write : s.1.mode.write = false
  filepos : s.1.filepos = c.pos
  data : c.data = s.2.content p.ino
  clean : s.1.dirty = false
  err : s.1.err = false
  bound : s.1.blkpos ≤ s.2.blksize
  stored : ∃ cnt free, Stored cnt all p.ino s.2 free
  place : (∃ m, Holds s.1 m (s.2.fileBytes p.ino) s.2) ∨ s.2.filesize p.ino ≤ s.1.filepos

section Input

variable {cnt : Nat → Nat} {all : Set Nat} {p : Minptr} {v : VDisk} {free : List Nat} {fp : File} {n : Nat}
  {s : File × VDisk} {c : Cursor UInt8}

theorem getcs_end (h : Stored cnt all fp.minode.ino v free) (herr : fp.err = false)
    (hread : fp.mode.read = true) (hend : v.filesize fp.minode.ino ≤ fp.filepos) (n : Nat) :
    ∃ eof, (getcs n fp).run v = (([], { fp with eof }), v) := by
  cases n with
  | zero => exact ⟨fp.eof, rfl⟩
  | succ n => exact ⟨true, getcs_stop (fileGetc_end h herr hread hend)⟩

theorem read_getcs (hbs : 0 < v.blksize) (hbound : fp.blkpos ≤ v.blksize) (size nitems : UInt32) :
    (InputCall.step (.read size nitems)).run (fp, v) =
      ((.ok, ((getcs (size.toNat * nitems.toNat) fp).run v).1.1),
        ((getcs (size.toNat * nitems.toNat) fp).run v).1.2, ((getcs (size.toNat * nitems.toNat) fp).run v).2) := by
  have hitems := (getn_eq_getcs v fp hbs hbound).2.2 size nitems
  simp only [InputCall.step, onHandle, Prog.run_bind, hitems, Prog.run_pure]

theorem Inputs.readStep (h : Inputs all p s c) (size nitems : UInt32) :
    ((InputCall.step (.read size nitems)).run s).1 = ((InputCall.onCursor (.read size nitems)).run c).1 ∧
      Inputs all p ((InputCall.step (.read size nitems)).run s).2
        ((InputCall.onCursor (.read size nitems)).run c).2 := by
  obtain ⟨fp, v⟩ := s
  obtain ⟨data, pos⟩ := c
  obtain ⟨hminode, hread, hwrite, hfilepos, hdata, hclean, herr, hbound, ⟨cnt, free, hstored⟩, hplace⟩ := h
  dsimp only at hminode hread hwrite hfilepos hdata hclean herr hbound hstored hplace
  subst hminode hfilepos hdata
  rw [read_getcs hstored.blksize_pos hbound]
  simp only [InputCall.onCursor]
  generalize size.toNat * nitems.toNat = n
  by_cases hend : v.filesize fp.minode.ino ≤ fp.filepos
  · obtain ⟨eof, hrun⟩ := getcs_end hstored herr hread hend n
    have hget := Cursor.get_end (c := ⟨v.content fp.minode.ino, fp.filepos⟩) (n := n)
      (by rw [VDisk.content_length]; exact hend)
    rw [hrun, hget]
    exact ⟨rfl, rfl, hread, hwrite, rfl, rfl, hclean, herr, hbound, ⟨cnt, free, hstored⟩, .inr hend⟩
  · obtain ⟨m, hholds⟩ := hplace.resolve_right hend
    obtain ⟨fp', m', hrun, hholds', hmoved, hpos, hdirty⟩ := hholds.getcs hstored hread (n := n)
      fun hd => absurd (hclean.symm.trans hd) Bool.false_ne_true
    rw [← VDisk.content_eq] at hrun hpos
    have hminode := hmoved.minode
    rw [hrun]
    exact ⟨rfl, hminode, hmoved.mode ▸ hread, hmoved.mode ▸ hwrite, hpos, rfl, hdirty.trans hclean, hholds'.err,
      hholds'.bound, ⟨cnt, free, hstored⟩, .inl ⟨m', hholds'⟩⟩

theorem Inputs.seekStep (h : Inputs all p s c) {offset : Int} {whence : Whence}
    (hok : InputOk s (.seek offset whence)) :
    ((InputCall.step (.seek offset whence)).run s).1 = ((InputCall.onCursor (.seek offset whence)).run c).1 ∧
      Inputs all p ((InputCall.step (.seek offset whence)).run s).2
        ((InputCall.onCursor (.seek offset whence)).run c).2 := by
  obtain ⟨fp, v⟩ := s
  obtain ⟨data, pos⟩ := c
  obtain ⟨hminode, hread, hwrite, hfilepos, hdata, hclean, herr, hbound, ⟨cnt, free, hstored⟩, hplace⟩ := h
  dsimp only at hminode hread hwrite hfilepos hdata hclean herr hbound hstored hplace
  subst hminode hfilepos hdata
  obtain ⟨newpos, htarget, -, hinside⟩ := hok
  dsimp only at htarget hinside
  have hfrom : seekTarget fp.filepos (v.din fp.minode.ino).filesize.toNat offset whence = some newpos :=
    hstored.din.symm ▸ htarget
  obtain ⟨v', -, -, hsame, hseek⟩ := fseek_quiet hstored hclean hfrom fun hw => absurd (hwrite.symm.trans hw) Bool.false_ne_true
  obtain rfl := hsame hwrite
  have hstep {blk : Nat} (hlast : (datablockLast fp.minode.ino newpos).run v' = (blk, v')) :
      (InputCall.step (.seek offset whence)).run (fp, v') = ((.ok, []), fp.seek v' newpos blk, v') := by
    simp only [InputCall.step, onHandle, Prog.run_bind, hseek blk hlast, Prog.run_pure]
  have hcursor : (InputCall.onCursor (.seek offset whence)).run ⟨v'.content fp.minode.ino, fp.filepos⟩ =
      ((.ok, []), ⟨v'.content fp.minode.ino, newpos⟩) := by
    simp only [InputCall.onCursor, VDisk.content_length, htarget]
  have hmod : newpos % v'.blksize ≤ v'.blksize := Nat.le_of_lt (Nat.mod_lt _ hstored.blksize_pos)
  rw [hcursor]
  by_cases hlt : newpos < v'.filesize fp.minode.ino
  · obtain ⟨hpos, hbuf⟩ := hinside hlt
    have hblock : newpos / v'.blksize * v'.blksize < v'.filesize fp.minode.ino := block_start_lt hlt
    rw [hstep (hstored.last_at hpos hblock)]
    refine ⟨rfl, rfl, hread, hwrite, rfl, rfl, hclean, rfl, hmod, ⟨cnt, free, hstored⟩,
      .inl ⟨_, hstored.seek_holds hclean hblock fun heq o ho => ?_⟩⟩
    rw [hbuf heq o ho, heq]
  · rcases hlast : (datablockLast fp.minode.ino newpos).run v' with ⟨blk, w⟩
    obtain rfl : w = v' := by
      have hsame := datablockLast_same hstored.owned.live fp.minode.ino newpos
      rw [hlast] at hsame
      exact hsame
    rw [hstep hlast]
    exact ⟨rfl, rfl, hread, hwrite, rfl, rfl, hclean, rfl, hmod, ⟨cnt, free, hstored⟩, .inr (Nat.not_lt.mp hlt)⟩

/-- Whatever the handle is sought to, a read returns the bytes of the file at the position. -/
theorem seek_then_read {fm : Mode} {now : Timev} (h : Stored cnt all p.ino v free) (hmode : fm.Input)
    {calls : List InputCall}
    (hok : Along InputCall.step InputOk ((openHandle (.blank p .none) fm now).run v) calls) :
    let res := (Prog.each InputCall.step calls).run ((openHandle (.blank p .none) fm now).run v)
    let ideal := (Prog.each InputCall.onCursor calls).run ⟨v.content p.ino, 0⟩
    res.1 = ideal.1 ∧ res.2.1.filepos = ideal.2.pos := by
  have hstart : v.startPos p.ino fm = 0 := by rw [VDisk.startPos, hmode.append]; rfl
  obtain ⟨fp, v', hrun, hs, hopened⟩ := openHandle_opened h hmode.trunc (.inr hmode.read) now
  rw [hrun] at hok ⊢
  rw [hstart] at hopened
  have hstored := hopened.stored
  have hinputs : Inputs all p (fp, v') ⟨v.content p.ino, 0⟩ := by
    refine ⟨hopened.minode, hopened.mode ▸ hmode.read, hopened.mode ▸ hmode.write, hopened.filepos,
      (h.content_same hs).symm, hopened.clean, hopened.err, hopened.bound, ⟨cnt, free, hstored⟩, ?_⟩
    by_cases hempty : v'.filesize p.ino = 0
    · exact .inr (by rw [hempty]; exact Nat.zero_le _)
    · refine .inl ⟨0 / v'.blksize, ?_⟩
      rw [h.fileBytes_same hs]
      exact hopened.holds ⟨.inl rfl, fun h => absurd h hempty⟩
  obtain ⟨hanswers, hend⟩ := hok.simulates (R := Inputs all p)
    (fun s c i hi hoki => by
      cases i with
      | seek offset whence => exact hi.seekStep hoki
      | read size nitems => exact hi.readStep size nitems) hinputs
  exact ⟨hanswers, hend.filepos⟩

end Input

/-- A file of two blocks. -/
def twoBlocks : VDisk := ((sizeStep (2, 1024)).run pairDisk).2

theorem twoBlocks_stored : ∃ cnt all free, Stored cnt all 2 twoBlocks free := by
  have hcall : SizeCall [2] pairDisk (2, 1024) := ⟨by decide, rfl, .inl (by decide), by decide, by decide⟩
  obtain ⟨free', r⟩ := sizeStep_resized pairDisk_wellFormed hcall
  exact ⟨_, _, free', (r.wellFormed pairDisk_wellFormed hcall.tries.toSizeAsked).1.stored
    (List.mem_singleton_self 2) rfl⟩

/-- A read in the second block, and one behind the end of the file. -/
theorem seek_then_read_pair :
    let calls : List InputCall := [.seek 600 .set, .read 3 2, .seek 400 .cur, .read 1 1]
    let res := (Prog.each InputCall.step calls).run
      ((openHandle (.blank ⟨0, 2⟩ .none) (fileMode [0x99]) ⟨0, 0⟩).run twoBlocks)
    let ideal := (Prog.each InputCall.onCursor calls).run ⟨twoBlocks.content 2, 0⟩
    res.1 = ideal.1 ∧ res.2.1.filepos = ideal.2.pos := by
  obtain ⟨cnt, all, free, hstored⟩ := twoBlocks_stored
  intro calls
  have hok : Along InputCall.step InputOk
      ((openHandle (.blank ⟨0, 2⟩ .none) (fileMode [0x99]) ⟨0, 0⟩).run twoBlocks) calls :=
    ⟨⟨600, by decide +kernel⟩, trivial, ⟨1006, by decide +kernel⟩, trivial, trivial⟩
  have hread := seek_then_read (p := ⟨0, 2⟩) hstored (by constructor <;> decide) hok
  dsimp only at hread
  exact hread

/-- The first block starts with a 7. -/
def markedDisk : VDisk := twoBlocks.setBlock 10 fun o => if o = 0 then 7 else 0

/-- The read at the start of the second block returns the first byte of the first. -/
theorem not_seek_then_read :
    let calls : List InputCall := [.seek 512 .set, .read 1 1]
    let res := (Prog.each InputCall.step calls).run
      ((openHandle (.blank ⟨0, 2⟩ .none) (fileMode [0x99]) ⟨0, 0⟩).run markedDisk)
    let ideal := (Prog.each InputCall.onCursor calls).run ⟨markedDisk.content 2, 0⟩
    ¬ (res.1 = ideal.1 ∧ res.2.1.filepos = ideal.2.pos) := by
  intro calls res ideal h
  have hanswers := h.1
  revert hanswers
  decide +kernel

end Ufs370
