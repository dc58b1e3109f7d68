import Ufs370.Lib.Runs
import Ufs370.Opening

/-! Reading and writing through one handle: a list of bytes with a position in it. -/

namespace Ufs370

open Lib

/-- A mode of the kind `r+`. -/
structure Mode.Update (fm : Mode) : Prop where
  read : fm.read = true
  write : fm.write = true
  append : fm.append = false
  trunc : fm.trunc = false

/-- A call on a handle. -/
inductive Access
  | get (n : Nat)
  | put (buf : List UInt8)

/-- What a call returns: the bytes that it read, or how many it wrote. -/
inductive Answer
  | bytes (buf : List UInt8)
  | count (n : Nat)
  deriving DecidableEq

/-- A program on a handle, as one on the handle and its disk. -/
def onHandle {α : Type} (x : File → Prog VDisk (α × File)) : Prog (File × VDisk) α :=
  ⟨fun s => (((x s.1).run s.2).1.1, ((x s.1).run s.2).1.2, ((x s.1).run s.2).2)⟩

def Access.step : Access → Prog (File × VDisk) Answer
  | .get n => do
    return .bytes (← onHandle (fileGetn · n))
  | .put buf => do
    return .count (← onHandle (filePutn · buf))

/-- The call as one on the bytes of the file. -/
def Access.onCursor : Access → Prog (Cursor UInt8) Answer
  | .get n => ⟨fun c => (.bytes (c.get n).1, (c.get n).2)⟩
  | .put buf => ⟨fun c => (.count buf.length, c.put buf)⟩

/-- There is space for a write, and no read leaves a buffer behind that has yet to be written. -/
def AccessOk (s : File × VDisk) : Access → Prop
  | .get n => s.1.dirty = true → s.1.blkpos + n ≤ s.2.blksize ∨
      s.2.filesize s.1.minode.ino ≤ s.1.filepos + (s.2.blksize - s.1.blkpos)
  | .put buf => Takes s.2 s.1.minode.ino s.1.filepos buf.length

/-- The handle of inode `p`, open for update, and the bytes of its file with the position. -/
structure Updates (all : Set Nat) (p : Minptr) (s : File × VDisk) (c : Cursor UInt8) : Prop where
  minode : s.1.minode = p
  read : s.1.mode.read = true
  write : s.1.mode.write = true
  filepos : s.1.filepos = c.pos
  within : s.1.filepos ≤ s.2.filesize p.ino
  holds : ∃ cnt free m f, Stored cnt all p.ino s.2 free ∧ Holds s.1 m f s.2 ∧
    c.data = (List.range (s.2.filesize p.ino)).map f
  inSlot : s.2.InSlot p.ino
  oneHandle : s.2.OneHandle

section Update

variable {all : Set Nat} {p : Minptr} {s : File × VDisk} {c : Cursor UInt8}

theorem Updates.get (h : Updates all p s c) {n : Nat} (hok : AccessOk s (.get n)) :
    ((Access.get n).step.run s).1 = ((Access.get n).onCursor.run c).1 ∧
      Updates all p ((Access.get n).step.run s).2 ((Access.get n).onCursor.run c).2 := by
  obtain ⟨fp, v⟩ := s
  obtain ⟨data, pos⟩ := c
  obtain ⟨hminode, hread, hwrite, hfilepos, hwithin, ⟨cnt, free, m, f, hstored, hholds, hdata⟩, hin, hone⟩ := h
  dsimp only at hminode hread hwrite hfilepos hwithin hstored hholds hdata hin hone
  subst hminode hfilepos hdata
  obtain ⟨fp', m', hrun, hholds', hmoved, hpos, _⟩ := hholds.getn hstored hread hok
  have hminode := hmoved.minode
  have hstep : (Access.get n).step.run (fp, v) = (.bytes (Cursor.get
      ⟨(List.range (v.filesize fp.minode.ino)).map f, fp.filepos⟩ n).1, fp', v) := by
    simp only [Access.step, onHandle, Prog.run_bind, hrun, Prog.run_pure]
  have hget := Cursor.get_pos_le (c := ⟨(List.range (v.filesize fp.minode.ino)).map f, fp.filepos⟩) (n := n)
    (by rw [List.length_map, List.length_range]; exact hwithin)
  rw [List.length_map, List.length_range] at hget
  rw [hstep]
  exact ⟨rfl, hminode, hmoved.mode ▸ hread, hmoved.mode ▸ hwrite, hpos, hpos ▸ hget,
    ⟨cnt, free, m', f, hstored, hholds', rfl⟩, hin, hone⟩

theorem Updates.put (h : Updates all p s c) {buf : List UInt8} (hok : AccessOk s (.put buf)) :
    ((Access.put buf).step.run s).1 = ((Access.put buf).onCursor.run c).1 ∧
      Updates all p ((Access.put buf).step.run s).2 ((Access.put buf).onCursor.run c).2 := by
  obtain ⟨fp, v⟩ := s
  obtain ⟨data, pos⟩ := c
  obtain ⟨hminode, hread, hwrite, hfilepos, hwithin, ⟨cnt, free, m, f, hstored, hholds, hdata⟩, hin, hone⟩ := h
  dsimp only at hminode hread hwrite hfilepos hwithin hstored hholds hdata hin hone
  subst hminode hfilepos hdata
  obtain ⟨fp', v', cnt', free', m', hrun, hputs⟩ := hholds.putn hstored hwrite hok
  have hone' := hone.after (.filePutn fp buf) hrun
  have hmoved := hputs.moved
  have hstep : (Access.put buf).step.run (fp, v) = (.count buf.length, fp', v') := by
    simp only [Access.step, onHandle, Prog.run_bind, hrun, Prog.run_pure]
  have hsize : putSize (v.filesize fp.minode.ino) fp.filepos buf =
      max (v.filesize fp.minode.ino) (fp.filepos + buf.length) := by
    rw [putSize]
    split
    · rename_i hnil
      rw [hnil]
      exact (Nat.max_eq_left hwithin).symm
    · rfl
  rw [hsize] at hputs
  rw [hstep]
  refine ⟨rfl, hmoved.minode, hmoved.mode ▸ hread, hmoved.mode ▸ hwrite,
    hputs.filepos, ?_, ⟨cnt', free', m', _, hputs.stored, hputs.holds, ?_⟩, hputs.inSlot hin, hone'⟩
  · rw [hputs.size, hputs.filepos]
    exact Nat.le_max_right ..
  · rw [hputs.size]
    exact overwrite_map hwithin

theorem Updates.close (h : Updates all p s c) : ((closeHandle s.1).run s.2).2.content p.ino = c.data := by
  obtain ⟨rfl, -, -, -, -, ⟨cnt, free, m, f, hstored, hholds, hdata⟩, hin, hone⟩ := h
  rw [hholds.close hstored hone hin, hdata]

/-- Reads and writes of any lengths through a handle that was opened for update come to those of a list
of bytes with one position, up to what is on the disk after the handle is closed. -/
theorem update_refines_cursor {cnt : Nat → Nat} {v : VDisk} {free : List Nat} {fm : Mode} {now : Timev}
    (h : Stored cnt all p.ino v free) (hone : v.OneHandle) (hmode : fm.Update)
    (hempty : v.filesize p.ino = 0 → (v.inode p.ino).addrAt 0 = 0) {calls : List Access}
    (hok : Along Access.step AccessOk ((openHandle (.blank p .none) fm now).run v) calls) :
    let res := (Prog.each Access.step calls).run ((openHandle (.blank p .none) fm now).run v)
    let ideal := (Prog.each Access.onCursor calls).run ⟨v.content p.ino, 0⟩
    res.1 = ideal.1 ∧ ((closeHandle res.2.1).run res.2.2).2.content p.ino = ideal.2.data := by
  have hstart : v.startPos p.ino fm = 0 := by rw [VDisk.startPos, hmode.append]; rfl
  obtain ⟨fp, v', hrun, hs, hopened⟩ := openHandle_opened h hmode.trunc (.inr hmode.read) now
  have hone' := hone.after (.openHandle (.blank p .none) fm now) hrun
  rw [hrun] at hok ⊢
  obtain ⟨hminode, hfm, hfilepos, _, _, _, hstored, hholds, hin⟩ := hopened
  rw [hstart] at hfilepos hholds
  have hholds := hholds ((hs.sound h).mpr ⟨.inl rfl, hempty⟩)
  have hupdates : Updates all p (fp, v') ⟨v.content p.ino, 0⟩ := by
    refine ⟨hminode, hfm ▸ hmode.read, hfm ▸ hmode.write, hfilepos, ?_, ⟨cnt, free, _, _, hstored, hholds, ?_⟩,
      hin, hone'⟩
    · rw [hfilepos]
      exact Nat.zero_le _
    · rw [VDisk.content_eq, hs.filesize _ (.inl h.cached)]
  obtain ⟨hanswers, hend⟩ := hok.simulates (R := Updates all p)
    (fun s c i hi hoki => by
      cases i with
      | get n => exact hi.get hoki
      | put buf => exact hi.put hoki) hupdates
  exact ⟨hanswers, hend.close⟩

end Update

/-- An empty file that takes more than a block. -/
theorem update_refines_cursor_pair :
    let calls : List Access := [.put (List.replicate 600 7), .get 5]
    let res := (Prog.each Access.step calls).run
      ((openHandle (.blank ⟨0, 2⟩ .none) (fileMode [0x99, 0x4E]) ⟨0, 0⟩).run pairDisk)
    let ideal := (Prog.each Access.onCursor calls).run ⟨pairDisk.content 2, 0⟩
    res.1 = ideal.1 ∧ ((closeHandle res.2.1).run res.2.2).2.content 2 = ideal.2.data :=
  update_refines_cursor (p := ⟨0, 2⟩) (pairDisk_wellFormed.stored (List.mem_singleton_self 2) rfl)
    (List.nodup_singleton 2) (by constructor <;> decide) (fun _ => rfl)
    ⟨⟨fun _ => ⟨by decide +kernel, .inl (by decide +kernel)⟩, by decide +kernel, fun _ => by
      rw [VDisk.FreeFor]
      decide +kernel⟩, by
      rw [AccessOk]
      decide +kernel, trivial⟩

/-- A byte that is written and then left behind by a read that ends in the next block. -/
theorem not_update_refines_cursor :
    let v := ((sizeStep (2, 1024)).run pairDisk).2
    let calls : List Access := [.put [7], .get 512]
    let res := (Prog.each Access.step calls).run
      ((openHandle (.blank ⟨0, 2⟩ .none) (fileMode [0x99, 0x4E]) ⟨0, 0⟩).run v)
    let ideal := (Prog.each Access.onCursor calls).run ⟨v.content 2, 0⟩
    ¬ (res.1 = ideal.1 ∧ ((closeHandle res.2.1).run res.2.2).2.content 2 = ideal.2.data) := by
  intro v calls res ideal h
  have hfirst := congrArg List.head? h.2
  revert hfirst
  decide +kernel

end Ufs370
