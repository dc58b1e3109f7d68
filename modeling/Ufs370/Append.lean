import Ufs370.SeekRead
import Ufs370.Update

/-! Writing by items, and files that are opened to be appended to. -/

namespace Ufs370

open Lib

/-- A call of `ufs_fwrite` with a buffer of as many bytes as it is to write. -/
structure Chunk where
  size : UInt32
  nitems : UInt32
  buf : List UInt8
  full : buf.length = size.toNat * nitems.toNat

def Chunk.step (c : Chunk) : Prog (File × VDisk) Nat :=
  onHandle (fwrite · c.buf c.size.toNat c.nitems.toNat)

/-- A mode of the kind `a`. -/
structure Mode.Append (fm : Mode) : Prop where
  write : fm.write = true
  append : fm.append = true
  trunc : fm.trunc = false

/-- What a mode string that starts with an `a` stands for. -/
theorem fileMode_append (rest : List UInt8) : (fileMode (0x81 :: rest)).Append := by
  have hnext (fm : Mode) (h : fm.Append) (c : UInt8) : (fm.next c).Append := by
    simp only [Mode.next]
    split_ifs <;> exact ⟨by first | exact h.write | rfl, h.append, h.trunc⟩
  suffices h : ∀ fm : Mode, fm.Append → (rest.foldl Mode.next fm).Append from
    h _ ⟨rfl, rfl, rfl⟩
  induction rest with
  | nil => exact fun _ h => h
  | cons c rest ih => exact fun fm h => ih _ (hnext fm h c)

section Chunks

variable {cnt cnt' : Nat → Nat} {all : Set Nat} {v v' : VDisk} {free free' : List Nat} {fp fp' : File}
  {m n n' pos sz sz' ino : Nat} {f : Nat → UInt8} {ys zs : List UInt8}

theorem FileSize.mono (h : FileSize v sz') (hle : sz ≤ sz') : FileSize v sz :=
  ⟨Nat.lt_of_le_of_lt hle h.lt, h.addr.mono (Nat.div_le_div_right (by omega))⟩

theorem FileSize.congr (h : FileSize v sz) (hb : v'.blksize = v.blksize) : FileSize v' sz :=
  ⟨h.lt, hb.symm ▸ h.addr.congr hb⟩

theorem FreeFor.mono (h : v.FreeFor ino sz') (hle : sz ≤ sz') : v.FreeFor ino sz :=
  Nat.le_trans (placesOf_length_mono _ (Nat.div_le_div_right (by omega))) h

theorem putSize_ge (sz pos : Nat) (ys : List UInt8) : sz ≤ putSize sz pos ys := by
  rw [putSize]
  split
  · exact Nat.le_refl _
  · exact Nat.le_max_left ..

theorem putSize_append (sz pos : Nat) (ys zs : List UInt8) :
    putSize (putSize sz pos ys) (pos + ys.length) zs = putSize sz pos (ys ++ zs) := by
  by_cases hys : ys = []
  · subst hys
    rfl
  · by_cases hzs : zs = []
    · subst hzs
      rw [List.append_nil, putSize, if_pos rfl]
    · simp only [putSize, hys, hzs, List.append_eq_nil_iff, and_self, if_false, List.length_append]
      omega

theorem Takes.mono (h : Takes v ino pos n') (hle : n ≤ n') : Takes v ino pos n where
  size hlt := (h.size (by omega)).mono (by omega)
  small := Nat.lt_of_le_of_lt (by omega) h.small
  free hlt := FreeFor.mono (h.free (by omega)) (by omega)

/-- There is room for what follows a piece. -/
theorem Puts.takes (h : Puts fp f ys (putSize (v.filesize fp.minode.ino) fp.filepos ys) v cnt all free m fp' v')
    (htakes : Takes v fp.minode.ino fp.filepos (ys.length + n)) :
    Takes v' fp'.minode.ino fp'.filepos n := by
  have hge : v.filesize fp.minode.ino ≤ v'.filesize fp.minode.ino := h.size ▸ putSize_ge ..
  have hnidx : v'.nidx = v.nidx := by rw [VDisk.nidx, h.blksize]; rfl
  rw [h.moved.minode, h.filepos]
  refine ⟨fun hlt => ?_, ?_, fun hlt => ?_⟩
  · rw [Nat.add_assoc] at hlt ⊢
    exact (htakes.size (Nat.lt_of_le_of_lt hge hlt)).congr h.blksize
  · have := htakes.small
    omega
  · rw [Nat.add_assoc] at hlt ⊢
    have hfree := htakes.free (Nat.lt_of_le_of_lt hge hlt)
    rw [VDisk.FreeFor] at hfree ⊢
    rwa [hnidx, h.blksize, h.room]

theorem Puts.stored' (h : Puts fp f ys sz v cnt all free m fp' v') : Stored cnt all fp'.minode.ino v' free :=
  h.moved.minode.symm ▸ h.stored

/-- The items of a buffer are written one after the other. -/
theorem Holds.fwriteLoop (h : Stored cnt all fp.minode.ino v free) (hf : Holds fp m f v)
    (hwrite : fp.mode.write = true) {size left : Nat} (hlen : ys.length = size * left)
    (htakes : Takes v fp.minode.ino fp.filepos ys.length) (items : Nat) :
    ∃ fp' v' cnt' free' m', (fwriteLoop size left items fp ys).run v = ((items + left, fp'), v') ∧
      Puts fp f ys (putSize (v.filesize fp.minode.ino) fp.filepos ys) v cnt' all free' m' fp' v' := by
  induction left generalizing fp v cnt free m f ys items with
  | zero =>
    obtain rfl : ys = [] := List.eq_nil_of_length_eq_zero (by rw [hlen, Nat.mul_zero])
    exact ⟨fp, v, cnt, free, m, rfl, .none h hf⟩
  | succ left ih =>
    rw [Nat.mul_succ] at hlen
    have htake : (ys.take size).length = size := List.length_take_of_le (by omega)
    have hdrop : (ys.drop size).length = size * left := by rw [List.length_drop]; omega
    have hfirst : Takes v fp.minode.ino fp.filepos (ys.take size).length := htakes.mono (by omega)
    obtain ⟨fp₁, v₁, cnt₁, free₁, m₁, hrun₁, hputs₁⟩ := hf.putn h hwrite hfirst
    have htakes₁ := hputs₁.takes (n := (ys.drop size).length) (by rw [htake, hdrop, Nat.add_comm, ← hlen]; exact htakes)
    obtain ⟨fp₂, v₂, cnt₂, free₂, m₂, hrun₂, hputs₂⟩ :=
      ih hputs₁.stored' hputs₁.holds (hputs₁.moved.mode ▸ hwrite) hdrop htakes₁ (items + 1)
    have hwhole := hputs₁.trans hputs₂
    rw [hputs₁.moved.minode, hputs₁.size, hputs₁.filepos, putSize_append, List.take_append_drop] at hwhole
    refine ⟨fp₂, v₂, cnt₂, free₂, m₂, ?_, hwhole⟩
    simp only [Ufs370.fwriteLoop, Prog.run_bind, hrun₁, htake, Nat.lt_irrefl, if_false, hrun₂]
    rw [Nat.add_assoc, Nat.add_comm 1]

theorem Holds.fwrite (h : Stored cnt all fp.minode.ino v free) (hf : Holds fp m f v)
    (hwrite : fp.mode.write = true) (c : Chunk) (htakes : Takes v fp.minode.ino fp.filepos c.buf.length) :
    ∃ count fp' v' cnt' free' m',
      (Ufs370.fwrite fp c.buf c.size.toNat c.nitems.toNat).run v = ((count, fp'), v') ∧
      Puts fp f c.buf (putSize (v.filesize fp.minode.ino) fp.filepos c.buf) v cnt' all free' m' fp' v' := by
  simp only [Ufs370.fwrite]
  by_cases hnone : c.size.toNat = 0 ∨ c.nitems.toNat = 0
  · have hnil : c.buf = [] := List.eq_nil_of_length_eq_zero (c.full.trans (Nat.mul_eq_zero.mpr hnone))
    rw [if_pos hnone, hnil]
    exact ⟨0, fp, v, cnt, free, m, rfl, .none h hf⟩
  rw [if_neg hnone]
  by_cases hone : c.size.toNat = 1 ∨ c.nitems.toNat = 1
  · have hu : u32 (c.size.toNat * c.nitems.toNat) = c.buf.length := by
      rw [c.full]
      refine u32_of_lt ?_
      rcases hone with h | h
      · rw [h, Nat.one_mul]
        exact c.nitems.toNat_lt
      · rw [h, Nat.mul_one]
        exact c.size.toNat_lt
    obtain ⟨fp', v', cnt', free', m', hrun, hputs⟩ := hf.putn h hwrite htakes
    simp only [hone, if_true, hu, List.take_length, Prog.run_bind, hrun, Prog.run_pure]
    exact ⟨_, fp', v', cnt', free', m', rfl, hputs⟩
  · obtain ⟨fp', v', cnt', free', m', hrun, hputs⟩ := hf.fwriteLoop h hwrite c.full htakes 0
    rw [if_neg hone]
    exact ⟨_, fp', v', cnt', free', m', hrun, hputs⟩

/-- Chunk after chunk is one write. -/
theorem Holds.fwrites (h : Stored cnt all fp.minode.ino v free) (hf : Holds fp m f v)
    (hwrite : fp.mode.write = true) (chunks : List Chunk)
    (htakes : Takes v fp.minode.ino fp.filepos (chunks.flatMap Chunk.buf).length) :
    ∃ counts fp' v' cnt' free' m', (Prog.each Chunk.step chunks).run (fp, v) = (counts, fp', v') ∧
      Puts fp f (chunks.flatMap Chunk.buf)
        (putSize (v.filesize fp.minode.ino) fp.filepos (chunks.flatMap Chunk.buf)) v cnt' all free' m' fp' v' := by
  induction chunks generalizing fp v cnt free m f with
  | nil => exact ⟨[], fp, v, cnt, free, m, rfl, .none h hf⟩
  | cons c chunks ih =>
    rw [List.flatMap_cons] at htakes ⊢
    rw [List.length_append] at htakes
    obtain ⟨count, fp₁, v₁, cnt₁, free₁, m₁, hrun₁, hputs₁⟩ :=
      hf.fwrite h hwrite c (htakes.mono (Nat.le_add_right ..))
    obtain ⟨counts, fp₂, v₂, cnt₂, free₂, m₂, hrun₂, hputs₂⟩ :=
      ih hputs₁.stored' hputs₁.holds (hputs₁.moved.mode ▸ hwrite) (hputs₁.takes htakes)
    have hstep : c.step.run (fp, v) = (count, fp₁, v₁) := by
      simp only [Chunk.step, onHandle, hrun₁]
    have hwhole := hputs₁.trans hputs₂
    rw [hputs₁.moved.minode, hputs₁.size, hputs₁.filepos, putSize_append] at hwhole
    refine ⟨count :: counts, fp₂, v₂, cnt₂, free₂, m₂, ?_, hwhole⟩
    rw [Prog.each_cons, hstep, hrun₂]

end Chunks

namespace KeepsHandles

theorem fwriteLoop (size left items : Nat) (fp : File) (buf : List UInt8) :
    KeepsHandles (fwriteLoop size left items fp buf) := by
  induction left generalizing items fp buf with
  | zero => exact .pure _
  | succ left ih => exact .bind (filePutn ..) fun _ => .ite (.pure _) (ih ..)

theorem fwrite (fp : File) (buf : List UInt8) (size nitems : Nat) : KeepsHandles (fwrite fp buf size nitems) :=
  .ite (.pure _) (.ite (.bind (filePutn ..) fun _ => .pure _) (fwriteLoop ..))

end KeepsHandles

theorem oneHandle_fwrites {s : File × VDisk} (hone : s.2.OneHandle) (chunks : List Chunk) :
    ((Prog.each Chunk.step chunks).run s).2.2.OneHandle := by
  induction chunks generalizing s with
  | nil => exact hone
  | cons c chunks ih => exact ih (hone.after (.fwrite s.1 c.buf c.size.toNat c.nitems.toNat) rfl)

/-- A file that is opened to be appended to has the bytes behind its own when it is closed, unless its last
block is full. -/
theorem append_appends {cnt : Nat → Nat} {all : Set Nat} {v : VDisk} {free : List Nat} {p : Minptr} {fm : Mode}
    {now : Timev} {chunks : List Chunk} (h : Stored cnt all p.ino v free) (hone : v.OneHandle)
    (hmode : fm.Append)
    (hlimit : v.filesize p.ino + (chunks.flatMap Chunk.buf).length ≤ (16 + v.nidx) * v.blksize)
    (hfree : v.FreeFor p.ino (v.filesize p.ino + (chunks.flatMap Chunk.buf).length))
    (hsound : v.Sound p.ino (v.filesize p.ino)) :
    let s := (Prog.each Chunk.step chunks).run ((openHandle (.blank p .none) fm now).run v)
    ((closeHandle s.2.1).run s.2.2).2.content p.ino = v.content p.ino ++ chunks.flatMap Chunk.buf := by
  have hstart : v.startPos p.ino fm = v.filesize p.ino := if_pos hmode.append
  obtain ⟨fp, v', hrun, hs, hopened⟩ := openHandle_opened h hmode.trunc (.inl hmode.append) now
  have hone' := hone.after (.openHandle (.blank p .none) fm now) hrun
  rw [hstart] at hopened
  obtain ⟨rfl, hfm, hfilepos, -, -, -, hstored, hholds, hin⟩ := hopened
  have hholds := hholds ((hs.sound h).mpr hsound)
  have hsize : v'.filesize fp.minode.ino = v.filesize fp.minode.ino := hs.filesize _ (.inl h.cached)
  have hok : SizeOk v (v.filesize fp.minode.ino + (chunks.flatMap Chunk.buf).length) := .inl hlimit
  have htakes : Takes v' fp.minode.ino fp.filepos (chunks.flatMap Chunk.buf).length := by
    rw [hfilepos]
    refine ⟨fun _ => (hok.fileSize h.owned.geometry).congr hs.blksize, ?_, fun _ => ?_⟩
    · have := hok.lt h.owned.geometry
      omega
    · rw [VDisk.FreeFor, hs.nidx, hs.blksize, hs.room h.cached]
      exact hfree
  obtain ⟨counts, fp', v'', cnt', free', m', hwrites, hputs⟩ :=
    hholds.fwrites hstored (hfm ▸ hmode.write) chunks htakes
  have hone'' : v''.OneHandle := by
    have := oneHandle_fwrites (s := (fp, v')) hone' chunks
    rwa [hwrites] at this
  have hclose := hputs.holds.close hputs.stored' hone'' (hputs.moved.minode ▸ hputs.inSlot hin)
  rw [hputs.moved.minode, hputs.size, hsize, hfilepos] at hclose
  rw [hrun, hwrites]
  have hend : putSize (v.filesize fp.minode.ino) (v.filesize fp.minode.ino) (chunks.flatMap Chunk.buf) =
      max (v.filesize fp.minode.ino) (v.filesize fp.minode.ino + (chunks.flatMap Chunk.buf).length) := by
    rw [putSize]
    split
    · rename_i hnil
      rw [hnil, List.length_nil, Nat.add_zero, Nat.max_self]
    · rfl
  have hover := overwrite_end (v.content fp.minode.ino) (chunks.flatMap Chunk.buf)
  rw [VDisk.content_length, VDisk.content_eq, overwrite_map (Nat.le_refl _), ← hend] at hover
  rw [← VDisk.content_eq] at hover
  exact hclose.trans hover

/-- A file of one block and a piece of the second. -/
def halfBlock : VDisk := ((sizeStep (2, 600)).run pairDisk).2

theorem halfBlock_stored : ∃ cnt all free, Stored cnt all 2 halfBlock free := by
  have hcall : SizeCall [2] pairDisk (2, 600) := ⟨by decide, rfl, .inl (by decide), by decide, by decide⟩
  obtain ⟨free', r⟩ := sizeStep_resized pairDisk_wellFormed hcall
  exact ⟨_, _, free', (r.wellFormed pairDisk_wellFormed hcall.tries.toSizeAsked).1.stored
    (List.mem_singleton_self 2) rfl⟩

/-- Items of three bytes and then single ones. -/
theorem append_appends_half :
    let chunks : List Chunk := [⟨3, 2, [1, 2, 3, 4, 5, 6], rfl⟩, ⟨1, 4, [7, 8, 9, 10], rfl⟩]
    let s := (Prog.each Chunk.step chunks).run
      ((openHandle (.blank ⟨0, 2⟩ .none) (fileMode [0x81]) ⟨0, 0⟩).run halfBlock)
    ((closeHandle s.2.1).run s.2.2).2.content 2 = halfBlock.content 2 ++ chunks.flatMap Chunk.buf := by
  obtain ⟨cnt, all, free, hstored⟩ := halfBlock_stored
  exact append_appends (p := ⟨0, 2⟩) hstored (List.nodup_singleton 2) (fileMode_append [])
    (by decide +kernel) (by rw [VDisk.FreeFor]; decide +kernel)
    ⟨.inr (by decide +kernel), fun h => absurd h (by decide +kernel)⟩

/-- A file of one block. -/
def fullBlock : VDisk := ((sizeStep (2, 512)).run pairDisk).2

/-- The byte is written over the first one of the last block. -/
theorem not_append_appends :
    let chunks : List Chunk := [⟨1, 1, [7], rfl⟩]
    let s := (Prog.each Chunk.step chunks).run
      ((openHandle (.blank ⟨0, 2⟩ .none) (fileMode [0x81]) ⟨0, 0⟩).run fullBlock)
    ((closeHandle s.2.1).run s.2.2).2.content 2 ≠ fullBlock.content 2 ++ chunks.flatMap Chunk.buf := by
  intro chunks s h
  have hfirst := congrArg List.head? h
  revert hfirst
  decide +kernel

end Ufs370
