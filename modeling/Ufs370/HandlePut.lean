import Ufs370.Handle

/-! Writing through a handle. -/

namespace Ufs370

open Lib

section Writing

variable {cnt : Nat → Nat} {all : Set Nat} {v v' : VDisk} {free : List Nat} {fp fp' : File} {m n : Nat}
  {f : Nat → UInt8} {ys : List UInt8}

/-- The file grows by bytes that are nulls, but for those in the last block. -/
theorem Holds.grow {newsz : Nat} (h : Stored cnt all fp.minode.ino v free) (hf : Holds fp m f v)
    (hnew : FileSize v newsz) (hmore : v.filesize fp.minode.ino < newsz)
    (hup : newsz < v.filesize fp.minode.ino + 2147483648) (hroom : v.FreeFor fp.minode.ino newsz) :
    ∃ v' free', (datablockSizeChange newsz fp.minode.ino).run v = (.ok, v') ∧
      Resized cnt all fp.minode.ino newsz v free v' free' ∧ Holds { fp with eof := false } m f v' := by
  obtain ⟨v', free', hrun, r⟩ := h.grow hnew (Nat.le_of_lt hmore) hup hroom
  have hsize := r.filesize_eq h hnew
  refine ⟨v', free', hrun, r, fun k => ?_, fun hclean o ho => ?_, hf.err, fun he => absurd he Bool.false_ne_true,
    ?_, ?_, ?_, ?_⟩
  · rw [hsize, r.blksize, hf.byte k]
    by_cases hold : k / v.blksize * v.blksize < v.filesize fp.minode.ino
    · have hk := Nat.lt_trans hold hmore
      rw [if_pos hold, if_pos hk, File.shown, File.shown, r.blksize, VDisk.fileByte, VDisk.fileByte, r.blksize,
        (r.fileBlock_old h hk hold).2]
    · rw [if_neg hold]
      split
      · rename_i hk
        rw [File.shown, r.blksize, VDisk.fileByte, r.blksize, r.data_new h hnew hk (Nat.not_lt.mp hold)]
        split
        · rename_i heq
          have hclean : fp.dirty = false := Bool.eq_false_iff.mpr fun hd =>
            hold (heq ▸ hf.dirty_block hd)
          rw [hf.clean hclean _ (Nat.mod_lt _ h.blksize_pos), if_neg (heq ▸ hold)]
        · rfl
      · rfl
  · rw [r.blksize] at ho ⊢
    rw [hf.clean hclean o ho, hsize]
    by_cases hlt : m * v.blksize < v.filesize fp.minode.ino
    · rw [if_pos hlt, if_pos (Nat.lt_trans hlt hmore), (r.fileBlock_old h (Nat.lt_trans hlt hmore) hlt).2]
    · rw [if_neg hlt]
      split
      · rename_i hblock
        rw [r.data_new h hnew hblock (Nat.not_lt.mp hlt)]
        rfl
      · rfl
  · rw [r.blksize]
    exact hf.pos
  · rw [r.blksize]
    exact hf.bound
  · rw [hsize]
    exact fun hd => Nat.le_trans (hf.within hd) (Nat.le_of_lt hmore)
  · rw [hsize, r.blksize]
    refine hf.block.imp_left fun hb => ⟨?_, Nat.lt_trans hb.2 hmore⟩
    rw [(r.fileBlock_old h (Nat.lt_trans hb.2 hmore) hb.2).1]
    exact hb.1

theorem Holds.put (h : Stored cnt all fp.minode.ino v free) (hf : Holds fp m f v)
    (hlen : fp.filepos + ys.length ≤ v.filesize fp.minode.ino) (hroom : fp.blkpos + ys.length ≤ v.blksize)
    (hne : ys ≠ []) : Holds (fp.put ys) m (splice f fp.filepos ys) v := by
  have hpos : 0 < ys.length := List.length_pos_iff.mpr hne
  have hu : u32 (fp.filepos + ys.length) = fp.filepos + ys.length :=
    u32_of_lt (Nat.lt_of_le_of_lt hlen h.size.lt)
  have hfilepos := hf.pos
  refine ⟨fun k => ?_, fun hd => absurd hd.symm Bool.false_ne_true, hf.err, fun he => ?_, ?_, hroom,
    fun _ => ?_, hf.block.imp_right fun ⟨h0, _⟩ => ⟨h0, fun _ => Nat.add_pos_right _ hpos⟩⟩
  · have hsplit := Nat.div_add_mod' k v.blksize
    have hmod := Nat.mod_lt k h.blksize_pos
    by_cases hin : fp.filepos ≤ k ∧ k < fp.filepos + ys.length
    · have hdiv : k / v.blksize = m :=
        Nat.div_eq_of_lt_le (by omega) (by rw [Nat.succ_mul]; omega)
      have hk : k / v.blksize * v.blksize < v.filesize fp.minode.ino :=
        block_start_lt (Nat.lt_of_lt_of_le hin.2 hlen)
      rw [splice_inside hin.1 hin.2]
      refine ((if_pos hk).trans ?_).symm
      rw [hdiv] at hsplit
      rw [File.shown, if_pos hdiv]
      change (if fp.blkpos ≤ k % v.blksize ∧ k % v.blksize < fp.blkpos + ys.length then _ else _) = _
      rw [if_pos (by omega), CString.chars, List.getD_eq_getElem?_getD,
        List.getElem?_eq_getElem (by omega), Option.getD_some]
      congr 1
      omega
    · rw [splice_outside (by omega), hf.byte k]
      refine if_ctx_congr Iff.rfl (fun _ => ?_) fun _ => rfl
      rw [File.shown, File.shown]
      refine if_ctx_congr Iff.rfl (fun hdiv => ?_) fun _ => rfl
      rw [hdiv] at hsplit
      change _ = if fp.blkpos ≤ k % v.blksize ∧ k % v.blksize < fp.blkpos + ys.length then _ else _
      rw [if_neg (by omega)]
  · have := hf.eof he
    omega
  · change u32 (fp.filepos + ys.length) = m * v.blksize + (fp.blkpos + ys.length)
    rw [hu, hfilepos, Nat.add_assoc]
  · change u32 (fp.filepos + ys.length) ≤ _
    rw [hu]
    exact hlen

/-- From `fp` and `v` to `fp'` and `v'` some bytes were put at the position, and the file has the size
`size` now. -/
structure Puts (fp : File) (f : Nat → UInt8) (ys : List UInt8) (size : Nat) (v : VDisk) (cnt : Nat → Nat)
    (all : Set Nat) (free : List Nat) (m : Nat) (fp' : File) (v' : VDisk) : Prop where
  moved : fp.Moved fp'
  stored : Stored cnt all fp.minode.ino v' free
  holds : Holds fp' m (splice f fp.filepos ys) v'
  filepos : fp'.filepos = fp.filepos + ys.length
  size : v'.filesize fp.minode.ino = size
  blksize : v'.blksize = v.blksize
  room : v'.room fp.minode.ino = v.room fp.minode.ino
  inSlot : v.InSlot fp.minode.ino → v'.InSlot fp.minode.ino

theorem Puts.none (h : Stored cnt all fp.minode.ino v free) (hf : Holds fp m f v) :
    Puts fp f [] (v.filesize fp.minode.ino) v cnt all free m fp v where
  moved := .refl fp
  stored := h
  holds := by
    rw [splice_nil]
    exact hf
  filepos := rfl
  size := rfl
  blksize := rfl
  room := rfl
  inSlot := id

/-- One piece after the other. -/
theorem Puts.trans {cnt' : Nat → Nat} {free' : List Nat} {m' size size' : Nat} {zs : List UInt8} {fp'' : File}
    {v'' : VDisk} (h : Puts fp f ys size v cnt all free m fp' v')
    (h' : Puts fp' (splice f fp.filepos ys) zs size' v' cnt' all free' m' fp'' v'') :
    Puts fp f (ys ++ zs) size' v cnt' all free' m' fp'' v'' := by
  obtain ⟨hmoved, hstored, hholds, hpos, hsize, hblksize, hroom, hin⟩ := h'
  rw [h.moved.minode] at hstored hsize hroom hin
  rw [h.filepos] at hholds hpos
  refine ⟨h.moved.trans hmoved, hstored, ?_, ?_, hsize, hblksize.trans h.blksize, hroom.trans h.room,
    fun hv => hin (h.inSlot hv)⟩
  · rw [← splice_append]
    exact hholds
  · rw [hpos, List.length_append, Nat.add_assoc]

theorem putnExtend_within (hf : Holds fp m f v) (h : Stored cnt all fp.minode.ino v free)
    (hwrite : fp.mode.write = true) (hlen : fp.filepos + n ≤ v.filesize fp.minode.ino) :
    (putnExtend fp n).run v = ((true, fp), v) := by
  have hu : u32 (fp.filepos + n) = fp.filepos + n := u32_of_lt (Nat.lt_of_le_of_lt hlen h.size.lt)
  have hle : fp.filepos + n ≤ (v.din fp.minode.ino).filesize.toNat := h.din.symm ▸ hlen
  simp only [putnExtend, hf.err, hwrite, hu, hle, Bool.not_true, Bool.false_eq_true, if_false, if_true,
    Prog.run_bind, Prog.run_pure]

/-- The buffer filled up, unless it is full. -/
theorem Holds.fill (h : Stored cnt all fp.minode.ino v free) (hf : Holds fp m f v)
    (hlen : fp.filepos + ys.length ≤ v.filesize fp.minode.ino) (hfull : fp.blkpos + ys.length = v.blksize) :
    ∃ fp₀, (if 0 < ys.length then fp.put ys else fp) = fp₀ ∧ Holds fp₀ m (splice f fp.filepos ys) v ∧
      fp.Moved fp₀ ∧ fp₀.filepos = fp.filepos + ys.length ∧ fp₀.blkpos = v.blksize := by
  by_cases hnil : ys = []
  · subst hnil
    refine ⟨fp, if_neg (Nat.lt_irrefl 0), ?_, .refl fp, rfl, hfull⟩
    rw [splice_nil]
    exact hf
  · have hu : u32 (fp.filepos + ys.length) = fp.filepos + ys.length :=
      u32_of_lt (Nat.lt_of_le_of_lt hlen h.size.lt)
    exact ⟨fp.put ys, if_pos (List.length_pos_iff.mpr hnil), hf.put h hlen (Nat.le_of_eq hfull) hnil,
      ⟨rfl, rfl⟩, hu, hfull⟩

/-- Within the file no block is asked for. -/
theorem Holds.putnLoop (h : Stored cnt all fp.minode.ino v free) (hf : Holds fp m f v)
    (hwrite : fp.mode.write = true) (hlen : fp.filepos + ys.length ≤ v.filesize fp.minode.ino) {calls : Nat}
    (hcalls : ys = [] ∨ 2 * ys.length + (if fp.blkpos < v.blksize then 0 else 1) ≤ calls) :
    ∃ fp' v' m', (putnLoop calls fp ys).run v = ((ys.length, fp'), v') ∧
      Puts fp f ys (v.filesize fp.minode.ino) v cnt all free m' fp' v' := by
  induction calls generalizing fp v m f ys with
  | zero =>
    obtain rfl : ys = [] := by
      rcases hcalls with h | h
      · exact h
      · exact List.eq_nil_of_length_eq_zero (by omega)
    exact ⟨fp, v, m, rfl, .none h hf⟩
  | succ calls ih =>
    by_cases hnil : ys = []
    · subst hnil
      exact ⟨fp, v, m, rfl, .none h hf⟩
    have havail : u32sub v.blksize fp.blkpos = v.blksize - fp.blkpos := u32sub_of_le hf.bound
    simp only [Ufs370.putnLoop, hnil, if_false, Prog.run_bind, putnExtend_within hf h hwrite hlen,
      Bool.not_true, Bool.false_eq_true, havail]
    by_cases hfits : ys.length ≤ v.blksize - fp.blkpos
    · have hu : u32 (fp.filepos + ys.length) = fp.filepos + ys.length :=
        u32_of_lt (Nat.lt_of_le_of_lt hlen h.size.lt)
      have hput := hf.put h hlen (by have := hf.bound; omega) hnil
      rw [if_pos hfits]
      exact ⟨_, v, m, rfl, ⟨rfl, rfl⟩, h, hput, hu, rfl, rfl, rfl, id⟩
    -- the buffer is filled and written, and the rest goes into the next blocks
    rw [if_neg hfits]
    generalize hav : v.blksize - fp.blkpos = avail at hfits ⊢
    have hbound := hf.bound
    have htake : (ys.take avail).length = avail := List.length_take_of_le (by omega)
    have hdrop : (ys.drop avail).length = ys.length - avail := List.length_drop
    obtain ⟨fp₀, hfill, hf₀, hmoved₀, hpos₀, hend₀⟩ := @Holds.fill _ _ _ _ _ _ _ (ys.take avail) h hf
      (by omega) (by omega)
    rw [htake] at hfill hpos₀
    obtain ⟨v₁, fp₁, hsync, hv₁, hf₁, hmoved₁, hpos₁, hend₁, hclean₁, hs⟩ := hf₀.sync (hmoved₀.minode ▸ h)
    have hsize₁ := hs.filesize
    rw [hmoved₀.minode] at hsize₁
    obtain ⟨fp₂, hnext, hf₂, hmoved₂, hpos₂, hzero₂, _⟩ :=
      hf₁.next (hmoved₁.minode ▸ hv₁) hclean₁
        (by rw [hmoved₁.minode, hmoved₀.minode, hsize₁, hpos₁, hpos₀]; omega) (by rw [hend₁, hend₀, hs.blksize])
    have hmoved : fp.Moved fp₂ := hmoved₀.trans (hmoved₁.trans hmoved₂)
    have hv₁' : Stored cnt all fp₂.minode.ino v₁ free := by
      rw [hmoved.minode, ← hmoved₀.minode]
      exact hv₁
    have hpos : fp₂.filepos = fp.filepos + avail := by rw [hpos₂, hpos₁, hpos₀]
    obtain ⟨fp₃, v₃, m', hrun, hrest⟩ := @ih v₁ fp₂ _ _ (ys.drop avail) hv₁' hf₂ (hmoved.mode ▸ hwrite)
      (by rw [hmoved.minode, hsize₁, hpos, hdrop]; omega) (.inr (by
        rw [hzero₂, if_pos hv₁'.blksize_pos, hdrop]
        have := hcalls.resolve_left hnil
        split at this <;> omega))
    have hroom₁ := hs.room
    have hin₁ := hs.inSlot
    rw [hmoved₀.minode] at hroom₁ hin₁
    have hfilled : Puts fp f (ys.take avail) (v.filesize fp.minode.ino) v cnt all free _ fp₂ v₁ :=
      ⟨hmoved, hmoved.minode ▸ hv₁', hf₂, by rw [hpos, htake], hsize₁, hs.blksize, hroom₁, hin₁⟩
    have hwhole := hfilled.trans hrest
    rw [List.take_append_drop, hmoved.minode, hsize₁] at hwhole
    simp only [hfill, hsync, hnext, hrun, Bool.not_true, Bool.false_eq_true, if_false, Prog.run_bind,
      Prog.run_pure, hdrop, Nat.add_sub_cancel' (Nat.le_of_lt (Nat.not_le.mp hfits))]
    exact ⟨fp₃, v₃, m', rfl, hwhole⟩

/-- A file can take a write of `n` bytes at `pos`: the size that it comes to has an address map, and
there are free blocks for what it grows by, which is less than 2 GiB. -/
structure Takes (v : VDisk) (ino pos n : Nat) : Prop where
  size : v.filesize ino < pos + n → FileSize v (pos + n)
  small : pos + n < v.filesize ino + 2147483648
  free : v.filesize ino < pos + n → v.FreeFor ino (pos + n)

/-- The size of a file after a write at `pos`. -/
def putSize (sz pos : Nat) (ys : List UInt8) : Nat := if ys = [] then sz else max sz (pos + ys.length)

theorem putnLoop_extended {w : VDisk} {calls : Nat} (hne : ys ≠ [])
    (hrun : (putnExtend fp ys.length).run v = ((true, fp'), w))
    (hagain : (putnExtend fp' ys.length).run w = ((true, fp'), w)) :
    (putnLoop (calls + 1) fp ys).run v = (putnLoop (calls + 1) fp' ys).run w := by
  simp only [putnLoop, hne, if_false, Prog.run_bind, hrun, hagain]

/-- `ufs_file_putn` is a write at the position. -/
theorem Holds.putn (h : Stored cnt all fp.minode.ino v free) (hf : Holds fp m f v)
    (hwrite : fp.mode.write = true) (htakes : Takes v fp.minode.ino fp.filepos ys.length) :
    ∃ fp' v' cnt' free' m', (filePutn fp ys).run v = ((ys.length, fp'), v') ∧
      Puts fp f ys (putSize (v.filesize fp.minode.ino) fp.filepos ys) v cnt' all free' m' fp' v' := by
  by_cases hne : ys = []
  · subst hne
    exact ⟨fp, v, cnt, free, m, rfl, .none h hf⟩
  rw [putSize, if_neg hne]
  have hcalls (fp : File) (v : VDisk) : 2 * ys.length + (if fp.blkpos < v.blksize then 0 else 1) ≤
      2 * ys.length + 1 := by split <;> omega
  by_cases hlen : fp.filepos + ys.length ≤ v.filesize fp.minode.ino
  · rw [Nat.max_eq_left hlen]
    obtain ⟨fp', v', m', hrun, hputs⟩ := Holds.putnLoop h hf hwrite hlen (.inr (hcalls fp v))
    exact ⟨fp', v', cnt, free, m', hrun, hputs⟩
  have hmore := Nat.not_le.mp hlen
  rw [Nat.max_eq_right (Nat.le_of_lt hmore)]
  obtain ⟨v', free', hgrow, r, hf'⟩ := hf.grow h (htakes.size hmore) hmore htakes.small (htakes.free hmore)
  have hv' := r.stored h (htakes.size hmore)
  have hsize := r.filesize_eq h (htakes.size hmore)
  have hu : u32 (fp.filepos + ys.length) = fp.filepos + ys.length := u32_of_lt (htakes.size hmore).lt
  have hext : (putnExtend fp ys.length).run v = ((true, { fp with eof := false }), v') := by
    have hgt : ¬ fp.filepos + ys.length ≤ (v.din fp.minode.ino).filesize.toNat := h.din.symm ▸ hlen
    simp only [putnExtend, hf.err, hwrite, hu, hgt, Bool.not_true, Bool.false_eq_true, if_false,
      Prog.run_bind, hgrow, ne_eq, not_true_eq_false, Prog.run_pure]
  have hlen' : fp.filepos + ys.length ≤ v'.filesize fp.minode.ino := Nat.le_of_eq hsize.symm
  have hagain := putnExtend_within hf' hv' hwrite hlen'
  obtain ⟨fp'', v'', m', hrun, hputs⟩ := @Holds.putnLoop _ _ _ _ { fp with eof := false } _ _ _ hv' hf'
    hwrite hlen' _ (.inr (hcalls _ _))
  rw [← putnLoop_extended hne hext hagain] at hrun
  refine ⟨fp'', v'', _, free', m', hrun, ⟨hputs.moved.mode, hputs.moved.minode⟩, hputs.stored, hputs.holds,
    hputs.filepos, hputs.size.trans hsize, hputs.blksize.trans r.blksize,
    hputs.room.trans (r.room h (htakes.size hmore)), fun hin => hputs.inSlot ?_⟩
  rcases r.synced with rfl | hslot
  · exact hin
  · exact hslot

end Writing

end Ufs370
