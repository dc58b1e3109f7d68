import Ufs370.Fgets
import Ufs370.Lib.Parts

/-! The files of a disk, each with a handle on it or none: byte strings that do not know of each other. -/

namespace Ufs370

open Lib Lib.IndexForest Lib.IndexLayout

/-- A disk and the handles that are open, one for a file at most. -/
structure OpenFiles where
  handle : Nat → Option File
  disk : VDisk

/-- A call on a file: it is opened, read, written, sought or closed.  `gets` and `puts` read a line and write a string. -/
inductive FileOp
  | fopen (fm : Mode) (now : Timev)
  | get (n : Nat)
  | put (buf : List UInt8)
  | gets (num : Nat)
  | puts (str : List UInt8)
  | seek (offset : Int) (whence : Whence)
  | fclose

inductive Reply
  | code (rc : Rc)
  | bytes (buf : List UInt8)
  | count (n : Nat)
  | line (str : Option (List UInt8))
  | done (ok : Bool)
  deriving DecidableEq

namespace FileOp

/-- What a call does with the handle of inode `p`.  To open a file is what `ufs_open` does from the lookup of
its path on, which ends with a reference to the inode. -/
def onHandle (p : Minptr) : FileOp → Option File → Prog VDisk (Reply × Option File)
  | .fopen fm now, none => do
    match ← inodeGet p.ino with
    | none => return (.code .enoent, none)
    | some _ => return (.code .ok, some (← openHandle (.blank p .none) fm now))
  | .fopen _ _, some fp => return (.code .ebusy, some fp)
  | .get n, some fp => do
    let (buf, fp) ← fileGetn fp n
    return (.bytes buf, some fp)
  | .put buf, some fp => do
    let (count, fp) ← filePutn fp buf
    return (.count count, some fp)
  | .gets num, some fp => do
    let (str, fp) ← fgets fp num
    return (.line str, some fp)
  | .puts str, some fp => do
    let (ok, fp) ← fputs fp str
    return (.done ok, some fp)
  | .seek offset whence, some fp => do
    let (rc, fp) ← fseek fp offset whence
    return (.code rc, some fp)
  | .fclose, some fp => do
    closeHandle fp
    return (.code .ok, none)
  | _, none => return (.code .enoent, none)

/-- The call as one on a byte string with a position. -/
def onCursor : FileOp → Prog (Cursor UInt8) Reply
  | .fopen fm _ => ⟨fun c => (.code .ok, { c with pos := if fm.append then c.data.length else 0 })⟩
  | .get n => ⟨fun c => (.bytes (c.get n).1, (c.get n).2)⟩
  | .put buf => ⟨fun c => (.count buf.length, c.put buf)⟩
  | .gets num => ⟨fun c =>
    let str := Lines.line isNewline (num - 1) (c.data.drop c.pos)
    (.line (if str = [] then none else some str), { c with pos := c.pos + str.length })⟩
  | .puts str => ⟨fun c => (.done true, c.put (str.takeWhile (· ≠ 0)))⟩
  | .seek offset whence => ⟨fun c =>
    match seekTarget c.pos c.data.length offset whence with
    | none => (.code .einval, c)
    | some newpos => (.code .ok, { c with pos := newpos })⟩
  | .fclose => return .code .ok

end FileOp

namespace OpenFiles

/-- A call on file `c.1` of disk `d`. -/
def step (d : Nat) (c : Nat × FileOp) : Prog OpenFiles Reply :=
  ⟨fun s =>
    let r := (c.2.onHandle ⟨d, c.1⟩ (s.handle c.1)).run s.disk
    (r.1.1, ⟨Function.update s.handle c.1 r.1.2, r.2⟩)⟩

/-- The call as one on the byte string of its file. -/
def ideal (c : Nat × FileOp) : Prog (Nat → Cursor UInt8) Reply := onPart c.1 c.2.onCursor

/-- A file is opened if no handle is on it; a handle that reads leaves no buffer behind that has yet to be
written, one that writes has the space, and one that seeks goes to a place in the file at which it can be. -/
def Asked (s : OpenFiles) (i : Nat) : FileOp → Prop
  | .fopen fm _ => s.handle i = none ∧ s.disk.Opens i fm
  | .get n => ∃ fp, s.handle i = some fp ∧ fp.mode.read = true ∧ AccessOk (fp, s.disk) (.get n)
  | .put buf => ∃ fp, s.handle i = some fp ∧ fp.mode.write = true ∧ AccessOk (fp, s.disk) (.put buf)
  | .gets num => ∃ fp, s.handle i = some fp ∧ fp.mode.read = true ∧ AccessOk (fp, s.disk) (.get (num - 1))
  | .puts str => ∃ fp, s.handle i = some fp ∧ fp.mode.write = true ∧
      AccessOk (fp, s.disk) (.put (str.takeWhile (· ≠ 0)))
  | .seek offset whence => ∃ fp newpos, s.handle i = some fp ∧ fp.mode.read = true ∧
      seekTarget fp.filepos (s.disk.filesize i) offset whence = some newpos ∧
      newpos ≤ s.disk.filesize i ∧ s.disk.Sound i newpos
  | .fclose => ∃ fp, s.handle i = some fp

/-- A call on one of the files `inos`. -/
def CallOk (inos : List Nat) (s : OpenFiles) (c : Nat × FileOp) : Prop := c.1 ∈ inos ∧ s.Asked c.1 c.2

end OpenFiles

/-- A disk on which each inode `i` has `cnt i` blocks, those of `inos` as many as their sizes need. -/
structure Filed (cnt : Nat → Nat) (all : Set Nat) (inos : List Nat) (v : VDisk) (free : List Nat) : Prop where
  owned : Owned v (Within v.nidx cnt) [] free all
  numbers : ∀ i, cnt i ≠ 0 → InodeNumber v i
  number : ∀ i ∈ inos, InodeNumber v i
  count : ∀ i ∈ inos, cnt i = ceil (v.filesize i) v.blksize
  size : ∀ i ∈ inos, FileSize v (v.filesize i)

/-- From `v` to `v'` file `i` was let be. -/
structure SameFile (i : Nat) (v v' : VDisk) : Prop where
  blksize : v'.blksize = v.blksize
  inode : v'.inode i = v.inode i
  slot : v'.slot i = v.slot i
  block : ∀ m, m * v.blksize < v.filesize i →
    v'.fileBlock i m = v.fileBlock i m ∧ v'.io.blocks (v.fileBlock i m) = v.io.blocks (v.fileBlock i m)

section SameFile

variable {cnt cnt' : Nat → Nat} {all : Set Nat} {inos free : List Nat} {v v' : VDisk} {i d : Nat}

theorem SameFile.filesize (h : SameFile i v v') : v'.filesize i = v.filesize i := by
  rw [VDisk.filesize, h.inode]
  rfl

theorem SameFile.inSlot (h : SameFile i v v') (hin : v.InSlot i) : v'.InSlot i := by
  rw [VDisk.InSlot, h.slot, h.inode]
  exact hin

theorem SameFile.fileByte (h : SameFile i v v') {k : Nat} (hk : k / v.blksize * v.blksize < v.filesize i) :
    v'.fileByte i k = v.fileByte i k := by
  obtain ⟨hblock, hdata⟩ := h.block _ hk
  rw [VDisk.fileByte, h.blksize, hblock, hdata]
  rfl

theorem SameFile.content (h : SameFile i v v') : v'.content i = v.content i := by
  rw [VDisk.content, h.filesize]
  exact List.map_congr_left fun k hk => h.fileByte (block_start_lt (List.mem_range.mp hk))

theorem SameFile.holds {fp : File} {m : Nat} {f : Nat → UInt8} (h : SameFile fp.minode.ino v v')
    (hf : Holds fp m f v) : Holds fp m f v' := by
  have hsize := h.filesize
  refine ⟨fun k => ?_, fun hclean o ho => ?_, hf.err, ?_, ?_, ?_, ?_, ?_⟩
  · rw [hf.byte k, hsize, h.blksize]
    refine if_ctx_congr Iff.rfl (fun hk => ?_) fun _ => rfl
    rw [File.shown, File.shown, h.blksize, h.fileByte hk]
  · rw [h.blksize] at ho ⊢
    rw [hf.clean hclean o ho, hsize]
    split
    · rename_i hlt
      rw [(h.block m hlt).1, (h.block m hlt).2]
    · rfl
  · rw [hsize]
    exact hf.eof
  · rw [h.blksize, hf.pos]
  · rw [h.blksize]
    exact hf.bound
  · rw [hsize]
    exact hf.within
  · rw [h.blksize, hsize]
    refine hf.block.imp_left fun hb => ⟨?_, hb.2⟩
    rw [(h.block m hb.2).1, hb.1]

theorem SameView.sameFile (s : SameView v v') (i : Nat) : SameFile i v v' where
  blksize := by rw [s.same]
  inode := congrFun s.inode i
  slot := congrFun s.slot i
  block m _ := ⟨by rw [s.fileBlock], by rw [s.same]⟩

theorem SameFile.trans {v'' : VDisk} (h : SameFile i v v') (h' : SameFile i v' v'') : SameFile i v v'' where
  blksize := h'.blksize.trans h.blksize
  inode := h'.inode.trans h.inode
  slot := h'.slot.trans h.slot
  block m hm := by
    obtain ⟨hblock, hdata⟩ := h.block m hm
    obtain ⟨hblock', hdata'⟩ := h'.block m (by rwa [h.blksize, h.filesize])
    rw [hblock] at hblock' hdata'
    exact ⟨hblock', hdata'.trans hdata⟩

namespace Filed

theorem of_wellFormed (h : WellFormed v inos free) :
    Filed (v.counts inos) {b | b ∈ v.allBlocks inos free} inos v free where
  owned := h.owned
  numbers i hi := h.number i (by
    by_contra hnot
    exact hi (if_neg hnot))
  number := h.number
  count i hi := if_pos hi
  size i hi := SizeOk.fileSize h.geometry (h.size i hi)

variable (h : Filed cnt all inos v free)
include h

theorem stored (hi : i ∈ inos) (hcached : v.Cached i) : Stored cnt all i v free :=
  ⟨h.owned, h.numbers, h.number i hi, hcached, h.count i hi, h.size i hi⟩

/-- A file other than the one that changed was let be. -/
theorem sameFile (hs : Spares {d} cnt v v') (hi : i ∈ inos) (hne : i ≠ d) : SameFile i v v' where
  blksize := hs.layout.blksize
  inode := hs.inode i hne (h.number i hi)
  slot := hs.slot i hne (h.number i hi)
  block m hm := by
    have hlt : m < cnt i := by
      rw [h.count i hi]
      exact (lt_ceil h.owned.geometry.blockSize.pos).mpr hm
    exact hs.data i hne m hlt (Nat.lt_of_lt_of_le hlt (h.count i hi ▸ (h.size i hi).addr.le_maxBlocks))

theorem alters (ha : Alters cnt all d v cnt' v') : ∃ free', Filed cnt' all inos v' free' := by
  obtain ⟨free', hstored⟩ := ha.stored
  refine ⟨free', hstored.owned, hstored.numbers, fun i hi => ha.spares.layout.inodeNumber (h.number i hi),
    fun i hi => ?_, fun i hi => ?_⟩
  all_goals
    by_cases hne : i = d
    · subst hne
      first | exact hstored.count | exact hstored.size
    have hsame := h.sameFile ha.spares hi hne
    rw [hsame.filesize]
  · rw [ha.counts i hne, h.count i hi, hsame.blksize]
  · exact ⟨(h.size i hi).lt, hsame.blksize.symm ▸ (h.size i hi).addr.congr hsame.blksize⟩

theorem view (s : SameView v v') : Filed cnt all inos v' free where
  owned := by
    have hnidx : v'.nidx = v.nidx := by rw [s.same]; rfl
    rw [hnidx]
    exact (h.owned.setMinodes s.same fun _ _ => by rw [s.inode]).1
  numbers i hi := s.number.mpr (h.numbers i hi)
  number i hi := s.number.mpr (h.number i hi)
  count i hi := by rw [s.filesize, h.count i hi, s.same]
  size i hi := by
    rw [s.filesize]
    exact ⟨(h.size i hi).lt, by rw [s.same]; exact (h.size i hi).addr⟩

end Filed

end SameFile

/-- The handle of inode `p` and the byte string of its file with the position. -/
structure Shown (p : Minptr) (fp : File) (v : VDisk) (c : Cursor UInt8) : Prop where
  minode : fp.minode = p
  cached : v.Cached p.ino
  filepos : fp.filepos = c.pos
  within : fp.filepos ≤ v.filesize p.ino
  quiet : fp.mode.write = false → fp.dirty = false
  holds : ∃ m f, Holds fp m f v ∧ c.data = (List.range (v.filesize p.ino)).map f

namespace OpenFiles

/-- What file `i` of disk `d` is, be it open or not. -/
structure Shows (d i : Nat) (s : OpenFiles) (c : Cursor UInt8) : Prop where
  inSlot : s.disk.InSlot i
  closed : s.handle i = none → s.disk.content i = c.data
  opened : ∀ fp, s.handle i = some fp → Shown ⟨d, i⟩ fp s.disk c

/-- What all files have in common. -/
structure Common (inos : List Nat) (s : OpenFiles) : Prop where
  filed : ∃ cnt all free, Filed cnt all inos s.disk free
  oneHandle : s.disk.OneHandle

/-- A file that was let be shows what it showed. -/
theorem Shows.sameFile {d i : Nat} {s s' : OpenFiles} {c : Cursor UInt8} (h : Shows d i s c)
    (hsame : SameFile i s.disk s'.disk) (hhandle : s'.handle i = s.handle i)
    (hcached : s.disk.Cached i → s'.disk.Cached i) : Shows d i s' c where
  inSlot := hsame.inSlot h.inSlot
  closed hnone := hsame.content.trans (h.closed (hhandle ▸ hnone))
  opened fp hfp := by
    obtain ⟨hminode, hin, hpos, hwithin, hquiet, m, f, hholds, hdata⟩ := h.opened fp (hhandle ▸ hfp)
    have hino : fp.minode.ino = i := by rw [hminode]
    refine ⟨hminode, hcached hin, hpos, ?_, hquiet, m, f, (hino ▸ hsame : SameFile fp.minode.ino _ _).holds hholds, ?_⟩
    · rw [hsame.filesize]
      exact hwithin
    · rw [hsame.filesize]
      exact hdata

section Step

variable {d i : Nat} {inos : List Nat} {s : OpenFiles} {c c' : Cursor UInt8} {op : FileOp} {reply : Reply}
  {handle : Option File} {v' : VDisk}

/-- What is to be shown of a call on one file. -/
structure Serves (d : Nat) (inos : List Nat) (s : OpenFiles) (i : Nat) (handle : Option File) (v' : VDisk)
    (c' : Cursor UInt8) : Prop where
  common : Common inos ⟨s.handle, v'⟩
  other : ∀ k ∈ inos, k ≠ i → SameFile k s.disk v' ∧ (s.disk.Cached k → v'.Cached k)
  inSlot : v'.InSlot i
  closed : handle = none → v'.content i = c'.data
  opened : ∀ fp, handle = some fp → Shown ⟨d, i⟩ fp v' c'

theorem Serves.onePart (h : Serves d inos s i handle v' c')
    (hrun : (op.onHandle ⟨d, i⟩ (s.handle i)).run s.disk = ((reply, handle), v'))
    (hideal : op.onCursor.run c = (reply, c')) :
    OnePart (Common inos) (Shows d) {k | k ∈ inos} i (step d (i, op)) op.onCursor s c := by
  have hstep : (step d (i, op)).run s = (reply, ⟨Function.update s.handle i handle, v'⟩) := by
    simp only [step, hrun]
  refine ⟨?_, ?_, ?_, fun k hk hne b hb => ?_⟩
  · rw [hstep, hideal]
  · rw [hstep]
    exact ⟨h.common.filed, h.common.oneHandle⟩
  · rw [hstep, hideal]
    refine ⟨h.inSlot, fun hnone => h.closed ?_, fun fp hfp => h.opened fp ?_⟩
    · simpa only [Function.update_self] using hnone
    · simpa only [Function.update_self] using hfp
  · rw [hstep]
    obtain ⟨hsame, hcached⟩ := h.other k hk hne
    exact hb.sameFile hsame (Function.update_of_ne hne ..) hcached

/-- What a program that keeps the handles does to the other files. -/
theorem Filed.others {cnt cnt' : Nat → Nat} {all : Set Nat} {free : List Nat} {v : VDisk} {α : Type} {x : Prog VDisk α}
    (h : Filed cnt all inos v free) (hone : v.OneHandle) (hx : KeepsHandles x)
    (ha : Alters cnt all i v cnt' (x.run v).2) : (x.run v).2.OneHandle ∧ ∀ k ∈ inos, k ≠ i →
      SameFile k v (x.run v).2 ∧ (v.Cached k → (x.run v).2.Cached k) := by
  have hhandles := hx.run v hone
  exact ⟨(oneHandle_congr hhandles).mpr hone, fun k hk hne =>
    ⟨h.sameFile ha.spares hk hne, (cached_handles hhandles).mpr⟩⟩

variable (hc : Common inos s) (hshow : Shows d i s c) (hi : i ∈ inos)
include hc hshow hi

omit hi in
/-- A call that reads by a handle, which goes on in the file. -/
theorem serves_read {fp fp' : File} {m' pos' : Nat} {f : Nat → UInt8} (hfp : s.handle i = some fp)
    (hdata : c.data = (List.range (s.disk.filesize i)).map f)
    (hrun : (op.onHandle ⟨d, i⟩ (some fp)).run s.disk = ((reply, some fp'), s.disk)) (hholds : Holds fp' m' f s.disk)
    (hmoved : fp.Moved fp') (hpos : fp'.filepos = pos') (hwithin : pos' ≤ s.disk.filesize i)
    (hdirty : fp'.dirty = fp.dirty) (hideal : op.onCursor.run c = (reply, { c with pos := pos' })) :
    OnePart (Common inos) (Shows d) {k | k ∈ inos} i (step d (i, op)) op.onCursor s c := by
  obtain ⟨hminode, hcached, -, -, hquiet, -⟩ := hshow.opened fp hfp
  have hserves : Serves d inos s i (some fp') s.disk { c with pos := pos' } := by
    refine ⟨hc, fun k hk _ => ⟨(SameView.refl _).sameFile k, id⟩, hshow.inSlot, fun h => by simp at h,
      fun fp'' h => ?_⟩
    obtain rfl := Option.some.inj h
    exact ⟨hmoved.minode.trans hminode, hcached, hpos, hpos ▸ hwithin,
      fun hw => hdirty.trans (hquiet (hmoved.mode ▸ hw)), m', f, hholds, hdata⟩
  exact hserves.onePart (hfp ▸ hrun) hideal

theorem serves_get {n : Nat} (hok : s.Asked i (.get n)) :
    OnePart (Common inos) (Shows d) {k | k ∈ inos} i (step d (i, .get n)) (FileOp.get n).onCursor s c := by
  obtain ⟨fp, hfp, hread, hok⟩ := hok
  obtain ⟨cnt, all, free, hfiled⟩ := hc.filed
  obtain ⟨hminode, hcached, hpos, hwithin, hquiet, m, f, hholds, hdata⟩ := hshow.opened fp hfp
  have hino : fp.minode.ino = i := by rw [hminode]
  have hstored := hfiled.stored hi hcached
  obtain ⟨data, pos⟩ := c
  dsimp only at hpos hdata
  subst hpos hino
  obtain ⟨fp', m', hrun, hholds', hmoved, hpos', hdirty'⟩ := hholds.getn hstored hread hok
  rw [← hdata] at hrun hpos'
  have hlen : data.length = s.disk.filesize fp.minode.ino := by rw [hdata, List.length_map, List.length_range]
  have hget := Cursor.get_pos_le (c := ⟨data, fp.filepos⟩) (n := n) (hlen.symm ▸ hwithin)
  refine serves_read hc hshow hfp hdata ?_ hholds' hmoved hpos' ?_ hdirty' rfl
  · simp only [FileOp.onHandle, Prog.run_bind, hrun, Prog.run_pure]
  · rwa [hlen] at hget

theorem serves_gets {num : Nat} (hok : s.Asked i (.gets num)) :
    OnePart (Common inos) (Shows d) {k | k ∈ inos} i (step d (i, .gets num)) (FileOp.gets num).onCursor s c := by
  obtain ⟨fp, hfp, hread, hok⟩ := hok
  obtain ⟨cnt, all, free, hfiled⟩ := hc.filed
  obtain ⟨hminode, hcached, hpos, hwithin, hquiet, m, f, hholds, hdata⟩ := hshow.opened fp hfp
  have hino : fp.minode.ino = i := by rw [hminode]
  have hstored := hfiled.stored hi hcached
  obtain ⟨data, pos⟩ := c
  dsimp only at hpos hdata
  subst hpos hino
  obtain ⟨fp', m', hrun, hholds', hmoved, hpos', hdirty'⟩ := hholds.fgets hstored hread hdata.symm num fun hd =>
    (hok hd).imp_left fun hbuf => Nat.le_trans (Nat.add_le_add_left (Lines.reach_le _ _) _) hbuf
  have hline := Lines.line_length_le (p := isNewline) (num - 1) (data.drop fp.filepos)
  have hlen : data.length = s.disk.filesize fp.minode.ino := by rw [hdata, List.length_map, List.length_range]
  rw [List.length_drop, hlen] at hline
  refine serves_read hc hshow hfp hdata ?_ hholds' hmoved hpos' ?_ hdirty' rfl
  · simp only [FileOp.onHandle, Prog.run_bind, hrun, Prog.run_pure]
  · dsimp only at hwithin
    omega

theorem serves_put {buf : List UInt8} (hok : s.Asked i (.put buf)) :
    OnePart (Common inos) (Shows d) {k | k ∈ inos} i (step d (i, .put buf)) (FileOp.put buf).onCursor s c := by
  obtain ⟨fp, hfp, hwrite, hok⟩ := hok
  obtain ⟨cnt, all, free, hfiled⟩ := hc.filed
  obtain ⟨hminode, hcached, hpos, hwithin, hquiet, m, f, hholds, hdata⟩ := hshow.opened fp hfp
  have hino : fp.minode.ino = i := by rw [hminode]
  have hstored := hfiled.stored hi hcached
  obtain ⟨data, pos⟩ := c
  dsimp only at hpos hdata
  subst hpos hdata hino
  obtain ⟨cnt', halters⟩ := hholds.putn_alters hstored hwrite hok
  obtain ⟨hone, hothers⟩ := Filed.others hfiled hc.oneHandle (.filePutn fp buf) halters
  obtain ⟨free₁, hfiled'⟩ := hfiled.alters halters
  obtain ⟨fp', v', _, _, m', hrun, hputs⟩ := hholds.putn hstored hwrite hok
  rw [hrun] at hone hothers hfiled'
  have hmoved := hputs.moved
  have hsize : v'.filesize fp.minode.ino = max (s.disk.filesize fp.minode.ino) (fp.filepos + buf.length) := by
    rw [hputs.size, putSize]
    split
    · rename_i hnil
      rw [hnil]
      exact (Nat.max_eq_left hwithin).symm
    · rfl
  have hserves : Serves d inos s fp.minode.ino (some fp') v'
      (Cursor.put ⟨(List.range (s.disk.filesize fp.minode.ino)).map f, fp.filepos⟩ buf) := by
    refine ⟨⟨⟨cnt', all, free₁, hfiled'⟩, hone⟩, hothers, hputs.inSlot hshow.inSlot, fun h => by simp at h,
      fun fp'' h => ?_⟩
    obtain rfl := Option.some.inj h
    refine ⟨hmoved.minode.trans hminode, hputs.stored.cached, hputs.filepos, ?_, fun hw => ?_, m', _, hputs.holds,
      ?_⟩
    · rw [hsize, hputs.filepos]
      exact Nat.le_max_right ..
    · rw [hmoved.mode, hwrite] at hw
      exact absurd hw (by decide)
    · rw [hsize]
      exact overwrite_map hwithin
  refine hserves.onePart ?_ rfl
  rw [hfp]
  simp only [FileOp.onHandle, Prog.run_bind, hrun, Prog.run_pure]

/-- A string goes where its bytes go. -/
theorem serves_puts {str : List UInt8} (hok : s.Asked i (.puts str)) :
    OnePart (Common inos) (Shows d) {k | k ∈ inos} i (step d (i, .puts str)) (FileOp.puts str).onCursor s c := by
  have hbytes : s.Asked i (.put (str.takeWhile (· ≠ 0))) := hok
  have hput := serves_put hc hshow hi hbytes
  have hanswer := hput.answer
  obtain ⟨fp, hfp, -, -⟩ := hok
  have hputs := fputs_putn fp str s.disk
  simp only [step, hfp, FileOp.onHandle, Prog.run_bind, Prog.run_pure, FileOp.onCursor, Reply.count.injEq] at hanswer
  refine hput.congr ?_ rfl ?_
  · simp only [step, hfp, FileOp.onHandle, Prog.run_bind, Prog.run_pure]
    rw [hputs]
  · simp only [step, hfp, FileOp.onHandle, Prog.run_bind, Prog.run_pure, FileOp.onCursor]
    rw [hputs]
    exact congrArg Reply.done (decide_eq_true hanswer)

theorem serves_seek {offset : Int} {whence : Whence} (hok : s.Asked i (.seek offset whence)) :
    OnePart (Common inos) (Shows d) {k | k ∈ inos} i (step d (i, .seek offset whence))
      (FileOp.seek offset whence).onCursor s c := by
  obtain ⟨fp, newpos, hfp, hread, htarget, hle, hsound⟩ := hok
  obtain ⟨cnt, all, free, hfiled⟩ := hc.filed
  obtain ⟨hminode, hcached, hpos, hwithin, hquiet, m, f, hholds, hdata⟩ := hshow.opened fp hfp
  have hino : fp.minode.ino = i := by rw [hminode]
  have hstored := hfiled.stored hi hcached
  obtain ⟨data, pos⟩ := c
  dsimp only at hpos hdata
  subst hpos hdata hino
  obtain ⟨fp', v', hrun, hstored', hholds', hmoved, hpos', hclean, hs, halters⟩ :=
    hholds.seek hstored hread hquiet htarget hle hsound
  have hx := KeepsHandles.fseek fp offset whence
  have hothers := @Filed.others fp.minode.ino inos cnt cnt all free s.disk _ _ hfiled hc.oneHandle hx
    (by rw [hrun]; exact halters)
  rw [hrun] at hothers
  obtain ⟨free₁, hfiled'⟩ := hfiled.alters halters
  have hserves : Serves d inos s fp.minode.ino (some fp') v'
      ⟨(List.range (s.disk.filesize fp.minode.ino)).map f, newpos⟩ := by
    refine ⟨⟨⟨cnt, all, free₁, hfiled'⟩, hothers.1⟩, hothers.2, hs.inSlot hshow.inSlot, fun h => by simp at h,
      fun fp'' h => ?_⟩
    obtain rfl := Option.some.inj h
    exact ⟨hmoved.minode.trans hminode, hstored'.cached, hpos', by rw [hpos', hs.filesize]; exact hle,
      fun _ => hclean, _, f, hholds', by rw [hs.filesize]⟩
  have hanswer : ((FileOp.seek offset whence).onHandle ⟨d, fp.minode.ino⟩
      (s.handle fp.minode.ino)).run s.disk = ((.code .ok, some fp'), v') := by
    rw [hfp]
    simp only [FileOp.onHandle, Prog.run_bind, hrun, Prog.run_pure]
  refine hserves.onePart hanswer ?_
  simp only [FileOp.onCursor, List.length_map, List.length_range, htarget]

theorem serves_fclose (hok : s.Asked i .fclose) :
    OnePart (Common inos) (Shows d) {k | k ∈ inos} i (step d (i, .fclose)) FileOp.fclose.onCursor s c := by
  obtain ⟨fp, hfp⟩ := hok
  obtain ⟨cnt, all, free, hfiled⟩ := hc.filed
  obtain ⟨hminode, hcached, hpos, hwithin, hquiet, m, f, hholds, hdata⟩ := hshow.opened fp hfp
  have hino : fp.minode.ino = i := by rw [hminode]
  subst hino
  have hstored := hfiled.stored hi hcached
  have hcontent := hholds.close hstored hc.oneHandle hshow.inSlot
  have halters := hholds.sync_alters hstored
  obtain ⟨hone, hothers⟩ := Filed.others hfiled hc.oneHandle (.fileSync fp) halters
  obtain ⟨free₁, hfiled₁⟩ := hfiled.alters halters
  obtain ⟨v₁, fp₁, hsync, hstored₁, -, hmoved, -, -, -, hs⟩ := hholds.sync hstored
  rw [hsync] at hone hothers hfiled₁
  have hin₁ := hs.inSlot hshow.inSlot
  obtain ⟨v₂, hrel, hreleased⟩ := inodeRel_run hstored₁.cached
  have hview := SameView.of_released hone hstored₁.cached (fun _ => hin₁) hreleased
  have hclose : (closeHandle fp).run s.disk = ((), v₂) := by
    simp only [closeHandle, Prog.run_bind, hsync, hmoved.minode, hrel]
  rw [hclose] at hcontent
  have hserves : Serves d inos s fp.minode.ino none v₂ c := by
    refine ⟨⟨⟨cnt, all, free₁, hfiled₁.view hview⟩, hreleased.oneHandle hone⟩, fun k hk hne => ?_,
      hview.inSlot.mpr hin₁, fun _ => hcontent.trans hdata.symm, fun fp'' h => by simp at h⟩
    obtain ⟨hsame, hkept⟩ := hothers k hk hne
    refine ⟨hsame.trans (hview.sameFile k), fun h => ?_⟩
    rw [VDisk.Cached, hreleased.other k hne]
    exact hkept h
  refine hserves.onePart ?_ rfl
  rw [hfp]
  simp only [FileOp.onHandle, Prog.run_bind, hclose, Prog.run_pure]

theorem serves_fopen {fm : Mode} {now : Timev} (hok : s.Asked i (.fopen fm now)) :
    OnePart (Common inos) (Shows d) {k | k ∈ inos} i (step d (i, .fopen fm now)) (FileOp.fopen fm now).onCursor s c := by
  obtain ⟨hnone, hopens⟩ := hok
  obtain ⟨cnt, all, free, hfiled⟩ := hc.filed
  obtain ⟨v₁, hget, htaken⟩ := inodeGet_live hfiled.owned.geometry hfiled.owned.live (hfiled.number i hi)
  have hview := SameView.of_taken htaken
  have hsame := hview.sameFile i
  have hone₁ := htaken.oneHandle hc.oneHandle
  have hfiled₁ := hfiled.view hview
  have hcached₁ : v₁.Cached i := by rw [VDisk.Cached, htaken.own]; rfl
  have hstored₁ := hfiled₁.stored hi hcached₁
  have hstart : v₁.startPos i fm = s.disk.startPos i fm := by
    rw [VDisk.startPos, hsame.filesize, VDisk.startPos]
  have hopens₁ : v₁.Opens i fm := by
    refine ⟨fun h => hsame.filesize.trans (hopens.kept h), hsame.filesize.symm ▸ hopens.start, ?_, fun hzero => ?_⟩
    · rw [hstart, hsame.blksize]
      exact hopens.sound.inside
    · rw [hsame.inode]
      exact hopens.sound.empty (hsame.filesize ▸ hzero)
  obtain ⟨fp, v₂, hrun, hs, halters, hminode, hfm, hpos, hclean, hholds, hin⟩ :=
    openHandle_starts (p := ⟨d, i⟩) hstored₁ hopens₁ now
  have hothers := @Filed.others i inos cnt cnt all free v₁ _ _ hfiled₁ hone₁
    (.openHandle (.blank ⟨d, i⟩ .none) fm now) (by rw [hrun]; exact halters)
  rw [hrun] at hothers
  obtain ⟨free₂, hfiled₂⟩ := hfiled₁.alters halters
  have hsize : v₂.filesize i = s.disk.filesize i := (hs.filesize i (.inl hcached₁)).trans hsame.filesize
  have hdata := hshow.closed hnone
  rw [← hsame.content] at hdata
  have hserves : Serves d inos s i (some fp) v₂ ⟨c.data, if fm.append then c.data.length else 0⟩ := by
    refine ⟨⟨⟨cnt, all, free₂, hfiled₂⟩, hothers.1⟩, fun k hk hne => ?_, hin, fun h => by simp at h,
      fun fp'' h => ?_⟩
    · obtain ⟨hkept, hcached⟩ := hothers.2 k hk hne
      refine ⟨(hview.sameFile k).trans hkept, fun h => hcached ?_⟩
      rw [VDisk.Cached, htaken.other k hne]
      exact h
    · obtain rfl := Option.some.inj h
      refine ⟨hminode, (hs.cached i).mpr hcached₁, ?_, ?_, fun _ => hclean, _, _, hholds, ?_⟩
      · rw [hpos, VDisk.startPos, ← hdata, VDisk.content_length]
      · rw [hpos, hstart, hsize]
        exact startPos_le ..
      · rw [← hdata, VDisk.content_eq, hs.filesize i (.inl hcached₁)]
  refine hserves.onePart ?_ rfl
  rw [hnone]
  simp only [FileOp.onHandle, Prog.run_bind, hget, hrun, Prog.run_pure]

end Step

theorem pairDisk_two : WellFormed pairDisk [3, 2] [10, 11] :=
  pairDisk_wellFormed.cons (by constructor <;> decide) (by decide) (by decide +kernel)

theorem pairDisk_inSlot : ∀ i ∈ [3, 2], pairDisk.InSlot i := by
  intro i hi
  rcases List.mem_cons.mp hi with rfl | hi
  · exact (VDisk.inode_none rfl).symm
  · obtain rfl := List.mem_singleton.mp hi
    simp [VDisk.InSlot, VDisk.slot, VDisk.inode, VDisk.minode?, pairDisk, Dinode.ofBlock, Dinode.zero, Bytes.half,
      Bytes.long, zeroBlock]

/-- Two files that are written in turn, and one of them read back. -/
def pairCalls : List (Nat × FileOp) :=
  [(2, .fopen (fileMode [0xA6]) ⟨0, 0⟩), (3, .fopen (fileMode [0xA6]) ⟨0, 0⟩), (2, .put [1, 2, 3]), (3, .put [9]),
    (2, .fclose), (2, .fopen (fileMode [0x99]) ⟨0, 0⟩), (2, .gets 5), (3, .fclose)]

/-- A file that was cut off when it was opened takes the block that another file has by then. -/
theorem not_files_refine :
    let calls : List (Nat × FileOp) :=
      [(2, .fopen (fileMode [0xA6]) ⟨0, 0⟩), (2, .put [1, 2, 3]), (2, .fclose),
        (2, .fopen (fileMode [0xA6]) ⟨0, 0⟩), (3, .fopen (fileMode [0xA6]) ⟨0, 0⟩), (3, .put [9, 9, 9]), (3, .fclose),
        (2, .put [4]), (2, .fclose)]
    let res := (Prog.each (step 0) calls).run ⟨fun _ => none, pairDisk⟩
    res.2.disk.content 3 = [4, 2, 3] := by
  decide +kernel

end OpenFiles

end Ufs370
