import Ufs370.FaultyAlloc

/-! The numbers of the inodes: the slots that the two scans of the table give them, and the slots where they
are read and written. -/

namespace Ufs370

open Lib

section Foreach

variable {κ : Type} (func : κ → Minode → Nat → Prog VDisk (Rc × κ))

/-- The slots of one block from slot `j` on, with number `k`, `left` to go. -/
def ilistBlock (buf : Block) : Nat → Nat → Nat → Rc → κ → Prog VDisk (Rc × Nat × κ)
  | 0, _, k, ret, ctx => return (ret, k, ctx)
  | left + 1, j, k, _, ctx => do
    let (ret, ctx) ← func ctx ⟨k, false, 0, none, .ofBlock buf j⟩ k
    if ret ≠ .ok then
      return (ret, k, ctx)
    ilistBlock buf left (j + 1) (u32 (k + 1)) ret ctx

/-- The blocks from block `i` on, `left` to go.  One that cannot be read is passed over. -/
def ilistLoop : Nat → Nat → Nat → Rc → κ → Prog VDisk (Rc × κ)
  | 0, _, _, ret, ctx => return (ret, ctx)
  | left + 1, i, k, ret, ctx => do
    let inodesPerBlock := (← Prog.get).sb.inodesPerBlock
    match ← vdiskRead i with
    | .error _ => ilistLoop left (i + 1) (u32 (k + inodesPerBlock)) ret ctx
    | .ok buf =>
      let (ret, k, ctx) ← ilistBlock func buf inodesPerBlock 0 k ret ctx
      if ret ≠ .ok then
        return (ret, ctx)
      ilistLoop left (i + 1) k ret ctx

/-- `func` on each inode of the table and its number, until it returns a code. -/
def ilistForeach (ctx : κ) : Prog VDisk (Rc × κ) := do
  if ← diskGetBuf then
    let sb := (← Prog.get).sb
    ilistLoop func (sb.datablockStartSector - sb.ilistSector) sb.ilistSector 1 .eio ctx
  else
    return (.enomem, ctx)

end Foreach

namespace VDisk

/-- The number of slots of the table. -/
def inodes (v : VDisk) : Nat := (v.sb.datablockStartSector - v.sb.ilistSector) * v.sb.inodesPerBlock

/-- A well formed geometry: the block size is a 16 bit word, the fields of the super block are 32 bit words. -/
structure TableGeometry (v : VDisk) : Prop where
  shift : v.blksize = 2 ^ v.sb.blksizeShift
  perBlock : v.blksize = dinodeSize * v.sb.inodesPerBlock
  blksize : v.blksize < 65536
  ilist : v.sb.ilistSector ≤ v.sb.datablockStartSector
  start : v.sb.datablockStartSector < 4294967296

/-- `func` keeps `I` when `ilistForeach` calls it with the number of an inode and with what is, or was when
its block was read, in the slot where the inode with that number is looked up. -/
structure KeptBySlot (v : VDisk) {κ : Type} (func : κ → Minode → Nat → Prog VDisk (Rc × κ))
    (I : κ → VDisk → Prop) : Prop where
  layout : ∀ ctx w, I ctx w → SameLayout v w
  faults : ∀ ctx w fs, I ctx w → I ctx (w.withFaults fs)
  call : ∀ ctx w ctx₀ w₀ k, 1 ≤ k → k ≤ v.inodes → I ctx₀ w₀ → I ctx w →
    I ((func ctx ⟨k, false, 0, none, w₀.slot k⟩ k).run w).1.2 ((func ctx ⟨k, false, 0, none, w₀.slot k⟩ k).run w).2

end VDisk

section Numbering

variable {v w : VDisk} {m k : Nat}

namespace VDisk.TableGeometry

variable (g : v.TableGeometry)
include g

theorem tableLayout : v.TableLayout := by
  rw [TableLayout, g.perBlock, Nat.mul_div_cancel_left _ (by decide)]

theorem pos : 0 < v.sb.inodesPerBlock := by
  have hpos : 0 < v.blksize := g.shift ▸ Nat.pow_pos (by decide)
  rw [g.perBlock] at hpos
  exact Nat.pos_of_mul_pos_left hpos

theorem bytes : (v.sb.datablockStartSector - v.sb.ilistSector) * v.blksize = dinodeSize * v.inodes := by
  rw [g.perBlock, inodes, Nat.mul_left_comm]

theorem number : InodeNumber v m ↔ 1 ≤ m ∧ m ≤ v.inodes := by
  have hiff : (m - 1) * dinodeSize < dinodeSize * v.inodes ↔ m - 1 < v.inodes := by
    rw [Nat.mul_comm]
    exact Nat.mul_lt_mul_left (by decide)
  constructor
  · rintro ⟨hpos, hslot⟩
    rw [g.bytes, hiff] at hslot
    omega
  · rintro ⟨hpos, hle⟩
    refine ⟨hpos, ?_⟩
    rw [g.bytes, hiff]
    omega

theorem table (hfew : v.inodes ≤ 33554432) : InodeTable v where
  blksize := g.shift
  low := by
    have hle : 2 ^ 7 ≤ 2 ^ v.sb.blksizeShift := by
      rw [← g.shift, g.perBlock]
      exact Nat.le_mul_of_pos_right _ g.pos
    exact (Nat.pow_le_pow_iff_right (by decide)).mp hle
  bytes := by
    rw [g.bytes]
    exact Nat.mul_le_mul_left dinodeSize hfew
  start := g.start

end VDisk.TableGeometry

section Rule

variable {κ : Type} {func : κ → Minode → Nat → Prog VDisk (Rc × κ)} {I : κ → VDisk → Prop} {i left : Nat}
  (ret : Rc) {ctx ctx₀ : κ} {w₀ : VDisk}

/-- The numbers of a block go on from the number of its slot `j`. -/
theorem ilistBlock_kept (g : v.TableGeometry) (hfew : v.inodes ≤ 33554432) (hfunc : v.KeptBySlot func I)
    (hi : v.sb.ilistSector ≤ i) (hlast : i < v.sb.datablockStartSector) (h₀ : I ctx₀ w₀) {j : Nat}
    (hj : j + left = v.sb.inodesPerBlock) (hk : k = 1 + (i - v.sb.ilistSector) * v.sb.inodesPerBlock + j)
    (h : I ctx w) :
    let r := (ilistBlock func (w₀.io.blocks i) left j k ret ctx).run w
    I r.1.2.2 r.2 ∧ (r.1.1 = .ok → r.1.2.1 = 1 + (i + 1 - v.sb.ilistSector) * v.sb.inodesPerBlock) := by
  induction left generalizing ret j k ctx w with
  | zero =>
    refine ⟨h, fun _ => hk.trans ?_⟩
    rw [Nat.succ_sub hi, Nat.succ_mul, ← Nat.add_assoc, ← hj]
    rfl
  | succ left ih =>
    have hlay := hfunc.layout _ _ h₀
    have hjlt : j < v.sb.inodesPerBlock := by omega
    obtain ⟨hnum, hslot⟩ : InodeNumber w₀ k ∧ w₀.slot k = .ofBlock (w₀.io.blocks i) j := by
      have hin := table_slot (hlay.inodeTable (g.table hfew)) (hlay.tableLayout g.tableLayout)
        (hlay.ilist.symm ▸ hi) (hlay.start.symm ▸ hlast) (hlay.perBlock.symm ▸ hjlt)
      rwa [hlay.ilist, hlay.perBlock, ← hk] at hin
    obtain ⟨hpos, hle⟩ := g.number.mp (hlay.symm.inodeNumber hnum)
    have hcall := hfunc.call ctx w ctx₀ w₀ k hpos hle h₀ h
    rw [hslot] at hcall
    simp only [ilistBlock, Prog.run_bind]
    split
    · exact ⟨hcall, fun hok => absurd hok ‹_›⟩
    · refine ih _ (j := j + 1) (by omega) ?_ hcall
      rw [u32_of_lt (by omega), hk, Nat.add_assoc]

theorem ilistLoop_kept (g : v.TableGeometry) (hfew : v.inodes ≤ 33554432) (hfunc : v.KeptBySlot func I)
    (hi : v.sb.ilistSector ≤ i) (hlast : i + left = v.sb.datablockStartSector)
    (hk : k = 1 + (i - v.sb.ilistSector) * v.sb.inodesPerBlock) (h : I ctx w) :
    let r := (ilistLoop func left i k ret ctx).run w
    I r.1.2 r.2 := by
  induction left generalizing ret i k ctx w with
  | zero => exact h
  | succ left ih =>
    have hper : w.sb.inodesPerBlock = v.sb.inodesPerBlock := (hfunc.layout _ _ h).perBlock
    have htail := hfunc.faults ctx w w.io.faults.tail h
    have hblock : i < v.sb.datablockStartSector := by omega
    have hnext : i + 1 + left = v.sb.datablockStartSector := by omega
    simp only [ilistLoop, Prog.run_bind, vdiskRead_run]
    by_cases hread : w.io.faults.headD .none = .none
    · have hround := ilistBlock_kept ret g hfew hfunc hi hblock htail (Nat.zero_add _) hk htail
      rw [if_pos hread]
      simp only [Prog.run_bind, hper]
      split
      · exact hround.1
      · exact ih _ (Nat.le_succ_of_le hi) hnext (hround.2 (not_not.mp ‹_›)) hround.1
    · rw [if_neg hread]
      refine ih _ (Nat.le_succ_of_le hi) hnext ?_ htail
      have hle : (i - v.sb.ilistSector) * v.sb.inodesPerBlock + v.sb.inodesPerBlock ≤ v.inodes := by
        rw [← Nat.succ_mul]
        exact Nat.mul_le_mul_right _ (by omega)
      rw [hper, u32_of_lt (by omega), hk, Nat.succ_sub hi, Nat.succ_mul, Nat.add_assoc]

/-- The numbers of the iterator are the numbers of the slots. -/
theorem ilistForeach_kept (g : v.TableGeometry) (hfew : v.inodes ≤ 33554432) (hfunc : v.KeptBySlot func I)
    (h : I ctx w) : I ((ilistForeach func ctx).run w).1.2 ((ilistForeach func ctx).run w).2 := by
  have hlay := hfunc.layout _ _ h
  have htail := hfunc.faults ctx w w.io.faults.tail h
  have hspan : v.sb.ilistSector + (v.sb.datablockStartSector - v.sb.ilistSector) = v.sb.datablockStartSector :=
    Nat.add_sub_cancel' g.ilist
  have hfirst : 1 = 1 + (v.sb.ilistSector - v.sb.ilistSector) * v.sb.inodesPerBlock := by
    rw [Nat.sub_self, Nat.zero_mul]
  simp only [ilistForeach, Prog.run_bind, diskGetBuf_run]
  split
  · simp only [Prog.run_bind, hlay.start, hlay.ilist]
    exact ilistLoop_kept _ g hfew hfunc (Nat.le_refl _) hspan hfirst htail
  · exact htail

end Rule

/-- What a refill adds to the cache are numbers of free slots. -/
theorem freeinodeUpdate_adds (g : v.TableGeometry) (hfew : v.inodes ≤ 33554432) {i : Nat} (hlo : v.sb.nfreeinode ≤ i)
    (hhi : i < (freeinodeUpdate.run v).2.sb.nfreeinode) :
    InodeNumber v ((freeinodeUpdate.run v).2.sb.freeinode i) ∧
      (v.slot ((freeinodeUpdate.run v).2.sb.freeinode i)).mode = 0 := by
  have hspan : v.sb.ilistSector + (v.sb.datablockStartSector - v.sb.ilistSector) = v.sb.datablockStartSector :=
    Nat.add_sub_cancel' g.ilist
  have hfirst : v.sb.nfreeinode < maxFreeinode →
      1 = 1 + (v.sb.ilistSector - v.sb.ilistSector) * v.sb.inodesPerBlock := fun _ => by
    rw [Nat.sub_self, Nat.zero_mul]
  obtain ⟨rc, xs, w, hrun, h⟩ := freeinodeScan_spec (g.table hfew) g.tableLayout (Nat.le_refl _) hspan hfirst
  obtain ⟨fs, rfl⟩ : ∃ fs, w = { v with sb := v.sb.fill v.sb.nfreeinode xs, io := { v.io with faults := fs } } :=
    ⟨_, h.same⟩
  have hfill : ∃ f m, v.sb.fill v.sb.nfreeinode xs = { v.sb with freeinode := f, modified := m } :=
    Superblock.fill_same ..
  have hcache {sb : Superblock} (hnum : sb.nfreeinode ≤ v.sb.nfreeinode + xs.length)
      (hfree : sb.freeinode = (v.sb.fill v.sb.nfreeinode xs).freeinode) (hi : i < sb.nfreeinode) :
      InodeNumber v (sb.freeinode i) ∧ (v.slot (sb.freeinode i)).mode = 0 := by
    obtain ⟨a, rfl⟩ := Nat.exists_eq_add_of_le hlo
    have ha : a < xs.length := by omega
    rw [hfree, Superblock.fill_entry _ _ _ ha]
    have hmem := h.mem _ (List.getElem_mem ha)
    exact ⟨hmem.1, hmem.2.1⟩
  revert hhi
  simp only [freeinodeUpdate, Prog.run_bind]
  split
  · exact fun hhi => absurd hhi (Nat.not_lt.mpr hlo)
  · obtain ⟨f, mod, hfill⟩ := hfill
    simp only [Prog.run_bind, hrun]
    split
    · obtain ⟨rc', mod', super, fs', hwrite, -⟩ := diskWriteSuper_spec { v with
        sb := { v.sb.fill v.sb.nfreeinode xs with modified := false, nfreeinode := v.sb.nfreeinode + xs.length }
        io := { v.io with faults := fs } }
      simp only [Prog.run_bind, hwrite, Prog.run_ite, Prog.run_pure]
      split
      · exact hcache (Nat.le_refl _) rfl
      · exact hcache (Nat.le_refl _) rfl
    · rw [hfill]
      exact fun hhi => absurd hhi (Nat.not_lt.mpr hlo)

/-- An inode that has been written back, if the code says so. -/
theorem inodeWriteback_ok (t : InodeTable v) (hm : InodeNumber v m) (hok : ((inodeWriteback m).run v).1 = .ok) :
    ∃ fs, ((inodeWriteback m).run v).2 = (v.writtenBack m).withFaults fs := by
  revert hok
  simp only [inodeWriteback, Prog.run_bind, inquire_location t hm, ne_eq, not_true_eq_false, if_false]
  rcases readBuf_run (v := v) (v.slotBlock m) with ⟨_, hread⟩ | ⟨_, rc, fs, hread, hrc⟩
  · rw [hread]
    simp only [writeBuf, Prog.run_bind, Prog.run_pure]
    have hdin : (v.withFaults v.io.faults.tail.tail).din m = v.din m := rfl
    rw [hdin]
    rcases hwrite : (vdiskWrite ((v.din m).toBlock (v.io.blocks (v.slotBlock m)) (v.slotOfs m))
      (v.slotBlock m)).run (v.withFaults v.io.faults.tail.tail) with ⟨rc, w⟩
    by_cases hrc : rc = .ok
    · have hdone := vdiskWrite_done (by rw [hwrite]; exact hrc)
      rw [hwrite] at hdone
      obtain rfl : w = _ := hdone
      simp only [hrc, if_true, not_true_eq_false, if_false, modifyMinode, Prog.run_bind, Prog.run_pure]
      exact fun _ => ⟨_, rfl⟩
    · simp only [hrc, if_false, reduceCtorEq, not_false_eq_true, if_true, Prog.run_pure]
      exact fun hok => absurd hok (by decide)
  · rw [hread]
    exact fun hok => absurd hok hrc

/-- Both scans and the functions on one inode agree on the slot of each number. -/
structure NumbersAgree (v : VDisk) : Prop where
  location : ∀ m, 1 ≤ m → m ≤ v.inodes → inodeInquireDiskLocation v m =
    (.ok, v.sb.ilistSector + (m - 1) / v.sb.inodesPerBlock, (m - 1) % v.sb.inodesPerBlock)
  update : ∀ w, SameLayout v w → ∀ i, w.sb.nfreeinode ≤ i → i < (freeinodeUpdate.run w).2.sb.nfreeinode →
    1 ≤ (freeinodeUpdate.run w).2.sb.freeinode i ∧ (freeinodeUpdate.run w).2.sb.freeinode i ≤ v.inodes ∧
      (w.slot ((freeinodeUpdate.run w).2.sb.freeinode i)).mode = 0
  foreach : ∀ {κ : Type} (func : κ → Minode → Nat → Prog VDisk (Rc × κ)) (I : κ → VDisk → Prop) ctx w,
    v.KeptBySlot func I → I ctx w → I ((ilistForeach func ctx).run w).1.2 ((ilistForeach func ctx).run w).2
  load : ∀ w m k M, SameLayout v w → 1 ≤ m → m ≤ v.inodes → 1 ≤ k → k ≤ v.inodes →
    ((inodeWriteback m).run w).1 = .ok → ((inodeLoad k).run ((inodeWriteback m).run w).2).1 = .ok M →
      M.dinode = if k = m then w.din m else w.slot k

theorem SameLayout.tableGeometry (h : SameLayout v w) (g : v.TableGeometry) : w.TableGeometry := by
  constructor <;> simp only [h.blksize, h.start, h.shift, h.ilist, h.perBlock]
  exacts [g.shift, g.perBlock, g.blksize, g.ilist, g.start]

theorem SameLayout.inodes (h : SameLayout v w) : w.inodes = v.inodes := by
  rw [VDisk.inodes, VDisk.inodes, h.start, h.ilist, h.perBlock]

theorem location_eq (g : v.TableGeometry) (hfew : v.inodes ≤ 33554432) (hm : InodeNumber v m) :
    inodeInquireDiskLocation v m =
      (.ok, v.sb.ilistSector + (m - 1) / v.sb.inodesPerBlock, (m - 1) % v.sb.inodesPerBlock) := by
  rw [inquire_location (g.table hfew) hm, VDisk.slotBlock, VDisk.slotOfs, g.perBlock, Nat.mul_comm dinodeSize,
    Nat.mul_div_mul_right _ _ (by decide), Nat.mul_mod_mul_right, Nat.mul_div_cancel _ (by decide)]

/-- The byte offset of the slot of number `2 ^ 25 + 1` is 0 as a 32 bit word. -/
theorem location_wraps (hilist : v.sb.ilistSector < v.sb.datablockStartSector)
    (hstart : v.sb.datablockStartSector < 4294967296) (hm : m = 1 ∨ m = 33554433) :
    inodeInquireDiskLocation v m = (.ok, v.sb.ilistSector, 0) := by
  have hofs : u32 (u32sub m 1 * dinodeSize) = 0 := by
    rcases hm with rfl | rfl <;> decide
  have hblock : u32 (0 + v.sb.ilistSector) = v.sb.ilistSector := by
    rw [Nat.zero_add]
    exact u32_of_lt (by omega)
  have hbase : u32sub 0 (u32 (0 * v.blksize)) / dinodeSize = 0 := by
    rw [Nat.zero_mul]
    decide
  simp only [inodeInquireDiskLocation, hofs, Nat.zero_shiftRight, hblock, hbase, hilist, if_true]

/-- Empty slots, and a handle of inode 1 that is in use. -/
def VDisk.firstInUse (v : VDisk) : VDisk :=
  { v with
    readonly := false
    io := ⟨fun _ => zeroBlock, []⟩
    minodes := [⟨1, false, 0, none, { Dinode.zero with mode := 1 }⟩] }

/-- Number `2 ^ 25 + 1` is read where number 1 has been written. -/
theorem firstInUse_load (hilist : v.sb.ilistSector < v.sb.datablockStartSector)
    (hstart : v.sb.datablockStartSector < 4294967296) :
    ((inodeWriteback 1).run v.firstInUse).1 = .ok ∧
      ∃ M, ((inodeLoad 33554433).run ((inodeWriteback 1).run v.firstInUse).2).1 = .ok M ∧ M.dinode.mode = 1 := by
  have hv : v.firstInUse.Live := ⟨rfl, rfl⟩
  have hloc := location_wraps (v := v.firstInUse) hilist hstart (.inl rfl)
  let buf := (v.firstInUse.din 1).toBlock (v.firstInUse.io.blocks v.sb.ilistSector) 0
  let w := (v.firstInUse.setBlock v.sb.ilistSector buf).setMinode 1 fun m => { m with dirty := false }
  have hrun : (inodeWriteback 1).run v.firstInUse = (.ok, w) := by
    simp only [inodeWriteback, Prog.run_bind, hloc, ne_eq, not_true_eq_false, if_false, readBuf_live hv,
      writeBuf_live hv, modifyMinode, Prog.run_pure]
    rfl
  have hw : w.Live := ⟨rfl, rfl⟩
  have hloc' := location_wraps (v := w) hilist hstart (.inr rfl)
  have hblock : w.io.blocks w.sb.ilistSector = buf := VDisk.setBlock_self ..
  rw [hrun]
  refine ⟨rfl, ⟨33554433, false, 0, none, .ofBlock buf 0⟩, ?_, ?_⟩
  · simp only [inodeLoad, Prog.run_bind, hloc', ne_eq, not_true_eq_false, if_false, readBuf_live hw,
      Prog.run_pure, hblock]
  · exact congrArg Dinode.mode (Dinode.ofBlock_toBlock ..)

theorem not_numbersAgree (g : v.TableGeometry) (hmany : 33554432 < v.inodes) : ¬ NumbersAgree v := by
  intro h
  have hilist : v.sb.ilistSector < v.sb.datablockStartSector := by
    by_contra hnone
    rw [VDisk.inodes, Nat.sub_eq_zero_of_le (Nat.not_lt.mp hnone), Nat.zero_mul] at hmany
    exact absurd hmany (Nat.not_lt_zero _)
  obtain ⟨hok, M, hload, hmode⟩ := firstInUse_load hilist g.start
  have hslot := h.load v.firstInUse 1 33554433 M ⟨rfl, rfl, rfl, rfl, rfl, rfl⟩ (Nat.le_refl 1) (by omega)
    (by decide) (by omega) hok hload
  have hloc := location_wraps (v := v.firstInUse) hilist g.start (.inr rfl)
  rw [hslot, if_neg (by decide), VDisk.slot, hloc] at hmode
  change (Dinode.ofBlock zeroBlock 0).mode = 1 at hmode
  exact absurd hmode (by decide)

/-- They do unless the table has more than 4 GiB. -/
theorem numbersAgree_iff (g : v.TableGeometry) : NumbersAgree v ↔ v.inodes ≤ 33554432 := by
  constructor
  · intro h
    by_contra hmany
    exact not_numbersAgree g (Nat.not_le.mp hmany) h
  · intro hfew
    refine ⟨fun m hpos hle => location_eq g hfew (g.number.mpr ⟨hpos, hle⟩), fun w hlay i hlo hhi => ?_,
      fun func I ctx w hfunc h => ilistForeach_kept g hfew hfunc h, fun w m k M hlay hm hm' hk hk' hok hload => ?_⟩
    · obtain ⟨hnum, hmode⟩ := freeinodeUpdate_adds (hlay.tableGeometry g) (hlay.inodes.symm ▸ hfew) hlo hhi
      obtain ⟨hpos, hle⟩ := g.number.mp (hlay.symm.inodeNumber hnum)
      exact ⟨hpos, hle, hmode⟩
    · have table := hlay.inodeTable (g.table hfew)
      have hmnum := hlay.inodeNumber (g.number.mpr ⟨hm, hm'⟩)
      have hknum := hlay.inodeNumber (g.number.mpr ⟨hk, hk'⟩)
      obtain ⟨fs, hrun⟩ := inodeWriteback_ok table hmnum hok
      rw [inodeLoad_ok hload, hrun]
      change (w.writtenBack m).slot k = _
      split
      · subst k
        exact slot_writtenBack_same table hmnum
      · exact slot_writtenBack_other table hmnum hknum ‹_›

end Numbering

/-- Eight blocks of four slots. -/
theorem numbersAgree_pair : NumbersAgree pairDisk :=
  (numbersAgree_iff (by constructor <;> decide)).mpr (by decide)

/-- A table of one block more than 4 GiB. -/
def wideTable : VDisk := { pairDisk with sb := { pairSuper with datablockStartSector := 8388611, volumeSize := 8400000 } }

theorem not_numbersAgree_wide : wideTable.TableGeometry ∧ ¬ NumbersAgree wideTable := by
  have geometry : wideTable.TableGeometry := by constructor <;> decide
  exact ⟨geometry, not_numbersAgree geometry (by decide)⟩

end Ufs370
