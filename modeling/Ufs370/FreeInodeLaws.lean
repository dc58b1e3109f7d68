import Ufs370.SizeChange

/-! The cache of free inode numbers and the scan of the inode table that fills it. -/

namespace Ufs370

open Lib

namespace Store

theorem takeFault_run (s : Store) :
    takeFault.run s = (s.faults.headD .none, { s with faults := s.faults.tail }) := by
  rcases s with ⟨blocks, _ | ⟨f, fs⟩⟩ <;> rfl

theorem alloc_run (s : Store) : alloc.run s =
    (decide (s.faults.headD .none = .none), { s with faults := s.faults.tail }) := by
  simp only [alloc, Prog.run_bind, takeFault_run, Prog.run_pure]

theorem read_run (block : Nat) (s : Store) : (read block).run s =
    (if s.faults.headD .none = .none then .ok (s.blocks block) else .error .decb,
      { s with faults := s.faults.tail }) := by
  simp only [read, Prog.run_bind, takeFault_run, Prog.run_pure]

end Store

namespace Superblock

/-- The numbers `xs` put into the cache of free inodes from entry `k` on. -/
def fill (sb : Superblock) (k : Nat) : List Nat → Superblock
  | [] => sb
  | x :: xs => fill { sb with freeinode := Function.update sb.freeinode k x, modified := true } (k + 1) xs

variable (sb : Superblock) (k : Nat) (xs ys : List Nat)

theorem fill_append : sb.fill k (xs ++ ys) = (sb.fill k xs).fill (k + xs.length) ys := by
  induction xs generalizing sb k with
  | nil => rfl
  | cons x xs ih =>
    rw [List.cons_append, fill, fill, ih, List.length_cons, Nat.add_right_comm, Nat.add_assoc]

theorem fill_same : ∃ f m, sb.fill k xs = { sb with freeinode := f, modified := m } := by
  induction xs generalizing sb k with
  | nil => exact ⟨_, _, rfl⟩
  | cons x xs ih =>
    obtain ⟨f, m, h⟩ := ih { sb with freeinode := Function.update sb.freeinode k x, modified := true } (k + 1)
    exact ⟨f, m, by rw [fill, h]⟩

theorem fill_modified : (sb.fill k xs).modified = (sb.modified || !xs.isEmpty) := by
  induction xs generalizing sb k with
  | nil => simp [fill]
  | cons x xs ih => rw [fill, ih, Bool.true_or, List.isEmpty_cons, Bool.not_false, Bool.or_true]

theorem fill_below {a : Nat} (ha : a < k) : (sb.fill k xs).freeinode a = sb.freeinode a := by
  induction xs generalizing sb k with
  | nil => rfl
  | cons x xs ih =>
    rw [fill, ih _ _ (Nat.lt_succ_of_lt ha)]
    exact Function.update_of_ne (Nat.ne_of_lt ha) ..

theorem fill_entry {a : Nat} (ha : a < xs.length) : (sb.fill k xs).freeinode (k + a) = xs[a] := by
  induction xs generalizing sb k a with
  | nil => exact absurd ha (Nat.not_lt_zero a)
  | cons x xs ih =>
    rw [fill]
    cases a with
    | zero =>
      exact (fill_below _ _ _ (Nat.lt_succ_self k)).trans (Function.update_self ..)
    | succ a =>
      rw [← Nat.add_assoc, Nat.add_right_comm, ih _ _ (Nat.lt_of_succ_lt_succ ha)]
      rfl

end Superblock

/-- The layout of the disk is the same. -/
structure SameLayout (v v' : VDisk) : Prop where
  blksize : v'.blksize = v.blksize
  start : v'.sb.datablockStartSector = v.sb.datablockStartSector
  volume : v'.sb.volumeSize = v.sb.volumeSize
  shift : v'.sb.blksizeShift = v.sb.blksizeShift
  ilist : v'.sb.ilistSector = v.sb.ilistSector
  perBlock : v'.sb.inodesPerBlock = v.sb.inodesPerBlock

section SameLayout

variable {v v' v'' : VDisk} (h : SameLayout v v') {i : Nat}

theorem SameLayout.refl (v : VDisk) : SameLayout v v := ⟨rfl, rfl, rfl, rfl, rfl, rfl⟩

theorem SameLayout.of_sb (hb : v'.blksize = v.blksize) (hsb : v'.sb = v.sb) : SameLayout v v' :=
  ⟨hb, by rw [hsb], by rw [hsb], by rw [hsb], by rw [hsb], by rw [hsb]⟩

include h

theorem SameLayout.trans (h' : SameLayout v' v'') : SameLayout v v'' :=
  ⟨h'.blksize.trans h.blksize, h'.start.trans h.start, h'.volume.trans h.volume,
    h'.shift.trans h.shift, h'.ilist.trans h.ilist, h'.perBlock.trans h.perBlock⟩

theorem SameLayout.symm : SameLayout v' v :=
  ⟨h.blksize.symm, h.start.symm, h.volume.symm, h.shift.symm, h.ilist.symm, h.perBlock.symm⟩

theorem SameLayout.geometry (g : Geometry v) : Geometry v' := by
  constructor <;> simp only [h.blksize, h.start, h.volume, h.shift, h.ilist]
  exacts [g.blksize, g.low, g.high, g.ilist, g.data, g.order, g.ilistBytes, g.volume]

theorem SameLayout.inodeTable (t : InodeTable v) : InodeTable v' := by
  constructor <;> simp only [h.blksize, h.start, h.shift, h.ilist]
  exacts [t.blksize, t.low, t.bytes, t.start]

theorem SameLayout.inodeNumber (hi : InodeNumber v i) : InodeNumber v' i := by
  refine ⟨hi.pos, ?_⟩
  rw [h.start, h.ilist, h.blksize]
  exact hi.slot

theorem SameLayout.location : inodeInquireDiskLocation v' i = inodeInquireDiskLocation v i := by
  simp only [inodeInquireDiskLocation, h.blksize, h.start, h.shift, h.ilist]

theorem SameLayout.tableLayout (hper : v.sb.inodesPerBlock = v.blksize / dinodeSize) :
    v'.sb.inodesPerBlock = v'.blksize / dinodeSize := by
  rw [h.perBlock, h.blksize, hper]

theorem SameLayout.slot (hblocks : v'.io.blocks = v.io.blocks) : v'.slot i = v.slot i := by
  simp only [VDisk.slot, h.location, hblocks]

end SameLayout

section Scan

variable (buf : Block)

/-- What the scan of one block finds. -/
structure BlockScan (left j k inode : Nat) (sb : Superblock) (xs : List Nat) : Prop where
  run : ∃ next, freeinodeScanBlock buf left j k inode sb = (sb.fill k xs, k + xs.length, next) ∧
    (k + xs.length < maxFreeinode → next = inode + left)
  room : k + xs.length ≤ max k maxFreeinode
  sorted : xs.Pairwise (· < ·)
  mem : ∀ x ∈ xs, ∃ t, t < left ∧ x = inode + t ∧ (Dinode.ofBlock buf (j + t)).mode = 0
  some : k < maxFreeinode → (∃ t, t < left ∧ (Dinode.ofBlock buf (j + t)).mode = 0) → xs ≠ []

theorem freeinodeScanBlock_spec (left j k inode : Nat) (sb : Superblock) :
    ∃ xs, BlockScan buf left j k inode sb xs := by
  induction left generalizing j k inode sb with
  | zero =>
    refine ⟨[], ⟨inode, rfl, fun _ => rfl⟩, Nat.le_max_left .., .nil, by simp, fun _ h => ?_⟩
    obtain ⟨t, ht, _⟩ := h
    exact absurd ht (Nat.not_lt_zero t)
  | succ left ih =>
    by_cases hk : k < maxFreeinode
    · by_cases hmode : (Dinode.ofBlock buf j).mode ≠ 0
      · obtain ⟨xs, h⟩ := ih (j + 1) k (inode + 1) sb
        obtain ⟨next, hrun, hnext⟩ := h.run
        refine ⟨xs, ⟨next, ?_, fun hlt => ?_⟩, h.room, h.sorted, fun x hx => ?_, fun _ hfree => ?_⟩
        · rw [freeinodeScanBlock, if_pos hk, if_pos hmode, hrun]
        · rw [hnext hlt]
          omega
        · obtain ⟨t, ht, hxt, hfree⟩ := h.mem x hx
          refine ⟨t + 1, Nat.succ_lt_succ ht, ?_, ?_⟩
          · omega
          · rwa [← Nat.add_assoc, Nat.add_right_comm]
        · obtain ⟨t, ht, hfree⟩ := hfree
          cases t with
          | zero => exact absurd hfree hmode
          | succ t =>
            refine h.some hk ⟨t, Nat.lt_of_succ_lt_succ ht, ?_⟩
            rwa [Nat.add_right_comm, Nat.add_assoc]
      · obtain ⟨xs, h⟩ := ih (j + 1) (k + 1) (inode + 1)
          { sb with freeinode := Function.update sb.freeinode k inode, modified := true }
        obtain ⟨next, hrun, hnext⟩ := h.run
        have hlen : k + (inode :: xs).length = k + 1 + xs.length := by
          rw [List.length_cons]
          omega
        refine ⟨inode :: xs, ⟨next, ?_, fun hlt => ?_⟩, ?_, ?_, fun x hx => ?_, fun _ _ => by simp⟩
        · rw [freeinodeScanBlock, if_pos hk, if_neg hmode, hrun, hlen]
          rfl
        · rw [hnext (hlen ▸ hlt)]
          omega
        · have := h.room
          rw [hlen]
          omega
        · refine List.pairwise_cons.mpr ⟨fun x hx => ?_, h.sorted⟩
          obtain ⟨t, _, hxt, _⟩ := h.mem x hx
          omega
        · rcases List.mem_cons.mp hx with rfl | hx
          · exact ⟨0, Nat.succ_pos left, rfl, not_ne_iff.mp hmode⟩
          · obtain ⟨t, ht, hxt, hfree⟩ := h.mem x hx
            refine ⟨t + 1, Nat.succ_lt_succ ht, ?_, ?_⟩
            · omega
            · rwa [← Nat.add_assoc, Nat.add_right_comm]
    · refine ⟨[], ⟨inode, ?_, fun h => absurd h hk⟩, Nat.le_max_left .., .nil, by simp, fun h => absurd h hk⟩
      rw [freeinodeScanBlock, if_neg hk]
      rfl

end Scan

/-- The table lies in its blocks as the layout says. -/
def VDisk.TableLayout (v : VDisk) : Prop := v.sb.inodesPerBlock = v.blksize / dinodeSize

/-- One of `left` blocks from block `i` on can be read and has a slot of mode 0.  Each block
takes two requests, one for a buffer and one for the block. -/
def VDisk.Finds (v : VDisk) (left i : Nat) : Prop :=
  ∃ d, d < left ∧
    (∃ t, t < v.sb.inodesPerBlock ∧ (Dinode.ofBlock (v.io.blocks (i + d)) t).mode = 0) ∧
    v.io.faults.getD (2 * d) .none = .none ∧ v.io.faults.getD (2 * d + 1) .none = .none

section Table

variable {v : VDisk} {left i k inode : Nat}

theorem VDisk.TableLayout.blksize (hper : v.TableLayout) (t : InodeTable v) :
    v.blksize = v.sb.inodesPerBlock * dinodeSize := by
  have hdvd : dinodeSize ∣ v.blksize := by
    rw [t.blksize]
    exact Nat.pow_dvd_pow 2 t.low
  rw [hper, Nat.div_mul_cancel hdvd]

theorem table_slot (table : InodeTable v) (hper : v.TableLayout) (hi : v.sb.ilistSector ≤ i)
    (hlast : i < v.sb.datablockStartSector) {t : Nat} (ht : t < v.sb.inodesPerBlock) :
    InodeNumber v (1 + (i - v.sb.ilistSector) * v.sb.inodesPerBlock + t) ∧
      v.slot (1 + (i - v.sb.ilistSector) * v.sb.inodesPerBlock + t) = .ofBlock (v.io.blocks i) t := by
  have hbs := hper.blksize table
  have hpos : 0 < v.sb.inodesPerBlock := Nat.zero_lt_of_lt ht
  generalize hq : i - v.sb.ilistSector = q at *
  have hpred : 1 + q * v.sb.inodesPerBlock + t - 1 = t + v.sb.inodesPerBlock * q := by
    rw [Nat.mul_comm]
    omega
  have hnum : InodeNumber v (1 + q * v.sb.inodesPerBlock + t) := by
    refine ⟨by omega, ?_⟩
    rw [hpred, hbs, ← Nat.mul_assoc]
    refine Nat.mul_lt_mul_of_pos_right ?_ (by decide)
    have hle : (q + 1) * v.sb.inodesPerBlock ≤
        (v.sb.datablockStartSector - v.sb.ilistSector) * v.sb.inodesPerBlock :=
      Nat.mul_le_mul_right _ (by omega)
    rw [Nat.succ_mul, Nat.mul_comm q] at hle
    omega
  refine ⟨hnum, ?_⟩
  have hblock : v.slotBlock (1 + q * v.sb.inodesPerBlock + t) = i := by
    rw [VDisk.slotBlock, hpred, hbs, Nat.mul_div_mul_right _ _ (by decide),
      Nat.add_mul_div_left _ _ hpos, Nat.div_eq_of_lt ht]
    omega
  have hofs : v.slotOfs (1 + q * v.sb.inodesPerBlock + t) = t := by
    rw [VDisk.slotOfs, hpred, hbs, Nat.mul_mod_mul_right, Nat.mul_div_cancel _ (by decide),
      Nat.add_mul_mod_self_left, Nat.mod_eq_of_lt ht]
  rw [slot_eq table hnum, hblock, hofs]

/-- What the scan of the table finds from block `i` on. -/
structure TableScan (v : VDisk) (left i k : Nat) (rc : Rc) (xs : List Nat) (v' : VDisk) : Prop where
  same : v' = { v with sb := v.sb.fill k xs, io := { v.io with faults := v'.io.faults } }
  room : k + xs.length ≤ max k maxFreeinode
  sorted : xs.Pairwise (· < ·)
  mem : ∀ x ∈ xs, InodeNumber v x ∧ (v.slot x).mode = 0 ∧
    1 + (i - v.sb.ilistSector) * v.sb.inodesPerBlock ≤ x
  some : rc = .ok → k < maxFreeinode → v.Finds left i → xs ≠ []

theorem SameLayout.fill (v : VDisk) (k : Nat) (xs : List Nat) (io : Store) :
    SameLayout v { v with sb := v.sb.fill k xs, io } := by
  obtain ⟨f, m, h⟩ := Superblock.fill_same v.sb k xs
  simp only [h]
  exact ⟨rfl, rfl, rfl, rfl, rfl, rfl⟩

theorem getD_tail_tail (fs : List Fault) (n : Nat) :
    fs.tail.tail.getD n .none = fs.getD (n + 2) .none := by
  simp only [List.getD_eq_getElem?_getD, List.getElem?_tail]

/-- The scan of a block and then of the rest of the table. -/
theorem TableScan.cons {xs ys : List Nat} {rc : Rc} {w v' : VDisk}
    (hw : w = { v with sb := v.sb.fill k xs, io := { v.io with faults := v.io.faults.tail.tail } })
    (h : TableScan w left (i + 1) (k + xs.length) rc ys v') (hi : v.sb.ilistSector ≤ i)
    (hroom : k + xs.length ≤ max k maxFreeinode) (hsorted : xs.Pairwise (· < ·))
    (hmem : ∀ x ∈ xs, InodeNumber v x ∧ (v.slot x).mode = 0 ∧
      ∃ t, t < v.sb.inodesPerBlock ∧ x = 1 + (i - v.sb.ilistSector) * v.sb.inodesPerBlock + t)
    (hsome : k < maxFreeinode →
      (∃ t, t < v.sb.inodesPerBlock ∧ (Dinode.ofBlock (v.io.blocks i) t).mode = 0) →
      v.io.faults.headD .none = .none → v.io.faults.tail.headD .none = .none → xs ≠ []) :
    TableScan v (left + 1) i k rc (xs ++ ys) v' := by
  have hlay : SameLayout v w := by
    rw [hw]
    exact .fill ..
  have hblocks : w.io.blocks = v.io.blocks := by rw [hw]
  have hnext : (i + 1 - v.sb.ilistSector) * v.sb.inodesPerBlock =
      (i - v.sb.ilistSector) * v.sb.inodesPerBlock + v.sb.inodesPerBlock := by
    rw [show i + 1 - v.sb.ilistSector = i - v.sb.ilistSector + 1 by omega, Nat.succ_mul]
  have hys : ∀ y ∈ ys, InodeNumber v y ∧ (v.slot y).mode = 0 ∧
      1 + (i - v.sb.ilistSector) * v.sb.inodesPerBlock + v.sb.inodesPerBlock ≤ y := by
    intro y hy
    obtain ⟨hnum, hmode, hle⟩ := h.mem y hy
    rw [hlay.ilist, hlay.perBlock, hnext] at hle
    rw [hlay.slot hblocks] at hmode
    exact ⟨hlay.symm.inodeNumber hnum, hmode, by omega⟩
  refine ⟨?_, ?_, ?_, fun x hx => ?_, fun hrc hk hfinds => ?_⟩
  · rw [Superblock.fill_append, h.same, hw]
  · have := h.room
    rw [List.length_append]
    omega
  · refine List.pairwise_append.mpr ⟨hsorted, h.sorted, fun x hx y hy => ?_⟩
    obtain ⟨_, _, t, ht, hxt⟩ := hmem x hx
    have := (hys y hy).2.2
    omega
  · rcases List.mem_append.mp hx with hx | hx
    · obtain ⟨hnum, hmode, t, _, hxt⟩ := hmem x hx
      exact ⟨hnum, hmode, by omega⟩
    · obtain ⟨hnum, hmode, hle⟩ := hys x hx
      exact ⟨hnum, hmode, by omega⟩
  · by_cases hfull : k + xs.length < maxFreeinode
    · obtain ⟨d, hd, hfree, h0, h1⟩ := hfinds
      cases d with
      | zero =>
        refine List.append_ne_nil_of_left_ne_nil (hsome hk hfree ?_ ?_) ys
        · simpa only [Nat.mul_zero, List.getD_eq_getElem?_getD, List.headD_eq_head?_getD,
            List.head?_eq_getElem?] using h0
        · simpa only [Nat.mul_zero, List.getD_eq_getElem?_getD, List.headD_eq_head?_getD,
            List.head?_eq_getElem?, List.getElem?_tail] using h1
      | succ d =>
        refine List.append_ne_nil_of_right_ne_nil xs (h.some hrc hfull ⟨d, Nat.lt_of_succ_lt_succ hd, ?_⟩)
        rw [hlay.perBlock, hblocks, Nat.add_right_comm, Nat.add_assoc]
        refine ⟨hfree, ?_, ?_⟩
        · rw [hw]
          exact (getD_tail_tail ..).trans h0
        · rw [hw]
          exact (getD_tail_tail ..).trans h1
    · refine List.append_ne_nil_of_left_ne_nil ?_ ys
      rintro rfl
      exact hfull hk

theorem diskGetBuf_run (v : VDisk) : diskGetBuf.run v =
    (decide (v.io.faults.headD .none = .none),
      { v with io := { v.io with faults := v.io.faults.tail } }) := by
  simp only [diskGetBuf, VDisk.onStore, Prog.run_lift, Store.alloc_run]

theorem vdiskRead_run (v : VDisk) (block : Nat) : (vdiskRead block).run v =
    (if v.io.faults.headD .none = .none then .ok (v.io.blocks block) else .error .decb,
      { v with io := { v.io with faults := v.io.faults.tail } }) := by
  simp only [vdiskRead, VDisk.onStore, Prog.run_lift, Store.read_run]

theorem freeinodeScan_spec (table : InodeTable v) (hper : v.TableLayout) (hi : v.sb.ilistSector ≤ i)
    (hlast : i + left = v.sb.datablockStartSector)
    (hinode : k < maxFreeinode → inode = 1 + (i - v.sb.ilistSector) * v.sb.inodesPerBlock) :
    ∃ rc xs v', (freeinodeScan left i k inode).run v = ((rc, k + xs.length), v') ∧
      TableScan v left i k rc xs v' := by
  induction left generalizing v i k inode with
  | zero =>
    refine ⟨.ok, [], v, rfl, rfl, Nat.le_max_left .., .nil, by simp, fun _ _ hfinds => ?_⟩
    obtain ⟨d, hd, _⟩ := hfinds
    exact absurd hd (Nat.not_lt_zero d)
  | succ left ih =>
    have hidata : i < v.sb.datablockStartSector := by omega
    have hrest : ∀ (xs : List Nat) (next : Nat), (k + xs.length < maxFreeinode →
        next = 1 + (i - v.sb.ilistSector) * v.sb.inodesPerBlock + v.sb.inodesPerBlock) →
        let w := { v with sb := v.sb.fill k xs, io := { v.io with faults := v.io.faults.tail.tail } }
        ∃ rc ys v', (freeinodeScan left (i + 1) (k + xs.length) next).run w =
          ((rc, k + xs.length + ys.length), v') ∧
          TableScan w left (i + 1) (k + xs.length) rc ys v' := by
      intro xs next hnext w
      have hlay : SameLayout v w := .fill ..
      refine ih (hlay.inodeTable table) (hlay.tableLayout hper) ?_ ?_ fun hk => ?_
      · rw [hlay.ilist]
        exact Nat.le_succ_of_le hi
      · rw [hlay.start, ← hlast, Nat.add_right_comm, Nat.add_assoc]
      · rw [hlay.ilist, hlay.perBlock, hnext hk, Nat.succ_sub hi, Nat.succ_mul, Nat.add_assoc]
    simp only [freeinodeScan, Prog.run_bind, diskGetBuf_run]
    by_cases h0 : v.io.faults.headD .none = .none
    · simp only [h0, decide_true, if_true, Prog.run_bind, vdiskRead_run]
      by_cases h1 : v.io.faults.tail.headD .none = .none
      · obtain ⟨xs, hxs⟩ := freeinodeScanBlock_spec (v.io.blocks i) v.sb.inodesPerBlock 0 k inode v.sb
        obtain ⟨next, hscan, hnext⟩ := hxs.run
        obtain ⟨rc, ys, v', hrun, h⟩ := hrest xs next fun hlt => by
          rw [hnext hlt, hinode (Nat.lt_of_le_of_lt (Nat.le_add_right ..) hlt)]
        simp only [h1, if_true, Prog.run_bind, hscan, hrun]
        refine ⟨rc, xs ++ ys, v', by rw [List.length_append, Nat.add_assoc], h.cons rfl hi hxs.room
          hxs.sorted (fun x hx => ?_) fun hk hfree _ _ => hxs.some hk ?_⟩
        · obtain ⟨t, ht, hxt, hmode⟩ := hxs.mem x hx
          have hk : k < maxFreeinode := by
            have hlen := List.length_pos_of_mem hx
            have := hxs.room
            omega
          obtain ⟨hnum, hslot⟩ := table_slot table hper hi hidata ht
          rw [hxt, hinode hk]
          rw [Nat.zero_add] at hmode
          exact ⟨hnum, by rw [hslot, hmode], t, ht, rfl⟩
        · simpa only [Nat.zero_add] using hfree
      · have hfit : 1 + (i - v.sb.ilistSector) * v.sb.inodesPerBlock + v.sb.inodesPerBlock < 4294967296 := by
          have hle : (i - v.sb.ilistSector + 1) * v.sb.inodesPerBlock ≤
              (v.sb.datablockStartSector - v.sb.ilistSector) * v.sb.inodesPerBlock :=
            Nat.mul_le_mul_right _ (by omega)
          have hbytes := table.bytes
          rw [hper.blksize table, ← Nat.mul_assoc] at hbytes
          rw [Nat.succ_mul] at hle
          simp only [dinodeSize] at hbytes
          omega
        obtain ⟨rc, ys, v', hrun, h⟩ := hrest [] (u32 (inode + v.sb.inodesPerBlock)) fun hlt => by
          rw [hinode hlt, u32_of_lt hfit]
        simp only [h1, if_false, Prog.run_bind]
        refine ⟨rc, ys, v', hrun, ?_⟩
        exact h.cons rfl hi (Nat.le_max_left ..) .nil (by simp) fun _ _ _ h => absurd h h1
    · simp only [h0, decide_false, Bool.false_eq_true, if_false, Prog.run_pure]
      refine ⟨.enomem, [], _, rfl, rfl, Nat.le_max_left .., .nil, by simp, fun h => ?_⟩
      exact absurd h (by decide)

end Table

section Update

variable {v : VDisk}

theorem vdiskFault_run (v : VDisk) : (VDisk.onStore Store.takeFault).run v =
    (v.io.faults.headD .none, { v with io := { v.io with faults := v.io.faults.tail } }) := by
  simp only [VDisk.onStore, Prog.run_lift, Store.takeFault_run]

theorem diskWriteBoot_spec (v : VDisk) : ∃ rc fs, diskWriteBoot.run v =
    (rc, { v with io := { v.io with faults := fs } }) := by
  simp only [diskWriteBoot, Prog.run_bind, Prog.run_ite, VDisk.onStore, Store.alloc_run,
    Store.takeFault_run, Prog.run_pure]
  split
  · exact ⟨_, v.io.faults, rfl⟩
  · split
    · split
      · exact ⟨_, _, rfl⟩
      · exact ⟨_, _, rfl⟩
    · exact ⟨_, _, rfl⟩

theorem diskWriteSector1_spec (v : VDisk) (sb : Superblock) : ∃ rc super fs,
    (diskWriteSector1 sb).run v = (rc, { v with io := { v.io with faults := fs }, super }) ∧
      (rc = .ok → super = sb) := by
  simp only [diskWriteSector1, Prog.run_bind, Prog.run_ite, vdiskFault_run, Prog.run_pure]
  by_cases hro : v.readonly = true
  · exact ⟨.erofs, v.super, v.io.faults, by rw [if_pos hro], fun h => absurd h (by decide)⟩
  rw [if_neg hro]
  by_cases hf : v.io.faults.headD .none = .fail
  · refine ⟨.decb, v.super, v.io.faults.tail, ?_, fun h => absurd h (by decide)⟩
    simp only [hf, ne_eq, not_true_eq_false, if_false, reduceCtorEq]
  · refine ⟨if v.io.faults.headD .none = .none then .ok else .decb, sb, v.io.faults.tail, ?_, fun _ => rfl⟩
    rw [if_pos hf]

/-- The write of block 1 either leaves the super block as it is in memory and fails, or it is
done, whether or not the boot block can be written after it. -/
theorem diskWriteSuper_spec (v : VDisk) : ∃ rc m super fs, diskWriteSuper.run v =
    (rc, { v with io := { v.io with faults := fs }, sb := { v.sb with modified := m }, super }) ∧
      (m = v.sb.modified ∧ rc ≠ .ok ∨ m = false ∧ super = { v.sb with modified := false }) := by
  simp only [diskWriteSuper, Prog.run_bind]
  by_cases hsb : v.sb.readonly = true
  · exact ⟨.erofs, _, _, _, by rw [if_pos hsb]; rfl, .inl ⟨rfl, by decide⟩⟩
  rw [if_neg hsb]
  simp only [VDisk.onStore, Prog.run_bind, Store.alloc_run]
  by_cases hf : v.io.faults.headD .none = .none
  · simp only [hf, decide_true, if_true, Prog.run_bind]
    obtain ⟨rc, super, fs, hrun, hrc⟩ := diskWriteSector1_spec
      { v with io := { v.io with faults := v.io.faults.tail } } { v.sb with modified := false }
    by_cases hok : rc = .ok
    · simp only [hrun, hok, ne_eq, not_true_eq_false, if_false, Prog.run_bind]
      obtain ⟨rc', fs', hboot⟩ := diskWriteBoot_spec { v with
        io := { v.io with faults := fs }, super, sb := { v.sb with modified := false } }
      exact ⟨rc', false, super, fs', hboot, .inr ⟨rfl, hrc hok⟩⟩
    · simp only [hrun, hok, ne_eq, not_false_eq_true, if_true, Prog.run_pure]
      exact ⟨rc, _, super, fs, rfl, .inl ⟨rfl, hok⟩⟩
  · simp only [hf, decide_false, Bool.false_eq_true, if_false, Prog.run_pure]
    exact ⟨.enomem, _, _, _, rfl, .inl ⟨rfl, by decide⟩⟩

/-- What a refill of the cache does. -/
structure Refilled (v : VDisk) (rc : Rc) (xs : List Nat) (v' : VDisk) : Prop where
  sb : v'.sb = { v.sb.fill 0 xs with nfreeinode := xs.length, modified := v'.sb.modified }
  same : v' = { v with io := { v.io with faults := v'.io.faults }, sb := v'.sb, super := v'.super }
  saved : v'.sb.modified = false →
    v'.sb = v.sb ∧ v'.super = v.super ∨ v'.super = v'.sb
  room : xs.length ≤ maxFreeinode
  sorted : xs.Pairwise (· < ·)
  mem : ∀ x ∈ xs, InodeNumber v x ∧ (v.slot x).mode = 0
  some : rc = .ok → v.Finds (v.sb.datablockStartSector - v.sb.ilistSector) v.sb.ilistSector → xs ≠ []

theorem freeinodeUpdate_spec (g : Geometry v) (hper : v.TableLayout) (hro : v.sb.readonly = false)
    (hempty : v.sb.nfreeinode = 0) :
    ∃ rc xs v', freeinodeUpdate.run v = (rc, v') ∧ Refilled v rc xs v' := by
  have hdata := g.data
  have hspan : v.sb.ilistSector + (v.sb.datablockStartSector - v.sb.ilistSector) =
      v.sb.datablockStartSector := by omega
  have hfirst : 0 < maxFreeinode →
      1 = 1 + (v.sb.ilistSector - v.sb.ilistSector) * v.sb.inodesPerBlock := fun _ => by
    rw [Nat.sub_self, Nat.zero_mul]
  obtain ⟨rc, xs, w, hrun, h⟩ := freeinodeScan_spec g.table hper (Nat.le_refl _) hspan hfirst
  have hroom : xs.length ≤ maxFreeinode := by
    have := h.room
    omega
  have hmem : ∀ x ∈ xs, InodeNumber v x ∧ (v.slot x).mode = 0 := fun x hx =>
    ⟨(h.mem x hx).1, (h.mem x hx).2.1⟩
  have hsome := h.some
  obtain ⟨fs, rfl⟩ : ∃ fs, w = { v with sb := v.sb.fill 0 xs, io := { v.io with faults := fs } } :=
    ⟨_, h.same⟩
  simp only [freeinodeUpdate, Prog.run_bind, hro, hempty, hrun, Bool.false_eq_true, if_false, Nat.zero_add]
  by_cases hmod : (v.sb.fill 0 xs).modified = true
  · obtain ⟨rc', m, super, fs', hwrite, hsaved⟩ := diskWriteSuper_spec { v with
      sb := { v.sb.fill 0 xs with modified := false, nfreeinode := xs.length }
      io := { v.io with faults := fs } }
    simp only [hmod, if_true, Prog.run_bind, hwrite, Prog.run_ite, Prog.run_pure]
    by_cases hok : rc' = .ok
    · rw [if_neg (not_not_intro hok)]
      refine ⟨rc, xs, _, rfl, rfl, rfl, fun _ => .inr ?_, hroom, h.sorted, hmem,
        fun hrc => hsome hrc (by decide)⟩
      rcases hsaved with ⟨_, hne⟩ | ⟨hm, hsuper⟩
      · exact absurd hok hne
      · rw [hsuper, hm]
    · rw [if_pos hok]
      exact ⟨.eio, xs, _, rfl, rfl, rfl, fun h => absurd h (by simp), hroom, h.sorted, hmem,
        fun hrc => absurd hrc (by decide)⟩
  · have hnil : xs = [] := by
      have hflag := Superblock.fill_modified v.sb 0 xs
      rw [Bool.eq_false_of_not_eq_true hmod] at hflag
      simpa using (Bool.or_eq_false_iff.mp hflag.symm).2
    subst hnil
    simp only [hmod, Bool.false_eq_true, if_false, Prog.run_pure]
    refine ⟨rc, [], _, rfl, ?_, rfl, fun _ => .inl ⟨rfl, rfl⟩, hroom, .nil, hmem,
      fun hrc => hsome hrc (by decide)⟩
    simp only [Superblock.fill, List.length_nil, ← hempty]

end Update

/-- `x` leaves the super block alone, in memory and on the disk. -/
def KeepsSuper {α : Type} (x : Prog VDisk α) : Prop :=
  ∀ v, (x.run v).2.sb = v.sb ∧ (x.run v).2.super = v.super ∧ (x.run v).2.blksize = v.blksize

namespace KeepsSuper

variable {α β : Type}

theorem pure (a : α) : KeepsSuper (Pure.pure a) := fun _ => ⟨rfl, rfl, rfl⟩

theorem bind {x : Prog VDisk α} {f : α → Prog VDisk β} (hx : KeepsSuper x) (hf : ∀ a, KeepsSuper (f a)) :
    KeepsSuper (x >>= f) := fun v => by
  obtain ⟨hsb, hsuper, hbs⟩ := hf (x.run v).1 (x.run v).2
  obtain ⟨hsb', hsuper', hbs'⟩ := hx v
  exact ⟨hsb.trans hsb', hsuper.trans hsuper', hbs.trans hbs'⟩

theorem get : KeepsSuper Prog.get := fun _ => ⟨rfl, rfl, rfl⟩

theorem onStore (x : Prog Store α) : KeepsSuper (VDisk.onStore x) := fun _ => ⟨rfl, rfl, rfl⟩

theorem modifyMinode (ino : Nat) (f : Minode → Minode) : KeepsSuper (modifyMinode ino f) :=
  fun _ => ⟨rfl, rfl, rfl⟩

theorem minodes (f : VDisk → List Minode) : KeepsSuper (Prog.modify fun v => { v with minodes := f v }) :=
  fun _ => ⟨rfl, rfl, rfl⟩

theorem readBuf (block : Nat) : KeepsSuper (readBuf block) := by
  refine .bind (.onStore _) fun ok => ?_
  cases ok with
  | false => exact .pure _
  | true =>
    refine .bind (.onStore _) fun r => ?_
    cases r <;> exact .pure _

theorem writeBuf (buf : Block) (block : Nat) : KeepsSuper (writeBuf buf block) := by
  refine .bind (.bind .get fun v => ?_) fun rc => .pure _
  cases v.readonly
  · exact .onStore _
  · exact .pure _

theorem inodeWriteback (ino : Nat) : KeepsSuper (inodeWriteback ino) := by
  refine .bind .get fun v => ?_
  dsimp only
  split
  · exact .pure _
  · refine .bind (.readBuf _) fun r => ?_
    cases r with
    | error rc => exact .pure _
    | ok buf =>
      refine .bind .get fun v => .bind (.writeBuf _ _) fun rc => ?_
      split
      · exact .pure _
      · exact .bind (.modifyMinode _ _) fun _ => .pure _

theorem inodeLoad (ino : Nat) : KeepsSuper (inodeLoad ino) := by
  refine .bind .get fun v => ?_
  dsimp only
  split
  · exact .pure _
  · refine .bind (.readBuf _) fun r => ?_
    cases r <;> exact .pure _

theorem inodeGet (ino : Nat) : KeepsSuper (inodeGet ino) := by
  refine .bind .get fun v => ?_
  cases v.minode? ino with
  | some m => exact .bind (.modifyMinode _ _) fun _ => .pure _
  | none =>
    refine .bind (.onStore _) fun ok => ?_
    cases ok with
    | false => exact .pure _
    | true =>
      refine .bind (.inodeLoad _) fun r => ?_
      cases r with
      | error rc => exact .pure _
      | ok m => exact .bind (.minodes _) fun _ => .bind (.modifyMinode _ _) fun _ => .pure _

theorem inodeRel (ino : Nat) : KeepsSuper (inodeRel ino) := by
  refine .bind (.modifyMinode _ _) fun _ => .bind .get fun v => ?_
  dsimp only
  split
  · exact .pure _
  · split
    · exact .minodes _
    · exact .pure _

end KeepsSuper

end Ufs370
