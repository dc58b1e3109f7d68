import Ufs370.AddrLaws
import Ufs370.FreeBlockLaws

/-! What the cache shows of an inode, and what a write to its slot changes. -/

namespace Ufs370

open Lib

namespace VDisk

/-- The inode in its slot on the disk. -/
def slot (v : VDisk) (ino : Nat) : Dinode :=
  let (rc, blk, ofs) := inodeInquireDiskLocation v ino
  if rc = .ok then .ofBlock (v.io.blocks blk) ofs else .zero

/-- The current contents of an inode: those of its handle, if it has one. -/
def inode (v : VDisk) (ino : Nat) : Dinode :=
  match v.minode? ino with
  | some m => m.dinode
  | none => v.slot ino

def Cached (v : VDisk) (ino : Nat) : Prop := (v.minode? ino).isSome

section Simp

variable (v : VDisk) (n t b ino : Nat) (f : Nat → Nat) (buf : Block)

@[simp] theorem minode?_setFree : (v.setFree n f t).minode? = v.minode? := rfl
@[simp] theorem minode?_setBlock : (v.setBlock b buf).minode? = v.minode? := rfl
@[simp] theorem inode_setFree : (v.setFree n f t).inode = v.inode := rfl
@[simp] theorem setMinode_io (g : Minode → Minode) : (v.setMinode ino g).io = v.io := rfl
@[simp] theorem setMinode_sb (g : Minode → Minode) : (v.setMinode ino g).sb = v.sb := rfl
@[simp] theorem setMinode_word (g : Minode → Minode) : (v.setMinode ino g).word = v.word := rfl
@[simp] theorem setMinode_blksize (g : Minode → Minode) :
    (v.setMinode ino g).blksize = v.blksize := rfl

end Simp

variable {v : VDisk} {ino i : Nat}

theorem inode_some {m : Minode} (h : v.minode? ino = some m) : v.inode ino = m.dinode := by
  simp only [inode, h]

theorem inode_none (h : v.minode? ino = none) : v.inode ino = v.slot ino := by
  simp only [inode, h]

theorem deref_some {m : Minode} (h : v.minode? ino = some m) : v.deref ino = m := by
  simp only [deref, h, Option.getD_some]

theorem Cached.deref (h : v.Cached ino) : v.minode? ino = some (v.deref ino) := by
  obtain ⟨m, hm⟩ := Option.isSome_iff_exists.mp h
  rw [hm, deref_some hm]

theorem Cached.din (h : v.Cached ino) : v.din ino = v.inode ino := (inode_some h.deref).symm

theorem minode?_number {m : Minode} (h : v.minode? ino = some m) : m.inodeNumber = ino := by
  simpa using List.find?_some h

section SetMinode

variable {g : Minode → Minode} (hg : ∀ m, m.inodeNumber = ino → (g m).inodeNumber = ino)
include hg

theorem minode?_setMinode_same : (v.setMinode ino g).minode? ino = (v.minode? ino).map g := by
  simp only [minode?, setMinode]
  induction v.minodes with
  | nil => rfl
  | cons m ms ih =>
    by_cases hm : m.inodeNumber = ino
    · simp [hm, hg m hm]
    · simp [hm, ih]

theorem minode?_setMinode_other (hi : i ≠ ino) : (v.setMinode ino g).minode? i = v.minode? i := by
  simp only [minode?, setMinode]
  induction v.minodes with
  | nil => rfl
  | cons m ms ih =>
    by_cases hm : m.inodeNumber = ino
    · have hmi : m.inodeNumber ≠ i := fun h => hi (h.symm.trans hm)
      have hgi : (g m).inodeNumber ≠ i := fun h => hi (h.symm.trans (hg m hm))
      simp [hm, hg m hm, Ne.symm hi, ih]
    · by_cases hmi : m.inodeNumber = i
      · simp [hmi, hi]
      · simp [hm, hmi, ih]

theorem Cached.setMinode (h : v.Cached i) : (v.setMinode ino g).Cached i := by
  by_cases hi : i = ino
  · subst hi
    simpa only [Cached, minode?_setMinode_same hg, Option.isSome_map] using h
  · simpa only [Cached, minode?_setMinode_other hg hi] using h

theorem deref_setMinode (h : v.Cached ino) : (v.setMinode ino g).deref ino = g (v.deref ino) :=
  deref_some (by rw [minode?_setMinode_same hg, h.deref, Option.map_some])

end SetMinode

section SetDinode

variable (v ino) (f : Dinode → Dinode)

@[simp] theorem setDinode_io : (v.setDinode ino f).io = v.io := rfl
@[simp] theorem setDinode_sb : (v.setDinode ino f).sb = v.sb := rfl
@[simp] theorem setDinode_word : (v.setDinode ino f).word = v.word := rfl
@[simp] theorem setDinode_blksize : (v.setDinode ino f).blksize = v.blksize := rfl

theorem minode?_setDinode_same :
    (v.setDinode ino f).minode? ino = (v.minode? ino).map fun m => { m with dinode := f m.dinode } :=
  minode?_setMinode_same fun _ hm => hm

theorem minode?_setDinode_other (hi : i ≠ ino) : (v.setDinode ino f).minode? i = v.minode? i :=
  minode?_setMinode_other (fun _ hm => hm) hi

variable {v ino f}

@[simp] theorem cached_setDinode : (v.setDinode ino f).Cached i ↔ v.Cached i := by
  by_cases hi : i = ino
  · subst hi
    rw [Cached, minode?_setDinode_same, Option.isSome_map]
    rfl
  · rw [Cached, minode?_setDinode_other v ino f hi]
    rfl

theorem inode_setDinode_same (h : v.Cached ino) : (v.setDinode ino f).inode ino = f (v.inode ino) := by
  rw [inode_some (by rw [minode?_setDinode_same, h.deref, Option.map_some]), inode_some h.deref]

theorem inode_setDinode_other (hi : i ≠ ino) : (v.setDinode ino f).inode i = v.inode i := by
  simp only [inode, minode?_setDinode_other v ino f hi]
  rfl

end SetDinode

end VDisk

namespace Dinode

theorem toBlock_at (d : Dinode) (b : Block) (ofs : Nat) {k : Nat} (hk : k < 128) :
    d.toBlock b ofs (dinodeSize * ofs + k) = d.byte k := by
  have hdiv : (dinodeSize * ofs + k) / dinodeSize = ofs := by
    rw [Nat.mul_add_div (by decide)]
    simp only [dinodeSize]
    omega
  have hmod : (dinodeSize * ofs + k) % dinodeSize = k := by
    rw [Nat.mul_add_mod]
    exact Nat.mod_eq_of_lt hk
  simp only [toBlock, hdiv, hmod, if_true]

theorem half_toBlock (d : Dinode) (b : Block) (ofs : Nat) {o : Nat} {w : UInt16} (ho : o + 2 ≤ 128)
    (h : ∀ k, k < 2 → d.byte (o + k) = Bytes.byteOf 2 w.toNat k) :
    Bytes.half (d.toBlock b ofs) (dinodeSize * ofs + o) = w :=
  Bytes.half_bytes fun k hk => by rw [Nat.add_assoc, toBlock_at d b ofs (by omega), h k hk]

theorem long_toBlock (d : Dinode) (b : Block) (ofs : Nat) {o : Nat} {w : UInt32} (ho : o + 4 ≤ 128)
    (h : ∀ k, k < 4 → d.byte (o + k) = Bytes.byteOf 4 w.toNat k) :
    Bytes.long (d.toBlock b ofs) (dinodeSize * ofs + o) = w :=
  Bytes.long_bytes fun k hk => by rw [Nat.add_assoc, toBlock_at d b ofs (by omega), h k hk]

theorem byte_addr (d : Dinode) (i : Fin 19) {k : Nat} (hk : k < 4) :
    d.byte (0x34 + 4 * i + k) = Bytes.byteOf 4 (d.addr i).toNat k := by
  have hi := i.isLt
  have hdiv : (0x34 + 4 * i.val + k - 0x34) / 4 = i := by omega
  have hmod : (0x34 + 4 * i.val + k - 0x34) % 4 = k := by omega
  have haddr : d.addrAt i = (d.addr i).toNat := dif_pos hi
  unfold byte
  simp only [hdiv, hmod, haddr]
  repeat rw [if_neg (by omega)]
  repeat rw [dif_neg (by omega)]

theorem ofBlock_toBlock (d : Dinode) (b : Block) (ofs : Nat) : ofBlock (d.toBlock b ofs) ofs = d := by
  rcases d with ⟨mode, nlink, filesize, ⟨c1, c2⟩, ⟨m1, m2⟩, ⟨a1, a2⟩, owner, group, codepage, addr⟩
  simp only [ofBlock, mk.injEq, Timev.mk.injEq]
  refine ⟨?_, ?_, ?_, ⟨?_, ?_⟩, ⟨?_, ?_⟩, ⟨?_, ?_⟩, ?_, ?_, ?_, ?_⟩
  · exact half_toBlock _ b ofs (o := 0) (by decide) fun k hk => by interval_cases k <;> rfl
  · exact half_toBlock _ b ofs (by decide) fun k hk => by interval_cases k <;> rfl
  · exact long_toBlock _ b ofs (by decide) fun k hk => by interval_cases k <;> rfl
  · exact long_toBlock _ b ofs (by decide) fun k hk => by interval_cases k <;> rfl
  · exact long_toBlock _ b ofs (by decide) fun k hk => by interval_cases k <;> rfl
  · exact long_toBlock _ b ofs (by decide) fun k hk => by interval_cases k <;> rfl
  · exact long_toBlock _ b ofs (by decide) fun k hk => by interval_cases k <;> rfl
  · exact long_toBlock _ b ofs (by decide) fun k hk => by interval_cases k <;> rfl
  · exact long_toBlock _ b ofs (by decide) fun k hk => by interval_cases k <;> rfl
  · funext ⟨i, hi⟩
    change toBlock _ b ofs (dinodeSize * ofs + _ + i) = _
    rw [Nat.add_assoc, toBlock_at _ b ofs (by omega)]
    interval_cases i <;> rfl
  · funext ⟨i, hi⟩
    change toBlock _ b ofs (dinodeSize * ofs + _ + i) = _
    rw [Nat.add_assoc, toBlock_at _ b ofs (by omega)]
    interval_cases i <;> rfl
  · exact half_toBlock _ b ofs (by decide) fun k hk => by interval_cases k <;> rfl
  · funext i
    have hi := i.isLt
    rw [Nat.add_assoc]
    exact long_toBlock _ b ofs (by omega) fun k hk => byte_addr _ i hk

theorem ofBlock_congr {b c : Block} {ofs : Nat} (h : ∀ o, o / dinodeSize = ofs → c o = b o) :
    ofBlock c ofs = ofBlock b ofs := by
  have hat : ∀ k, k < 128 → c (dinodeSize * ofs + k) = b (dinodeSize * ofs + k) := fun k hk => h _ (by
    rw [Nat.mul_add_div (by decide)]
    simp only [dinodeSize]
    omega)
  have hhalf : ∀ o, o + 2 ≤ 128 →
      Bytes.half c (dinodeSize * ofs + o) = Bytes.half b (dinodeSize * ofs + o) := by
    intro o ho
    simp only [Bytes.half, Nat.add_assoc, hat o (by omega), hat (o + 1) (by omega)]
  have hlong : ∀ o, o + 4 ≤ 128 →
      Bytes.long c (dinodeSize * ofs + o) = Bytes.long b (dinodeSize * ofs + o) := by
    intro o ho
    simp only [Bytes.long, Nat.add_assoc, hat o (by omega), hat (o + 1) (by omega),
      hat (o + 2) (by omega), hat (o + 3) (by omega)]
  have haddr : ∀ i : Fin 19, Bytes.long c (dinodeSize * ofs + 0x34 + 4 * i) =
      Bytes.long b (dinodeSize * ofs + 0x34 + 4 * i) := fun i => by
    rw [Nat.add_assoc]
    exact hlong _ (by omega)
  have hbyte : ∀ o (i : Fin 9), o + 9 ≤ 128 →
      c (dinodeSize * ofs + o + i) = b (dinodeSize * ofs + o + i) := fun o i ho => by
    rw [Nat.add_assoc]
    exact hat _ (by omega)
  have h0 := hhalf 0 (by decide)
  rw [Nat.add_zero] at h0
  simp only [ofBlock, h0, hhalf _ (show 0x02 + 2 ≤ 128 by decide),
    hhalf _ (show 0x32 + 2 ≤ 128 by decide), hlong _ (show 0x04 + 4 ≤ 128 by decide),
    hlong _ (show 0x08 + 4 ≤ 128 by decide), hlong _ (show 0x0C + 4 ≤ 128 by decide),
    hlong _ (show 0x10 + 4 ≤ 128 by decide), hlong _ (show 0x14 + 4 ≤ 128 by decide),
    hlong _ (show 0x18 + 4 ≤ 128 by decide), hlong _ (show 0x1C + 4 ≤ 128 by decide),
    hbyte _ _ (show 0x20 + 9 ≤ 128 by decide), hbyte _ _ (show 0x29 + 9 ≤ 128 by decide), haddr]

theorem ofBlock_toBlock_other (d : Dinode) (b : Block) {ofs ofs' : Nat} (h : ofs' ≠ ofs) :
    ofBlock (d.toBlock b ofs) ofs' = ofBlock b ofs' :=
  ofBlock_congr fun o ho => if_neg (by rw [ho]; exact h)

end Dinode

/-- A table of slots in the blocks from `ilist_sector` on, 4 GiB at most. -/
structure InodeTable (v : VDisk) : Prop where
  blksize : v.blksize = 2 ^ v.sb.blksizeShift
  low : 7 ≤ v.sb.blksizeShift
  bytes : (v.sb.datablockStartSector - v.sb.ilistSector) * v.blksize ≤ 4294967296
  start : v.sb.datablockStartSector < 4294967296

theorem Geometry.table {v : VDisk} (g : Geometry v) : InodeTable v :=
  ⟨g.blksize, Nat.le_trans (by decide) g.low, g.ilistBytes, Nat.lt_of_le_of_lt g.order g.volume⟩

/-- The numbers of the inodes that have a slot. -/
structure InodeNumber (v : VDisk) (i : Nat) : Prop where
  pos : 1 ≤ i
  slot : (i - 1) * dinodeSize < (v.sb.datablockStartSector - v.sb.ilistSector) * v.blksize

namespace VDisk

/-- The block of an inode's slot, and the slot. -/
def slotBlock (v : VDisk) (i : Nat) : Nat := v.sb.ilistSector + (i - 1) * dinodeSize / v.blksize

def slotOfs (v : VDisk) (i : Nat) : Nat := (i - 1) * dinodeSize % v.blksize / dinodeSize

end VDisk

section Slot

variable {v : VDisk} {i ino : Nat}

theorem slotBlock_lt (hi : InodeNumber v i) : v.slotBlock i < v.sb.datablockStartSector := by
  have hslot := hi.slot
  rw [Nat.mul_comm _ v.blksize] at hslot
  have hlt := Nat.div_lt_of_lt_mul hslot
  rw [VDisk.slotBlock, Nat.add_comm]
  exact Nat.add_lt_of_lt_sub hlt

theorem inquire_location (t : InodeTable v) (hi : InodeNumber v i) :
    inodeInquireDiskLocation v i = (.ok, v.slotBlock i, v.slotOfs i) := by
  have hpos := hi.pos
  have hofs : u32 (u32sub i 1 * dinodeSize) = (i - 1) * dinodeSize := by
    rw [u32sub_of_le hi.pos]
    exact u32_of_lt (Nat.lt_of_lt_of_le hi.slot t.bytes)
  have hdiv : (i - 1) * dinodeSize / v.blksize * v.blksize ≤ (i - 1) * dinodeSize :=
    Nat.div_mul_le_self ..
  have hblock : u32 ((i - 1) * dinodeSize / v.blksize + v.sb.ilistSector) = v.slotBlock i := by
    rw [Nat.add_comm]
    exact u32_of_lt (Nat.lt_of_lt_of_le (slotBlock_lt hi) (Nat.le_of_lt t.start))
  have hlt : (i - 1) * dinodeSize < 4294967296 := Nat.lt_of_lt_of_le hi.slot t.bytes
  have hmod : (i - 1) * dinodeSize - (i - 1) * dinodeSize / v.blksize * v.blksize =
      (i - 1) * dinodeSize % v.blksize := by
    have := Nat.div_add_mod' ((i - 1) * dinodeSize) v.blksize
    omega
  simp only [inodeInquireDiskLocation, hofs, Nat.shiftRight_eq_div_pow, ← t.blksize, hblock,
    if_pos (slotBlock_lt hi)]
  rw [u32_of_lt (Nat.lt_of_le_of_lt hdiv hlt), u32sub_of_le hdiv, hmod]
  rfl

theorem slot_eq (t : InodeTable v) (hi : InodeNumber v i) :
    v.slot i = .ofBlock (v.io.blocks (v.slotBlock i)) (v.slotOfs i) := by
  simp only [VDisk.slot, inquire_location t hi, if_true]

/-- Different inodes have different slots. -/
theorem slot_inj (t : InodeTable v) (hi : InodeNumber v i) (hino : InodeNumber v ino)
    (hblock : v.slotBlock i = v.slotBlock ino) (hofs : v.slotOfs i = v.slotOfs ino) : i = ino := by
  have hpos := hi.pos
  have hpos' := hino.pos
  have hbs : v.blksize = dinodeSize * (v.blksize / dinodeSize) := by
    rw [t.blksize]
    refine (Nat.mul_div_cancel' ?_).symm
    exact Nat.pow_dvd_pow 2 t.low
  have hmod : ∀ k, k * dinodeSize % v.blksize = k % (v.blksize / dinodeSize) * dinodeSize := by
    intro k
    conv_lhs => rw [hbs, Nat.mul_comm k, Nat.mul_mod_mul_left]
    exact Nat.mul_comm ..
  have hrem : (i - 1) * dinodeSize % v.blksize = (ino - 1) * dinodeSize % v.blksize := by
    simp only [VDisk.slotOfs, hmod, Nat.mul_div_cancel _ (show 0 < dinodeSize by decide)] at hofs
    rw [hmod, hmod, hofs]
  have hquot : (i - 1) * dinodeSize / v.blksize = (ino - 1) * dinodeSize / v.blksize :=
    Nat.add_left_cancel hblock
  have h1 := Nat.div_add_mod' ((i - 1) * dinodeSize) v.blksize
  have h2 := Nat.div_add_mod' ((ino - 1) * dinodeSize) v.blksize
  rw [hrem, hquot, h2] at h1
  simp only [dinodeSize] at h1
  omega

namespace VDisk

/-- `v` after the inode has been written to its slot. -/
def writtenBack (v : VDisk) (ino : Nat) : VDisk :=
  (v.setBlock (v.slotBlock ino)
    ((v.din ino).toBlock (v.io.blocks (v.slotBlock ino)) (v.slotOfs ino))).setMinode ino
      fun m => { m with dirty := false }

end VDisk

theorem inodeWriteback_live (g : Geometry v) (hv : v.Live) (hino : InodeNumber v ino) :
    (inodeWriteback ino).run v = (.ok, v.writtenBack ino) := by
  simp only [inodeWriteback, Prog.run_bind, inquire_location g.table hino, ne_eq, not_true_eq_false, if_false,
    readBuf_live hv, writeBuf_live hv, modifyMinode, Prog.run_pure]
  rfl

theorem minode?_writtenBack_same (v : VDisk) (ino : Nat) : (v.writtenBack ino).minode? ino =
    (v.minode? ino).map fun m => { m with dirty := false } :=
  VDisk.minode?_setMinode_same fun _ hm => hm

theorem minode?_writtenBack_other (v : VDisk) (hi : i ≠ ino) :
    (v.writtenBack ino).minode? i = v.minode? i :=
  VDisk.minode?_setMinode_other (fun _ hm => hm) hi

theorem slot_writtenBack_other (t : InodeTable v) (hino : InodeNumber v ino) (hi : InodeNumber v i)
    (hne : i ≠ ino) : (v.writtenBack ino).slot i = v.slot i := by
  have hloc : inodeInquireDiskLocation (v.writtenBack ino) i = inodeInquireDiskLocation v i := rfl
  simp only [VDisk.slot, hloc, inquire_location t hi, if_true]
  change Dinode.ofBlock ((v.setBlock _ _).io.blocks _) _ = _
  by_cases hb : v.slotBlock i = v.slotBlock ino
  · have hofs : v.slotOfs i ≠ v.slotOfs ino := fun h => hne (slot_inj t hi hino hb h)
    rw [hb, VDisk.setBlock_self, Dinode.ofBlock_toBlock_other _ _ hofs]
  · rw [VDisk.setBlock_other _ _ hb]

theorem slot_writtenBack_same (t : InodeTable v) (hino : InodeNumber v ino) :
    (v.writtenBack ino).slot ino = v.din ino := by
  have hloc : inodeInquireDiskLocation (v.writtenBack ino) ino = inodeInquireDiskLocation v ino := rfl
  simp only [VDisk.slot, hloc, inquire_location t hino, if_true]
  change Dinode.ofBlock ((v.setBlock _ _).io.blocks _) _ = _
  rw [VDisk.setBlock_self, Dinode.ofBlock_toBlock]

/-- Writing an inode back changes no inode. -/
theorem inode_writtenBack (g : Geometry v) (hino : InodeNumber v ino) (hcached : v.Cached ino)
    (hi : v.Cached i ∨ InodeNumber v i) : (v.writtenBack ino).inode i = v.inode i := by
  by_cases hii : i = ino
  · subst hii
    rw [VDisk.inode_some (by rw [minode?_writtenBack_same, hcached.deref, Option.map_some]),
      VDisk.inode_some hcached.deref]
  · cases hm : v.minode? i with
    | some m => rw [VDisk.inode_some (by rw [minode?_writtenBack_other v hii, hm]), VDisk.inode_some hm]
    | none =>
      have hnum : InodeNumber v i := hi.resolve_left (by simp [VDisk.Cached, hm])
      rw [VDisk.inode_none (by rw [minode?_writtenBack_other v hii, hm]), VDisk.inode_none hm,
        slot_writtenBack_other g.table hino hnum hii]

theorem blocks_writtenBack {b : Nat} (hino : InodeNumber v ino) (hb : v.sb.datablockStartSector ≤ b) :
    (v.writtenBack ino).io.blocks b = v.io.blocks b :=
  VDisk.setBlock_other _ _ (Nat.ne_of_gt (Nat.lt_of_lt_of_le (slotBlock_lt hino) hb))

end Slot

end Ufs370
