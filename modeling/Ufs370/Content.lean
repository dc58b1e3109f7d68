import Ufs370.ForeachLaws

/-! What a file holds, byte by byte, and what writes and changes of its size do to that. -/

namespace Ufs370

open Lib Lib.IndexForest Lib.IndexLayout

namespace VDisk

/-- Data block `m` of a file. -/
def fileBlock (v : VDisk) (ino m : Nat) : Nat := v.blockAt ino (placeOf v.nidx m)

/-- Byte `k` of a file. -/
def fileByte (v : VDisk) (ino k : Nat) : UInt8 :=
  v.io.blocks (v.fileBlock ino (k / v.blksize)) (k % v.blksize)

def filesize (v : VDisk) (ino : Nat) : Nat := (v.inode ino).filesize.toNat

/-- The bytes of a file on the disk. -/
def content (v : VDisk) (ino : Nat) : List UInt8 := (List.range (v.filesize ino)).map (v.fileByte ino)

/-- The slot of an inode has what its handle shows. -/
def InSlot (v : VDisk) (ino : Nat) : Prop := v.slot ino = v.inode ino

theorem content_length (v : VDisk) (ino : Nat) : (v.content ino).length = v.filesize ino := by
  simp [content]

end VDisk

theorem block_start_lt {bs sz k : Nat} (hk : k < sz) : k / bs * bs < sz :=
  Nat.lt_of_le_of_lt (Nat.div_mul_le_self ..) hk

/-- A file in use on a disk where each inode `i` has `cnt i` data blocks. -/
structure Stored (cnt : Nat → Nat) (all : Set Nat) (ino : Nat) (v : VDisk) (free : List Nat) : Prop where
  owned : Owned v (Within v.nidx cnt) [] free all
  numbers : ∀ i, cnt i ≠ 0 → InodeNumber v i
  number : InodeNumber v ino
  cached : v.Cached ino
  count : cnt ino = ceil (v.filesize ino) v.blksize
  size : FileSize v (v.filesize ino)

/-- A change of what is not in the data blocks of `v`: of times, of flags and of inode slots. -/
structure SameData (v v' : VDisk) : Prop where
  blksize : v'.blksize = v.blksize
  sb : v'.sb = v.sb
  faults : v'.io.faults = v.io.faults
  readonly : v'.readonly = v.readonly
  blocks : ∀ b, v.sb.datablockStartSector ≤ b → v'.io.blocks b = v.io.blocks b
  cached : ∀ i, v'.Cached i ↔ v.Cached i
  addr : ∀ i, v.Cached i ∨ InodeNumber v i → (v'.inode i).addr = (v.inode i).addr
  filesize : ∀ i, v.Cached i ∨ InodeNumber v i → v'.filesize i = v.filesize i

section Writes

variable {cnt : Nat → Nat} {all : Set Nat} {ino m : Nat} {v v' v'' : VDisk} {free : List Nat}

theorem SameData.refl (v : VDisk) : SameData v v :=
  ⟨rfl, rfl, rfl, rfl, fun _ _ => rfl, fun _ => Iff.rfl, fun _ _ => rfl, fun _ _ => rfl⟩

theorem SameData.number (h : SameData v v') {i : Nat} (hi : InodeNumber v i) : InodeNumber v' i :=
  hi.congr h.blksize ⟨_, _, _, _, h.sb⟩

theorem SameData.trans (h : SameData v v') (h' : SameData v' v'') : SameData v v'' where
  blksize := h'.blksize.trans h.blksize
  sb := h'.sb.trans h.sb
  faults := h'.faults.trans h.faults
  readonly := h'.readonly.trans h.readonly
  blocks b hb := (h'.blocks b (by rwa [h.sb])).trans (h.blocks b hb)
  cached i := (h'.cached i).trans (h.cached i)
  addr i hi := (h'.addr i (hi.imp (h.cached i).mpr h.number)).trans (h.addr i hi)
  filesize i hi := (h'.filesize i (hi.imp (h.cached i).mpr h.number)).trans (h.filesize i hi)

/-- Changes to a handle that leave the address list and the size alone. -/
theorem SameData.setMinode {g : Minode → Minode} (hnum : ∀ m, (g m).inodeNumber = m.inodeNumber)
    (haddr : ∀ m, (g m).dinode.addr = m.dinode.addr)
    (hsize : ∀ m, (g m).dinode.filesize = m.dinode.filesize) (v : VDisk) (ino : Nat) :
    SameData v (v.setMinode ino g) where
  blksize := rfl
  sb := rfl
  faults := rfl
  readonly := rfl
  blocks _ _ := rfl
  cached i := ⟨fun h => by
    by_cases hi : i = ino
    · subst hi
      rw [VDisk.Cached, VDisk.minode?_setMinode_same fun m hm => (hnum m).trans hm, Option.isSome_map] at h
      exact h
    · rwa [VDisk.Cached, VDisk.minode?_setMinode_other (fun m hm => (hnum m).trans hm) hi] at h,
    fun h => h.setMinode fun m hm => (hnum m).trans hm⟩
  addr i _ := addr_setMinode fun m => ⟨hnum m, haddr m⟩
  filesize i _ := by
    refine congrArg UInt32.toNat ?_
    by_cases hi : i = ino
    · subst hi
      cases hm : v.minode? i with
      | none =>
        rw [VDisk.inode_none hm, VDisk.inode_none (by
          rw [VDisk.minode?_setMinode_same fun m hm => (hnum m).trans hm, hm]
          rfl)]
        rfl
      | some m =>
        rw [VDisk.inode_some hm, VDisk.inode_some (by
          rw [VDisk.minode?_setMinode_same fun m hm => (hnum m).trans hm, hm]
          rfl)]
        exact hsize m
    · simp only [VDisk.inode, VDisk.minode?_setMinode_other (fun m hm => (hnum m).trans hm) hi]
      rfl

namespace Stored

theorem blksize_pos (h : Stored cnt all ino v free) : 0 < v.blksize := h.owned.geometry.blockSize.pos

theorem mem_within (h : Stored cnt all ino v free) (hm : m * v.blksize < v.filesize ino) :
    ((ino, (placeOf v.nidx m).1), (placeOf v.nidx m).2) ∈ Within v.nidx cnt :=
  placeOf_mem h.owned h.count (h.count ▸ h.size.addr) hm rfl

theorem block_mem (h : Stored cnt all ino v free) (hm : m * v.blksize < v.filesize ino) :
    v.fileBlock ino m ∈ all :=
  h.owned.node_mem (h.mem_within hm)

theorem block_pos (h : Stored cnt all ino v free) (hm : m * v.blksize < v.filesize ino) :
    v.fileBlock ino m ≠ 0 :=
  Nat.ne_of_gt (h.owned.pos_of_mem (h.block_mem hm))

theorem dataPlace (h : Stored cnt all ino v free) (hm : m * v.blksize < v.filesize ino) :
    DataPlace v.nidx (placeOf v.nidx m) m := by
  have hn := h.owned.geometry.nidx_bounds
  have hlt : m < ceil (v.filesize ino) v.blksize := (lt_ceil h.blksize_pos).mpr hm
  exact placeOf_data (by omega) (Nat.lt_of_lt_of_le hlt h.size.addr.le_maxBlocks)

/-- Different data blocks of a file are different blocks of the disk. -/
theorem block_inj (h : Stored cnt all ino v free) (hm : m * v.blksize < v.filesize ino) {m' : Nat}
    (hm' : m' * v.blksize < v.filesize ino) (heq : v.fileBlock ino m = v.fileBlock ino m') : m = m' := by
  have hp := h.owned.node_inj (h.mem_within hm) (h.mem_within hm') heq
  have hplace : placeOf v.nidx m = placeOf v.nidx m' :=
    Prod.ext (congrArg (fun x => x.1.2) hp) (congrArg (fun x => x.2) hp)
  rw [← (h.dataPlace hm).block, hplace, (h.dataPlace hm').block]

theorem last (h : Stored cnt all ino v free) {sz : Nat} (hm : m * v.blksize < v.filesize ino)
    (hlo : m * v.blksize < sz) (hhi : sz ≤ (m + 1) * v.blksize) :
    (datablockLast ino sz).run v = (v.fileBlock ino m, v) :=
  datablockLast_block h.owned h.count (h.count ▸ h.size.addr) h.cached hm hlo hhi

theorem din (h : Stored cnt all ino v free) : (v.din ino).filesize.toNat = v.filesize ino := by
  rw [h.cached.din]
  rfl

end Stored

/-- A write to a data block changes no index block. -/
theorem Owned.agree_data {n : Nat} {hand : List Nat} (h : Owned v (Within n cnt) hand free all)
    {p : BlockPath} (hp : p ∈ Within n cnt) (hfull : p.2.length = height naddrDirect p.1.2) (buf : Block) :
    Agree (Within n cnt) v.forest (v.setBlock (v.forest.node p) buf).forest := by
  refine VDisk.agree_setBlock (h.data_of_mem (h.node_mem hp)) fun r is i hq heq => ?_
  have hlen := hq.1.length
  obtain rfl := h.node_inj (h.partition.closed r is i hq) hp heq
  simp only [List.length_append, List.length_singleton] at hlen hfull
  omega

theorem Owned.setData {n : Nat} {hand : List Nat} (h : Owned v (Within n cnt) hand free all)
    {p : BlockPath} (hp : p ∈ Within n cnt) (hfull : p.2.length = height naddrDirect p.1.2) (buf : Block) :
    Owned (v.setBlock (v.forest.node p) buf) (Within n cnt) hand free all :=
  h.relist (h.geometry.congr rfl ⟨_, _, _, _, rfl⟩) (h.live.setBlock ..)
    (h.list.setBlock (fun hmem => h.partition.apart p hp (List.mem_append_right _ hmem)) buf) (.refl _)
    (h.agree_data hp hfull buf) fun _ => rfl

namespace Stored

variable (h : Stored cnt all ino v free)
include h

theorem setBlock (hm : m * v.blksize < v.filesize ino) (buf : Block) :
    Stored cnt all ino (v.setBlock (v.fileBlock ino m) buf) free := by
  have hinode : (v.setBlock (v.fileBlock ino m) buf).inode = v.inode :=
    VDisk.inode_setBlock (h.owned.data_of_mem (h.block_mem hm))
  refine ⟨h.owned.setData (h.mem_within hm) (h.dataPlace hm).full buf,
    fun i hi => (h.numbers i hi).congr rfl ⟨_, _, _, _, rfl⟩, h.number.congr rfl ⟨_, _, _, _, rfl⟩,
    h.cached, ?_, ?_⟩
  · rw [VDisk.filesize, hinode]
    exact h.count
  · rw [VDisk.filesize, hinode]
    exact ⟨h.size.lt, h.size.addr⟩

theorem inSlot_setBlock (hm : m * v.blksize < v.filesize ino) (buf : Block) (hin : v.InSlot ino) :
    (v.setBlock (v.fileBlock ino m) buf).InSlot ino := by
  have hdata := h.owned.data_of_mem (h.block_mem hm)
  rw [VDisk.InSlot, VDisk.inode_setBlock hdata, ← hin]
  exact slot_congr h.owned.geometry h.number rfl ⟨_, _, _, _, rfl⟩ fun b hb =>
    VDisk.setBlock_other _ _ (Nat.ne_of_lt (Nat.lt_of_lt_of_le hb hdata))

theorem filesize_setBlock (hm : m * v.blksize < v.filesize ino) (buf : Block) (i : Nat) :
    (v.setBlock (v.fileBlock ino m) buf).filesize i = v.filesize i := by
  rw [VDisk.filesize, VDisk.inode_setBlock (h.owned.data_of_mem (h.block_mem hm))]
  rfl

theorem fileBlock_setBlock (hm : m * v.blksize < v.filesize ino) (buf : Block) {m' : Nat}
    (hm' : m' * v.blksize < v.filesize ino) :
    (v.setBlock (v.fileBlock ino m) buf).fileBlock ino m' = v.fileBlock ino m' :=
  (h.owned.agree_data (h.mem_within hm) (h.dataPlace hm).full buf).node h.owned.partition.closed
    (h.mem_within hm')

theorem fileByte_setBlock (hm : m * v.blksize < v.filesize ino) (buf : Block) {k : Nat}
    (hk : k / v.blksize * v.blksize < v.filesize ino) :
    (v.setBlock (v.fileBlock ino m) buf).fileByte ino k =
      if k / v.blksize = m then buf (k % v.blksize) else v.fileByte ino k := by
  simp only [VDisk.fileByte, VDisk.setBlock_blksize, h.fileBlock_setBlock hm buf hk]
  by_cases heq : k / v.blksize = m
  · rw [heq, if_pos rfl, VDisk.setBlock_self]
  · rw [if_neg heq, VDisk.setBlock_other v buf fun hb => heq (h.block_inj hk hm hb)]

end Stored

theorem SameData.writtenBack (g : Geometry v) (hnum : InodeNumber v ino) (hcached : v.Cached ino) :
    SameData v (v.writtenBack ino) where
  blksize := rfl
  sb := rfl
  faults := rfl
  readonly := rfl
  blocks _ hb := blocks_writtenBack hnum hb
  cached i := by
    by_cases hi : i = ino
    · subst hi
      rw [VDisk.Cached, minode?_writtenBack_same, Option.isSome_map]
      rfl
    · rw [VDisk.Cached, minode?_writtenBack_other v hi]
      rfl
  addr i hi := by rw [inode_writtenBack g hnum hcached hi]
  filesize i hi := by rw [VDisk.filesize, inode_writtenBack g hnum hcached hi]; rfl

/-- Flags of a handle are not in the slot, and what is written back is. -/
theorem inSlot_writtenBack (g : Geometry v) (hnum : InodeNumber v ino) (hcached : v.Cached ino) :
    ((v.writtenBack ino).setMinode ino fun m => { m with dirty := false }).InSlot ino := by
  have hslot := slot_writtenBack_same g.table hnum
  have hinode := inode_writtenBack g hnum hcached (.inl hcached)
  have hcached' : (v.writtenBack ino).Cached ino :=
    ((SameData.writtenBack g hnum hcached).cached ino).mpr hcached
  have hclean : ((v.writtenBack ino).setMinode ino fun m => { m with dirty := false }).minode? ino =
      some { (v.writtenBack ino).deref ino with dirty := false } := by
    rw [VDisk.minode?_setMinode_same (g := fun m => { m with dirty := false }) fun _ hm => hm,
      hcached'.deref, Option.map_some]
  rw [VDisk.InSlot, VDisk.inode_some hclean]
  change (v.writtenBack ino).slot ino = (v.writtenBack ino).din ino
  rw [hslot, hcached'.din, hinode, hcached.din]

section Same

variable {n : Nat} {hand : List Nat} {D : Set BlockPath} (hs : SameData v v')
  (h : Owned v D hand free all) (hnum : ∀ p ∈ D, InodeNumber v p.1.1)
include hs h hnum

theorem SameData.agree : Agree D v.forest v'.forest := by
  refine ⟨fun ⟨i, r⟩ hp => ?_, fun r is i hp => ?_⟩
  · change Dinode.addrAt _ r = Dinode.addrAt _ r
    simp only [Dinode.addrAt, hs.addr i (.inr (hnum _ hp))]
  · exact congrArg (Bytes.word · i)
      (hs.blocks _ (h.data_of_mem (h.node_mem (h.partition.closed r is i hp))))

theorem Owned.same : Owned v' D hand free all := by
  have hlist : FreeList v' free := by
    refine ⟨hs.sb ▸ h.list.volume, ?_, h.list.nodup, fun b hb => ?_, hs.sb ▸ h.list.total⟩
    · rw [hs.sb]
      refine h.list.holds.congr (fun _ _ => rfl) fun b hb => ?_
      have hblock := hs.blocks b (h.data_of_mem (h.reserve (List.mem_append_right _ hb)))
      simp only [VDisk.saved, VDisk.word, hblock]
    · rw [datablockNumberSanity, hs.sb]
      exact h.list.sane b hb
  exact h.relist (h.geometry.congr hs.blksize ⟨_, _, _, _, hs.sb⟩)
    ⟨hs.faults.trans h.live.faults, hs.readonly.trans h.live.writable⟩ hlist (.refl _) (hs.agree h hnum)
    fun b => by rw [datablockNumberSanity, hs.sb]; rfl

end Same

theorem within_number {n : Nat} (hnum : ∀ i, cnt i ≠ 0 → InodeNumber v i) :
    ∀ p ∈ Within n cnt, InodeNumber v p.1.1 := fun _ hp =>
  hnum _ (Nat.ne_of_gt (Nat.lt_of_le_of_lt (Nat.zero_le _) hp.2))

theorem SameData.nidx (hs : SameData v v') : v'.nidx = v.nidx := by rw [VDisk.nidx, hs.blksize]; rfl

namespace Stored

variable (h : Stored cnt all ino v free) (hs : SameData v v')
include h hs

theorem same : Stored cnt all ino v' free := by
  have hsize := hs.filesize ino (.inl h.cached)
  refine ⟨?_, fun i hi => hs.number (h.numbers i hi), hs.number h.number, (hs.cached ino).mpr h.cached,
    ?_, ?_⟩
  · rw [hs.nidx]
    exact h.owned.same hs (within_number h.numbers)
  · rw [hsize, hs.blksize]
    exact h.count
  · rw [hsize]
    exact ⟨h.size.lt, hs.blksize.symm ▸ h.size.addr.congr hs.blksize⟩

theorem fileBlock_same (hm : m * v.blksize < v.filesize ino) : v'.fileBlock ino m = v.fileBlock ino m := by
  rw [VDisk.fileBlock, hs.nidx]
  exact (hs.agree h.owned (within_number h.numbers)).node h.owned.partition.closed (h.mem_within hm)

theorem data_same (hm : m * v.blksize < v.filesize ino) :
    v'.io.blocks (v'.fileBlock ino m) = v.io.blocks (v.fileBlock ino m) := by
  rw [h.fileBlock_same hs hm]
  exact hs.blocks _ (h.owned.data_of_mem (h.block_mem hm))

theorem fileByte_same {k : Nat} (hk : k / v.blksize * v.blksize < v.filesize ino) :
    v'.fileByte ino k = v.fileByte ino k := by
  rw [VDisk.fileByte, hs.blksize, h.data_same hs hk]
  rfl

theorem content_same : v'.content ino = v.content ino := by
  rw [VDisk.content, hs.filesize ino (.inl h.cached)]
  exact List.map_congr_left fun k hk => h.fileByte_same hs (block_start_lt (List.mem_range.mp hk))

end Stored

section Resize

variable {free' : List Nat} {newsz : Nat} (h : Stored cnt all ino v free)
  (r : Resized cnt all ino newsz v free v' free') (hnew : FileSize v newsz)

/-- The numbers of data blocks when inode `ino` has size `sz`. -/
def countsAt (v : VDisk) (cnt : Nat → Nat) (ino sz : Nat) : Nat → Nat :=
  Function.update cnt ino (ceil sz v.blksize)

include h r hnew

theorem Resized.filesize_eq : v'.filesize ino = newsz := r.filesize h.cached hnew.lt

theorem Resized.stored : Stored (countsAt v cnt ino newsz) all ino v' free' where
  owned := by
    have hnidx : v'.nidx = v.nidx := by rw [VDisk.nidx, r.blksize]; rfl
    rw [hnidx]
    exact r.owned
  numbers i hi := by
    refine InodeNumber.congr ?_ r.blksize r.sb
    by_cases hii : i = ino
    · exact hii ▸ h.number
    · exact h.numbers i (by rwa [countsAt, Function.update_of_ne hii] at hi)
  number := h.number.congr r.blksize r.sb
  cached := by
    obtain ⟨_, _, hown⟩ := r.own
    rw [VDisk.Cached, hown, Option.isSome_map]
    exact h.cached
  count := by
    rw [r.filesize_eq h hnew, r.blksize]
    exact Function.update_self ..
  size := by
    rw [r.filesize_eq h hnew]
    exact ⟨hnew.lt, r.blksize.symm ▸ hnew.addr.congr r.blksize⟩

variable {m : Nat} (hm : m * v.blksize < newsz)
include hm

omit hnew in
/-- A data block that was there already is where it was. -/
theorem Resized.fileBlock_old (hold : m * v.blksize < v.filesize ino) :
    v'.fileBlock ino m = v.fileBlock ino m ∧
      v'.io.blocks (v'.fileBlock ino m) = v.io.blocks (v.fileBlock ino m) := by
  have hplace := h.dataPlace hold
  have hlt : m < min (cnt ino) (ceil newsz v.blksize) := by
    rw [h.count]
    exact Nat.lt_min.mpr ⟨(lt_ceil h.blksize_pos).mpr hold, (lt_ceil h.blksize_pos).mpr hm⟩
  have hmem : ((ino, (placeOf v.nidx m).1), (placeOf v.nidx m).2) ∈
      Within v.nidx (Function.update cnt ino (min (cnt ino) (ceil newsz v.blksize))) :=
    hplace.mem_within _ (by rwa [Function.update_self])
  have hnidx : v'.nidx = v.nidx := by rw [VDisk.nidx, r.blksize]; rfl
  have hnode : v'.fileBlock ino m = v.fileBlock ino m := by
    rw [VDisk.fileBlock, hnidx]
    exact r.node _ hmem
  exact ⟨hnode, by rw [hnode]; exact r.data _ hmem fun _ => hplace.full⟩

/-- A new data block is cleared. -/
theorem Resized.data_new (hold : v.filesize ino ≤ m * v.blksize) :
    v'.io.blocks (v'.fileBlock ino m) = zeroBlock := by
  have hs := r.stored h hnew
  have hnidx : v'.nidx = v.nidx := by rw [VDisk.nidx, r.blksize]; rfl
  have hplace := hs.dataPlace (m := m) (by rw [r.blksize, r.filesize_eq h hnew]; exact hm)
  rw [hnidx] at hplace
  rw [VDisk.fileBlock, hnidx]
  refine r.zero m _ ?_ ((lt_ceil h.blksize_pos).mpr hm) hplace
  rw [h.count]
  exact Nat.not_lt.mp fun hlt => Nat.not_lt.mpr hold ((lt_ceil h.blksize_pos).mp hlt)

end Resize

/-- The number of blocks that a file has or can get. -/
def VDisk.room (v : VDisk) (ino : Nat) : Nat :=
  v.sb.totalFreeblock + (placesOf v.nidx (ceil (v.filesize ino) v.blksize)).length

theorem SameData.room (hs : SameData v v') (h : v.Cached ino) : v'.room ino = v.room ino := by
  rw [VDisk.room, VDisk.room, hs.sb, hs.nidx, hs.blksize, hs.filesize ino (.inl h)]

/-- There are enough free blocks for a file to grow to size `sz`. -/
def VDisk.FreeFor (v : VDisk) (ino sz : Nat) : Prop :=
  (placesOf v.nidx (ceil sz v.blksize)).length ≤ v.room ino

theorem Resized.room {free' : List Nat} {newsz : Nat} (h : Stored cnt all ino v free)
    (r : Resized cnt all ino newsz v free v' free') (hnew : FileSize v newsz) : v'.room ino = v.room ino := by
  have hs := r.stored h hnew
  have hnidx : v'.nidx = v.nidx := by rw [VDisk.nidx, r.blksize]; rfl
  have hlength := r.length
  rw [VDisk.room, VDisk.room, hs.owned.list.total, h.owned.list.total, r.filesize_eq h hnew, r.blksize, hnidx,
    ← h.count]
  omega

/-- A file grows if there is room. -/
theorem Stored.grow {newsz : Nat} (h : Stored cnt all ino v free) (hnew : FileSize v newsz)
    (hle : v.filesize ino ≤ newsz) (hup : newsz < v.filesize ino + 2147483648) (hroom : v.FreeFor ino newsz) :
    ∃ v' free', (datablockSizeChange newsz ino).run v = (.ok, v') ∧
      Resized cnt all ino newsz v free v' free' := by
  have hceil : ceil (v.filesize ino) v.blksize ≤ ceil newsz v.blksize := Nat.div_le_div_right (by omega)
  rw [VDisk.FreeFor, VDisk.room, h.owned.list.total, ← h.count] at hroom
  rcases datablockSizeChange_spec h.owned h.numbers h.number h.cached h.count h.size hnew hup
    (Nat.le_trans hle (Nat.le_add_right ..)) (fun hlt => absurd hlt (Nat.not_lt.mpr hceil)) with
    ⟨_, _, _, _, hshort, _⟩ | hdone
  · omega
  · exact hdone

/-- A file does not grow if there is no room. -/
theorem Stored.grow_refused {newsz : Nat} (h : Stored cnt all ino v free) (hnew : FileSize v newsz)
    (hle : v.filesize ino ≤ newsz) (hup : newsz < v.filesize ino + 2147483648) (hroom : ¬ v.FreeFor ino newsz) :
    ∃ rc v', (datablockSizeChange newsz ino).run v = (rc, v') ∧ rc ≠ .ok := by
  have hceil : ceil (v.filesize ino) v.blksize ≤ ceil newsz v.blksize := Nat.div_le_div_right (by omega)
  rw [VDisk.FreeFor, VDisk.room, h.owned.list.total, ← h.count] at hroom
  rcases datablockSizeChange_spec h.owned h.numbers h.number h.cached h.count h.size hnew hup
    (Nat.le_trans hle (Nat.le_add_right ..)) (fun hlt => absurd hlt (Nat.not_lt.mpr hceil)) with
    ⟨rc, v', hrun, hrc, _, _⟩ | ⟨_, free', _, r⟩
  · exact ⟨rc, v', hrun, hrc⟩
  · have hlength := r.length
    omega

end Writes

end Ufs370
