import Ufs370.DamagedList

/-! `ufs_disk_open`: the disks that are accepted, and where their inodes are looked up. -/

namespace Ufs370

open Lib

def bootblockSector : Nat := 0

def superblockSector : Nat := 1

structure Boot where
  type : UInt16
  check : UInt16
  blksize : UInt16
  deriving DecidableEq

namespace Boot

/-- The `UFSBOOT` at the start of block 0. -/
def ofBlock (b : Block) : Boot := ⟨Bytes.half b 0x00, Bytes.half b 0x02, Bytes.half b 0x04⟩

end Boot

namespace Superblock

/-- The `UFSSB` at the start of block 1, without its times and locks. -/
def ofBlock (b : Block) : Superblock where
  datablockStartSector := Bytes.word b 0
  volumeSize := Bytes.word b 1
  modified := false
  readonly := b 0x0B ≠ 0
  totalFreeblock := Bytes.word b 4
  totalFreeinode := Bytes.word b 5
  nfreeblock := Bytes.word b 7
  freeblock := fun i => if i < maxFreeblock then Bytes.word b (8 + i) else 0
  nfreeinode := Bytes.word b 59
  freeinode := fun i => if i < maxFreeinode then Bytes.word b (60 + i) else 0
  inodesPerBlock := Bytes.word b 124
  blksizeShift := Bytes.word b 125
  ilistSector := Bytes.word b 126

/-- `update_time`, a signed word. -/
def updateTime (b : Block) : Int := (BitVec.ofNat 32 (Bytes.word b 3)).toInt

end Superblock

def diskReadSuper : Prog Store (Except Rc Block) := do
  if ← Store.alloc then
    Store.read superblockSector
  else
    return .error .enomem

/-- The version of the format, in the extension of the boot block. -/
def bootVersion (b : Block) : UInt8 := b 0x18

/-- The handle of an accepted disk, with no inode in use. -/
def openedDisk (blksize : Nat) (readonly modified : Bool) (super : Superblock) (io : Store) : VDisk where
  blksize := blksize
  readonly := readonly
  sb := { super with modified }
  io := io
  super := super
  minodes := []

/-- `ufs_disk_open` from the opened dataset on, which has blocks of `blksize` bytes and is allocated
`DISP=SHR` or not.  A disk of the old format is marked as modified. -/
def diskOpen (blksize : UInt16) (share checkSb : Bool) : Prog Store (Option VDisk) := do
  if blksize.toNat &&& 511 ≠ 0 then
    return none
  if !(← Store.alloc) then
    return none
  match ← Store.read bootblockSector with
  | .error _ => return none
  | .ok buf =>
    let boot := Boot.ofBlock buf
    if boot.blksize ≠ blksize then
      return none
    if boot.type.toNat + boot.check.toNat ≠ 0xFFFF then
      return none
    if !(← Store.alloc) then
      return none
    match ← diskReadSuper with
    | .error _ => return none
    | .ok sbuf =>
      let super := Superblock.ofBlock sbuf
      let errors ← if checkSb then diskCheckSuper super (Superblock.updateTime sbuf) else pure 0
      if errors ≠ 0 then
        return none
      return some (openedDisk blksize.toNat share (bootVersion buf = 0) super (← Prog.get))

/-- What an accepted disk promises for every 32 bit number that a directory entry may hold. -/
structure AddressesSound (v : VDisk) : Prop where
  block : ∀ m < 4294967296, (inodeInquireDiskLocation v m).1 = .ok →
    v.sb.ilistSector ≤ (inodeInquireDiskLocation v m).2.1 ∧
      (inodeInquireDiskLocation v m).2.1 < v.sb.datablockStartSector
  offset : ∀ m < 4294967296, (inodeInquireDiskLocation v m).1 = .ok →
    (inodeInquireDiskLocation v m).2.2 < v.blksize / dinodeSize
  distinct : ∀ m < 4294967296, ∀ n < 4294967296, (inodeInquireDiskLocation v m).1 = .ok →
    inodeInquireDiskLocation v m = inodeInquireDiskLocation v n → m = n

/-- No number leads to a block below the data blocks. -/
def NoTable (sb : Superblock) : Prop :=
  sb.datablockStartSector ≤ sb.ilistSector ∧
    (sb.ilistSector + 4294967168 >>> sb.blksizeShift < 4294967296 ∨
      sb.datablockStartSector ≤ sb.ilistSector % 2 ^ (7 - sb.blksizeShift))

instance (sb : Superblock) : Decidable (NoTable sb) := inferInstanceAs (Decidable (_ ∧ _))

section Location

variable {v : VDisk} {m : Nat}

/-- The byte offset of a slot, which a 32 bit word holds. -/
def slotByte (m : Nat) : Nat := u32 (u32sub m 1 * dinodeSize)

theorem slotByte_succ {k : Nat} (hk : k < 33554432) : slotByte (k + 1) = 128 * k := by
  have hsub : u32sub (k + 1) 1 = k := u32sub_of_le (Nat.succ_pos k)
  rw [slotByte, hsub, Nat.mul_comm]
  exact u32_of_lt (by simp only [dinodeSize]; omega)

theorem slotByte_eq (m : Nat) : ∃ k < 33554432, slotByte m = 128 * k := by
  refine ⟨u32sub m 1 % 33554432, Nat.mod_lt _ (by decide), ?_⟩
  rw [slotByte, u32, Nat.mul_comm, show 4294967296 = dinodeSize * 33554432 from rfl, Nat.mul_mod_mul_left]
  rfl

/-- Two numbers that are `2 ^ 25` apart have the same slot. -/
theorem location_again (hm : m < 4294967296) : ∃ n < 4294967296, n ≠ m ∧
    inodeInquireDiskLocation v m = inodeInquireDiskLocation v n := by
  have hsame {n : Nat} (h : slotByte m = slotByte n) :
      inodeInquireDiskLocation v m = inodeInquireDiskLocation v n := by
    rw [slotByte, slotByte] at h
    simp only [inodeInquireDiskLocation, h]
  by_cases hlow : m < 33554432
  · refine ⟨m + 33554432, by omega, by omega, hsame ?_⟩
    simp only [slotByte, u32, u32sub, dinodeSize]
    split <;> split <;> omega
  · refine ⟨m - 33554432, by omega, by omega, hsame ?_⟩
    simp only [slotByte, u32, u32sub, dinodeSize]
    split <;> split <;> omega

/-- Such a disk has sound addresses only if no number has an address. -/
theorem addressesSound_iff_none : AddressesSound v ↔ ∀ m < 4294967296, (inodeInquireDiskLocation v m).1 ≠ .ok := by
  constructor
  · intro h m hm hok
    obtain ⟨n, hn, hne, heq⟩ := location_again (v := v) hm
    exact hne (h.distinct m hm n hn hok heq).symm
  · exact fun h => ⟨fun m hm hok => absurd hok (h m hm), fun m hm hok => absurd hok (h m hm),
      fun m hm n _ hok => absurd hok (h m hm)⟩

theorem location_ok_iff : (inodeInquireDiskLocation v m).1 = .ok ↔
    u32 (slotByte m >>> v.sb.blksizeShift + v.sb.ilistSector) < v.sb.datablockStartSector := by
  simp only [inodeInquireDiskLocation, slotByte]
  split <;> simp_all

/-- `128 * k` shifted right by less than 7. -/
theorem shift_small {s : Nat} (hs : s ≤ 7) (k : Nat) : (128 * k) >>> s = 2 ^ (7 - s) * k := by
  have hpow : 128 * k = 2 ^ (7 - s) * k * 2 ^ s := by
    rw [show 128 = 2 ^ (7 - s + s) by rw [Nat.sub_add_cancel hs]; rfl, Nat.pow_add]
    exact Nat.mul_right_comm ..
  rw [Nat.shiftRight_eq_div_pow, hpow, Nat.mul_div_cancel _ (Nat.pow_pos (by decide))]

/-- The blocks of the slots go up in steps of the power of two by which the shift falls short of a slot. -/
theorem slotByte_shift {s k : Nat} : 2 ^ (7 - s) ∣ (128 * k) >>> s := by
  rcases Nat.le_total s 7 with hs | hs
  · rw [shift_small hs]
    exact Nat.dvd_mul_right ..
  · rw [Nat.sub_eq_zero_of_le hs, Nat.pow_zero]
    exact Nat.one_dvd _

/-- They reach every such step up to the last one. -/
theorem exists_slotByte_shift {s b : Nat} (hdvd : 2 ^ (7 - s) ∣ b) (hle : b ≤ 4294967168 >>> s) :
    ∃ k < 33554432, (128 * k) >>> s = b := by
  rcases Nat.le_total s 7 with hs | hs
  · obtain ⟨k, rfl⟩ := hdvd
    rw [show 4294967168 = 128 * 33554431 from rfl, shift_small hs] at hle
    exact ⟨k, Nat.lt_succ_of_le (Nat.le_of_mul_le_mul_left hle (Nat.pow_pos (by decide))), shift_small hs k⟩
  · have hpow : 2 ^ s = 128 * 2 ^ (s - 7) := by
      rw [show 128 = 2 ^ 7 from rfl, ← Nat.pow_add, Nat.add_sub_cancel' hs]
    have heq : 128 * (b * 2 ^ (s - 7)) = b * 2 ^ s := by
      rw [hpow]
      exact Nat.mul_left_comm ..
    rw [Nat.shiftRight_eq_div_pow, Nat.le_div_iff_mul_le (Nat.pow_pos (by decide)), ← heq] at hle
    refine ⟨b * 2 ^ (s - 7), by omega, ?_⟩
    rw [heq, Nat.shiftRight_eq_div_pow, Nat.mul_div_cancel _ (Nat.pow_pos (by decide))]

theorem none_iff_noTable (hilist : v.sb.ilistSector < 4294967296) :
    (∀ m < 4294967296, (inodeInquireDiskLocation v m).1 ≠ .ok) ↔ NoTable v.sb := by
  simp only [ne_eq, location_ok_iff, Nat.not_lt, NoTable]
  have hstep : 2 ^ (7 - v.sb.blksizeShift) ∣ 4294967296 :=
    Nat.pow_dvd_pow 2 (show 7 - v.sb.blksizeShift ≤ 32 by omega)
  constructor
  · intro h
    have hnum {k : Nat} (hk : k < 33554432) :
        v.sb.datablockStartSector ≤ u32 ((128 * k) >>> v.sb.blksizeShift + v.sb.ilistSector) := by
      rw [← slotByte_succ hk]
      exact h (k + 1) (by omega)
    refine ⟨?_, ?_⟩
    · have hfirst := hnum (k := 0) (by decide)
      rwa [Nat.mul_zero, Nat.zero_shiftRight, Nat.zero_add, u32_of_lt hilist] at hfirst
    · by_contra hnot
      obtain ⟨hwrap, hlow⟩ := not_or.mp hnot
      -- the first block number past the end of a word comes back at the start
      generalize hp : 2 ^ (7 - v.sb.blksizeShift) = p at hstep hlow
      have hpos : 0 < p := hp ▸ Nat.pow_pos (by decide)
      have hmod := Nat.div_add_mod' v.sb.ilistSector p
      have hrem := Nat.mod_lt v.sb.ilistSector hpos
      have hdvd : p ∣ 4294967296 - v.sb.ilistSector / p * p := Nat.dvd_sub hstep (Nat.dvd_mul_left ..)
      have hreach : 4294967296 - v.sb.ilistSector / p * p ≤ 4294967168 >>> v.sb.blksizeShift := by
        have hlast : p ∣ 4294967168 >>> v.sb.blksizeShift :=
          hp ▸ slotByte_shift (s := v.sb.blksizeShift) (k := 33554431)
        by_contra hless
        have hgap := Nat.le_of_dvd (by omega) (Nat.dvd_sub hdvd hlast)
        omega
      obtain ⟨k, hk, hblk⟩ := exists_slotByte_shift (hp.symm ▸ hdvd) hreach
      have hle := hnum hk
      have hback : u32 (4294967296 - v.sb.ilistSector / p * p + v.sb.ilistSector) = v.sb.ilistSector % p := by
        rw [u32]
        omega
      rw [hblk, hback] at hle
      exact hlow hle
  · rintro ⟨hle, hend⟩ m hm
    obtain ⟨k, hk, hbyte⟩ := slotByte_eq m
    rw [hbyte]
    rcases hend with hend | hend
    · have hlast : (128 * k) >>> v.sb.blksizeShift ≤ 4294967168 >>> v.sb.blksizeShift := by
        rw [Nat.shiftRight_eq_div_pow, Nat.shiftRight_eq_div_pow]
        exact Nat.div_le_div_right (by omega)
      rw [u32_of_lt (by omega)]
      exact Nat.le_trans hle (Nat.le_add_left ..)
    · refine Nat.le_trans hend ?_
      have hmod : u32 ((128 * k) >>> v.sb.blksizeShift + v.sb.ilistSector) % 2 ^ (7 - v.sb.blksizeShift) =
          v.sb.ilistSector % 2 ^ (7 - v.sb.blksizeShift) := by
        obtain ⟨q, hq⟩ := slotByte_shift (s := v.sb.blksizeShift) (k := k)
        rw [u32, Nat.mod_mod_of_dvd _ hstep, hq, Nat.mul_add_mod]
      rw [← hmod]
      exact Nat.mod_le ..

end Location

section Accepted

variable {blksize : UInt16} {share checkSb : Bool} {s : Store} {v : VDisk}

/-- Requests other than writes leave the blocks alone. -/
theorem read_triple (blocks : Nat → Block) (block : Nat) : Prog.Triple (fun s => s.blocks = blocks) (Store.read block)
    fun r s => s.blocks = blocks ∧ ∀ buf, r = .ok buf → buf = blocks block where
  run s hs := by
    rw [Store.read_run, hs]
    refine ⟨rfl, fun buf h => ?_⟩
    split at h
    · exact (Except.ok.inj h).symm
    · cases h

theorem alloc_triple (blocks : Nat → Block) : Prog.Triple (fun s => s.blocks = blocks) Store.alloc
    fun _ s => s.blocks = blocks where
  run s hs := by rw [Store.alloc_run, hs]

theorem diskReadSuper_triple (blocks : Nat → Block) : Prog.Triple (fun s => s.blocks = blocks) diskReadSuper
    fun r s => s.blocks = blocks ∧ ∀ buf, r = .ok buf → buf = blocks superblockSector := by
  refine .bind (alloc_triple blocks) fun ok => .ite (fun _ => read_triple blocks _) fun _ => .pure fun s hs => ?_
  exact ⟨hs, fun buf h => by cases h⟩

/-- The super block of a disk that is accepted is the one in block 1. -/
def FromBlock1 (blocks : Nat → Block) (r : Option VDisk) : Prop :=
  ∀ v, r = some v → ∃ m, v.sb = { Superblock.ofBlock (blocks superblockSector) with modified := m }

theorem FromBlock1.openedDisk (blocks : Nat → Block) (blksize : Nat) (readonly modified : Bool) (io : Store) :
    FromBlock1 blocks (some (openedDisk blksize readonly modified (.ofBlock (blocks superblockSector)) io)) := by
  intro v h
  generalize Superblock.ofBlock (blocks superblockSector) = super at h ⊢
  obtain rfl := Option.some.inj h
  exact ⟨modified, rfl⟩

theorem diskOpen_triple (blocks : Nat → Block) : Prog.Triple (fun s => s.blocks = blocks) (diskOpen blksize share checkSb)
    fun r _ => FromBlock1 blocks r := by
  have hnone {P : Store → Prop} : Prog.Triple P (pure none) fun r _ => FromBlock1 blocks r :=
    .pure fun s _ v h => by cases h
  refine .ite (fun _ => hnone) fun _ => .bind (alloc_triple blocks) fun ok => .ite (fun _ => hnone) fun _ => ?_
  refine .bind (read_triple blocks _) fun r => ?_
  cases r with
  | error rc => exact hnone
  | ok buf =>
    refine .ite (fun _ => hnone) fun _ => .ite (fun _ => hnone) fun _ => ?_
    refine .bind ((alloc_triple blocks).pre fun s h => h.1) fun ok => .ite (fun _ => hnone) fun _ => ?_
    refine .bind (diskReadSuper_triple blocks) fun r => ?_
    cases r with
    | error rc => exact hnone
    | ok sbuf =>
      refine .at_state fun s hs => ?_
      obtain rfl : sbuf = blocks superblockSector := hs.2 sbuf rfl
      have htrivial {α : Type} {x : Prog Store α} : Prog.Triple (fun s' => s' = s) x fun _ _ => True :=
        ⟨fun _ _ => trivial⟩
      refine .ite (fun _ => .bind htrivial fun errors => ?_) fun _ => .bind htrivial fun errors => ?_
      · exact .ite (fun _ => hnone) fun _ => .get fun io _ => .pure fun _ _ => FromBlock1.openedDisk _ _ _ _ _
      · exact .ite (fun _ => hnone) fun _ => .get fun io _ => .pure fun _ _ => FromBlock1.openedDisk _ _ _ _ _

theorem diskOpen_some (haccepted : ((diskOpen blksize share checkSb).run s).1 = some v) :
    ∃ m, v.sb = { Superblock.ofBlock (s.blocks superblockSector) with modified := m } :=
  (diskOpen_triple s.blocks).run s rfl v haccepted

end Accepted

/-- A boot block, and a super block of 128 blocks of 512 bytes. -/
def formatted (datablockStartSector ilistSector : Nat) : Store where
  blocks b :=
    if b = bootblockSector then Bytes.setWord (Bytes.setWord zeroBlock 0 0x0002FFFD) 1 0x02000000
    else if b = superblockSector then
      [(0, datablockStartSector), (1, 128), (5, 1), (124, 4), (125, 9), (126, ilistSector)].foldl
        (fun b e => Bytes.setWord b e.1 e.2) zeroBlock
    else zeroBlock
  faults := []

end Ufs370
