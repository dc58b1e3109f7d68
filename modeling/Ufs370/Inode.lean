import Ufs370.Disk

/-! Inodes: their slots on the disk, the cache of those in use and the list of free ones. -/

namespace Ufs370

open Lib

def ifmt : Nat := 0xF000
def ifdir : Nat := 0x4000
def ifreg : Nat := 0x8000

def rootInode : Nat := 2

/-- `sizeof(UFSDIN)` -/
def dinodeSize : Nat := 128

namespace Dinode

def isdir (d : Dinode) : Bool := decide (d.mode.toNat &&& ifmt = ifdir)

def isfile (d : Dinode) : Bool := decide (d.mode.toNat &&& ifmt = ifreg)

/-- `memset(dinode, 0, sizeof(UFSDIN))` -/
def zero : Dinode where
  mode := 0
  nlink := 0
  filesize := 0
  ctime := ⟨0, 0⟩
  mtime := ⟨0, 0⟩
  atime := ⟨0, 0⟩
  owner := fun _ => 0
  group := fun _ => 0
  codepage := 0
  addr := fun _ => 0

/-- The list of block addresses; an index past its end reads as 0. -/
def addrAt (d : Dinode) (i : Nat) : Nat := if h : i < 19 then (d.addr ⟨i, h⟩).toNat else 0

def setAddr (d : Dinode) (i blk : Nat) : Dinode :=
  { d with addr := fun j => if j.val = i then UInt32.ofNat blk else d.addr j }

def setFilesize (d : Dinode) (sz : Nat) : Dinode := { d with filesize := UInt32.ofNat sz }

/-- Byte `k` of a `UFSDIN` on the disk. -/
def byte (d : Dinode) (k : Nat) : UInt8 :=
  if k < 0x02 then Bytes.byteOf 2 d.mode.toNat k
  else if k < 0x04 then Bytes.byteOf 2 d.nlink.toNat (k - 0x02)
  else if k < 0x08 then Bytes.byteOf 4 d.filesize.toNat (k - 0x04)
  else if k < 0x0C then Bytes.byteOf 4 d.ctime.hi.toNat (k - 0x08)
  else if k < 0x10 then Bytes.byteOf 4 d.ctime.lo.toNat (k - 0x0C)
  else if k < 0x14 then Bytes.byteOf 4 d.mtime.hi.toNat (k - 0x10)
  else if k < 0x18 then Bytes.byteOf 4 d.mtime.lo.toNat (k - 0x14)
  else if k < 0x1C then Bytes.byteOf 4 d.atime.hi.toNat (k - 0x18)
  else if k < 0x20 then Bytes.byteOf 4 d.atime.lo.toNat (k - 0x1C)
  else if h : k < 0x29 then d.owner ⟨k - 0x20, by omega⟩
  else if h : k < 0x32 then d.group ⟨k - 0x29, by omega⟩
  else if k < 0x34 then Bytes.byteOf 2 d.codepage.toNat (k - 0x32)
  else Bytes.byteOf 4 (d.addrAt ((k - 0x34) / 4)) ((k - 0x34) % 4)

/-- The `UFSDIN` in slot `ofs` of a block. -/
def ofBlock (b : Block) (ofs : Nat) : Dinode where
  mode := Bytes.half b (dinodeSize * ofs)
  nlink := Bytes.half b (dinodeSize * ofs + 0x02)
  filesize := Bytes.long b (dinodeSize * ofs + 0x04)
  ctime := ⟨Bytes.long b (dinodeSize * ofs + 0x08), Bytes.long b (dinodeSize * ofs + 0x0C)⟩
  mtime := ⟨Bytes.long b (dinodeSize * ofs + 0x10), Bytes.long b (dinodeSize * ofs + 0x14)⟩
  atime := ⟨Bytes.long b (dinodeSize * ofs + 0x18), Bytes.long b (dinodeSize * ofs + 0x1C)⟩
  owner := fun i => b (dinodeSize * ofs + 0x20 + i)
  group := fun i => b (dinodeSize * ofs + 0x29 + i)
  codepage := Bytes.half b (dinodeSize * ofs + 0x32)
  addr := fun i => Bytes.long b (dinodeSize * ofs + 0x34 + 4 * i)

/-- The block with its slot `ofs` set to `d`. -/
def toBlock (d : Dinode) (b : Block) (ofs : Nat) : Block :=
  fun o => if o / dinodeSize = ofs then d.byte (o % dinodeSize) else b o

end Dinode

namespace VDisk

/-- The handle of an inode that is in the cache. -/
def minode? (v : VDisk) (ino : Nat) : Option Minode :=
  v.minodes.find? fun m => decide (m.inodeNumber = ino)

/-- What a `UFSMIN` pointer refers to.  The pointer is the number of the inode. -/
def deref (v : VDisk) (ino : Nat) : Minode :=
  (v.minode? ino).getD ⟨ino, false, 0, none, .zero⟩

/-- The inode as its handle shows it. -/
abbrev din (v : VDisk) (ino : Nat) : Dinode := (v.deref ino).dinode

def setMinode (v : VDisk) (ino : Nat) (f : Minode → Minode) : VDisk :=
  { v with minodes := v.minodes.map fun m => if m.inodeNumber = ino then f m else m }

def setDinode (v : VDisk) (ino : Nat) (f : Dinode → Dinode) : VDisk :=
  v.setMinode ino fun m => { m with dinode := f m.dinode }

end VDisk

def modifyMinode (ino : Nat) (f : Minode → Minode) : Prog VDisk Unit :=
  Prog.modify fun v => v.setMinode ino f

def modifyDinode (ino : Nat) (f : Dinode → Dinode) : Prog VDisk Unit :=
  Prog.modify fun v => v.setDinode ino f

def maxInode (blksize datablockStartSector : Nat) : Nat :=
  u32 (u32sub datablockStartSector 2 * (blksize / dinodeSize))

def inodeNumberSanity (v : VDisk) (inode : Nat) : Rc :=
  if inode < rootInode ∨ maxInode v.blksize v.sb.datablockStartSector ≤ inode then .enospc else .ok

/-- The block and slot of inode `n`, which the caller gets even if they are refused. -/
def inodeInquireDiskLocation (v : VDisk) (n : Nat) : Rc × Nat × Nat :=
  let ofs := u32 (u32sub n 1 * dinodeSize)
  let blk := ofs >>> v.sb.blksizeShift
  let block := u32 (blk + v.sb.ilistSector)
  (if block < v.sb.datablockStartSector then .ok else .enoent, block,
    u32sub ofs (u32 (blk * v.blksize)) / dinodeSize)

def inodeWriteback (ino : Nat) : Prog VDisk Rc := do
  let (rc, blk, ofs) := inodeInquireDiskLocation (← Prog.get) ino
  if rc ≠ .ok then
    return .enoent
  match ← readBuf blk with
  | .error error => return error
  | .ok buf =>
    let error ← writeBuf (((← Prog.get).din ino).toBlock buf ofs) blk
    if error ≠ .ok then
      return error
    modifyMinode ino fun m => { m with dirty := false }
    return .ok

/-- A fresh handle for an inode read from the disk.  A failing buffer is an I/O error here. -/
def inodeLoad (inode : Nat) : Prog VDisk (Except Rc Minode) := do
  let (rc, blk, ofs) := inodeInquireDiskLocation (← Prog.get) inode
  if rc ≠ .ok then
    return .error .enoent
  match ← readBuf blk with
  | .error _ => return .error .eio
  | .ok buf => return .ok ⟨inode, false, 0, none, .ofBlock buf ofs⟩

def u16 (n : Nat) : Nat := n % 65536

def inodeUse (ino : Nat) : Prog VDisk Unit :=
  modifyMinode ino fun m => { m with usecount := u16 (m.usecount + 1) }

/-- A counted reference to inode `ino`, or `NULL`. -/
def inodeGet (ino : Nat) : Prog VDisk (Option Nat) := do
  match (← Prog.get).minode? ino with
  | some _ =>
    inodeUse ino
    return some ino
  | none =>
    if ← VDisk.onStore Store.alloc then
      match ← inodeLoad ino with
      | .error _ => return none
      | .ok m =>
        Prog.modify fun v => { v with minodes := v.minodes ++ [m] }
        inodeUse ino
        return some ino
    else
      return none

/-- Directories with links stay in the cache when the last reference goes. -/
def inodeRel (ino : Nat) : Prog VDisk Unit := do
  modifyMinode ino fun m => { m with usecount := m.usecount - 1 }
  let m := (← Prog.get).deref ino
  if m.dinode.isdir ∧ m.dinode.nlink ≠ 0 then
    return ()
  if m.usecount = 0 then
    Prog.modify fun v =>
      { v with minodes := v.minodes.eraseP fun m => decide (m.inodeNumber = ino) }

/-- `ufs_disk_write`, which goes to the disk behind the cache, to block 1. -/
def diskWriteSector1 (sb : Superblock) : Prog VDisk Rc := do
  if (← Prog.get).readonly then
    return .erofs
  let f ← VDisk.onStore Store.takeFault
  if f ≠ .fail then
    Prog.modify fun v => { v with super := sb }
  return if f = .none then .ok else .decb

/-- Only whether the write of the boot block works matters to the caller. -/
def diskWriteBoot : Prog VDisk Rc := do
  if (← Prog.get).sb.readonly then
    return .erofs
  if ← VDisk.onStore Store.alloc then
    if (← Prog.get).readonly then
      return .erofs
    return if (← VDisk.onStore Store.takeFault) = .none then .ok else .decb
  else
    return .enomem

def diskWriteSuper : Prog VDisk Rc := do
  let sb := (← Prog.get).sb
  if sb.readonly then
    return .erofs
  if ← VDisk.onStore Store.alloc then
    let sbu := { sb with modified := false }
    let rc ← diskWriteSector1 sbu
    if rc ≠ .ok then
      return rc
    Prog.modify fun v => { v with sb := sbu }
    diskWriteBoot
  else
    return .enomem

/-- One block of the scan of `ufs_freeinode_update`, `left` slots to go: the superblock,
the number of inodes in its cache and the next inode. -/
def freeinodeScanBlock (buf : Block) : Nat → Nat → Nat → Nat → Superblock → Superblock × Nat × Nat
  | 0, _, k, inode, sb => (sb, k, inode)
  | left + 1, j, k, inode, sb =>
    if k < maxFreeinode then
      if (Dinode.ofBlock buf j).mode ≠ 0 then
        freeinodeScanBlock buf left (j + 1) k (inode + 1) sb
      else
        freeinodeScanBlock buf left (j + 1) (k + 1) (inode + 1)
          { sb with freeinode := Function.update sb.freeinode k inode, modified := true }
    else
      (sb, k, inode)

/-- The scan from block `i` on, `left` blocks to go. -/
def freeinodeScan : Nat → Nat → Nat → Nat → Prog VDisk (Rc × Nat)
  | 0, _, k, _ => return (.ok, k)
  | left + 1, i, k, inode => do
    if ← diskGetBuf then
      match ← vdiskRead i with
      | .error _ => freeinodeScan left (i + 1) k (u32 (inode + (← Prog.get).sb.inodesPerBlock))
      | .ok buf =>
        let sb := (← Prog.get).sb
        let (sb, k, inode) := freeinodeScanBlock buf sb.inodesPerBlock 0 k inode sb
        Prog.modify fun v => { v with sb }
        freeinodeScan left (i + 1) k inode
    else
      return (.enomem, k)

def freeinodeUpdate : Prog VDisk Rc := do
  let sb := (← Prog.get).sb
  if sb.readonly then
    return .erofs
  let (rc, k) ←
    freeinodeScan (sb.datablockStartSector - sb.ilistSector) sb.ilistSector sb.nfreeinode 1
  if (← Prog.get).sb.modified then
    Prog.modify fun v => { v with sb := { v.sb with modified := false, nfreeinode := k } }
    if (← diskWriteSuper) ≠ .ok then
      Prog.modify fun v => { v with sb := { v.sb with modified := true } }
      return .eio
    return rc
  else
    return rc

/-- The part of `ufs_inode_allocate` that takes the last number of the cache. -/
def inodeTake : Prog VDisk (Rc × Nat) := do
  let sb := (← Prog.get).sb
  let nfreeinode := u32sub sb.nfreeinode 1
  let inodeNumber := sb.freeinode nfreeinode
  Prog.modify fun v => { v with
    sb := { v.sb with nfreeinode, totalFreeinode := u32sub sb.totalFreeinode 1, modified := true } }
  let error := inodeNumberSanity (← Prog.get) inodeNumber
  if error ≠ .ok then
    return (error, 0)
  return (.ok, inodeNumber)

def inodeAllocate : Prog VDisk (Rc × Nat) := do
  let sb := (← Prog.get).sb
  if sb.readonly then
    return (.erofs, 0)
  if sb.totalFreeinode = 0 then
    return (.enospc, 0)
  if sb.nfreeinode = 0 then
    let error ← freeinodeUpdate
    if error ≠ .ok then
      return (error, 0)
    inodeTake
  else
    inodeTake

def inodeDeallocate (inode : Nat) : Prog VDisk Unit := do
  match ← inodeGet inode with
  | none => return ()
  | some ino =>
    modifyMinode ino fun _ => ⟨inode, false, 0, none, .zero⟩
    let _ ← inodeWriteback ino
    Prog.modify fun v =>
      let sb := v.sb
      { v with sb := { sb with
        freeinode := if sb.nfreeinode < maxFreeinode then
          Function.update sb.freeinode sb.nfreeinode inode else sb.freeinode
        nfreeinode := if sb.nfreeinode < maxFreeinode then sb.nfreeinode + 1 else sb.nfreeinode
        totalFreeinode := u32 (sb.totalFreeinode + 1)
        modified := true } }

end Ufs370
