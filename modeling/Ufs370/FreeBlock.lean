import Ufs370.Disk

/-! The list of free data blocks, a stack whose bottom entry links to the next one. -/

namespace Ufs370

open Lib

def datablockNumberSanity (v : VDisk) (block : Nat) : Bool :=
  decide (v.sb.datablockStartSector ≤ block ∧ block < v.sb.volumeSize)

namespace Superblock

/-- Copy `n` words onto the array `freeblock`.  Words past its 51 entries land in the
fields that follow it. -/
def copyFreeblock (sb : Superblock) (n : Nat) (words : Nat → Nat) : Superblock :=
  { sb with
    freeblock := fun i => if i < n then words i else sb.freeblock i
    nfreeinode := if 51 < n then words 51 else sb.nfreeinode
    freeinode := fun i => if 52 + i < n then words (52 + i) else sb.freeinode i
    inodesPerBlock := if 116 < n then words 116 else sb.inodesPerBlock
    blksizeShift := if 117 < n then words 117 else sb.blksizeShift
    ilistSector := if 118 < n then words 118 else sb.ilistSector }

/-- `memset(sb->freeblock, 0, UFS_MAX_FREEBLOCK)`, which clears 51 bytes and not 51 entries. -/
def clearFreeblock (sb : Superblock) : Nat → Nat := fun i =>
  if i < 12 then 0 else if i = 12 then sb.freeblock i % 256 else sb.freeblock i

end Superblock

def freeblockUpdate (blk : Nat) : Prog VDisk Rc := do
  if ← diskGetBuf then
    if datablockNumberSanity (← Prog.get) blk then
      match ← vdiskRead blk with
      | .error _ => return .eio
      | .ok buf =>
        Prog.modify fun v => { v with
          sb := { v.sb.copyFreeblock (Bytes.word buf 0) (fun i => Bytes.word buf (i + 1)) with
            nfreeblock := Bytes.word buf 0, modified := true } }
        return .ok
    else
      return .eio
  else
    return .enomem

/-- The loop of `ufs_datablock_allocate`.  Each round takes one from `total_freeblock`, so
`fuel` above it is never used up. -/
def allocateLoop : Nat → Rc → Prog VDisk (Rc × Nat)
  | 0, error => return (error, 0)
  | fuel + 1, error => do
    let sb := (← Prog.get).sb
    if sb.totalFreeblock = 0 then
      return (.enospc, 0)
    let nfreeblock := u32sub sb.nfreeblock 1
    let blk := sb.freeblock nfreeblock
    Prog.modify fun v => { v with
      sb := { v.sb with nfreeblock, totalFreeblock := sb.totalFreeblock - 1, modified := true } }
    let error ← if nfreeblock = 0 then freeblockUpdate blk else pure error
    if datablockNumberSanity (← Prog.get) blk then
      return (error, blk)
    allocateLoop fuel error

def datablockAllocate : Prog VDisk (Rc × Nat) := do
  let (error, blk) ← allocateLoop ((← Prog.get).sb.totalFreeblock + 1) .ok
  if error ≠ .ok then
    return (error, 0)
  match ← readBuf blk with
  | .error error => return (error, 0)
  | .ok _ =>
    let error ← writeBuf zeroBlock blk
    return (error, if error = .ok then blk else 0)

/-- A block that holds a full array of free blocks. -/
def freeblockBuf (freeblock : Nat → Nat) : Block := fun o =>
  if o < 4 then Bytes.byteOf 4 maxFreeblock o
  else if o < 4 * (maxFreeblock + 1) then Bytes.byteOf 4 (freeblock (o / 4 - 1)) (o % 4)
  else 0

def datablockDeallocate (blk : Nat) : Prog VDisk Rc := do
  if !datablockNumberSanity (← Prog.get) blk then
    return .eio
  let sb := (← Prog.get).sb
  if sb.nfreeblock < maxFreeblock then
    Prog.modify fun v => { v with
      sb := { v.sb with
        freeblock := Function.update sb.freeblock sb.nfreeblock blk
        nfreeblock := sb.nfreeblock + 1
        totalFreeblock := u32 (sb.totalFreeblock + 1)
        modified := true } }
    return .ok
  match ← readBuf blk with
  | .error error => return error
  | .ok _ =>
    let error ← writeBuf (freeblockBuf sb.freeblock) blk
    if error ≠ .ok then
      return error
    Prog.modify fun v => { v with
      sb := { v.sb with
        freeblock := Function.update v.sb.clearFreeblock 0 blk
        nfreeblock := 1
        totalFreeblock := u32 (v.sb.totalFreeblock + 1)
        modified := true } }
    return .ok

end Ufs370
