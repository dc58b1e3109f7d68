import Ufs370.FreeBlock
import Ufs370.Inode

/-! The data blocks of an inode: 16 direct ones, then three trees of index blocks. -/

namespace Ufs370

open Lib

def naddrDirect : Nat := 16
def naddrIndex1 : Nat := 16
def naddrIndex2 : Nat := 17
def naddrIndex3 : Nat := 18

/-- Where a data block is found: `level` index blocks have to be read. -/
structure Addrmap where
  level : Nat
  index : Nat → Nat

/-- `x + (a - 1)` without its low bits, for `a` a power of two. -/
def roundUp (x a : Nat) : Nat := u32 (x + (a - 1)) &&& (4294967296 - a)

/-- The number of blocks that hold `sz` bytes. -/
def nblocks (v : VDisk) (sz : Nat) : Nat := roundUp sz v.blksize >>> v.sb.blksizeShift

/-- `ROUND(sz, a) / a - 1` -/
def indexOf (sz a : Nat) : Nat := u32sub (roundUp sz a / a) 1

/-- A map; an index past its level is never looked at. -/
def Addrmap.at (level i j k : Nat) : Addrmap :=
  ⟨level, fun m => if m = 0 then i else if m = 1 then j else k⟩

def datablockAddr (v : VDisk) (sz : Nat) : Rc × Addrmap :=
  let blksize := v.blksize
  let blkshift := v.sb.blksizeShift
  let nidx := blksize / 4
  let directSz := u32 (naddrDirect * blksize)
  let idx1Sz := u32 (nidx * blksize)
  let idx2Sz := u32 (nidx * nidx * blksize)
  if sz = 0 then (.ok, .at 0 0 0 0)
  else
    let sz := roundUp sz blksize
    if sz ≤ directSz then (.ok, .at 0 (u32sub (sz >>> blkshift) 1) 0 0)
    else
      let sz := sz - directSz
      if sz ≤ idx1Sz then (.ok, .at 1 (u32sub (sz >>> blkshift) 1) 0 0)
      else
        let sz := sz - idx1Sz
        if sz ≤ idx2Sz then
          let i := indexOf sz idx1Sz
          (.ok, .at 2 i (u32sub (u32sub sz (u32 (i * idx1Sz)) >>> blkshift) 1) 0)
        else
          let sz := sz - idx2Sz
          let i := indexOf sz idx2Sz
          let sz := u32sub sz (u32 (i * idx2Sz))
          let j := indexOf sz idx1Sz
          let sz := u32sub sz (u32 (j * idx1Sz))
          let k := u32sub (sz >>> blkshift) 1
          (if nidx ≤ k then .enospc else .ok, .at 3 i j k)

/-- Entry `n` of an index block; 0 stands for every failure. -/
def datablockLink (listblk n : Nat) : Prog VDisk Nat := do
  if !datablockNumberSanity (← Prog.get) listblk then
    return 0
  match ← readBuf listblk with
  | .error _ => return 0
  | .ok list =>
    let blk := Bytes.word list n
    return if datablockNumberSanity (← Prog.get) blk then blk else 0

def datablockLast (ino offset : Nat) : Prog VDisk Nat := do
  let v ← Prog.get
  let (rc, map) := datablockAddr v offset
  if rc ≠ .ok then
    return 0
  let addr := (v.din ino).addrAt
  match map.level with
  | 0 => return addr (map.index 0)
  | 1 => datablockLink (addr naddrIndex1) (map.index 0)
  | 2 => datablockLink (← datablockLink (addr naddrIndex2) (map.index 0)) (map.index 1)
  | 3 =>
    let blk ← datablockLink (addr naddrIndex3) (map.index 0)
    datablockLink (← datablockLink blk (map.index 1)) (map.index 2)
  | _ => return 0

def datablockAddLeaf (up idx : Nat) : Prog VDisk Nat := do
  if up = 0 then
    return 0
  if !datablockNumberSanity (← Prog.get) up then
    return 0
  let (error, newblk) ← datablockAllocate
  if error ≠ .ok then
    return 0
  match ← readBuf up with
  | .error _ => return 0
  | .ok daddrList =>
    return if (← vdiskWrite (Bytes.setWord daddrList idx newblk) up) = .ok then newblk else 0

def datablockUnlink (idxblk n : Nat) : Prog VDisk Nat := do
  match ← readBuf idxblk with
  | .error _ => return 0
  | .ok daddrList =>
    let blk := Bytes.word daddrList n
    return if (← vdiskWrite (Bytes.setWord daddrList n 0) idxblk) = .ok then blk else 0

def datablockRemoveLeaf (up n : Nat) : Prog VDisk Nat := do
  if !datablockNumberSanity (← Prog.get) up then
    return 0
  let down ← datablockUnlink up n
  let _ ← datablockDeallocate down
  return down

def datablockRemoveSelf (up : Nat) : Prog VDisk Nat := do
  if !datablockNumberSanity (← Prog.get) up then
    return 0
  let down ← datablockUnlink up 0
  let _ ← datablockDeallocate up
  return down

/-- Set entry `i` of the address list of an inode. -/
def setAddr (ino i blk : Nat) : Prog VDisk Unit := modifyDinode ino fun d => d.setAddr i blk

/-- The block that `ufs_datablock_expand` adds when the level changes, `idxblk` being the
top index block of the new level. -/
def expandLevel (ino level idxblk : Nat) : Prog VDisk Nat := do
  match level with
  | 1 =>
    setAddr ino naddrIndex1 idxblk
    datablockAddLeaf idxblk 0
  | 2 =>
    setAddr ino naddrIndex2 idxblk
    datablockAddLeaf (← datablockAddLeaf idxblk 0) 0
  | 3 =>
    setAddr ino naddrIndex3 idxblk
    let leaf ← datablockAddLeaf idxblk 0
    datablockAddLeaf (← datablockAddLeaf leaf 0) 0
  | _ => return 0

/-- The block that it adds within a level. -/
def expandWithin (ino : Nat) (oldmap newmap : Addrmap) : Prog VDisk (Rc × Nat) := do
  match newmap.level with
  | 0 =>
    let (error, blk) ← datablockAllocate
    if error ≠ .ok then
      return (error, 0)
    setAddr ino (newmap.index 0) blk
    return (.ok, blk)
  | 1 =>
    let idxblk := ((← Prog.get).din ino).addrAt naddrIndex1
    return (.ok, ← datablockAddLeaf idxblk (newmap.index 0))
  | 2 =>
    let idxblk := ((← Prog.get).din ino).addrAt naddrIndex2
    if oldmap.index 0 ≠ newmap.index 0 then
      let _ ← datablockAddLeaf idxblk (newmap.index 0)
    let link ← datablockLink idxblk (newmap.index 0)
    return (.ok, ← datablockAddLeaf link (newmap.index 1))
  | _ =>
    let idxblk := ((← Prog.get).din ino).addrAt naddrIndex3
    if oldmap.index 0 ≠ newmap.index 0 then
      let _ ← datablockAddLeaf idxblk (newmap.index 0)
    if oldmap.index 1 ≠ newmap.index 1 then
      let _ ← datablockAddLeaf (← datablockLink idxblk (newmap.index 0)) (newmap.index 1)
    let link ← datablockLink idxblk (newmap.index 0)
    let link ← datablockLink link (newmap.index 1)
    return (.ok, ← datablockAddLeaf link (newmap.index 2))

/-- One round of its loop. -/
def expandBlock (ino : Nat) (oldmap newmap : Addrmap) : Prog VDisk (Rc × Nat) := do
  if oldmap.level ≠ newmap.level then
    let (error, idxblk) ← datablockAllocate
    if error ≠ .ok then
      return (error, 0)
    return (.ok, ← expandLevel ino newmap.level idxblk)
  else
    expandWithin ino oldmap newmap

/-- The loop of `ufs_datablock_expand` from block `i` on, `left` blocks to go. -/
def expandLoop (ino oldFilesize : Nat) (backup : Minode) : Nat → Nat → Addrmap → Prog VDisk Rc
  | 0, _, _ => return .ok
  | left + 1, i, oldmap => do
    let v ← Prog.get
    let newmap := (datablockAddr v (u32 (oldFilesize + (i + 1) * v.blksize))).2
    let (error, blk) ← expandBlock ino oldmap newmap
    if error ≠ .ok then
      return error
    if blk = 0 then
      modifyMinode ino fun _ => backup
      return .enospc
    expandLoop ino oldFilesize backup left (i + 1) newmap

def datablockExpand (ino sz : Nat) : Prog VDisk Rc := do
  let v ← Prog.get
  let oldFilesize := (v.din ino).filesize.toNat
  let newFilesize := u32 (oldFilesize + sz)
  let oldNblk := nblocks v oldFilesize
  let newNblk := nblocks v newFilesize
  if oldNblk = newNblk then
    modifyDinode ino fun d => d.setFilesize (d.filesize.toNat + sz)
    let _ ← inodeWriteback ino
    return .ok
  let error ← expandLoop ino oldFilesize (v.deref ino) (u32sub newNblk oldNblk) 0
    (datablockAddr v oldFilesize).2
  if error ≠ .ok then
    return error
  modifyDinode ino fun d => d.setFilesize (d.filesize.toNat + sz)
  let _ ← inodeWriteback ino
  return .ok

/-- What `ufs_datablock_contract` takes away when the level changes to `level`. -/
def contractLevel (ino level : Nat) (error : Rc) : Prog VDisk Rc := do
  let addr := ((← Prog.get).din ino).addrAt
  match level with
  | 0 =>
    setAddr ino naddrIndex1 0
    datablockDeallocate (← datablockRemoveSelf (addr naddrIndex1))
  | 1 =>
    setAddr ino naddrIndex2 0
    datablockDeallocate (← datablockRemoveSelf (← datablockRemoveSelf (addr naddrIndex2)))
  | 2 =>
    setAddr ino naddrIndex3 0
    let down ← datablockRemoveSelf (addr naddrIndex3)
    datablockDeallocate (← datablockRemoveSelf (← datablockRemoveSelf down))
  | _ => return error

/-- What it takes away within a level; only a direct block can fail to go. -/
def contractWithin (ino : Nat) (oldmap newmap : Addrmap) (error : Rc) : Prog VDisk Rc := do
  let addr := ((← Prog.get).din ino).addrAt
  match newmap.level with
  | 0 => datablockDeallocate (addr (oldmap.index 0))
  | 1 =>
    let _ ← datablockRemoveLeaf (addr naddrIndex1) (oldmap.index 0)
    return error
  | 2 =>
    let idxblk := addr naddrIndex2
    let _ ← datablockRemoveLeaf (← datablockLink idxblk (oldmap.index 0)) (oldmap.index 1)
    if oldmap.index 0 ≠ newmap.index 0 then
      let _ ← datablockRemoveLeaf idxblk (oldmap.index 0)
    return error
  | _ =>
    let idxblk := addr naddrIndex3
    let link ← datablockLink idxblk (oldmap.index 0)
    let _ ← datablockRemoveLeaf (← datablockLink link (oldmap.index 1)) (oldmap.index 2)
    if oldmap.index 1 ≠ newmap.index 1 then
      let _ ← datablockRemoveLeaf (← datablockLink idxblk (oldmap.index 0)) (oldmap.index 1)
    if oldmap.index 0 ≠ newmap.index 0 then
      let _ ← datablockRemoveLeaf idxblk (oldmap.index 0)
    return error

def contractBlock (ino : Nat) (oldmap newmap : Addrmap) (error : Rc) : Prog VDisk Rc :=
  if oldmap.level ≠ newmap.level then contractLevel ino newmap.level error
  else contractWithin ino oldmap newmap error

/-- The loop of `ufs_datablock_contract` from block `i` on, `left` blocks to go.  The error
of a block stays for the caller unless a later block sets it again. -/
def contractLoop (ino oldFilesize : Nat) : Nat → Nat → Addrmap → Rc → Prog VDisk Rc
  | 0, _, _, error => return error
  | left + 1, i, oldmap, error => do
    let v ← Prog.get
    let newmap := (datablockAddr v (u32sub oldFilesize (u32 ((i + 1) * v.blksize)))).2
    let error ← contractBlock ino oldmap newmap error
    contractLoop ino oldFilesize left (i + 1) newmap error

def datablockContract (ino sz : Nat) : Prog VDisk Rc := do
  let v ← Prog.get
  let oldFilesize := (v.din ino).filesize.toNat
  let newFilesize := u32sub oldFilesize sz
  let oldNblk := nblocks v oldFilesize
  let newNblk := nblocks v newFilesize
  let error ←
    if oldNblk = newNblk then pure .ok
    else contractLoop ino oldFilesize (u32sub oldNblk newNblk) 0 (datablockAddr v oldFilesize).2 .ok
  modifyDinode ino fun d => d.setFilesize (u32sub d.filesize.toNat sz)
  let _ ← inodeWriteback ino
  return error

/-- The difference of the two sizes is taken as a signed word. -/
def datablockSizeChange (newsz ino : Nat) : Prog VDisk Rc := do
  let diff := u32sub newsz ((← Prog.get).din ino).filesize.toNat
  if diff = 0 then
    return .ok
  if diff < 2147483648 then
    datablockExpand ino diff
  else
    datablockContract ino (4294967296 - diff)

end Ufs370
