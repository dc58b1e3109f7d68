import Ufs370.Basic
import Ufs370.Lib.Bytes

/-! A virtual disk: the disk behind it, its super block and its inode cache. -/

namespace Ufs370

open Lib

def maxFreeblock : Nat := 51

def maxFreeinode : Nat := 64

structure Superblock where
  datablockStartSector : Nat
  volumeSize : Nat
  modified : Bool
  readonly : Bool
  totalFreeblock : Nat
  totalFreeinode : Nat
  nfreeblock : Nat
  freeblock : Nat → Nat
  nfreeinode : Nat
  freeinode : Nat → Nat
  inodesPerBlock : Nat
  blksizeShift : Nat
  ilistSector : Nat

/-- A time stamp; the legacy form has the seconds in `hi` and the microseconds in `lo`. -/
structure Timev where
  hi : UInt32
  lo : UInt32
  deriving DecidableEq

structure Dinode where
  mode : UInt16
  nlink : UInt16
  filesize : UInt32
  ctime : Timev
  mtime : Timev
  atime : Timev
  owner : Fin 9 → UInt8
  group : Fin 9 → UInt8
  codepage : UInt16
  addr : Fin 19 → UInt32

/-- An inode in memory.  `dirty` is the flag `MINODE_FLAG_DIRTY`, and `mountedVdisk`
names the disk mounted on this directory. -/
structure Minode where
  inodeNumber : Nat
  dirty : Bool
  usecount : Nat
  mountedVdisk : Option Nat
  dinode : Dinode

/-- A `UFSVDISK` and its `UFSDISK`.  `super` is what block 1 of the disk holds. -/
structure VDisk where
  blksize : Nat
  readonly : Bool
  sb : Superblock
  io : Store
  super : Superblock
  minodes : List Minode

namespace VDisk

def onStore {α : Type} (x : Prog Store α) : Prog VDisk α :=
  Prog.lift VDisk.io (fun s v => { v with io := s }) x

def setBlock (v : VDisk) (block : Nat) (buf : Block) : VDisk :=
  { v with io := { v.io with blocks := Function.update v.io.blocks block buf } }

/-- Word `i` of a block of the disk. -/
def word (v : VDisk) (block i : Nat) : Nat := Bytes.word (v.io.blocks block) i

/-- No request will fail. -/
structure Live (v : VDisk) : Prop where
  faults : v.io.faults = []
  writable : v.readonly = false

end VDisk

def diskGetBuf : Prog VDisk Bool := VDisk.onStore Store.alloc

def vdiskRead (block : Nat) : Prog VDisk (Except Rc Block) := VDisk.onStore (Store.read block)

def vdiskWrite (buf : Block) (block : Nat) : Prog VDisk Rc := do
  if (← Prog.get).readonly then
    return .erofs
  VDisk.onStore (Store.write buf block)

/-- A fresh buffer with a block read into it, as most functions start. -/
def readBuf (block : Nat) : Prog VDisk (Except Rc Block) := do
  if ← diskGetBuf then
    match ← vdiskRead block with
    | .error _ => return .error .eio
    | .ok buf => return .ok buf
  else
    return .error .enomem

/-- The write that most functions end with. -/
def writeBuf (buf : Block) (block : Nat) : Prog VDisk Rc := do
  return if (← vdiskWrite buf block) = .ok then .ok else .eio

section Live

variable {v : VDisk} (hv : v.Live)
include hv

@[simp] theorem VDisk.Live.setBlock (block : Nat) (buf : Block) : (v.setBlock block buf).Live :=
  ⟨hv.faults, hv.writable⟩

theorem diskGetBuf_live : diskGetBuf.run v = (true, v) := by
  simp [diskGetBuf, VDisk.onStore, Store.alloc_nil hv.faults]

theorem vdiskRead_live (block : Nat) : (vdiskRead block).run v = (.ok (v.io.blocks block), v) := by
  simp [vdiskRead, VDisk.onStore, Store.read_nil hv.faults]

theorem vdiskWrite_live (buf : Block) (block : Nat) :
    (vdiskWrite buf block).run v = (.ok, v.setBlock block buf) := by
  simp [vdiskWrite, VDisk.onStore, hv.writable, Store.write_nil hv.faults, VDisk.setBlock]

theorem readBuf_live (block : Nat) : (readBuf block).run v = (.ok (v.io.blocks block), v) := by
  simp [readBuf, diskGetBuf_live hv, vdiskRead_live hv]

theorem writeBuf_live (buf : Block) (block : Nat) :
    (writeBuf buf block).run v = (.ok, v.setBlock block buf) := by
  simp [writeBuf, vdiskWrite_live hv]

end Live

end Ufs370
