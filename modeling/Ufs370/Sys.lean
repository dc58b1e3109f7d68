import Ufs370.Directory

/-! The file system: its disks, what is mounted on what, and the handle of one user. -/

namespace Ufs370

open Lib

/-- A `UFSMIN` pointer: the disk and the number of the inode. -/
structure Minptr where
  vdisk : Nat
  ino : Nat
  deriving DecidableEq

/-- What the checks read of an `ACEE`: names of a user, of a group and of the connected groups. -/
structure Acee where
  user : List UInt8
  group : List UInt8
  connected : List (List UInt8)

structure Cwd where
  curDir : Option Minptr
  rootDir : Option Minptr
  path : List UInt8

/-- A `UFS` handle and the `UFSSYS` behind it.  The disks are numbered from 0 to `nvdisk`. -/
structure Ufs where
  vdisk : Nat → VDisk
  nvdisk : Nat
  ddname : Nat → List UInt8
  dsname : Nat → List UInt8
  mountedMinode : Nat → Option Minptr
  fsroot : Minptr
  mountpoint : List Minptr
  cwd : Cwd
  acee : Option Acee
  createPerm : UInt16

namespace Ufs

/-- What a pointer refers to. -/
def minode (s : Ufs) (p : Minptr) : Minode := (s.vdisk p.vdisk).deref p.ino

abbrev dinode (s : Ufs) (p : Minptr) : Dinode := (s.minode p).dinode

/-- The use count of an inode; one that is not in the cache has none. -/
def uses (s : Ufs) (p : Minptr) : Nat := ((s.vdisk p.vdisk).minode? p.ino).elim 0 Minode.usecount

def setVdisk (s : Ufs) (i : Nat) (v : VDisk) : Ufs := { s with vdisk := Function.update s.vdisk i v }

end Ufs

/-- A program on one disk. -/
def onDisk {α : Type} (i : Nat) (x : Prog VDisk α) : Prog Ufs α :=
  Prog.lift (fun s => s.vdisk i) (fun v s => s.setVdisk i v) x

/-- `ufs_inode_get` -/
def getMinode (i ino : Nat) : Prog Ufs (Option Minptr) := do
  return (← onDisk i (inodeGet ino)).map (Minptr.mk i)

/-- `ufs_inode_use` -/
def Minptr.use (p : Minptr) : Prog Ufs Unit := onDisk p.vdisk (inodeUse p.ino)

/-- `ufs_inode_rel` -/
def Minptr.rel (p : Minptr) : Prog Ufs Unit := onDisk p.vdisk (inodeRel p.ino)

/-- `if (minode) ufs_inode_rel(minode)` -/
def relOpt : Option Minptr → Prog Ufs Unit
  | some p => p.rel
  | none => return ()

/-! Access checks. -/

def ufsaccExec : Nat := 1
def ufsaccWrite : Nat := 2
def ufsaccRead : Nat := 4

/-- `toupper` in EBCDIC. -/
def toupper (c : UInt8) : UInt8 :=
  if 0x81 ≤ c ∧ c ≤ 0x89 ∨ 0x91 ≤ c ∧ c ≤ 0x99 ∨ 0xA2 ≤ c ∧ c ≤ 0xA9 then c + 0x40 else c

/-- Names of one length that agree but for the case of their letters. -/
def sameName (a b : List UInt8) : Bool := a.map toupper == b.map toupper

/-- The text of an owner or a group.  Without a null byte it is longer than any name of an `ACEE`. -/
def Dinode.nameText (f : Fin 9 → UInt8) : List UInt8 :=
  CString.read 9 fun k => if h : k < 9 then f ⟨k, h⟩ else 0

def accessAllowed (ufsacc mode : Nat) : Bool := decide (ufsacc &&& mode ≠ 0)

def inodeAuth (acee : Option Acee) (d : Dinode) (ufsacc : Nat) : Bool :=
  let mode := d.mode.toNat
  accessAllowed ufsacc (mode &&& 7) || acee.any fun acee =>
    sameName (Dinode.nameText d.owner) acee.user && accessAllowed ufsacc (mode >>> 6 &&& 7) ||
    sameName (Dinode.nameText d.group) acee.group && accessAllowed ufsacc (mode >>> 3 &&& 7) ||
    acee.connected.any fun grp =>
      sameName (Dinode.nameText d.group) grp && accessAllowed ufsacc (mode >>> 3 &&& 7)

namespace Ufs

def authExec (s : Ufs) (p : Minptr) : Bool := inodeAuth s.acee (s.dinode p) ufsaccExec

def authWrite (s : Ufs) (p : Minptr) : Bool := inodeAuth s.acee (s.dinode p) ufsaccWrite

def authRead (s : Ufs) (p : Minptr) : Bool := inodeAuth s.acee (s.dinode p) ufsaccRead

def isdir (s : Ufs) (p : Minptr) : Bool := (s.dinode p).isdir

/-- `disk->readonly` of the disk an inode is on. -/
def readonly (s : Ufs) (p : Minptr) : Bool := (s.vdisk p.vdisk).readonly

end Ufs

end Ufs370
