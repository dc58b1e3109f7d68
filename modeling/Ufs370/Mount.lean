import Ufs370.Calls

/-! What is mounted on what: the calls that mount disks and take them off again. -/

namespace Ufs370

open Lib

namespace Ufs

def setMinode (s : Ufs) (p : Minptr) (f : Minode → Minode) : Ufs :=
  s.setVdisk p.vdisk ((s.vdisk p.vdisk).setMinode p.ino f)

/-- `minode->mounted_vdisk = vdisk` -/
def setMountedVdisk (s : Ufs) (p : Minptr) (vdisk : Option Nat) : Ufs :=
  s.setMinode p fun m => { m with mountedVdisk := vdisk }

/-- `vdisk->mounted_minode = minode` -/
def setMountedMinode (s : Ufs) (vdisk : Nat) (minode : Option Minptr) : Ufs :=
  { s with mountedMinode := Function.update s.mountedMinode vdisk minode }

/-- The first of some disks that a test finds. -/
def findVdisk (s : Ufs) (test : Nat → Bool) : Option Nat := (List.range s.nvdisk).find? test

end Ufs

/-- The records of a mount. -/
def recordMount (vdisk : Nat) (minode : Minptr) : Prog Ufs Unit :=
  Prog.modify fun s =>
    let s := (s.setMountedVdisk minode (some vdisk)).setMountedMinode vdisk (some minode)
    { s with mountpoint := s.mountpoint ++ [minode] }

/-- Whether the root of a disk is fit for a mount. -/
def rootCheck (s : Ufs) (minode : Minptr) : Rc :=
  if !s.isdir minode then .enotdir else if (s.dinode minode).nlink < 2 then .einval else .ok

/-- The look at the root of a disk that is to be mounted. -/
def checkRoot (vdisk : Nat) : Prog Ufs Rc := do
  match ← getMinode vdisk rootInode with
  | none => return .eio
  | some minode =>
    let rc := rootCheck (← Prog.get) minode
    minode.rel
    return rc

/-- The checks of `ufs_mount` on the directory. -/
def mountCheck (s : Ufs) (vdisk : Nat) (minode : Minptr) : Rc :=
  if !s.isdir minode then .enotdir
  else if !s.authWrite minode then .eperm
  else if (s.minode minode).mountedVdisk.isSome ∨ (s.mountedMinode vdisk).isSome then .ebusy
  else .ok

section Walker

variable (walk : Walker)

/-- The part of `ufs_mount` that has the disk.  An exit before `minode` is set releases nothing, and the
references of the walk are never given back. -/
def mountVdisk (vdisk : Nat) (path : List UInt8) : Prog Ufs Rc := do
  let (rc, out) ← walk path true true
  if rc ≠ .ok then
    return rc
  match out.last with
  | none => return .enoent
  | some minode =>
    let s ← Prog.get
    if (s.mountedMinode vdisk).isSome then
      return .ok
    if minode ∈ s.mountpoint then
      return .ok
    minode.use
    let rc := mountCheck (← Prog.get) vdisk minode
    if rc ≠ .ok then
      minode.rel
      return rc
    minode.use
    recordMount vdisk minode
    minode.rel
    return .ok

/-- `ufs_mount` -/
def mount (ddname path : List UInt8) : Prog Ufs Rc := do
  let s ← Prog.get
  match s.findVdisk fun n => s.ddname n = ddname with
  | none => return .enoent
  | some vdisk =>
    let rc ← checkRoot vdisk
    if rc ≠ .ok then
      return rc
    mountVdisk walk vdisk path

end Walker

/-! The lines of the mount table, in EBCDIC. -/

namespace Fstab

def blank : UInt8 := 0x40
def comma : UInt8 := 0x6B
def tab : UInt8 := 0x05

def isspace (c : UInt8) : Bool := c ∈ [blank, tab, 0x0B, 0x0C, 0x0D, 0x15, 0x25]

/-- `"ddname="` and `"dsname="` -/
def ddnameKey : List UInt8 := [0x84, 0x84, 0x95, 0x81, 0x94, 0x85, 0x7E]
def dsnameKey : List UInt8 := [0x84, 0xA2, 0x95, 0x81, 0x94, 0x85, 0x7E]

/-- The parameters of a line, as `strtok` finds them. -/
def tokens (buf : List UInt8) : List (List UInt8) :=
  let buf := (buf.reverse.dropWhile fun c => isspace c).reverse
  (buf.splitOnP fun c => c = blank ∨ c = comma ∨ c = tab).filter (· ≠ [])

/-- The test that the first parameter makes of a disk. -/
def diskTest (s : Ufs) (p : List UInt8) : Option (Nat → Bool) :=
  if p.take 7 = ddnameKey then some fun n => s.ddname n = p.drop 7
  else if p.take 7 = dsnameKey then some fun n => s.dsname n = p.drop 7
  else if p.length ≤ 8 ∧ dot ∉ p then some fun n => s.ddname n = p
  else if p.length ≤ 44 ∧ dot ∈ p ∧ 0x4D ∉ p ∧ 0x5D ∉ p then some fun n => s.dsname n = p
  else none

/-- The disk and the path of a line.  A comment, a line that lacks something and one for the root path
name none, and the first disk is never looked at. -/
def parse (s : Ufs) (buf : List UInt8) : Option (Nat × List UInt8) :=
  match tokens buf with
  | p :: path :: _ =>
    if p.head? = some 0x7B ∨ path = [slash] then none
    else do
      let test ← diskTest s p
      let vdisk ← s.findVdisk fun n => n ≠ 0 ∧ test n
      return (vdisk, path)
  | _ => none

end Fstab

/-- The checks of `ufs_fstab_mount` on the directory. -/
def fstabCheck (s : Ufs) (vdisk : Nat) (minode : Minptr) : Bool :=
  (s.mountedMinode vdisk).isNone && minode ∉ s.mountpoint && (s.minode minode).mountedVdisk.isNone &&
    s.isdir minode && s.authWrite minode

section Walker

variable (walk : Walker)

/-- The part of `ufs_fstab_mount` that has the disk; a check that fails is not an error of the line. -/
def fstabMountVdisk (vdisk : Nat) (path : List UInt8) : Prog Ufs Rc := do
  let (rc, out) ← walk path true true
  match if rc = .ok then out.last else none with
  | none =>
    relOpt out.last
    relOpt out.dir
    return rc
  | some minode =>
    if fstabCheck (← Prog.get) vdisk minode then
      minode.use
      recordMount vdisk minode
      minode.rel
      relOpt out.dir
      return .ok
    else
      minode.rel
      relOpt out.dir
      return .ok

/-- `ufs_fstab_mount` -/
def fstabMount (buf : List UInt8) : Prog Ufs Rc := do
  match Fstab.parse (← Prog.get) buf with
  | none => return .ok
  | some (vdisk, path) =>
    if (← checkRoot vdisk) ≠ .ok then
      return .ok
    fstabMountVdisk walk vdisk path

end Walker

/-- The list without the last of its entries that is `minode`. -/
def eraseMountpoint (mountpoint : List Minptr) (minode : Minptr) : List Minptr :=
  (mountpoint.reverse.erase minode).reverse

/-- `ufs_unmount_inode` -/
def unmountInode (minode : Minptr) : Prog Ufs Rc := do
  let s ← Prog.get
  if !s.isdir minode then
    return .enotdir
  match (s.minode minode).mountedVdisk with
  | none => return .eperm
  | some vdisk =>
    if s.mountedMinode vdisk ≠ some minode then
      return .eperm
    Prog.modify fun s =>
      let s := (s.setMountedVdisk minode none).setMountedMinode vdisk none
      { s with mountpoint := eraseMountpoint s.mountpoint minode }
    minode.rel
    return .ok

/-- `ufs_unmount_path` -/
def unmountPath (walk : Walker) (path : List UInt8) : Prog Ufs Rc := do
  if path = [slash] then
    unmountInode (← Prog.get).fsroot
  else
    let (rc, out) ← walk path false true
    if rc ≠ .ok then
      return rc
    match out.last with
    | none => return .enoent
    | some minode => unmountInode minode

/-- `ufs_unmount_ddname` -/
def unmountDdname (ddname : List UInt8) : Prog Ufs Rc := do
  let upname := ((CString.read 11 (CString.chars ddname)).map toupper)
  let s ← Prog.get
  match (s.findVdisk fun n => s.ddname n = upname).bind s.mountedMinode with
  | none => return .enoent
  | some minode => unmountInode minode

/-- `ufs_unmount_vdisk` -/
def unmountVdisk (vdisk : Nat) : Prog Ufs Rc := do
  match (← Prog.get).mountedMinode vdisk with
  | none => return .eperm
  | some minode => unmountInode minode

/-- The loop of `ufs_unmount_all`, from the `n`th mount point down. -/
def unmountLoop : Nat → Rc → Prog Ufs Rc
  | 0, rc => return rc
  | n + 1, rc => do
    let s ← Prog.get
    match s.mountpoint[n]? with
    | none => unmountLoop n rc
    | some mp =>
      if (s.minode mp).mountedVdisk.isSome then
        unmountLoop n (← unmountInode mp)
      else
        unmountLoop n rc

/-- `ufs_unmount_all`, with a `UFS` handle of its own, whose directories are both the file system root. -/
def unmountAll : Prog Ufs Rc := do
  let s ← Prog.get
  let alloc := onDisk s.fsroot.vdisk (VDisk.onStore Store.alloc)
  if ← alloc then
    if ← alloc then
      s.fsroot.use
      s.fsroot.use
      let rc ← unmountLoop s.mountpoint.length .ok
      s.fsroot.rel
      s.fsroot.rel
      return rc
    else
      unmountLoop s.mountpoint.length .ok
  else
    return .enomem

end Ufs370
