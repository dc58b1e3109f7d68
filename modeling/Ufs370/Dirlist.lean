import Ufs370.Mount

/-! Directory handles, which list a directory when they are opened. -/

namespace Ufs370

open Lib

/-- A `UFSDLIST` -/
structure Dlist where
  inodeNumber : Nat
  filesize : Nat
  ctime : Timev
  mtime : Timev
  atime : Timev
  nlink : UInt16
  codepage : UInt16
  name : List UInt8
  owner : List UInt8
  group : List UInt8
  attr : List UInt8

/-- A `UFSDDESC` -/
structure Ddesc where
  minode : Minptr
  recno : Nat
  dlist : List Dlist
  path : List UInt8

namespace Dlist

/-- A time stamp with the legacy form converted. -/
def time (t : Timev) : Timev := if t.lo < 1000000 then v1ToV2 t else t

/-- `"drwxrwxrwx"` -/
def attrText (isdir mounted : Bool) (mode : Nat) : List UInt8 :=
  (if mounted then 0x94 else if isdir then 0x84 else 0x60) ::
    (List.range 9).map fun k =>
      if mode.testBit (8 - k) then if k % 3 = 0 then 0x99 else if k % 3 = 1 then 0xA6 else 0xA7 else 0x60

/-- The name of a directory with the disk that is mounted on it: `" -> DD:%s"`. -/
def mountName (name ddname : List UInt8) : List UInt8 :=
  if name.length < nameMax + 1 - 16 then
    name ++ [0x40, 0x60, 0x6E, 0x40, 0xC4, 0xC4, 0x7A] ++ ddname
  else
    name

/-- The record of a directory entry; `mounted` is the name of the disk mounted on it. -/
def of (ino : Nat) (name : List UInt8) (d : Dinode) (mounted : Option (List UInt8)) : Dlist where
  inodeNumber := ino
  filesize := d.filesize.toNat
  ctime := time d.ctime
  mtime := time d.mtime
  atime := time d.atime
  nlink := d.nlink
  codepage := d.codepage
  name := mounted.elim name (mountName name)
  owner := Dinode.nameText d.owner
  group := Dinode.nameText d.group
  attr := attrText d.isdir mounted.isSome d.mode.toNat

end Dlist

namespace Ufs

/-- `ufs_inode_mounted_vdisk`, less the reference that its caller gives back at once. -/
def inodeMountedVdisk (s : Ufs) (vdisk : Nat) : Option Minptr :=
  s.mountpoint.find? fun m => (s.minode m).mountedVdisk = some vdisk

/-- The disk that the listing of directory `self` shows as mounted on one of its entries. -/
def mountedName (s : Ufs) (self : Minptr) (name : List UInt8) (m : Minode) : Option (List UInt8) :=
  if !m.dinode.isdir then none
  else
    let ddname := m.mountedVdisk.map s.ddname
    if self.ino = rootInode ∧ m.inodeNumber = rootInode then
      if name = [dot] then some (s.ddname self.vdisk)
      else if name = [dot, dot] then
        some (s.ddname ((s.inodeMountedVdisk self.vdisk).elim self.vdisk Minptr.vdisk))
      else some (ddname.getD [])
    else ddname

end Ufs

section List

variable (wanted : List UInt8 → Bool) (mounted : List UInt8 → Minode → Option (List UInt8))

/-- The loop of `directory_list_subr` from entry `i` on, `left` to go. -/
def listScan (buf : Block) : Nat → Nat → List Dlist → Prog VDisk (Rc × List Dlist)
  | 0, _, dlist => return (.ok, dlist)
  | left + 1, i, dlist => do
    let v ← Prog.get
    let name := CString.read (nameMax + 1) (Entry.name buf i)
    let ino := Entry.inodeNumber buf i
    if nameMax < name.length ∨ Fstab.blank ∈ name ∨ maxInode v.blksize v.sb.datablockStartSector < ino then
      listScan buf left (i + 1) dlist
    else match ← inodeGet ino with
    | none => listScan buf left (i + 1) dlist
    | some minode =>
      if !wanted name then
        inodeRel minode
        listScan buf left (i + 1) dlist
      else if ← VDisk.onStore Store.alloc then
        let m := (← Prog.get).deref minode
        inodeRel minode
        listScan buf left (i + 1) (dlist ++ [.of ino name m.dinode (mounted name m)])
      else
        inodeRel minode
        return (.enomem, dlist)

def directoryListSubr (dlist : List Dlist) (blk sz : Nat) : Prog VDisk (Rc × List Dlist) := do
  match ← readBuf blk with
  | .error ret => return (ret, dlist)
  | .ok buf => listScan wanted mounted buf (sz / direntSize) 0 dlist

end List

/-- `strcmp(a, b) <= 0` -/
def nameLe : List UInt8 → List UInt8 → Bool
  | [], _ => true
  | _ :: _, [] => false
  | a :: as, b :: bs => decide (a < b) || decide (a = b) && nameLe as bs

/-- The directory that `ufs_diropen` lists; a mounted root that is taken is also used once more. -/
def diropenMount (minode : Minptr) : Prog Ufs (Option Minptr) := do
  match ((← Prog.get).minode minode).mountedVdisk with
  | none => return some minode
  | some vdisk =>
    minode.rel
    match ← getMinode vdisk rootInode with
    | none => return none
    | some minode =>
      minode.use
      return some minode

/-- The part of `ufs_diropen` that has the directory. -/
def listDir (patmat : List UInt8 → List UInt8 → Bool) (minode : Minptr) (fullpath pattern : List UInt8) :
    Prog Ufs (Option Ddesc) := do
  let s ← Prog.get
  if !s.authRead minode then
    return none
  if ← onDisk minode.vdisk (VDisk.onStore Store.alloc) then
    let wanted name := decide (pattern = []) || patmat name pattern
    let (_, dlist) ← onDisk minode.vdisk
      (datablockForeach (directoryListSubr wanted (s.mountedName minode)) minode.ino [])
    return some ⟨minode, 0, dlist.mergeSort fun a b => nameLe a.name b.name, fullpath⟩
  else
    return none

/-- `ufs_diropen`; `patmat` is the match of a name against a pattern. -/
def diropen (walk : Walker) (patmat : List UInt8 → List UInt8 → Bool) (path pattern : List UInt8) :
    Prog Ufs (Option Ddesc) := do
  let s ← Prog.get
  let path := if path = [] then CString.read pathMax (CString.chars s.cwd.path) else path
  let (rc, out) ← walk path true true
  match if rc = .ok then out.last.or out.dir else none with
  | none =>
    relOpt out.last
    relOpt out.dir
    return none
  | some minode =>
    match ← diropenMount minode with
    | none =>
      relOpt out.last
      relOpt out.dir
      return none
    | some minode =>
      let ddesc ← listDir patmat minode out.fullpath pattern
      relOpt out.last
      relOpt out.dir
      return ddesc

/-- `ufs_dirread` -/
def dirread (ddesc : Ddesc) : Option Dlist × Ddesc :=
  (ddesc.dlist[ddesc.recno]?, { ddesc with recno := ddesc.recno + 1 })

/-- `ufs_dirclose` -/
def dirclose (ddesc : Ddesc) : Prog Ufs Unit := ddesc.minode.rel

end Ufs370
