import Ufs370.Sys

/-! Files and directories under a name: allocation, removal and links. -/

namespace Ufs370

open Lib

def ifchr : Nat := 0x2000
def ifblk : Nat := 0x6000
def iffifo : Nat := 0x1000
def ifsock : Nat := 0xC000
def iflnk : Nat := 0xA000

/-- `UFSATTR`; a missing owner or group is the empty name. -/
structure Attr where
  owner : List UInt8
  group : List UInt8
  mode : UInt16
  codepage : UInt16
  atime : Timev
  mtime : Timev
  ctime : Timev

/-- `ufs_v1_to_v2`: seconds and microseconds as milliseconds. -/
def v1ToV2 (t : Timev) : Timev :=
  let ms := t.hi.toNat * 1000 + t.lo.toNat / 1000
  ⟨UInt32.ofNat (ms / 4294967296), UInt32.ofNat ms⟩

/-- The time of an attribute if it is in the legacy form, else `default`. -/
def attrTime (t default : Timev) : Timev :=
  if 0 < t.hi ∧ t.lo < 1000000 then v1ToV2 t else default

/-- A name as an inode keeps it. -/
def nameField (name : List UInt8) : Fin 9 → UInt8 := fun k =>
  CString.chars (CString.read 8 (CString.chars name)) k

/-- The attributes of a new inode at time `now`. -/
def Dinode.setAttr (d : Dinode) (attr : Attr) (now : Timev) : Dinode :=
  let ctime := attrTime attr.ctime now
  { d with
    mode := attr.mode
    codepage := attr.codepage
    owner := if CString.chars attr.owner 0 ≠ 0 then nameField attr.owner else d.owner
    group := if CString.chars attr.group 0 ≠ 0 then nameField attr.group else d.group
    ctime
    mtime := attrTime attr.mtime ctime
    atime := attrTime attr.atime ctime }

namespace Entry

/-- `strcpy` to the name of entry `i`. -/
def strcpyName (buf : Block) (i : Nat) (name : List UInt8) : Block := fun o =>
  if o / direntSize = i ∧ 4 ≤ o % direntSize ∧ o % direntSize ≤ 4 + name.length then
    CString.chars name (o % direntSize - 4)
  else
    buf o

end Entry

/-- The part of `ufs_file_allocate` that makes the entries of a new directory. -/
def allocateDots (ino parentDir : Nat) : Prog VDisk Rc := do
  let error ← datablockExpand ino (direntSize * 2)
  if error ≠ .ok then
    inodeDeallocate ino
    return error
  let blk := ((← Prog.get).din ino).addrAt 0
  if ← diskGetBuf then
    match ← vdiskRead blk with
    | .error _ =>
      inodeDeallocate ino
      return .eio
    | .ok buf =>
      let buf := Entry.setInodeNumber (Entry.strcpyName buf 0 [dot]) 0 ino
      let buf := Entry.setInodeNumber (Entry.strcpyName buf 1 [dot, dot]) 1 parentDir
      return if (← vdiskWrite buf blk) = .ok then .ok else .eio
  else
    return .enomem

/-- The `switch` of `ufs_file_allocate` on the type of the new inode. -/
def allocateType (ino parentDir : Nat) (mode : UInt16) : Prog VDisk Rc := do
  let type := mode.toNat &&& ifmt
  if type = ifdir then
    modifyDinode ino fun d => { d with nlink := 2 }
    allocateDots ino parentDir
  else if type ∈ [ifchr, ifblk, iffifo, ifsock, iflnk, ifreg] then
    modifyDinode ino fun d => { d with nlink := 1 }
    return .ok
  else
    inodeDeallocate ino
    return .einval

/-- What follows the last slash of a name. -/
def afterSlash (name : List UInt8) : List UInt8 :=
  (name.reverse.takeWhile (· ≠ slash)).reverse

/-- The code and `*ino`. -/
def fileAllocate (parentDir : Nat) (srcname : List UInt8) (attr : Attr) (now : Timev) :
    Prog VDisk (Rc × Nat) := do
  let filename := direntFilename srcname
  match ← fileLookupByName parentDir filename with
  | .ok ino => return (.eexist, ino)
  | .error _ =>
    let (error, ino) ← inodeAllocate
    if error ≠ .ok then
      return (error, ino)
    match ← inodeGet ino with
    | none => return (.enomem, ino)
    | some minode =>
      modifyDinode minode fun d => d.setAttr attr now
      let error ← allocateType minode parentDir attr.mode
      if error ≠ .ok then
        return (error, ino)
      let _ ← inodeWriteback minode
      inodeRel minode
      return (← directoryAddEntry parentDir ino (afterSlash filename), ino)

def fileLink (parentDir p : Nat) (name : List UInt8) : Prog VDisk Rc := do
  let error ← directoryAddEntry parentDir p name
  if error ≠ .ok then
    return error
  modifyDinode p fun d => { d with nlink := d.nlink + 1 }
  let _ ← inodeWriteback p
  return .ok

/-- The part of `ufs_file_deallocate` that empties the inode, before its entry goes. -/
def deallocateInode (minode : Nat) (name : List UInt8) : Prog VDisk Rc := do
  let d := (← Prog.get).din minode
  if d.isdir then
    let filename := direntFilename name
    if filename = [dot, dot] ∨ filename = [dot] then
      return .einval
    let filesize := d.filesize.toNat
    if 0 < filesize then
      if filesize ≠ direntSize * 2 then
        return .enotempty
      let error ← datablockSizeChange 0 minode
      if error ≠ .ok then
        return error
    modifyDinode minode fun d => { d with nlink := 0 }
  else
    modifyDinode minode fun d => { d with nlink := if 0 < d.nlink then d.nlink - 1 else d.nlink }
  let _ ← inodeWriteback minode
  return .ok

/-- The removal of a name.  The source goes on to the disk that is mounted on a directory, but no
caller comes here with such a directory; here it is refused. -/
def fileDeallocate (parentDir : Nat) (name : List UInt8) : Prog VDisk Rc := do
  match ← fileLookupByName parentDir name with
  | .error error => return error
  | .ok ino =>
    match ← inodeGet ino with
    | none => return .enoent
    | some minode =>
      if ((← Prog.get).deref minode).mountedVdisk.isSome then
        inodeRel minode
        return .eperm
      let error ← deallocateInode minode name
      let error ← if error ≠ .ok then pure error else directoryRemoveEntry parentDir name
      inodeRel minode
      return error

end Ufs370
