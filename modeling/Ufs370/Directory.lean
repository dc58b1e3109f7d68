import Ufs370.Datablock
import Ufs370.Lib.CString

/-! Directories: files of 64 byte entries, each an inode number and a name. -/

namespace Ufs370

open Lib

/-- `sizeof(UFSDIR)` -/
def direntSize : Nat := 64

def nameMax : Nat := 59

/-- The code of `'/'`, which is EBCDIC. -/
def slash : UInt8 := 0x61

/-- The code of `'.'`. -/
def dot : UInt8 := 0x4B

/-- `UFS_RESIDUE_BSIZE`: the part of a size that lies in its last block. -/
def residue (x bshift : Nat) : Nat := u32sub x (u32 ((u32sub x 1 >>> bshift) <<< bshift))

section Foreach

variable {κ : Type} (func : κ → Nat → Nat → Prog VDisk (Rc × κ))

/-- A loop over data blocks that `entry` finds, from number `k` on with `left` to go.  A code
other than `ok` ends the iteration; the size is what is left of the file. -/
def blockLoop (entry : Nat → Prog VDisk Nat) : Nat → Nat → Nat → κ → Prog VDisk (Rc × Nat × κ)
  | 0, _, filesize, ctx => return (.ok, filesize, ctx)
  | left + 1, k, filesize, ctx => do
    let blk ← entry k
    let v ← Prog.get
    if !datablockNumberSanity v blk then
      return (.eio, filesize, ctx)
    let last := decide (filesize ≤ v.blksize)
    let (ret, ctx) ← func ctx blk (if last then filesize else v.blksize)
    if ret ≠ .ok then
      return (ret, filesize, ctx)
    if last then
      return (.iteratorEnd, filesize, ctx)
    blockLoop entry left (k + 1) (u32sub filesize v.blksize) ctx

def datablockLoop1 (listblk filesize : Nat) (ctx : κ) : Prog VDisk (Rc × Nat × κ) := do
  blockLoop func (datablockLink listblk) ((← Prog.get).blksize / 4) 0 filesize ctx

/-- A loop over the index blocks that `listblk` lists. -/
def listLoop (inner : Nat → Nat → κ → Prog VDisk (Rc × Nat × κ)) (listblk : Nat) :
    Nat → Nat → Nat → κ → Prog VDisk (Rc × Nat × κ)
  | 0, _, filesize, ctx => return (.ok, filesize, ctx)
  | left + 1, j, filesize, ctx => do
    let blk ← datablockLink listblk j
    if !datablockNumberSanity (← Prog.get) blk then
      return (.eio, filesize, ctx)
    let (ret, filesize, ctx) ← inner blk filesize ctx
    if ret ≠ .ok then
      return (ret, filesize, ctx)
    listLoop inner listblk left (j + 1) filesize ctx

def datablockLoop2 (listblk filesize : Nat) (ctx : κ) : Prog VDisk (Rc × Nat × κ) := do
  listLoop (datablockLoop1 func) listblk ((← Prog.get).blksize / 4) 0 filesize ctx

/-- One index block of `ufs_datablock_foreach` and all that is below it. -/
def foreachIndex (loop : Nat → Nat → κ → Prog VDisk (Rc × Nat × κ)) (ino slot filesize : Nat)
    (ctx : κ) : Prog VDisk (Rc × Nat × κ) := do
  let v ← Prog.get
  let blk := (v.din ino).addrAt slot
  if !datablockNumberSanity v blk then
    return (.eio, filesize, ctx)
  loop blk filesize ctx

/-- `func` on each data block of an inode and its length, until it returns a code. -/
def datablockForeach (ino : Nat) (ctx : κ) : Prog VDisk (Rc × κ) := do
  let v ← Prog.get
  let filesize := (v.din ino).filesize.toNat
  if filesize = 0 then
    return (.iteratorEnd, ctx)
  let (ret, filesize, ctx) ← blockLoop func (fun i => do return ((← Prog.get).din ino).addrAt i)
    naddrDirect 0 filesize ctx
  if ret ≠ .ok then
    return (ret, ctx)
  let (ret, filesize, ctx) ← foreachIndex (datablockLoop1 func) ino naddrIndex1 filesize ctx
  if ret ≠ .ok then
    return (ret, ctx)
  let (ret, filesize, ctx) ← foreachIndex (datablockLoop2 func) ino naddrIndex2 filesize ctx
  if ret ≠ .ok then
    return (ret, ctx)
  let (ret, _, ctx) ← foreachIndex (fun blk filesize ctx => do
    listLoop (datablockLoop2 func) blk ((← Prog.get).blksize / 4) 0 filesize ctx)
    ino naddrIndex3 filesize ctx
  if ret ≠ .ok then
    return (ret, ctx)
  return (.efbig, ctx)

end Foreach

/-! Entry `i` of a block of entries. -/

namespace Entry

def inodeNumber (buf : Block) (i : Nat) : Nat := Bytes.word buf (16 * i)

def name (buf : Block) (i : Nat) : Nat → UInt8 := fun k => buf (direntSize * i + 4 + k)

def setInodeNumber (buf : Block) (i ino : Nat) : Block := Bytes.setWord buf (16 * i) ino

/-- The copy of `UFS_NAME_MAX` bytes of a file name; the last byte of the name stays. -/
def setName (buf : Block) (i : Nat) (filename : List UInt8) : Block := fun o =>
  if o / direntSize = i ∧ 4 ≤ o % direntSize ∧ o % direntSize < 4 + nameMax then
    CString.chars filename (o % direntSize - 4)
  else
    buf o

/-- The copy of a whole entry. -/
def set (buf : Block) (i : Nat) (dirent : Nat → UInt8) : Block := fun o =>
  if o / direntSize = i then dirent (o % direntSize) else buf o

end Entry

/-- `strncpy` of `UFS_NAME_MAX` bytes. -/
def direntFilename (src : List UInt8) : List UInt8 := CString.read nameMax (CString.chars src)

/-- `UFSLKARG` -/
structure LookupArg where
  name : List UInt8
  inodeNumber : Nat
  replace : Nat → UInt8

/-- The search of `lookup_subr` from entry `i` on, `left` to go. -/
def lookupScan (name : List UInt8) (buf : Block) : Nat → Nat → Option Nat
  | 0, _ => none
  | left + 1, i =>
    if Entry.inodeNumber buf i < 1 then lookupScan name buf left (i + 1)
    else if CString.strncmpEq nameMax (Entry.name buf i) (CString.chars name) then
      some (Entry.inodeNumber buf i)
    else lookupScan name buf left (i + 1)

def lookupSubr (p : LookupArg) (blk sz : Nat) : Prog VDisk (Rc × LookupArg) := do
  match ← readBuf blk with
  | .error ret => return (ret, p)
  | .ok buf =>
    match lookupScan p.name buf (sz / direntSize) 0 with
    | some ino => return (.iteratorBreak, { p with inodeNumber := ino })
    | none => return (.ok, p)

/-- The name that `ufs_file_lookup_by_name` looks for: what precedes the first slash. -/
def lookupName (name : List UInt8) : List UInt8 :=
  let s := name.takeWhile (· ≠ 0)
  if slash ∈ s then (s.takeWhile (· ≠ slash)).take nameMax else direntFilename name

def fileLookupByName (parentDir : Nat) (name : List UInt8) : Prog VDisk (Except Rc Nat) := do
  if !((← Prog.get).din parentDir).isdir then
    return .error .enotdir
  let (error, arg) ← datablockForeach lookupSubr parentDir ⟨lookupName name, 0, fun _ => 0⟩
  if error ≠ .iteratorBreak then
    return .error .enoent
  return .ok arg.inodeNumber

/-- The part of `ufs_directory_add_entry` that has the target inode. -/
def addEntry (parentDir minode ino : Nat) (filename : List UInt8) : Prog VDisk Rc := do
  let error ← datablockExpand parentDir direntSize
  if error ≠ .ok then
    return error
  let sz := ((← Prog.get).din parentDir).filesize.toNat
  let blk ← datablockLast parentDir sz
  if blk = 0 then
    return .eio
  match ← readBuf blk with
  | .error error => return error
  | .ok buf =>
    let v ← Prog.get
    let n := u32sub (residue (v.din parentDir).filesize.toNat v.sb.blksizeShift / direntSize) 1
    if (← vdiskWrite (Entry.setName (Entry.setInodeNumber buf n ino) n filename) blk) ≠ .ok then
      return .eio
    if ((← Prog.get).din minode).isdir then
      modifyDinode parentDir fun d => { d with nlink := d.nlink + 1 }
      let _ ← inodeWriteback parentDir
      return .ok
    else
      return .ok

def directoryAddEntry (parentDir ino : Nat) (srcname : List UInt8) : Prog VDisk Rc := do
  match ← inodeGet ino with
  | none => return .enoent
  | some minode =>
    let error ← addEntry parentDir minode ino (direntFilename srcname)
    inodeRel minode
    return error

/-- The search of `remove_subr`, which unlike that of `lookup_subr` takes every entry. -/
def removeScan (name : List UInt8) (buf : Block) : Nat → Nat → Option Nat
  | 0, _ => none
  | left + 1, i =>
    if CString.strncmpEq nameMax (CString.chars name) (Entry.name buf i) then some i
    else removeScan name buf left (i + 1)

def removeSubr (p : LookupArg) (blk sz : Nat) : Prog VDisk (Rc × LookupArg) := do
  match ← readBuf blk with
  | .error ret => return (ret, p)
  | .ok buf =>
    match removeScan p.name buf (sz / direntSize) 0 with
    | some i =>
      let p := { p with inodeNumber := Entry.inodeNumber buf i }
      if (← vdiskWrite (Entry.set buf i p.replace) blk) ≠ .ok then
        return (.eio, p)
      return (.iteratorBreak, p)
    | none => return (.ok, p)

/-- The part of `ufs_directory_remove_entry` after the entry is gone. -/
def removeTarget (parentDir ino : Nat) : Prog VDisk Rc := do
  let _ ← datablockContract parentDir direntSize
  match ← inodeGet ino with
  | none => return .enoent
  | some minode =>
    if ((← Prog.get).din minode).isdir then
      modifyDinode parentDir fun d => { d with nlink := d.nlink - 1 }
      let _ ← inodeWriteback parentDir
    inodeRel minode
    return .ok

def directoryRemoveEntry (parentDir : Nat) (name : List UInt8) : Prog VDisk Rc := do
  let v ← Prog.get
  let sz := (v.din parentDir).filesize.toNat
  let lastblk ← datablockLast parentDir sz
  let pos := u32sub (residue sz v.sb.blksizeShift) direntSize
  match ← readBuf lastblk with
  | .error error => return error
  | .ok buf =>
    let (error, arg) ← datablockForeach removeSubr parentDir ⟨name, 0, fun k => buf (pos + k)⟩
    if error ≠ .iteratorBreak then
      return .enoent
    removeTarget parentDir arg.inodeNumber

end Ufs370
