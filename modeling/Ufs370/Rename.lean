import Ufs370.Files

/-! `ufs_file_rename`, for which the program has no command. -/

namespace Ufs370

open Lib

/-- `ufs_dirent_endian_convert`, which only checks the numbers of `n` entries. -/
def direntEndianConvert (v : VDisk) (buf : Block) (n : Nat) : Bool :=
  (List.range n).all fun i => inodeNumberSanity v (Entry.inodeNumber buf i) = .ok

/-- The search of `lookup_parent_from_dir_subr`, which is that of `remove_subr`; a block that cannot be read is
passed over. -/
def lookupParentSubr (parentIno blk sz : Nat) : Prog VDisk (Rc × Nat) := do
  if ← diskGetBuf then
    match ← vdiskRead blk with
    | .error _ => return (.ok, parentIno)
    | .ok buf =>
      let n := sz / direntSize
      if !direntEndianConvert (← Prog.get) buf n then
        return (.iteratorError, parentIno)
      match removeScan [dot, dot] buf n 0 with
      | some i => return (.iteratorBreak, Entry.inodeNumber buf i)
      | none => return (.ok, parentIno)
  else
    return (.enomem, parentIno)

/-- A program that has an inode of its own, which is not in the cache, and uses no other. -/
def withLoaded {α : Type} (m : Minode) (x : Prog VDisk α) : Prog VDisk α := do
  let minodes := (← Prog.get).minodes
  Prog.modify fun v => { v with minodes := [m] }
  let r ← x
  Prog.modify fun v => { v with minodes }
  return r

/-- The loop of `can_dirmove`, which goes from directory to parent.  The source has no bound on it; `none` is a loop that
`fuel` rounds do not end. -/
def dirmoveLoop (fromIno : Nat) : Nat → Minode → Prog VDisk (Option Rc)
  | 0, _ => return none
  | fuel + 1, minode => do
    let (_, parent) ← withLoaded minode (datablockForeach lookupParentSubr minode.inodeNumber 0)
    if parent = 0 then
      return some .enoent
    match ← inodeLoad parent with
    | .error error => return some error
    | .ok minode =>
      if parent = fromIno then
        return some .einval
      if parent ≠ rootInode then
        dirmoveLoop fromIno fuel minode
      else
        return some .ok

def canDirmove (fuel fromIno toIno : Nat) : Prog VDisk (Option Rc) := do
  match ← inodeLoad toIno with
  | .error error => return some error
  | .ok minode =>
    if !minode.dinode.isdir then
      return some .enotdir
    dirmoveLoop fromIno fuel minode

/-- The search is that of `remove_subr`. -/
def replaceSubr (p : LookupArg) (blk sz : Nat) : Prog VDisk (Rc × LookupArg) := do
  match ← readBuf blk with
  | .error ret => return (ret, p)
  | .ok buf =>
    match removeScan p.name buf (sz / direntSize) 0 with
    | some i =>
      if (← vdiskWrite (Entry.setInodeNumber buf i p.inodeNumber) blk) ≠ .ok then
        return (.eio, p)
      return (.iteratorBreak, p)
    | none => return (.ok, p)

def directoryReplaceEntry (selfDir : Nat) (name : List UInt8) (ino : Nat) : Prog VDisk Rc := do
  let (error, _) ← datablockForeach replaceSubr selfDir ⟨name, ino, fun _ => 0⟩
  return if error ≠ .iteratorBreak then .enoent else .ok

/-- The part of `ufs_file_rename` that makes way for the new entry. -/
def renameTarget (parentTo : Nat) (toName : List UInt8) : Prog VDisk Rc := do
  match ← fileLookupByName parentTo toName with
  | .ok _ => fileDeallocate parentTo toName
  | .error error => return if error = .enoent then .ok else error

/-- The part of `ufs_file_rename` that changes entries.  Two directories are one if their numbers are, since each inode has
one handle. -/
def renameEntries (parentFrom : Nat) (fromName : List UInt8) (parentTo : Nat) (toName : List UInt8) (minode : Nat)
    (dirMove : Bool) : Prog VDisk Rc := do
  let error ← directoryAddEntry parentTo minode toName
  if error ≠ .ok then
    return error
  let error ← directoryRemoveEntry parentFrom fromName
  if error ≠ .ok then
    return error
  if dirMove ∧ parentFrom ≠ parentTo then
    let error ← directoryReplaceEntry minode [dot, dot] parentTo
    if error ≠ .ok then
      return error
    let _ ← inodeWriteback minode
    return .ok
  else
    return .ok

/-- The part of `ufs_file_rename` that has the inode, up to its release. -/
def renameInode (fuel parentFrom : Nat) (fromName : List UInt8) (parentTo : Nat) (toName : List UInt8) (minode : Nat) :
    Prog VDisk (Option Rc) := do
  let dirMove := ((← Prog.get).din minode).isdir
  let error ← renameTarget parentTo toName
  if error ≠ .ok then
    return some error
  let error ← if dirMove then canDirmove fuel minode parentTo else pure (some .ok)
  if error ≠ some .ok then
    return error
  return some (← renameEntries parentFrom fromName parentTo toName minode dirMove)

/-- `none` is a call that does not come back within `fuel` rounds of the loop. -/
def fileRename (fuel parentFrom : Nat) (fromName : List UInt8) (parentTo : Nat) (toName : List UInt8) :
    Prog VDisk (Option Rc) := do
  match ← fileLookupByName parentFrom fromName with
  | .error error => return some error
  | .ok fromIno =>
    match ← inodeGet fromIno with
    | none => return some .enoent
    | some minode =>
      let error ← renameInode fuel parentFrom fromName parentTo toName minode
      inodeRel minode
      return error

end Ufs370
