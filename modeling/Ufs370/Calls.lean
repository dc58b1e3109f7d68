import Ufs370.File
import Ufs370.Files
import Ufs370.Lookup

/-! The calls on paths: directories, removal and the opening of files. -/

namespace Ufs370

open Lib

/-- `ufs_lookup_minode` as its callers see it: a path and the out-parameters that are not `NULL`. -/
abbrev Walker := List UInt8 → Bool → Bool → Prog Ufs (Rc × Found)

namespace Found

/-- The end of a call: what is left of the pointers is released. -/
def rel (out : Found) : Prog Ufs Unit := do
  relOpt out.dir
  relOpt out.last

/-- The inode of the path, or else its directory, which then is no longer the caller's to release. -/
def pick (out : Found) : Option Minptr × Found :=
  match out.last with
  | some minode => (some minode, { out with last := none })
  | none => (out.dir, { out with dir := none })

theorem pick_or (out : Found) : out.pick.1 = out.last.or out.dir := by
  obtain ⟨dir, _ | last, fullpath⟩ := out <;> rfl

end Found

/-- The root of the disk that is mounted on a directory, in exchange for the directory. -/
def enterMount (minode : Minptr) : Prog Ufs (Option Minptr) := do
  match ((← Prog.get).minode minode).mountedVdisk with
  | none => return some minode
  | some vdisk =>
    minode.rel
    getMinode vdisk rootInode

/-- The part of `ufs_chgdir` that makes a directory the current one. -/
def enterDir (minode : Minptr) (fullpath : List UInt8) : Prog Ufs Unit := do
  relOpt (← Prog.get).cwd.curDir
  Prog.modify fun s => { s with cwd := { s.cwd with curDir := some minode, path := fullpath.take pathMax } }

/-- The name of the user, or a default. -/
def attrOwner (acee : Option Acee) : List UInt8 := acee.elim [0xC8, 0xC5, 0xD9, 0xC3, 0xF0, 0xF1] Acee.user

/-- The attributes of a new file or directory. -/
def newAttr (s : Ufs) (type : UInt16) (group : List UInt8) (now : Timev) : Attr where
  owner := attrOwner s.acee
  group := s.acee.elim group Acee.group
  mode := type ||| s.createPerm
  codepage := 0
  atime := now
  mtime := now
  ctime := now

/-- The text that `ufs_mkdir` compares with the full path of a walk. -/
def mkdirPath (cwd : Cwd) (path : List UInt8) : List UInt8 :=
  let t := if path.head? = some slash then CString.read pathMax (CString.chars path)
    else CString.read (pathMax - 1)
      (CString.chars (CString.read pathMax (CString.chars cwd.path) ++ slash :: path))
  if t = [] then [slash] else t

/-- The checks on the parent and the child before a name is removed. -/
def removeCheck (s : Ufs) (dir last : Minptr) (child : Rc) : Rc :=
  if s.readonly dir ∨ s.readonly last then .erofs
  else if !s.authWrite dir then .eacces
  else if !s.authWrite last then child
  else .ok

/-- The check of `ufs_open` on a file. -/
def openCheck (s : Ufs) (fm : Mode) (last : Minptr) : Rc :=
  if fm.write ∧ s.readonly last then .erofs
  else if s.isdir last then .eisdir
  else if !(s.dinode last).isfile then .enfile
  else if fm.read ∧ !s.authRead last then .eacces
  else if fm.write ∧ !s.authWrite last then .eacces
  else .ok

/-- What `ufs_open` does with its new handle; the codes of the calls in it are not looked at. -/
def openHandle (fp : File) (fm : Mode) (now : Timev) : Prog VDisk File := do
  let ino := fp.minode.ino
  let fp := { fp with mode := fm }
  modifyDinode ino fun d => { d with atime := now, mtime := if fm.write then now else d.mtime }
  let _ ← if fm.trunc then datablockSizeChange 0 ino else pure .ok
  let (_, fp) ← fseek fp 0 (if fm.append then .fin else .set)
  let _ ← inodeWriteback ino
  modifyMinode ino fun m => { m with dirty := false }
  return fp

/-- `ufs_fclose` -/
def fclose (fp : File) : Prog Ufs Unit := do
  let fp ← onDisk fp.minode.vdisk (fileSync fp)
  fileFree fp

/-- The part of `ufs_create` that has the new inode. -/
def createHandle (fm : Mode) (minode : Minptr) : Prog Ufs (Rc × Option File) := do
  match ← fileNew minode with
  | none =>
    minode.rel
    return (.enomem, none)
  | some fp =>
    let fp := { fp with mode := fm }
    if ← onDisk minode.vdisk diskGetBuf then
      let (_, fp) ← onDisk minode.vdisk (fseek fp 0 .set)
      return (.ok, some fp)
    else
      fileFree fp
      return (.enomem, none)

/-- The part of `ufs_create` that has the parent. -/
def createIn (path : List UInt8) (fm : Mode) (now : Timev) (minode : Minptr) :
    Prog Ufs (Rc × Option File) := do
  let s ← Prog.get
  if !s.isdir minode then
    minode.rel
    return (.enotdir, none)
  let attr := newAttr s (UInt16.ofNat ifreg) [0xE2, 0xE3, 0xC7, 0xC1, 0xC4, 0xD4, 0xC9, 0xD5] now
  let (rc, ino) ← onDisk minode.vdisk (fileAllocate minode.ino path attr now)
  minode.rel
  if rc ≠ .ok then
    return (rc, none)
  match ← getMinode minode.vdisk ino with
  | none => return (.enoent, none)
  | some minode => createHandle fm minode

/-- `ufs_create` -/
def create (path : List UInt8) (fm : Mode) (now : Timev) : Prog Ufs (Rc × Option File) := do
  if !fm.write then
    return (.einval, none)
  let (rc, vdisk, ino, _) ← lookup .create path true
  if rc ≠ .enoent then
    return (if rc = .ok then .eexist else rc, none)
  if ((← Prog.get).vdisk vdisk).readonly then
    return (.erofs, none)
  match ← getMinode vdisk ino with
  | none => return (.enoent, none)
  | some minode => createIn path fm now minode

section Walker

variable (walk : Walker)

/-- `ufs_chgdir` -/
def chgdir (path : List UInt8) : Prog Ufs Rc := do
  let (rc, out) ← walk path true true
  if rc ≠ .ok then
    out.rel
    return rc
  match out.pick with
  | (none, out) =>
    -- no walk that works ends without an inode
    out.rel
    return .enoent
  | (some minode, out) =>
    if !(← Prog.get).isdir minode then
      minode.rel
      out.rel
      return .enotdir
    match ← enterMount minode with
    | none =>
      out.rel
      return .enoent
    | some minode =>
      enterDir minode out.fullpath
      out.rel
      return .ok

/-- The part of `ufs_mkdir` that has the parent; what comes back is the code and the minode to release. -/
def mkdirIn (fullpath : List UInt8) (now : Timev) (minode : Minptr) : Prog Ufs (Rc × Option Minptr) := do
  let s ← Prog.get
  if s.readonly minode then
    return (.erofs, some minode)
  if !s.authWrite minode then
    return (.eacces, some minode)
  let attr := newAttr s (UInt16.ofNat ifdir) [0xC1, 0xC4, 0xD4, 0xC9, 0xD5] now
  let (rc, ino) ← onDisk minode.vdisk (fileAllocate minode.ino fullpath attr now)
  if rc ≠ .ok then
    return (rc, some minode)
  minode.rel
  match ← getMinode minode.vdisk ino with
  | none => return (.enoent, none)
  | some minode => return (.ok, some minode)

/-- `ufs_mkdir` -/
def mkdir (path : List UInt8) (now : Timev) : Prog Ufs Rc := do
  let temppath := mkdirPath (← Prog.get).cwd path
  let (rc, out) ← walk path true true
  if rc ≠ .enoent then
    out.rel
    return if rc = .ok then .eexist else rc
  if out.fullpath ≠ temppath then
    out.rel
    return .enoent
  match out.pick with
  | (none, out) =>
    -- no walk ends so without a directory
    out.rel
    return .enoent
  | (some minode, out) =>
    match ← enterMount minode with
    | none =>
      out.rel
      return .enoent
    | some minode =>
      let (rc, minode) ← mkdirIn out.fullpath now minode
      relOpt minode
      out.rel
      return rc

/-- `ufs_rmdir` -/
def rmdir (path : List UInt8) : Prog Ufs Rc := do
  let (rc, out) ← walk path true true
  if rc ≠ .ok then
    out.rel
    return rc
  match out.dir, out.last with
  | some dir, some last =>
    let s ← Prog.get
    let check := removeCheck s dir last .eacces
    let rc ←
      if slash ∉ out.fullpath then pure .enoent
      else if !s.isdir last then pure .enotdir
      else if check ≠ .ok then pure check
      else if (s.minode last).mountedVdisk.isSome then pure .eperm
      else onDisk dir.vdisk (fileDeallocate dir.ino (afterSlash out.fullpath))
    out.rel
    return rc
  | _, _ =>
    out.rel
    return .enoent

/-- `ufs_remove` -/
def remove (path : List UInt8) : Prog Ufs Rc := do
  let (rc, out) ← walk path true true
  if rc ≠ .ok then
    out.rel
    return rc
  match out.dir, out.last with
  | some dir, some last =>
    let s ← Prog.get
    let check := removeCheck s dir last .eperm
    if s.isdir last then
      out.rel
      return .eisdir
    if slash ∉ out.fullpath then
      out.rel
      return .enoent
    if check ≠ .ok then
      out.rel
      return check
    last.rel
    let rc ← onDisk dir.vdisk (fileDeallocate dir.ino (afterSlash out.fullpath))
    dir.rel
    return rc
  | _, _ =>
    -- where there is an inode there is its directory
    out.rel
    return .enoent

/-- `ufs_open` of an existing file.  Without an inode the source looks at the disk of a null pointer and
then fails in any case. -/
def openFile (path : List UInt8) (fm : Mode) (now : Timev) : Prog Ufs (Rc × Option File) := do
  if !fm.read ∧ !fm.write then
    return (.einval, none)
  let (rc, out) ← walk path true true
  if rc ≠ .ok then
    relOpt out.last
    relOpt out.dir
    return (rc, none)
  match out.last with
  | none =>
    relOpt out.dir
    return (.enoent, none)
  | some last =>
    let check := openCheck (← Prog.get) fm last
    if check ≠ .ok then
      last.rel
      relOpt out.dir
      return (check, none)
    match ← fileNew last with
    | none =>
      last.rel
      relOpt out.dir
      return (.enomem, none)
    | some fp =>
      let fp ← onDisk last.vdisk (openHandle fp fm now)
      relOpt out.dir
      return (.ok, some fp)

/-- `ufs_fopen` -/
def fopen (path mode : List UInt8) (now : Timev) : Prog Ufs (Rc × Option File) := do
  let fm := fileMode mode
  if !fm.read ∧ !fm.write then
    return (.einval, none)
  let (rc, fp) ← openFile walk path fm now
  if rc = .enoent ∧ fm.create then
    create path fm now
  else
    return (rc, fp)

end Walker

end Ufs370
