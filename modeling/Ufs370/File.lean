import Ufs370.Sys

/-! File handles: a position in a file and a buffer with one of its blocks. -/

namespace Ufs370

open Lib

/-- The bits of an open mode. -/
structure Mode where
  read : Bool
  write : Bool
  binary : Bool
  append : Bool
  trunc : Bool
  create : Bool
  deriving DecidableEq

/-- A `UFSFILE`.  The indicators `FILE_IND_*` are `eof`, `err` and `dirty`. -/
structure File where
  filepos : Nat
  mode : Mode
  eof : Bool
  err : Bool
  dirty : Bool
  error : Rc
  minode : Minptr
  blkno : Nat
  blkpos : Nat
  blkbuf : Block

/-- `UFS_SEEK_*`; `other` is every other value. -/
inductive Whence
  | set | cur | fin | other
  deriving DecidableEq, Repr

namespace Mode

def none : Mode := ⟨false, false, false, false, false, false⟩

/-- What the character at the front of a mode string stands for. -/
def first (c : UInt8) : Mode :=
  if c = 0x99 then { none with read := true }
  else if c = 0xA6 then { none with write := true, create := true, trunc := true }
  else if c = 0x81 then { none with write := true, create := true, append := true }
  else none

/-- What a later character adds. -/
def next (flags : Mode) (c : UInt8) : Mode :=
  if c = 0x82 then { flags with binary := true }
  else if c = 0x4E then
    if flags.read then { flags with write := true }
    else if flags.write then { flags with read := true }
    else flags
  else if c = 0x99 then { flags with read := true }
  else if c = 0xA6 then { flags with write := true }
  else flags

end Mode

/-- `ufs_file_mode` of a mode string, which is EBCDIC. -/
def fileMode : List UInt8 → Mode
  | [] => .none
  | c :: rest => rest.foldl Mode.next (.first c)

namespace File

def fail (fp : File) (error : Rc) : File := { fp with err := true, error }

/-- `memcpy` into the buffer, at the position in it. -/
def put (fp : File) (buf : List UInt8) : File := { fp with
  blkbuf := fun o => if fp.blkpos ≤ o ∧ o < fp.blkpos + buf.length then CString.chars buf (o - fp.blkpos)
    else fp.blkbuf o
  filepos := u32 (fp.filepos + buf.length)
  blkpos := fp.blkpos + buf.length
  dirty := true }

/-- `memcpy` of `n` bytes out of the buffer. -/
def take (fp : File) (n : Nat) : List UInt8 × File :=
  ((List.range n).map fun k => fp.blkbuf (fp.blkpos + k),
    { fp with blkpos := fp.blkpos + n, filepos := fp.filepos + n })

end File

/-- `ufs_file_new`; without a block buffer there is no handle, and the inode is released. -/
def fileNew (minode : Minptr) : Prog Ufs (Option File) := do
  if ← onDisk minode.vdisk (VDisk.onStore Store.alloc) then
    if ← onDisk minode.vdisk diskGetBuf then
      return some ⟨0, .none, false, false, false, .ok, minode, 0, 0, zeroBlock⟩
    else
      minode.rel
      return none
  else
    return none

/-- `ufs_file_free` -/
def fileFree (fp : File) : Prog Ufs Unit := fp.minode.rel

/-- The part of `ufs_file_sync` that writes the block buffer. -/
def fileSyncBlock (fp : File) : Prog VDisk File := do
  let blkno ← if fp.blkno = 0 then datablockLast fp.minode.ino fp.filepos else pure fp.blkno
  if blkno = 0 then
    return { fp with blkno }
  let _ ← vdiskWrite fp.blkbuf blkno
  return { fp with blkno, dirty := false }

def fileSync (fp : File) : Prog VDisk File := do
  let fp ← if fp.dirty then fileSyncBlock fp else pure fp
  if ((← Prog.get).deref fp.minode.ino).dirty then
    let _ ← inodeWriteback fp.minode.ino
    modifyMinode fp.minode.ino fun m => { m with dirty := false }
    return fp
  else
    return fp

/-- The next block of a file in the buffer of its handle. -/
def fileLoad (fp : File) (newblk : Nat) : Prog VDisk (Rc × File) := do
  match ← vdiskRead newblk with
  | .error rc => return (rc, { fp with blkno := newblk })
  | .ok buf => return (.ok, { fp with blkno := newblk, blkbuf := buf })

/-- The position at an offset from a base, if there is no overflow. -/
def seekFrom (base : Nat) (offset : Int) : Option Nat :=
  if offset < 0 then
    if base < (-offset).toNat then none else some (base - (-offset).toNat)
  else
    let newpos := u32 (base + offset.toNat)
    if newpos < base then none else some newpos

/-- The `switch` of `ufs_fseek`. -/
def seekTarget (filepos filesize : Nat) (offset : Int) : Whence → Option Nat
  | .set => some (if 0 ≤ offset then offset.toNat else 0)
  | .cur => seekFrom filepos offset
  | .fin => seekFrom filesize offset
  | .other => some 0

/-- The part of `ufs_fseek` for a handle that is open for output. -/
def seekResize (fp : File) (newpos : Nat) : Prog VDisk (Rc × File) := do
  let ino := fp.minode.ino
  let rc ← if ((← Prog.get).din ino).filesize.toNat < newpos ∧ !fp.mode.read
    then datablockSizeChange newpos ino else pure .ok
  if rc ≠ .ok then
    return (rc, fp)
  let fp ← fileSync fp
  if newpos < ((← Prog.get).din ino).filesize.toNat ∧ !fp.mode.read then
    return (← datablockSizeChange newpos ino, fp)
  else
    return (.ok, fp)

/-- The part of `ufs_fseek` that moves to the new position. -/
def seekMove (fp : File) (newpos : Nat) : Prog VDisk (Rc × File) := do
  let ino := fp.minode.ino
  let fp := { fp with filepos := newpos, blkpos := newpos % (← Prog.get).blksize }
  let newblk ← datablockLast ino newpos
  let (rc, fp) ←
    if newblk = 0 then pure (Rc.ok, { fp with blkbuf := zeroBlock })
    else if newblk ≠ fp.blkno then fileLoad fp newblk
    else pure (Rc.ok, fp)
  if rc ≠ .ok then
    return (rc, fp)
  let filesize := ((← Prog.get).din ino).filesize.toNat
  return (.ok, { fp with eof := decide (filesize ≤ fp.filepos), err := false, error := .ok })

def fseek (fp : File) (offset : Int) (whence : Whence) : Prog VDisk (Rc × File) := do
  match seekTarget fp.filepos ((← Prog.get).din fp.minode.ino).filesize.toNat offset whence with
  | none => return (.einval, fp.fail .einval)
  | some newpos =>
    let (rc, fp) ← if fp.mode.write then seekResize fp newpos else pure (.ok, fp)
    if rc ≠ .ok then
      return (rc, fp.fail rc)
    let (rc, fp) ← seekMove fp newpos
    return (rc, if rc ≠ .ok then fp.fail rc else fp)

/-- The part of `ufs_file_putn` and `ufs_file_getn` that turns to the next block. -/
def nextBlock (fp : File) : Prog VDisk (Bool × File) := do
  let newblk ← datablockLast fp.minode.ino (u32 (fp.filepos + 1))
  if newblk = 0 then
    return (false, fp.fail .eio)
  let (rc, fp) ← fileLoad fp newblk
  if rc ≠ .ok then
    return (false, fp.fail rc)
  return (true, { fp with blkpos := fp.filepos % (← Prog.get).blksize })

/-- The checks at the front of `ufs_file_putn`, and the growth of the file. -/
def putnExtend (fp : File) (n : Nat) : Prog VDisk (Bool × File) := do
  if fp.err then
    return (false, fp)
  if !fp.mode.write then
    return (false, fp.fail .eperm)
  let newsize := u32 (fp.filepos + n)
  if newsize ≤ ((← Prog.get).din fp.minode.ino).filesize.toNat then
    return (true, fp)
  let rc ← datablockSizeChange newsize fp.minode.ino
  if rc ≠ .ok then
    return (false, fp.fail rc)
  return (true, { fp with eof := false })

/-- `ufs_file_putn`, which calls itself once a block; the second call on has room in its block, so that
twice the length is enough calls. -/
def putnLoop : Nat → File → List UInt8 → Prog VDisk (Nat × File)
  | 0, fp, _ => return (0, fp)
  | calls + 1, fp, buf => do
    if buf = [] then
      return (0, fp)
    let (ok, fp) ← putnExtend fp buf.length
    if !ok then
      return (0, fp)
    let avail := u32sub (← Prog.get).blksize fp.blkpos
    if buf.length ≤ avail then
      return (buf.length, fp.put buf)
    let fp ← fileSync (if 0 < avail then fp.put (buf.take avail) else fp)
    let (ok, fp) ← nextBlock fp
    if !ok then
      return (avail, fp)
    let (count, fp) ← putnLoop calls fp (buf.drop avail)
    return (avail + count, fp)

/-- The number of bytes written. -/
def filePutn (fp : File) (buf : List UInt8) : Prog VDisk (Nat × File) :=
  putnLoop (2 * buf.length + 1) fp buf

/-- `ufs_file_getn`, in the way of `putnLoop`.  Its last part, which reads single bytes, is never
reached: at that point there is something left of the file. -/
def getnLoop : Nat → File → Nat → Prog VDisk (List UInt8 × File)
  | 0, fp, _ => return ([], fp)
  | calls + 1, fp, n => do
    if n = 0 ∨ fp.eof ∨ fp.err then
      return ([], fp)
    if !fp.mode.read then
      return ([], fp.fail .eperm)
    let v ← Prog.get
    let filesize := (v.din fp.minode.ino).filesize.toNat
    if filesize ≤ fp.filepos then
      return ([], { fp with eof := true })
    let avail := min (u32sub v.blksize fp.blkpos) (filesize - fp.filepos)
    if n ≤ avail then
      return fp.take n
    let (buf, fp) := fp.take avail
    if filesize ≤ fp.filepos then
      return (buf, { fp with eof := true })
    let (ok, fp) ← nextBlock fp
    if !ok then
      return (buf, fp)
    let (rest, fp) ← getnLoop calls fp (n - avail)
    return (buf ++ rest, fp)

/-- The bytes read. -/
def fileGetn (fp : File) (n : Nat) : Prog VDisk (List UInt8 × File) := getnLoop (2 * n + 1) fp n

end Ufs370
