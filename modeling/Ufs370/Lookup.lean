import Ufs370.Sys
import Ufs370.Lib.Components

/-! The two ways from a path to an inode: `ufs_lookup_minode` and `ufs_lookup`. -/

namespace Ufs370

open Lib

def pathMax : Nat := 256

/-- The names that `strtok` finds in a text. -/
def names (t : List UInt8) : List (List UInt8) := Components.comps slash t

/-- `temppath`: the full path name that a path stands for. -/
def tempPath (cwd : Cwd) (path : List UInt8) : List UInt8 :=
  let t := CString.read pathMax (CString.chars path)
  if t.head? = some slash then t
  else
    let t := CString.read pathMax (CString.chars cwd.path)
    let t := if t.getLast? = some slash then t else t ++ [slash]
    t ++ CString.read (pathMax - t.length) (CString.chars path)

/-- What `ufs_lookup_minode` puts into `*dir`, `*last` and `fullpath`. -/
structure Found where
  dir : Option Minptr
  last : Option Minptr
  fullpath : List UInt8

/-- What the walk asks of a directory before it looks into it. -/
def checkDir (s : Ufs) (p : Minptr) : Rc :=
  if !s.authExec p then .eacces else if !s.isdir p then .enotdir else .ok

/-- The directory to look into: `dirMinode`, or the root of the disk that is mounted on it. -/
def searchDir (dirMinode : Minptr) : Prog Ufs (Except Rc Minptr) := do
  let s ← Prog.get
  let rc := checkDir s dirMinode
  if rc ≠ .ok then
    return .error rc
  match (s.minode dirMinode).mountedVdisk with
  | none => return .ok dirMinode
  | some vdisk =>
    dirMinode.rel
    match ← getMinode vdisk rootInode with
    | none => return .error .enoent
    | some dirMinode =>
      let rc := checkDir (← Prog.get) dirMinode
      if rc ≠ .ok then
        return .error rc
      return .ok dirMinode

/-- The new value of `*dir`, if the caller wants it; what it was is released. -/
def storeDir (dir : Bool) (dirMinode : Minptr) (out : Found) : Prog Ufs Found :=
  if dir then do
    relOpt out.dir
    return { out with dir := some dirMinode }
  else
    return out

/-- The inode that a directory has under a name, in exchange for the reference to the directory. -/
def lookupChild (dirMinode : Minptr) (name : List UInt8) : Prog Ufs (Except Rc Minptr) := do
  match ← onDisk dirMinode.vdisk (fileLookupByName dirMinode.ino name) with
  | .error rc => return .error rc
  | .ok ino =>
    dirMinode.rel
    match ← getMinode dirMinode.vdisk ino with
    | none => return .error .enoent
    | some minode => return .ok minode

/-- The loop of `ufs_lookup_minode` over the names that are left; `dir` and `last` tell which
out-parameters are not `NULL`. -/
def lookupMinodeLoop (dir last : Bool) : List (List UInt8) → Minptr → Found → Prog Ufs (Rc × Found)
  | [], _, out => return (.ok, out)
  | name :: next, dirMinode, out => do
    let out := { out with fullpath := out.fullpath ++ slash :: name }
    match ← searchDir dirMinode with
    | .error rc => return (rc, out)
    | .ok dirMinode =>
      let out ← storeDir dir dirMinode out
      match ← lookupChild dirMinode name with
      | .error rc => return (rc, out)
      | .ok minode =>
        if next ≠ [] then
          lookupMinodeLoop dir last next minode out
        else if last then
          return (.ok, { out with last := some minode })
        else
          minode.rel
          return (.ok, out)

def lookupMinode (path : List UInt8) (dir last : Bool) : Prog Ufs (Rc × Found) := do
  let s ← Prog.get
  let temppath := tempPath s.cwd path
  if temppath.head? ≠ some slash then
    return (.einval, ⟨none, none, []⟩)
  s.fsroot.use
  let out := ⟨if dir then some s.fsroot else none, none, []⟩
  let (rc, out) ← lookupMinodeLoop dir last (names temppath) s.fsroot out
  return (rc, if rc = .ok ∧ out.fullpath = [] then { out with fullpath := [slash] } else out)

/-- `UFSLKOP` -/
inductive Lkop
  | lookup | create | delete | rename
  deriving DecidableEq, Repr

/-- The copy of a name to the end of the full path. -/
def appendName (fullpath name : List UInt8) : Rc × List UInt8 :=
  let t := if fullpath.getLast? ≠ some slash ∧ fullpath.length < pathMax then fullpath ++ [slash]
    else fullpath
  if t.length + name.length < pathMax then (.ok, t ++ name) else (.e2big, t)

/-- What `ufs_lookup` has at the end of its loop: a code, the disk it is on, a minode to release
and `fullpath` if the caller wants it. -/
structure Walked where
  rc : Rc
  vdisk : Nat
  minode : Option Minptr
  fullpath : Option (List UInt8)

/-- The walk of `ufs_lookup` stops at a minode. -/
def Walked.at (rc : Rc) (minode : Minptr) (fullpath : Option (List UInt8)) : Walked :=
  ⟨rc, minode.vdisk, some minode, fullpath⟩

/-- The loop of `ufs_lookup` over the names that are left. -/
def lookupLoop (op : Lkop) : List (List UInt8) → Minptr → Option (List UInt8) → Prog Ufs Walked
  | [], minode, fullpath => return .at .ok minode fullpath
  | name :: next, minode, fullpath => do
    let s ← Prog.get
    let islast := decide (next = [])
    if !s.authExec minode then
      return .at .eperm minode fullpath
    if islast ∧ s.readonly minode ∧ (op = .delete ∨ op = .rename) then
      return .at .erofs minode fullpath
    if islast ∧ name = [dot] ∧ op = .rename then
      return .at .eisdir minode fullpath
    if (s.dinode minode).nlink = 0 then
      return .at .enoent minode fullpath
    match ← onDisk minode.vdisk (fileLookupByName minode.ino name) with
    | .error rc =>
      if islast ∧ (op = .create ∨ op = .rename) ∧ !(← Prog.get).authWrite minode then
        return .at .eperm minode fullpath
      return .at rc minode fullpath
    | .ok ino =>
      let appended := fullpath.map fun t => appendName t name
      let fullpath := appended.map Prod.snd
      if appended.any fun r => r.1 ≠ .ok then
        return .at .e2big minode fullpath
      if islast ∧ op = .delete ∧ !(← Prog.get).authWrite minode then
        return .at .eperm minode fullpath
      minode.rel
      match ← getMinode minode.vdisk ino with
      | none => return ⟨.enoent, minode.vdisk, none, fullpath⟩
      | some minode =>
        if islast then
          return .at .ok minode fullpath
        match ← followMount minode with
        | .error vdisk => return ⟨.enoent, vdisk, none, fullpath⟩
        | .ok minode =>
          if !(← Prog.get).isdir minode then
            return .at .enotdir minode fullpath
          lookupLoop op next minode fullpath
where
  /-- The root of the disk that is mounted on a directory; else the minode itself. -/
  followMount (minode : Minptr) : Prog Ufs (Except Nat Minptr) := do
    let s ← Prog.get
    match if s.isdir minode then (s.minode minode).mountedVdisk else none with
    | none => return .ok minode
    | some vdisk =>
      minode.rel
      match ← getMinode vdisk rootInode with
      | none => return .error vdisk
      | some minode => return .ok minode

/-- One pass of `fix_path` from position `p` on, with the slashes `p2` and `p1` behind it: the text
and whether there may be more to do. -/
def fixPathScan (t : List UInt8) : Nat → Nat → Option Nat → Option Nat → List UInt8 × Bool
  | 0, _, _, _ => (t, false)
  | left + 1, p, p1, p2 =>
    let next := fixPathScan t left (p + 1)
    match t.drop p with
    | [] => (t, false)
    | c :: rest =>
      if c ≠ slash then next p1 p2
      else
        -- from here on the source has moved `p1` to `p2` and `p` to `p1`
        let back := p1.getD p
        let next := next (some p) p1
        match rest with
        | [] => if 0 < p then (t.take p, false) else next
        | c :: rest =>
          if c = slash then (t.take p ++ c :: rest, true)
          else if c ≠ dot then next
          else match rest with
            | [] => (if p1.isSome then t.take p else t.take (p + 1), true)
            | c :: rest =>
              if c = slash then (t.take p ++ c :: rest, true)
              else if c ≠ dot then next
              else match rest with
                | [] => (t.take (back + 1), true)
                | c :: rest => if c = slash then (t.take back ++ c :: rest, true) else next

/-- The passes of `fix_path`, each of which but the last makes the text shorter. -/
def fixPathLoop : Nat → List UInt8 → List UInt8
  | 0, t => t
  | left + 1, t =>
    let (t, more) := fixPathScan t (t.length + 1) 0 none none
    if more then fixPathLoop left t else t

def fixPath (fullpath : List UInt8) : List UInt8 := fixPathLoop (fullpath.length + 1) fullpath

/-- The code, the disk, the inode number and the full path. -/
def lookup (op : Lkop) (path : List UInt8) (fullpath : Bool) :
    Prog Ufs (Rc × Nat × Nat × Option (List UInt8)) := do
  let s ← Prog.get
  let isroot := path.head? = some slash
  let minode := (if isroot then s.cwd.rootDir else s.cwd.curDir).getD s.fsroot
  let text := if isroot ∨ s.cwd.path = [] then [slash] else CString.read pathMax (CString.chars s.cwd.path)
  minode.use
  let inpath := CString.read pathMax (CString.chars (path.dropWhile (· = slash)))
  let w ← lookupLoop op (names inpath) minode (if fullpath then some text else none)
  relOpt w.minode
  return (w.rc, w.vdisk, w.minode.elim 0 Minptr.ino, w.fullpath.map fixPath)

end Ufs370
