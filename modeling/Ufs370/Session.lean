import Ufs370.MountRefs

/-! The calls of some users, in any order: every handle that they have holds one reference. -/

namespace Ufs370

open Lib

/-- What a `UFS` handle has of its own. -/
structure User where
  cwd : Cwd
  acee : Option Acee
  createPerm : UInt16

namespace Ufs

def user (s : Ufs) : User := ⟨s.cwd, s.acee, s.createPerm⟩

def setUser (s : Ufs) (u : User) : Ufs := { s with cwd := u.cwd, acee := u.acee, createPerm := u.createPerm }

/-- The references of the mount table and of `sys->fsroot`.  The mount of the root on itself has none of
its own: `ufs_sys_new` takes one for both. -/
def tableRefs (s : Ufs) (p : Minptr) : Nat := if p = s.fsroot then 1 else s.mountpoint.count p

end Ufs

/-- The user whose turn it is, the others, and what they have opened. -/
structure Session where
  ufs : Ufs
  idle : List User
  files : List File
  ddescs : List Ddesc

/-- A call, with what it is given; a handle is its place in the list of those that are open. -/
inductive Call where
  | turn (k : Nat)
  | openFile (path : List UInt8) (fm : Mode) (now : Timev)
  | fclose (k : Nat)
  | diropen (path pattern : List UInt8)
  | dirclose (k : Nat)
  | chgdir (path : List UInt8)
  | mkdir (path : List UInt8) (now : Timev)
  | rmdir (path : List UInt8)
  | remove (path : List UInt8)
  | mount (ddname path : List UInt8)
  | unmountInode (p : Minptr)

def Cwd.pointers (cwd : Cwd) : List Minptr := cwd.curDir.toList ++ cwd.rootDir.toList

namespace Session

/-- The inode pointers in live handles. -/
def pointers (c : Session) : List Minptr :=
  c.files.map File.minode ++ c.ddescs.map Ddesc.minode ++ c.ufs.cwd.pointers ++
    c.idle.flatMap fun u => u.cwd.pointers

/-- The references that are stored anywhere. -/
def refs (c : Session) (p : Minptr) : Nat := c.ufs.tableRefs p + c.pointers.count p

def onUfs {α : Type} (x : Prog Ufs α) : Prog Session α :=
  Prog.lift Session.ufs (fun s c => { c with ufs := s }) x

theorem run_onUfs {α : Type} (x : Prog Ufs α) (c : Session) :
    (onUfs x).run c = ((x.run c.ufs).1, { c with ufs := (x.run c.ufs).2 }) := rfl

section Step

variable (walk : Walker) (patmat : List UInt8 → List UInt8 → Bool)

def step : Call → Prog Session Unit
  | .turn k => Prog.modify fun c =>
    match c.idle[k]? with
    | none => c
    | some u => { c with ufs := c.ufs.setUser u, idle := c.idle.set k c.ufs.user }
  | .openFile path fm now => do
    let (_, fp) ← onUfs (Ufs370.openFile walk path fm now)
    Prog.modify fun c => { c with files := c.files ++ fp.toList }
  | .fclose k => do
    match (← Prog.get).files[k]? with
    | none => return ()
    | some fp =>
      onUfs (Ufs370.fclose fp)
      Prog.modify fun c => { c with files := c.files.eraseIdx k }
  | .diropen path pattern => do
    let ddesc ← onUfs (Ufs370.diropen walk patmat path pattern)
    Prog.modify fun c => { c with ddescs := c.ddescs ++ ddesc.toList }
  | .dirclose k => do
    match (← Prog.get).ddescs[k]? with
    | none => return ()
    | some ddesc =>
      onUfs (Ufs370.dirclose ddesc)
      Prog.modify fun c => { c with ddescs := c.ddescs.eraseIdx k }
  | .chgdir path => do let _ ← onUfs (Ufs370.chgdir walk path)
  | .mkdir path now => do let _ ← onUfs (Ufs370.mkdir walk path now)
  | .rmdir path => do let _ ← onUfs (Ufs370.rmdir walk path)
  | .remove path => do let _ ← onUfs (Ufs370.remove walk path)
  | .mount ddname path => do let _ ← onUfs (Ufs370.mount walk ddname path)
  | .unmountInode p => do let _ ← onUfs (Ufs370.unmountInode p)

end Step

/-- Every use count is the number of references that are stored, and the records of the mounts agree. -/
structure Exact (c : Session) : Prop where
  oneHandle : c.ufs.OneHandle
  uses : ∀ p, c.ufs.uses p = c.refs p
  mounted : ∀ vdisk m, c.ufs.mountedMinode vdisk = some m →
    m ∈ c.ufs.mountpoint ∧ (c.ufs.minode m).mountedVdisk = some vdisk

/-- A call that comes to none of the exits that spoil the counts. -/
def Spared (walk : Walker) (c : Session) (i : Call) : Prop :=
  (∀ p, c.ufs.uses p + 12 < 65536) ∧
  match i with
  | .openFile path fm _ => OpenSpared walk path fm c.ufs
  | .diropen path _ => DiropenSpared walk path c.ufs
  | .mkdir path now => MkdirSpared walk path now c.ufs
  | .mount ddname path => MountSpared walk ddname path c.ufs
  | .unmountInode p => p = c.ufs.fsroot → c.ufs.isdir p = true →
    ∀ vdisk, (c.ufs.minode p).mountedVdisk = some vdisk → c.ufs.mountedMinode vdisk ≠ some p
  | _ => True

namespace Exact

variable {c c₀ c' : Session} {held : List Minptr} {s : Ufs}

theorem tableRefs_pos {m : Minptr} (h : m ∈ s.mountpoint) : 0 < s.tableRefs m := by
  rw [Ufs.tableRefs]
  split
  · exact Nat.one_pos
  · exact List.count_pos_iff.mpr h

theorem room (h : Exact c) (hroom : ∀ p, c.ufs.uses p + 12 < 65536) (hrefs : ∀ p, c.refs p = c₀.refs p + held.count p) :
    Room c₀.refs := fun p => by
  have := hroom p
  rw [h.uses, hrefs] at this
  omega

/-- Before a call that may give up the references in `held`, which `c₀` lacks. -/
theorem holding (h : Exact c) (hrefs : ∀ p, c.refs p = c₀.refs p + held.count p) :
    Holding c.ufs c₀.refs held c.ufs where
  same := rfl
  oneHandle := h.oneHandle
  uses p := (h.uses p).trans (hrefs p)
  mounted _ _ := rfl

/-- After a call that left the mount table as it was. -/
theorem of_holding {s₀ : Ufs} (h : Exact c) (hcwd : s₀ = { c.ufs with cwd := s₀.cwd })
    (hholding : Holding s₀ c₀.refs held c'.ufs) (htable : c₀.ufs.tableRefs = c.ufs.tableRefs)
    (hrefs : ∀ p, c'.refs p = c₀.refs p + held.count p) : Exact c' where
  oneHandle := hholding.oneHandle
  uses p := by rw [hholding.uses, hrefs]
  mounted vdisk m hm := by
    have hminode : c'.ufs.mountedMinode = c.ufs.mountedMinode := by rw [hholding.same, hcwd]
    have hpoints : c'.ufs.mountpoint = c.ufs.mountpoint := by rw [hholding.same, hcwd]
    obtain ⟨hmem, hback⟩ := h.mounted vdisk m (hminode ▸ hm)
    have hcount : 0 < c₀.refs m := by
      have := tableRefs_pos hmem
      rw [refs, htable]
      omega
    refine ⟨hpoints ▸ hmem, ?_⟩
    rw [hholding.mounted m hcount, ← hback, hcwd]
    rfl

/-- A call that gives up nothing. -/
theorem of_call {α : Type} {x : Prog Ufs α} {d : Session} (h : Exact c) (hroom : ∀ p, c.ufs.uses p + 12 < 65536)
    (hx : Room c.refs → Holding c.ufs c.refs [] c.ufs → Holding c.ufs c.refs held (x.run c.ufs).2)
    (hd : d.ufs = (x.run c.ufs).2)
    (hpointers : d.ufs.cwd = c.ufs.cwd → ∀ p, d.pointers.count p = c.pointers.count p + held.count p) : Exact d := by
  have hnone (p : Minptr) : c.refs p = c.refs p + [].count p := rfl
  have hholding := hx (h.room hroom hnone) (h.holding hnone)
  rw [← hd] at hholding
  refine h.of_holding rfl hholding rfl fun p => ?_
  have htable : d.ufs.tableRefs = c.ufs.tableRefs := by
    rw [hholding.same]
    rfl
  have hcwd : d.ufs.cwd = c.ufs.cwd := by rw [hholding.same]
  rw [refs, refs, htable, hpointers hcwd, Nat.add_assoc]

section Step

variable {walk : Walker} {patmat : List UInt8 → List UInt8 → Bool}

theorem turn (h : Exact c) (k : Nat) : Exact ((step walk patmat (.turn k)).run c).2 := by
  simp only [step, Prog.run_modify]
  cases hk : c.idle[k]? with
  | none => exact h
  | some u =>
    refine ⟨h.oneHandle, fun p => (h.uses p).trans ?_, h.mounted⟩
    obtain ⟨hlt, rfl⟩ := List.getElem?_eq_some_iff.mp hk
    have hset := ((List.set_perm_cons_eraseIdx hlt c.ufs.user).flatMap_right fun u => u.cwd.pointers).count_eq p
    have hold := ((List.getElem_cons_eraseIdx_perm hlt).flatMap_right fun u => u.cwd.pointers).count_eq p
    simp only [refs, pointers, List.count_append, List.flatMap_cons] at hset hold ⊢
    rw [hset, ← hold]
    change _ = c.ufs.tableRefs p + (_ + _ + c.idle[k].cwd.pointers.count p + (c.ufs.cwd.pointers.count p + _))
    omega

/-- A handle that is taken out of a list, and what is left. -/
theorem count_eraseIdx {β : Type} (f : β → Minptr) {l : List β} {k : Nat} {b : β} (h : l[k]? = some b) (p : Minptr) :
    (l.map f).count p = ((l.eraseIdx k).map f).count p + [f b].count p := by
  obtain ⟨hlt, rfl⟩ := List.getElem?_eq_some_iff.mp h
  have hperm := ((List.getElem_cons_eraseIdx_perm hlt).map f).count_eq p
  rw [← hperm, List.map_cons, List.count_cons, List.count_singleton]

/-- A call that gives up the reference of a handle. -/
theorem of_close {x : Prog Ufs Unit} {d : Session} {m : Minptr} (h : Exact c)
    (hd : d.ufs = c.ufs) (hpointers : ∀ p, c.pointers.count p = d.pointers.count p + [m].count p)
    (hx : Holding c.ufs d.refs [m] c.ufs → Holding c.ufs d.refs [] (x.run c.ufs).2) :
    Exact { d with ufs := (x.run c.ufs).2 } := by
  have hrefs (p : Minptr) : c.refs p = d.refs p + [m].count p := by
    rw [refs, refs, hd, hpointers, Nat.add_assoc]
  have hclosed := hx (h.holding hrefs)
  refine h.of_holding rfl hclosed (by rw [hd]) fun p => ?_
  have hcwd : ((x.run c.ufs).2).cwd = d.ufs.cwd := by
    rw [hd, hclosed.same]
  have htable : ((x.run c.ufs).2).tableRefs p = d.ufs.tableRefs p := by
    rw [hd, hclosed.same]
    rfl
  simp only [refs, pointers, hcwd, htable, List.count_nil, Nat.add_zero]

theorem fclose (h : Exact c) (k : Nat) :
    Exact ((step walk patmat (.fclose k)).run c).2 := by
  simp only [step, Prog.run_bind, Prog.get]
  cases hk : c.files[k]? with
  | none => exact h
  | some fp =>
    refine h.of_close (d := { c with files := c.files.eraseIdx k }) rfl (fun p => ?_) fclose_holding
    simp only [pointers, List.count_append, count_eraseIdx File.minode hk]
    ring

theorem dirclose (h : Exact c) (k : Nat) :
    Exact ((step walk patmat (.dirclose k)).run c).2 := by
  simp only [step, Prog.run_bind, Prog.get]
  cases hk : c.ddescs[k]? with
  | none => exact h
  | some ddesc =>
    refine h.of_close (d := { c with ddescs := c.ddescs.eraseIdx k }) rfl (fun p => ?_) (Holding.rel.run _)
    simp only [pointers, List.count_append, count_eraseIdx Ddesc.minode hk]
    ring

theorem chgdir (hwalk : CountedWalker walk) (h : Exact c) (hroom : ∀ p, c.ufs.uses p + 12 < 65536) (path : List UInt8) :
    Exact ((step walk patmat (.chgdir path)).run c).2 := by
  let d : Session := { c with ufs := { c.ufs with cwd := { c.ufs.cwd with curDir := none } } }
  have hrefs (p : Minptr) : c.refs p = d.refs p + c.ufs.cwd.curDir.toList.count p := by
    simp only [refs, pointers, Cwd.pointers, List.count_append, d, Option.toList_none, List.count_nil]
    change c.ufs.tableRefs p + _ = c.ufs.tableRefs p + _ + _
    ring
  obtain ⟨cwd, hroot, hholding⟩ := (chgdir_holding hwalk (h.room hroom hrefs) path).run _ (h.holding hrefs)
  refine h.of_holding rfl hholding rfl fun p => ?_
  have hcwd : ((Ufs370.chgdir walk path).run c.ufs).2.cwd = cwd := by rw [hholding.same]
  have htable : ((Ufs370.chgdir walk path).run c.ufs).2.tableRefs p = d.ufs.tableRefs p := by
    rw [hholding.same]
    rfl
  simp only [refs, pointers, Cwd.pointers, List.count_append, step, onUfs, Prog.run_bind,
    Prog.run_pure, hcwd, htable, hroot, d, Option.toList_none, List.count_nil]
  ring

theorem mem_eraseMountpoint {l : List Minptr} {m p : Minptr} (hne : m ≠ p) : m ∈ eraseMountpoint l p ↔ m ∈ l := by
  rw [eraseMountpoint, List.mem_reverse, List.mem_erase_of_ne hne, List.mem_reverse]

theorem count_eraseMountpoint {l : List Minptr} {p : Minptr} (h : p ∈ l) (q : Minptr) :
    l.count q = (eraseMountpoint l p).count q + [p].count q := by
  have hperm := List.perm_cons_erase (List.mem_reverse.mpr h)
  rw [eraseMountpoint, List.count_reverse, ← List.count_reverse (l := l), hperm.count_eq, List.count_cons,
    List.count_singleton]

end Step

end Exact

/-- The records of a mount are taken back. -/
def unmounted (s : Ufs) (vdisk : Nat) (p : Minptr) : Ufs :=
  let s := (s.setMountedVdisk p none).setMountedMinode vdisk none
  { s with mountpoint := eraseMountpoint s.mountpoint p }

theorem unmounted_minode? (s : Ufs) (vdisk : Nat) (p : Minptr) : (unmounted s vdisk p).minode? =
    Function.update s.minode? p ((s.minode? p).map fun m => { m with mountedVdisk := none }) := by
  change (s.setVdisk p.vdisk _).minode? = _
  exact minode?_setVdisk s p
    (VDisk.minode?_setMinode_same (g := fun m => { m with mountedVdisk := none }) fun _ hm => hm)
    fun j hj => VDisk.minode?_setMinode_other (g := fun m => { m with mountedVdisk := none }) (fun _ hm => hm) hj

theorem unmounted_uses (s : Ufs) (vdisk : Nat) (p : Minptr) : (unmounted s vdisk p).uses = s.uses := by
  rw [uses_update (unmounted_minode? s vdisk p)]
  refine Function.update_eq_iff.mpr ⟨?_, fun _ _ => rfl⟩
  rw [uses_eq]
  cases s.minode? p <;> rfl

theorem unmounted_oneHandle {s : Ufs} {vdisk : Nat} {p : Minptr} (h : s.OneHandle) : (unmounted s vdisk p).OneHandle := by
  intro j
  by_cases hj : j = p.vdisk
  · subst hj
    change (Function.update s.vdisk p.vdisk _ p.vdisk).OneHandle
    rw [Function.update_self]
    exact (setMinode_oneHandle (g := fun m => { m with mountedVdisk := none }) fun _ => rfl).mpr (h p.vdisk)
  · change (Function.update s.vdisk p.vdisk _ j).OneHandle
    rw [Function.update_of_ne hj]
    exact h j

theorem unmounted_tableRefs {s : Ufs} {vdisk : Nat} {p : Minptr} (hne : p ≠ s.fsroot) (h : p ∈ s.mountpoint)
    (q : Minptr) : s.tableRefs q = (unmounted s vdisk p).tableRefs q + [p].count q := by
  change (if q = s.fsroot then 1 else s.mountpoint.count q) =
    (if q = s.fsroot then 1 else (eraseMountpoint s.mountpoint p).count q) + [p].count q
  split
  · rename_i hq
    rw [hq, List.count_singleton, if_neg (by simpa using hne)]
  · exact Exact.count_eraseMountpoint h q

namespace Exact

variable {c : Session}

/-- A disk that is taken off a directory which is not the root of all. -/
theorem unmount {p : Minptr} {vdisk : Nat} (h : Exact c) (hne : p ≠ c.ufs.fsroot)
    (hback : c.ufs.mountedMinode vdisk = some p) :
    Exact { c with ufs := (p.rel.run (unmounted c.ufs vdisk p)).2 } := by
  obtain ⟨hmem, hvdisk⟩ := h.mounted vdisk p hback
  have hstart : Holding (unmounted c.ufs vdisk p) (refs { c with ufs := unmounted c.ufs vdisk p }) [p]
      (unmounted c.ufs vdisk p) := by
    refine ⟨rfl, unmounted_oneHandle h.oneHandle, fun q => ?_, fun _ _ => rfl⟩
    rw [unmounted_uses, h.uses, refs, refs, @unmounted_tableRefs _ vdisk _ hne hmem]
    change _ + c.pointers.count q = _ + c.pointers.count q + _
    ring
  have hend := Holding.rel.run _ hstart
  have hsame := hend.same
  generalize (p.rel.run (unmounted c.ufs vdisk p)).2 = s at hend hsame
  refine ⟨hend.oneHandle, fun q => ?_, fun v m hm => ?_⟩
  · rw [hend.uses, hsame]
    rfl
  · have hm : Function.update c.ufs.mountedMinode vdisk none v = some m := by
      rw [hsame] at hm
      exact hm
    have hv : v ≠ vdisk := fun hv => by
      rw [hv, Function.update_self] at hm
      cases hm
    rw [Function.update_of_ne hv] at hm
    obtain ⟨hmem', hvdisk'⟩ := h.mounted v m hm
    have hmp : m ≠ p := fun hmp => hv (Option.some.inj (by rw [← hvdisk', hmp, hvdisk]))
    have hpoint : m ∈ (unmounted c.ufs vdisk p).mountpoint := (mem_eraseMountpoint hmp).mpr hmem'
    refine ⟨by rw [hsame]; exact hpoint, ?_⟩
    rw [hend.mounted m (Nat.add_pos_left (tableRefs_pos hpoint) _), ← hvdisk', mountedVdisk_eq, mountedVdisk_eq,
      unmounted_minode?, Function.update_of_ne hmp]

theorem unmountInode (h : Exact c) {p : Minptr} (hne : p = c.ufs.fsroot → c.ufs.isdir p = true →
    ∀ vdisk, (c.ufs.minode p).mountedVdisk = some vdisk → c.ufs.mountedMinode vdisk ≠ some p) :
    Exact { c with ufs := ((unmountInode p).run c.ufs).2 } := by
  simp only [Ufs370.unmountInode, Prog.run_bind, Prog.get]
  by_cases hdir : c.ufs.isdir p = true
  swap
  · simp only [hdir, Bool.not_false, if_true]
    exact h
  simp only [hdir, Bool.not_true, Bool.false_eq_true, if_false]
  cases hvdisk : (c.ufs.minode p).mountedVdisk with
  | none => exact h
  | some vdisk =>
    by_cases hback : c.ufs.mountedMinode vdisk = some p
    swap
    · simp only [hback, ne_eq, not_false_eq_true, if_true]
      exact h
    have hroot : p ≠ c.ufs.fsroot := fun hroot => hne hroot hdir vdisk hvdisk hback
    simp only [hback, ne_eq, not_true_eq_false, if_false]
    exact h.unmount hroot hback

section Step

variable {walk : Walker} {patmat : List UInt8 → List UInt8 → Bool}

/-- No call that is spared brings the counts out of step. -/
theorem step (hwalk : CountedWalker walk) (h : Exact c) {i : Call} (hspared : Spared walk c i) :
    Exact ((step walk patmat i).run c).2 := by
  obtain ⟨hroom, hspared⟩ := hspared
  have hsame {x : Prog Ufs Rc} (hx : Room c.refs → Holding c.ufs c.refs [] c.ufs → Holding c.ufs c.refs [] (x.run c.ufs).2) :
      Exact { c with ufs := (x.run c.ufs).2 } := h.of_call hroom hx rfl fun hcwd p => by
    simp only at hcwd
    simp only [pointers, hcwd, List.count_nil, Nat.add_zero]
  cases i with
  | turn k => exact h.turn k
  | fclose k => exact h.fclose k
  | dirclose k => exact h.dirclose k
  | chgdir path => exact h.chgdir hwalk hroom path
  | unmountInode p => exact h.unmountInode hspared
  | rmdir path => exact hsame fun hroom => (rmdir_holding hwalk hroom path).run _
  | remove path => exact hsame fun hroom => (remove_holding hwalk hroom path).run _
  | mkdir path now => exact hsame fun hroom hh => mkdir_holding hwalk hroom hh hspared
  | mount ddname path => exact hsame fun hroom hh => mount_holding hwalk hroom hh hspared
  | openFile path fm now =>
    refine h.of_call hroom (fun hroom hh => openFile_holding hwalk hroom hh hspared) rfl fun hcwd p => ?_
    simp only [Session.step, Prog.run_bind, run_onUfs, pointers] at hcwd ⊢
    simp only [hcwd, List.map_append, List.count_append]
    ring
  | diropen path pattern =>
    refine h.of_call hroom (x := diropen walk patmat path pattern)
      (fun hroom hh => diropen_holding hwalk hroom hh hspared) rfl fun hcwd p => ?_
    simp only [Session.step, Prog.run_bind, run_onUfs, pointers] at hcwd ⊢
    simp only [hcwd, List.map_append, List.count_append]
    ring

end Step

end Exact

/-- In a run of calls that are all spared, each use count is the number of the references stored, and what a
handle points to is in the cache. -/
theorem uses_refs {walk : Walker} {patmat : List UInt8 → List UInt8 → Bool} (hwalk : CountedWalker walk)
    {c₀ : Session} (h₀ : Exact c₀) {hist : List (Call × Unit)} {c : Session}
    (hrun : Run (step walk patmat) (Spared walk) c₀ hist c) (p : Minptr) :
    c.ufs.uses p = c.refs p ∧ (p ∈ c.pointers → (c.ufs.vdisk p.vdisk).Cached p.ino) := by
  have h : Exact c := hrun.invariant h₀ fun _ _ hs hok => hs.step hwalk hok
  refine ⟨h.uses p, fun hp => ?_⟩
  have hpos : 0 < c.ufs.uses p := by
    have := List.count_pos_iff.mpr hp
    rw [h.uses, refs]
    omega
  rw [uses_eq, Ufs.minode?] at hpos
  rw [VDisk.Cached]
  cases hm : (c.ufs.vdisk p.vdisk).minode? p.ino with
  | none =>
    rw [hm] at hpos
    exact absurd hpos (Nat.lt_irrefl 0)
  | some m => rfl

section Root

/-- What a walk to the root comes to. -/
def rootWalk : Walker := fun _ _ _ => do
  let s ← Prog.get
  if 0 < s.uses s.fsroot then
    s.fsroot.use
    return (.ok, ⟨some s.fsroot, none, [slash]⟩)
  else
    return (.enoent, ⟨none, none, []⟩)

/-- A user in the root directory of a new system with one disk. -/
def rootSession : Session where
  ufs := { bareRoot with
    vdisk := fun i => { pairDisk with
      minodes := if i = 0 then [⟨2, false, 3, some 0, { Dinode.zero with mode := 0x41ED, nlink := 2 }⟩] else [] } }
  idle := []
  files := []
  ddescs := []

theorem rootWalk_in {path : List UInt8} {dir last : Bool} {s : Ufs} (h : 0 < s.uses s.fsroot) :
    (rootWalk path dir last).run s = ((.ok, ⟨some s.fsroot, none, [slash]⟩), (s.fsroot.use.run s).2) := by
  simp only [rootWalk, Prog.run_bind, Prog.get, h, if_true]
  rfl

theorem rootWalk_out {path : List UInt8} {dir last : Bool} {s : Ufs} (h : ¬ 0 < s.uses s.fsroot) :
    (rootWalk path dir last).run s = ((.enoent, ⟨none, none, []⟩), s) := by
  simp only [rootWalk, Prog.run_bind, Prog.get, h, if_false]
  rfl

theorem rootWalk_counted : CountedWalker rootWalk where
  same path dir last s := by
    by_cases h : 0 < s.uses s.fsroot
    · rw [rootWalk_in h]
      rfl
    · rw [rootWalk_out h]
  oneHandle path dir last s hone := by
    by_cases h : 0 < s.uses s.fsroot
    · obtain ⟨s', hrun, hkept, _⟩ := use_run s s.fsroot
      rw [rootWalk_in h, hrun]
      exact hkept.oneHandle hone
    · rwa [rootWalk_out h]
  counted path dir last s hone hroom p := by
    by_cases h : 0 < s.uses s.fsroot
    · obtain ⟨s', hrun, hkept, huses⟩ := use_uses s s.fsroot h
      have := hroom s.fsroot
      rw [rootWalk_in h, hrun, huses, u16, Nat.mod_eq_of_lt (by omega)]
      by_cases hp : p = s.fsroot
      · simp [hp]
      · simp [Function.update_of_ne hp, Ne.symm hp]
    · rw [rootWalk_out h]
      simp
  mounted path dir last s p hone hpos := by
    by_cases h : 0 < s.uses s.fsroot
    · obtain ⟨s', hrun, _, hminode⟩ := use_run s s.fsroot
      rw [rootWalk_in h, hrun, mountedVdisk_eq, mountedVdisk_eq, hminode]
      by_cases hp : p = s.fsroot
      · rw [hp, Function.update_self]
        cases s.minode? s.fsroot <;> rfl
      · rw [Function.update_of_ne hp]
    · rw [rootWalk_out h]

theorem rootSession_uses (p : Minptr) : rootSession.ufs.uses p = if p = ⟨0, 2⟩ then 3 else 0 := by
  obtain ⟨i, ino⟩ := p
  by_cases hi : i = 0
  · subst hi
    by_cases hino : ino = 2
    · subst hino
      rfl
    · have hnone : rootSession.ufs.minode? ⟨0, ino⟩ = none := List.find?_eq_none.mpr fun m hm => by
        rw [List.mem_singleton.mp hm]
        simpa using Ne.symm hino
      rw [uses_eq, hnone, if_neg (by simpa using hino)]
      rfl
  · have hnone : rootSession.ufs.minode? ⟨i, ino⟩ = none := List.find?_eq_none.mpr fun m hm => by
      simp [rootSession, hi] at hm
    rw [uses_eq, hnone, if_neg (by simp [hi])]
    rfl

theorem rootSession_exact : Exact rootSession where
  oneHandle i := by
    change (List.map _ (if i = 0 then _ else _)).Nodup
    split <;> decide
  uses p := by
    rw [rootSession_uses, refs]
    change _ = (if p = ⟨0, 2⟩ then 1 else [⟨0, 2⟩].count p) + [⟨0, 2⟩, ⟨0, 2⟩].count p
    split
    · rename_i hp
      rw [hp]
      rfl
    · rename_i hp
      simp [Ne.symm hp]
  mounted vdisk m h := by
    obtain ⟨rfl, rfl⟩ : vdisk = 0 ∧ (⟨0, 2⟩ : Minptr) = m := by
      change (if vdisk = 0 then some ⟨0, 2⟩ else none) = some m at h
      split at h
      · exact ⟨‹_›, Option.some.inj h⟩
      · cases h
    exact ⟨List.mem_singleton.mpr rfl, rfl⟩

/-- The root becomes the current directory once more. -/
theorem uses_refs_root : let c := ((step rootWalk (fun _ _ => true) (.chgdir [slash])).run rootSession).2
    c.ufs.uses ⟨0, 2⟩ = c.refs ⟨0, 2⟩ ∧ (⟨0, 2⟩ ∈ c.pointers → (c.ufs.vdisk 0).Cached 2) := by
  refine uses_refs rootWalk_counted rootSession_exact (.cons (.chgdir [slash]) .nil ⟨fun p => ?_, trivial⟩) _
  rw [rootSession_uses]
  split <;> decide

/-- A mount on the root, the directory that the walk leaves: its reference is never given back. -/
theorem not_uses_refs : ¬ ∀ (walk : Walker) (patmat : List UInt8 → List UInt8 → Bool), CountedWalker walk →
    ∀ c₀ : Session, Exact c₀ → ∀ hist c, Run (step walk patmat) (fun _ _ => True) c₀ hist c →
    ∀ p, c.ufs.uses p = c.refs p := by
  intro h
  have hroot := h rootWalk (fun _ _ => true) rootWalk_counted _ rootSession_exact _ _
    (.cons (.mount [] [slash]) .nil trivial) ⟨0, 2⟩
  revert hroot
  decide +kernel

end Root

end Session

end Ufs370
