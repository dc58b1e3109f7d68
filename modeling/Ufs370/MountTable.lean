import Ufs370.MountRecords

/-! Whole runs of the calls that mount disks, take them off and change the directory. -/

namespace Ufs370

open Lib Lib.Mounting

/-- The calls that change the mount table or the current directory. -/
inductive TableCall
  | mount (ddname path : List UInt8)
  | fstab (line : List UInt8)
  | unmountPath (path : List UInt8)
  | unmountDdname (ddname : List UInt8)
  | unmountVdisk (vdisk : Nat)
  | unmountAll
  | chgdir (path : List UInt8)

/-- A call; whether it returned 0. -/
def TableCall.step : TableCall → Prog Ufs Bool
  | .mount ddname path => do return (← Ufs370.mount lookupMinode ddname path) = .ok
  | .fstab line => do return (← fstabMount lookupMinode line) = .ok
  | .unmountPath path => do return (← Ufs370.unmountPath lookupMinode path) = .ok
  | .unmountDdname ddname => do return (← Ufs370.unmountDdname ddname) = .ok
  | .unmountVdisk vdisk => do return (← Ufs370.unmountVdisk vdisk) = .ok
  | .unmountAll => do return (← Ufs370.unmountAll) = .ok
  | .chgdir path => do return (← Ufs370.chgdir lookupMinode path) = .ok

/-- What the calls are about: which disks are mounted where, and where the user is. -/
structure Mounted where
  table : Minptr ≃. Nat
  cwd : Cwd

namespace Mounted

variable (s : Ufs)

/-- The names in a path. -/
def names (m : Mounted) (path : List UInt8) : List (List UInt8) := Ufs370.names (tempPath m.cwd path)

/-- Where a path leads in the trees of `s`. -/
def place (m : Mounted) (path : List UInt8) : Option Minptr :=
  if (tempPath m.cwd path).head? = some slash then s.forest.descend m.table (m.names path) s.fsroot else none

/-- The same for a path with names. -/
def last (m : Mounted) (path : List UInt8) : Option Minptr := if m.names path = [] then none else m.place s path

/-- The directory that a path leads to, with the mount on its end. -/
def directory (m : Mounted) (path : List UInt8) : Option Minptr := (m.place s path).bind (s.forest.follow m.table)

/-- A mount of `vdisk`, which for a disk or a place that is taken does nothing and says that all is well. -/
def mount (vdisk : Nat) (path : List UInt8) : Prog Mounted Bool :=
  ⟨fun m =>
    if !s.rootFit vdisk then (false, m)
    else match m.last s path with
    | none => (false, m)
    | some p =>
      if (m.table.symm vdisk).isSome ∨ (m.table p).isSome then (true, m)
      else if s.pointFit p then (true, { m with table := attach m.table p vdisk })
      else (false, m)⟩

/-- The same for a line of the mount table, which is in error only if its path leads nowhere. -/
def fstab (vdisk : Nat) (path : List UInt8) : Prog Mounted Bool :=
  ⟨fun m =>
    if !s.rootFit vdisk then (true, m)
    else match m.place s path with
    | none => (false, m)
    | some p =>
      if m.names path ≠ [] ∧ s.pointFit p then (true, { m with table := attach m.table p vdisk })
      else (true, m)⟩

def unmount (p : Option Minptr) : Prog Mounted Bool :=
  ⟨fun m =>
    match p with
    | none => (false, m)
    | some p => if (m.table p).isSome then (true, { m with table := detach m.table p }) else (false, m)⟩

def chgdir (path : List UInt8) : Prog Mounted Bool :=
  ⟨fun m =>
    match m.place s path with
    | none => (false, m)
    | some p =>
      if (s.seen p).any fun x => x.1.isdir then
        match s.forest.follow m.table p with
        | none => (false, m)
        | some q => (true, { m with cwd := { m.cwd with
            curDir := some q
            path := if m.names path = [] then [slash] else Components.path slash (m.names path) } })
      else (false, m)⟩

end Mounted

/-- A call as one on the mount table of `s`. -/
def TableCall.ideal (s : Ufs) : TableCall → Prog Mounted Bool
  | .mount ddname path =>
    match s.findVdisk fun n => s.ddname n = ddname with
    | none => return false
    | some vdisk => Mounted.mount s vdisk path
  | .fstab line =>
    match Fstab.parse s line with
    | none => return true
    | some (vdisk, path) => Mounted.fstab s vdisk path
  | .unmountPath path => do
    let m ← Prog.get
    Mounted.unmount (if path = [slash] then some s.fsroot else m.last s path)
  | .unmountDdname ddname => do
    let upname := (CString.read 11 (CString.chars ddname)).map toupper
    let m ← Prog.get
    Mounted.unmount ((s.findVdisk fun n => s.ddname n = upname).bind m.table.symm)
  | .unmountVdisk vdisk => do
    let m ← Prog.get
    Mounted.unmount (m.table.symm vdisk)
  | .unmountAll => do
    Prog.modify fun m => { m with table := ⊥ }
    return true
  | .chgdir path => Mounted.chgdir s path

/-- The system has the trees of `s₀` and the mounts of `m`. -/
structure Shows (s₀ s : Ufs) (m : Mounted) : Prop where
  stable : s.Stable
  trees : s₀.SameTrees s
  records : s.Records m.table
  cwd : s.cwd = m.cwd

/-- A call that does what its counterpart does, unless a request fails; then it keeps to a table of mounts. -/
def Does (s₀ s : Ufs) (r : Rc × Ufs) (i : Bool × Mounted) : Prop :=
  ∃ m', Shows s₀ r.2 m' ∧ (s.Calm → r.2.Calm ∧ decide (r.1 = .ok) = i.1 ∧ m' = i.2)

section Calls

variable {s₀ s s' : Ufs} {m : Mounted} {p : Minptr} {vdisk : Nat} {path : List UInt8}

namespace Shows

theorem later (h : Shows s₀ s m) (hlater : s.Later s') : Shows s₀ s' m where
  stable := hlater.stable h.stable
  trees := h.trees.trans hlater.sameTrees
  records := h.records.later hlater
  cwd := by rw [hlater.same, h.cwd]

theorem place (h : Shows s₀ s m) (path : List UInt8) : m.place s₀ path = s.target path := by
  rw [Mounted.place, Ufs.target, h.cwd, Ufs.descend_forest, h.records.mountedOn, h.trees.forest, h.trees.fsroot]
  rfl

theorem directory (h : Shows s₀ s m) (path : List UInt8) : m.directory s₀ path = s.directory path := by
  rw [Mounted.directory, Ufs.directory, h.place, Ufs.follow_forest, h.records.mountedOn, h.trees.forest]

end Shows

/-- A call that fails, or does nothing. -/
theorem Does.later {r : Rc × Ufs} {i : Bool × Mounted} (h : Shows s₀ s m) (hlater : s.Later r.2)
    (hr : s.Calm → i = (decide (r.1 = .ok), m)) : Does s₀ s r i :=
  ⟨m, h.later hlater, fun hcalm => ⟨hlater.calm hcalm, by rw [hr hcalm], by rw [hr hcalm]⟩⟩

theorem Does.fails {r : Rc × Ufs} {i : Bool × Mounted} (h : Shows s₀ s m) (hlater : s.Later r.2) (hrc : r.1 ≠ .ok)
    (hi : s.Calm → i = (false, m)) : Does s₀ s r i :=
  .later h hlater fun hcalm => by rw [hi hcalm, decide_eq_false hrc]

/-- A call that goes on. -/
theorem Does.trans {r : Rc × Ufs} {i : Bool × Mounted} (hlater : s.Later s') (h : Does s₀ s' r i) :
    Does s₀ s r i := by
  obtain ⟨m', hshows, hcalm⟩ := h
  exact ⟨m', hshows, fun h => hcalm (hlater.calm h)⟩

/-- The walk to a place, which is the last inode of a path with names. -/
theorem walk_cases (h : Shows s₀ s m) (path : List UInt8) (dir : Bool) : ∃ rc out s',
    (lookupMinode path dir true).run s = ((rc, out), s') ∧ s.Later s' ∧
    ((∃ q, rc = .ok ∧ m.place s₀ path = some q ∧ s.Reached q ∧ s'.Cached q ∧
        out.last = if m.names path = [] then none else some q) ∨
      rc ≠ .ok ∧ (s.Calm → m.place s₀ path = none)) := by
  have hset := h.stable.settled
  rw [h.place, Ufs.target, Mounted.names, ← h.cwd]
  simp only [lookupMinode, Prog.run_bind, Prog.get]
  by_cases hslash : (tempPath s.cwd path).head? = some slash
  swap
  · simp only [hslash, ne_eq, not_false_eq_true, if_true]
    exact ⟨_, _, _, rfl, .refl hset, .inr ⟨by decide, fun _ => rfl⟩⟩
  have huse : s.Later (s.fsroot.use.run s).2 := use_later hset
  have hcached : (s.fsroot.use.run s).2.Cached s.fsroot := (huse.firm hset.root).cached
  obtain ⟨rc, out, s', hrun, hlater, hend⟩ := lookupMinodeLoop_later dir (names (tempPath s.cwd path))
    ⟨if dir then some s.fsroot else none, none, []⟩ (huse.settled hset) hcached (huse.reached.mpr .root)
  simp only [hslash, ne_eq, not_true_eq_false, if_false, if_true, Prog.run_bind, hrun]
  refine ⟨_, _, _, rfl, huse.trans hlater, ?_⟩
  rw [huse.descend] at hend
  rcases hend with ⟨q, rfl, hq, hreached, -, hnil, hcons⟩ | ⟨hrc, hnone⟩
  swap
  · exact .inr ⟨hrc, fun hcalm => hnone (huse.calm hcalm)⟩
  refine .inl ⟨q, rfl, hq, huse.reached.mp hreached, ?_⟩
  by_cases hns : names (tempPath s.cwd path) = []
  · obtain ⟨rfl, rfl⟩ := hnil hns
    refine ⟨(hlater.firm (huse.firm hset.root)).cached, ?_⟩
    simp only [hns, if_true]
    split <;> rfl
  · obtain ⟨hlast, hcached'⟩ := hcons hns
    refine ⟨hcached', ?_⟩
    simp only [hns, if_false]
    split <;> exact hlast

theorem checkRoot_cases (h : Shows s₀ s m) (vdisk : Nat) : ∃ rc s', (checkRoot vdisk).run s = (rc, s') ∧ s.Later s' ∧
    (rc = .ok ∧ s₀.rootFit vdisk = true ∨ rc ≠ .ok ∧ (s.Calm → s₀.rootFit vdisk = false)) := by
  obtain ⟨x, s', hget, hlater, hx⟩ := getMinode_later h.stable.settled vdisk rootInode
  rw [← h.trees.rootFit, Ufs.rootFit]
  simp only [checkRoot, Prog.run_bind, hget]
  rcases hx with ⟨rfl, -, hcached⟩ | ⟨rfl, hnone⟩
  swap
  · exact ⟨.eio, s', rfl, hlater, .inr ⟨by decide, fun hcalm => by rw [hnone hcalm]; rfl⟩⟩
  have hseen := seen_cached hcached
  rw [hlater.seen] at hseen
  have hrel : s'.Later (Minptr.rel ⟨vdisk, rootInode⟩ |>.run s').2 := rel_later (hlater.settled h.stable.settled)
  refine ⟨rootCheck s' ⟨vdisk, rootInode⟩, _, rfl, hlater.trans hrel, ?_⟩
  rw [hseen, rootCheck, Ufs.isdir]
  by_cases hdir : (s'.dinode ⟨vdisk, rootInode⟩).isdir = true <;> by_cases hlink : (s'.dinode ⟨vdisk, rootInode⟩).nlink < 2 <;>
    simp [hdir, hlink]

theorem Shows.recordMount (h : Shows s₀ s m) (hfirm : s.Firm p) (hp : m.table p = none)
    (hv : m.table.symm vdisk = none) :
    Shows s₀ ((recordMount vdisk p).run s).2 { m with table := attach m.table p vdisk } ∧
      (s.Calm → ((recordMount vdisk p).run s).2.Calm) := by
  have hrun : ((Ufs370.recordMount vdisk p).run s).2 =
      s.rerecord p (some vdisk) (Function.update s.mountedMinode vdisk (some p)) (s.mountpoint ++ [p]) := rfl
  obtain ⟨hstable, htrees, hon, hcalm⟩ := rerecord_stable h.stable hfirm (some vdisk)
    (Function.update s.mountedMinode vdisk (some p)) (s.mountpoint ++ [p])
  rw [hrun]
  exact ⟨⟨hstable, h.trees.trans htrees, h.records.attach hp hv hon rfl rfl, h.cwd⟩, hcalm⟩

theorem pointFit_cached (h : Shows s₀ s m) (hcached : s.Cached p) : s₀.pointFit p = (s.isdir p && s.authWrite p) := by
  rw [← h.trees.pointFit, Ufs.pointFit, seen_cached hcached]
  rfl

/-- The records of a mount and what goes before and after them, on a directory that the user may mount on. -/
theorem mountPoint_shows (h : Shows s₀ s m) (hreached : s.Reached p) (hcached : s.Cached p) (hdir : s.isdir p = true)
    (hp : m.table p = none) (hv : m.table.symm vdisk = none) :
    let s' := (p.rel.run ((recordMount vdisk p).run (p.use.run s).2).2).2
    Shows s₀ s' { m with table := attach m.table p vdisk } ∧ (s.Calm → s'.Calm) := by
  have huse : s.Later (p.use.run s).2 := use_later h.stable.settled
  have hfirm := huse.firm (firm_of_reached h.stable.settled hreached hcached hdir)
  obtain ⟨hshows, hcalm⟩ := (h.later huse).recordMount hfirm hp hv
  have hrel := rel_later (p := p) hshows.stable.settled
  exact ⟨hshows.later hrel, fun h => hrel.calm (hcalm (huse.calm h))⟩

/-- The checks of `ufs_mount` where neither the disk nor the directory is taken. -/
theorem mountCheck_free (h : Shows s₀ s m) (hcached : s.Cached p) (hp : m.table p = none)
    (hv : m.table.symm vdisk = none) : mountCheck s vdisk p = .ok ↔ s₀.pointFit p = true := by
  rw [mountCheck, minode_mountedVdisk, h.records.mountedOn, h.records.mountedMinode, hp, hv, pointFit_cached h hcached]
  by_cases hdir : s.isdir p = true <;> by_cases hwrite : s.authWrite p = true <;> simp [hdir, hwrite]

theorem mountVdisk_does (h : Shows s₀ s m) (hfit : s₀.rootFit vdisk = true) (path : List UInt8) :
    Does s₀ s ((mountVdisk lookupMinode vdisk path).run s) ((Mounted.mount s₀ vdisk path).run m) := by
  obtain ⟨rc, out, s₁, hwalk, hlater, ⟨q, rfl, hplace, hreached, hcached, hlast⟩ | ⟨hrc, hnone⟩⟩ := walk_cases h path true
  swap
  · simp only [mountVdisk, Prog.run_bind, hwalk, ne_eq, hrc, not_false_eq_true, if_true]
    refine .fails h hlater hrc fun hcalm => ?_
    have hlast : m.last s₀ path = none := by
      rw [Mounted.last, hnone hcalm, ite_self]
    simp only [Mounted.mount, hfit, hlast, Bool.not_true, Bool.false_eq_true, if_false]
  have hshows := h.later hlater
  simp only [mountVdisk, Prog.run_bind, hwalk, ne_eq, not_true_eq_false, if_false]
  by_cases hns : m.names path = []
  · rw [if_pos hns] at hlast
    simp only [hlast]
    refine .fails h hlater Rc.noConfusion fun _ => ?_
    simp only [Mounted.mount, hfit, Mounted.last, hns, if_true, Bool.not_true, Bool.false_eq_true, if_false]
  rw [if_neg hns] at hlast
  have hideal : m.last s₀ path = some q := by rw [Mounted.last, if_neg hns, hplace]
  have hpoint : q ∈ s₁.mountpoint ↔ (m.table q).isSome := hshows.records.mem q
  simp only [hlast, Mounted.mount, hfit, hideal, Bool.not_true, Bool.false_eq_true, if_false, Prog.run_bind, Prog.run_ite,
    Prog.run_pure, hshows.records.mountedMinode, hpoint]
  refine .trans hlater ?_
  by_cases hbusy : (m.table.symm vdisk).isSome ∨ (m.table q).isSome
  · rw [if_pos hbusy, ← ite_or, if_pos hbusy]
    exact .later hshows (.refl hshows.stable.settled) fun _ => rfl
  obtain ⟨hv, hp⟩ := not_or.mp hbusy
  rw [if_neg hv, if_neg hp, if_neg hbusy]
  have hp := Option.not_isSome_iff_eq_none.mp hp
  have hv := Option.not_isSome_iff_eq_none.mp hv
  have huse : s₁.Later (q.use.run s₁).2 := use_later hshows.stable.settled
  have hshows₂ := hshows.later huse
  have hcached₂ := use_cached hcached
  have hcheck := mountCheck_free hshows₂ hcached₂ hp hv
  by_cases hpfit : s₀.pointFit q = true
  swap
  · rw [if_pos (mt hcheck.mp hpfit), if_neg hpfit]
    exact .fails hshows (huse.trans (rel_later hshows₂.stable.settled)) (mt hcheck.mp hpfit) fun _ => rfl
  rw [if_neg (not_not.mpr (hcheck.mpr hpfit)), if_pos hpfit]
  have hdir : (q.use.run s₁).2.isdir q = true := by
    rw [pointFit_cached hshows₂ hcached₂] at hpfit
    exact (Bool.and_eq_true_iff.mp hpfit).1
  obtain ⟨hmounts, hcalm⟩ := mountPoint_shows hshows₂ (huse.reached.mpr (hlater.reached.mpr hreached)) hcached₂ hdir hp hv
  exact ⟨_, hmounts, fun h => ⟨hcalm (huse.calm h), rfl, rfl⟩⟩

/-- `ufs_mount` -/
theorem mount_does (h : Shows s₀ s m) (ddname path : List UInt8) :
    Does s₀ s ((mount lookupMinode ddname path).run s) (((TableCall.mount ddname path).ideal s₀).run m) := by
  have hddname : s.ddname = s₀.ddname := by rw [h.trees.same]
  simp only [mount, TableCall.ideal, Prog.run_bind, h.trees.findVdisk, hddname]
  cases hfind : s₀.findVdisk fun n => s₀.ddname n = ddname with
  | none => exact .fails h (.refl h.stable.settled) Rc.noConfusion fun _ => rfl
  | some vdisk =>
    obtain ⟨rc, s₁, hroot, hlater, ⟨rfl, hfit⟩ | ⟨hrc, hfit⟩⟩ := checkRoot_cases h vdisk
    · simp only [Prog.run_bind, hroot, ne_eq, not_true_eq_false, if_false]
      exact .trans hlater (mountVdisk_does (h.later hlater) hfit path)
    · simp only [Prog.run_bind, hroot, ne_eq, hrc, not_false_eq_true, if_true]
      refine .fails h hlater hrc fun hcalm => ?_
      simp only [Mounted.mount, hfit hcalm, Bool.not_false, if_true]

/-- The checks of `ufs_fstab_mount`. -/
theorem fstabCheck_iff (h : Shows s₀ s m) (hcached : s.Cached p) : fstabCheck s vdisk p = true ↔
    s₀.pointFit p = true ∧ m.table p = none ∧ m.table.symm vdisk = none := by
  have hmem : p ∈ s.mountpoint ↔ ¬ m.table p = none := by
    rw [h.records.mem, Option.isSome_iff_ne_none]
  simp only [fstabCheck, minode_mountedVdisk, h.records.mountedOn, h.records.mountedMinode, pointFit_cached h hcached,
    Bool.and_eq_true, Option.isNone_iff_eq_none, decide_eq_true_eq, hmem, not_not]
  tauto

theorem fstabMountVdisk_does (h : Shows s₀ s m) (hfit : s₀.rootFit vdisk = true) (path : List UInt8) :
    Does s₀ s ((fstabMountVdisk lookupMinode vdisk path).run s) ((Mounted.fstab s₀ vdisk path).run m) := by
  obtain ⟨rc, out, s₁, hwalk, hlater, ⟨q, rfl, hplace, hreached, hcached, hlast⟩ | ⟨hrc, hnone⟩⟩ := walk_cases h path true
  swap
  · have hrel := relOpt_later (hlater.settled h.stable.settled) out.last
    have hrel' := relOpt_later (hrel.settled (hlater.settled h.stable.settled)) out.dir
    simp only [fstabMountVdisk, Prog.run_bind, hwalk, hrc, if_false]
    refine .fails h ((hlater.trans hrel).trans hrel') hrc fun hcalm => ?_
    simp only [Mounted.fstab, hfit, hnone hcalm, Bool.not_true, Bool.false_eq_true, if_false]
  have hshows := h.later hlater
  have hset := hshows.stable.settled
  simp only [fstabMountVdisk, Prog.run_bind, hwalk, if_true, hlast, Mounted.fstab, hfit, hplace, Bool.not_true,
    Bool.false_eq_true, if_false]
  by_cases hns : m.names path = []
  · have hrel := relOpt_later hset none
    have hrel' := relOpt_later (hrel.settled hset) out.dir
    simp only [hns, if_true, ne_eq, not_true_eq_false, false_and, if_false]
    exact .later h ((hlater.trans hrel).trans hrel') fun _ => rfl
  simp only [hns, if_false, ne_eq, not_false_eq_true, true_and, Prog.run_bind, Prog.run_ite]
  refine .trans hlater ?_
  by_cases hcheck : fstabCheck s₁ vdisk q = true
  · obtain ⟨hpfit, hp, hv⟩ := (fstabCheck_iff hshows hcached).mp hcheck
    have hdir : s₁.isdir q = true := by
      rw [pointFit_cached hshows hcached] at hpfit
      exact (Bool.and_eq_true_iff.mp hpfit).1
    obtain ⟨hmounts, hcalm⟩ := mountPoint_shows hshows (hlater.reached.mpr hreached) hcached hdir hp hv
    have hrel := relOpt_later hmounts.stable.settled out.dir
    rw [if_pos hcheck, if_pos hpfit]
    exact ⟨_, hmounts.later hrel, fun h => ⟨hrel.calm (hcalm h), rfl, rfl⟩⟩
  · have hrel : s₁.Later (q.rel.run s₁).2 := rel_later hset
    have hrel' := relOpt_later (hrel.settled hset) out.dir
    have hideal : (if s₀.pointFit q = true then (true, { m with table := attach m.table q vdisk }) else (true, m)) =
        (true, m) := by
      split
      · rename_i hpfit
        rw [attach_busy fun hfree => hcheck ((fstabCheck_iff hshows hcached).mpr ⟨hpfit, hfree⟩)]
      · rfl
    rw [if_neg hcheck, hideal]
    exact .later hshows (hrel.trans hrel') fun _ => rfl

/-- `ufs_fstab_mount` -/
theorem fstabMount_does (h : Shows s₀ s m) (line : List UInt8) :
    Does s₀ s ((fstabMount lookupMinode line).run s) (((TableCall.fstab line).ideal s₀).run m) := by
  have hparse : Fstab.parse s line = Fstab.parse s₀ line := by
    have hddname : s.ddname = s₀.ddname := by rw [h.trees.same]
    have hdsname : s.dsname = s₀.dsname := by rw [h.trees.same]
    simp only [Fstab.parse, Fstab.diskTest, h.trees.findVdisk, hddname, hdsname]
  simp only [fstabMount, TableCall.ideal, Prog.run_bind, hparse]
  cases hline : Fstab.parse s₀ line with
  | none => exact .later h (.refl h.stable.settled) fun _ => rfl
  | some x =>
    obtain ⟨vdisk, path⟩ := x
    obtain ⟨rc, s₁, hroot, hlater, ⟨rfl, hfit⟩ | ⟨hrc, hfit⟩⟩ := checkRoot_cases h vdisk
    · simp only [Prog.run_bind, hroot, ne_eq, not_true_eq_false, if_false]
      exact .trans hlater (fstabMountVdisk_does (h.later hlater) hfit path)
    · simp only [Prog.run_bind, hroot, ne_eq, hrc, not_false_eq_true, if_true]
      refine .later h hlater fun hcalm => ?_
      simp only [Mounted.fstab, hfit hcalm, Bool.not_false, if_true]
      rfl

/-- `ufs_unmount_inode`: what is mounted comes off, and where nothing is mounted there is nothing to do. -/
theorem unmountInode_does (h : Shows s₀ s m) (p : Minptr) :
    Does s₀ s ((unmountInode p).run s) ((Mounted.unmount (some p)).run m) ∧
      ∀ vdisk, m.table p = some vdisk → ∃ s', (unmountInode p).run s = (.ok, s') ∧
        s'.mountpoint = eraseMountpoint s.mountpoint p ∧
        Shows s₀ s' { m with table := detach m.table p } ∧ (s.Calm → s'.Calm) := by
  have hset := h.stable.settled
  have hon : (s.minode p).mountedVdisk = m.table p := by rw [minode_mountedVdisk, h.records.mountedOn]
  have hdone (vdisk : Nat) (hp : m.table p = some vdisk) : ∃ s', (unmountInode p).run s = (.ok, s') ∧
        s'.mountpoint = eraseMountpoint s.mountpoint p ∧
        Shows s₀ s' { m with table := detach m.table p } ∧ (s.Calm → s'.Calm) := by
    obtain ⟨hfirm, hdir⟩ := firm_of_mountedOn h.stable (p := p) (by rw [h.records.mountedOn, hp]; rfl)
    have hback : s.mountedMinode vdisk = some p := by rw [h.records.mountedMinode, m.table.eq_some_iff, hp]
    obtain ⟨hstable, htrees, hon', hcalm⟩ := rerecord_stable h.stable hfirm none
      (Function.update s.mountedMinode vdisk none) (eraseMountpoint s.mountpoint p)
    have hshows : Shows s₀ (s.rerecord p none (Function.update s.mountedMinode vdisk none)
        (eraseMountpoint s.mountpoint p)) { m with table := detach m.table p } :=
      ⟨hstable, h.trees.trans htrees, h.records.detach hp hon' rfl rfl, h.cwd⟩
    have hrel := rel_later (p := p) hshows.stable.settled
    refine ⟨_, ?_, ?_, hshows.later hrel, fun h => hrel.calm (hcalm h)⟩
    · simp only [unmountInode, Prog.run_bind, hdir, Bool.not_true, Bool.false_eq_true, if_false, hon, hp, hback, ne_eq,
        not_true_eq_false]
      rfl
    · rw [hrel.sameMounts.mountpoint]
      rfl
  refine ⟨?_, hdone⟩
  cases hp : m.table p with
  | none =>
    have hideal : (Mounted.unmount (some p)).run m = (false, m) := by simp [Mounted.unmount, hp]
    rw [hideal]
    simp only [unmountInode, Prog.run_bind, hon, hp]
    by_cases hdir : s.isdir p = true
    · simp only [hdir, Bool.not_true, Bool.false_eq_true, if_false]
      exact .fails h (.refl hset) Rc.noConfusion fun _ => rfl
    · simp only [hdir, Bool.not_false, if_true]
      exact .fails h (.refl hset) Rc.noConfusion fun _ => rfl
  | some vdisk =>
    obtain ⟨s', hrun, -, hshows, hcalm⟩ := hdone vdisk hp
    rw [hrun]
    refine ⟨_, hshows, fun h => ⟨hcalm h, ?_, ?_⟩⟩
    · simp [Mounted.unmount, hp]
    · simp [Mounted.unmount, hp]

/-- `ufs_unmount_path` -/
theorem unmountPath_does (h : Shows s₀ s m) (path : List UInt8) :
    Does s₀ s ((unmountPath lookupMinode path).run s) (((TableCall.unmountPath path).ideal s₀).run m) := by
  simp only [unmountPath, TableCall.ideal, Prog.run_bind, Prog.run_ite]
  by_cases hroot : path = [slash]
  · simp only [hroot, if_true, ← h.trees.fsroot]
    exact (unmountInode_does h s.fsroot).1
  rw [if_neg hroot, if_neg hroot]
  obtain ⟨rc, out, s₁, hwalk, hlater, ⟨q, rfl, hplace, -, -, hlast⟩ | ⟨hrc, hnone⟩⟩ := walk_cases h path false
  · simp only [hwalk, ne_eq, not_true_eq_false, if_false, Mounted.last, hplace, hlast]
    by_cases hns : m.names path = []
    · simp only [hns, if_true]
      exact .fails h hlater Rc.noConfusion fun _ => rfl
    · simp only [hns, if_false]
      exact .trans hlater (unmountInode_does (h.later hlater) q).1
  · simp only [hwalk, ne_eq, hrc, not_false_eq_true, if_true]
    refine .fails h hlater hrc fun hcalm => ?_
    rw [Mounted.last, hnone hcalm, ite_self]
    rfl

/-- The unmount of the directory that a disk is mounted on, if there is one. -/
theorem unmount_does (h : Shows s₀ s m) (p : Option Minptr) (rc : Rc) (hrc : rc ≠ .ok) :
    Does s₀ s ((match p with | none => pure rc | some minode => unmountInode minode : Prog Ufs Rc).run s)
      ((Mounted.unmount p).run m) := by
  cases p with
  | none => exact .fails h (.refl h.stable.settled) hrc fun _ => rfl
  | some p => exact (unmountInode_does h p).1

/-- `ufs_unmount_ddname` -/
theorem unmountDdname_does (h : Shows s₀ s m) (ddname : List UInt8) :
    Does s₀ s ((unmountDdname ddname).run s) (((TableCall.unmountDdname ddname).ideal s₀).run m) := by
  have hddname : s.ddname = s₀.ddname := by rw [h.trees.same]
  simp only [unmountDdname, TableCall.ideal, Prog.run_bind, h.trees.findVdisk, hddname, h.records.mountedMinode]
  exact unmount_does h _ .enoent Rc.noConfusion

/-- `ufs_unmount_vdisk` -/
theorem unmountVdisk_does (h : Shows s₀ s m) (vdisk : Nat) :
    Does s₀ s ((unmountVdisk vdisk).run s) (((TableCall.unmountVdisk vdisk).ideal s₀).run m) := by
  simp only [unmountVdisk, TableCall.ideal, Prog.run_bind, h.records.mountedMinode]
  exact unmount_does h _ .eperm Rc.noConfusion

theorem eraseMountpoint_concat (l : List Minptr) (p : Minptr) : eraseMountpoint (l ++ [p]) p = l := by
  simp [eraseMountpoint]

/-- The loop of `ufs_unmount_all`, which takes the last mount point each time. -/
theorem unmountLoop_shows (h : Shows s₀ s m) {n : Nat} (hn : s.mountpoint.length = n) : ∃ s',
    (unmountLoop n .ok).run s = (.ok, s') ∧ Shows s₀ s' { m with table := ⊥ } ∧ (s.Calm → s'.Calm) := by
  induction n generalizing s m with
  | zero =>
    have htable : m.table = ⊥ := PEquiv.ext fun p => by
      have hmem := h.records.mem p
      rw [List.eq_nil_of_length_eq_zero hn] at hmem
      rw [PEquiv.bot_apply]
      exact Option.not_isSome_iff_eq_none.mp (mt hmem.mpr List.not_mem_nil)
    exact ⟨s, rfl, htable ▸ h, id⟩
  | succ n ih =>
    obtain ⟨l, p, hl⟩ : ∃ l p, s.mountpoint = l ++ [p] :=
      ⟨_, _, (List.dropLast_append_getLast (List.ne_nil_of_length_eq_add_one hn)).symm⟩
    have hlen : l.length = n := by
      rw [hl, List.length_append, List.length_singleton] at hn
      omega
    have hlast : s.mountpoint[n]? = some p := by rw [hl, ← hlen, List.getElem?_concat_length]
    obtain ⟨vdisk, hp⟩ := Option.isSome_iff_exists.mp ((h.records.mem p).mp (by rw [hl]; simp))
    have hmounted : (s.minode p).mountedVdisk.isSome = true := by
      rw [minode_mountedVdisk, h.records.mountedOn, hp]
      rfl
    obtain ⟨s₁, hrun, hpoint, hshows, hcalm⟩ := (unmountInode_does h p).2 vdisk hp
    rw [hl, eraseMountpoint_concat] at hpoint
    obtain ⟨s', hloop, hend, hcalm'⟩ := ih hshows (hpoint ▸ hlen)
    refine ⟨s', ?_, hend, fun h => hcalm' (hcalm h)⟩
    simp only [unmountLoop, Prog.run_bind, hlast, hmounted, if_true, hrun, hloop]

theorem alloc_later (h : s.Settled) (i : Nat) : ∃ b s', (onDisk i (VDisk.onStore Store.alloc)).run s = (b, s') ∧
    s.Later s' ∧ (s.Calm → b = true) := by
  obtain ⟨fs, hfs, hcalm⟩ := (alloc_echoes (s.vdisk i) .zero).stays (s.vdisk i).io.faults
  have halloc := (alloc_echoes (s.vdisk i) .zero).result (s.vdisk i).io.faults
  refine ⟨_, _, rfl, onDisk_later h ?_, fun hcalm => ?_⟩
  · change (s.vdisk i).Later ((VDisk.onStore Store.alloc).run ((s.vdisk i).withFaults (s.vdisk i).io.faults)).2
    rw [hfs]
    exact .withFaults (h.vdisk i) hcalm
  · exact halloc.resolve_right fun hf => hf.1 (hcalm i)

/-- `ufs_unmount_all` -/
theorem unmountAll_does (h : Shows s₀ s m) :
    Does s₀ s (unmountAll.run s) ((TableCall.unmountAll.ideal s₀).run m) := by
  obtain ⟨b, s₁, halloc, hlater, hb⟩ := alloc_later h.stable.settled s.fsroot.vdisk
  have h₁ := h.later hlater
  have hpoint := hlater.sameMounts.mountpoint
  simp only [unmountAll, TableCall.ideal, Prog.run_bind, halloc, Prog.run_ite]
  cases b with
  | false =>
    rw [if_neg Bool.false_ne_true]
    exact .fails h hlater Rc.noConfusion fun hcalm => absurd (hb hcalm) Bool.false_ne_true
  | true =>
    obtain ⟨b, s₂, halloc, hlater₂, -⟩ := alloc_later h₁.stable.settled s.fsroot.vdisk
    have h₂ := h₁.later hlater₂
    have hlen : s₂.mountpoint.length = s.mountpoint.length := by rw [hlater₂.sameMounts.mountpoint, hpoint]
    rw [if_pos rfl, halloc]
    refine .trans hlater (.trans hlater₂ ?_)
    cases b with
    | false =>
      obtain ⟨s', hloop, hshows, hcalm⟩ := unmountLoop_shows h₂ hlen
      rw [if_neg Bool.false_ne_true, hloop]
      exact ⟨_, hshows, fun h => ⟨hcalm h, rfl, rfl⟩⟩
    | true =>
      have huse : s₂.Later (s.fsroot.use.run s₂).2 := use_later h₂.stable.settled
      have huse' := huse.trans (use_later (p := s.fsroot) (huse.settled h₂.stable.settled))
      obtain ⟨s', hloop, hshows, hcalm⟩ := unmountLoop_shows (n := s.mountpoint.length) (h₂.later huse') (by
        rw [huse'.sameMounts.mountpoint]
        exact hlen)
      have hrel : s'.Later (s.fsroot.rel.run s').2 := rel_later hshows.stable.settled
      have hrel' := hrel.trans (rel_later (p := s.fsroot) (hrel.settled hshows.stable.settled))
      simp only [if_true, hloop]
      exact ⟨_, hshows.later hrel', fun h => ⟨hrel'.calm (hcalm (huse'.calm h)), rfl, rfl⟩⟩

/-- What `ufs_chgdir` comes to, if no request fails. -/
theorem chgdir_calm (h : s.Settled) (hcalm : s.Calm) (path : List UInt8) :
    ((chgdir lookupMinode path).run s).1 = .ok ↔
      ∃ q, s.target path = some q ∧ (s.seen q).any (fun x => x.1.isdir) = true ∧ (s.follow q).isSome := by
  obtain ⟨rc, out, s₁, hrun, hlater, ⟨q, rfl, htarget, -, hcached, hpick, -⟩ | ⟨hrc, hnone⟩⟩ := lookupMinode_later h path true
  swap
  · simp only [chgdir, Prog.run_bind, hrun, ne_eq, hrc, not_false_eq_true, if_true, hnone hcalm]
    simp [hrc]
  rw [if_pos rfl, ← Found.pick_or] at hpick
  have hdir : (s.seen q).any (fun x => x.1.isdir) = s₁.isdir q := by
    rw [← hlater.seen, seen_cached hcached]
    rfl
  simp only [chgdir, Prog.run_bind, hrun, ne_eq, not_true_eq_false, if_false, htarget, Option.some.injEq, exists_eq_left',
    hdir]
  generalize out.pick = x at hpick
  obtain ⟨minode, rest⟩ := x
  obtain rfl : minode = some q := hpick
  by_cases hq : s₁.isdir q = true
  swap
  · simp [hq]
  obtain ⟨y, s₂, henter, -, hy⟩ := enterMount_later (hlater.settled h) hcached
  simp only [Prog.run_bind, hq, Bool.not_true, Bool.false_eq_true, if_false, henter, true_and]
  rcases hy with ⟨q', rfl, hq', -⟩ | ⟨rfl, hnone⟩
  · rw [hlater.follow] at hq'
    simp [hq']
  · rw [← hlater.follow, hnone (hlater.calm hcalm)]
    simp

theorem Ufs.Stable.setCwd (h : s.Stable) (cwd : Cwd) : ({ s with cwd } : Ufs).Stable := ⟨h.vdisk, h.sane, h.root, h.linked⟩

theorem Ufs.Records.setCwd {t : Minptr ≃. Nat} (h : s.Records t) (cwd : Cwd) : ({ s with cwd } : Ufs).Records t :=
  ⟨h.mountedOn, h.mountedMinode, h.nodup, h.mem⟩

/-- `ufs_chgdir` -/
theorem chgdir_does (h : Shows s₀ s m) (path : List UInt8) :
    Does s₀ s ((chgdir lookupMinode path).run s) (((TableCall.chgdir path).ideal s₀).run m) := by
  have hset := h.stable.settled
  have hplace := h.place path
  have hnames : m.names path = names (tempPath s.cwd path) := by rw [Mounted.names, h.cwd]
  have hfollow : s₀.forest.follow m.table = s.follow := by
    rw [Ufs.follow_forest, h.records.mountedOn, h.trees.forest]
  have hany (q : Minptr) : ((s₀.seen q).any fun x => x.1.isdir) = (s.seen q).any fun x => x.1.isdir :=
    any_fst (h.trees.dinode q).symm Dinode.isdir
  obtain ⟨rc, s', hrun, s₁, hlater, ⟨q, rfl, hq, rfl⟩ | ⟨hrc, rfl⟩⟩ := chgdir_later hset path
  · rw [hrun]
    have hshows := h.later hlater
    refine ⟨{ m with cwd := { s.cwd with curDir := some q, path := _ } },
      ⟨hshows.stable.setCwd _, hshows.trees.trans (.setCwd _ _), hshows.records.setCwd _, rfl⟩, fun hcalm => ?_⟩
    obtain ⟨p, htarget, hdir, -⟩ := (chgdir_calm hset hcalm path).mp (by rw [hrun])
    rw [Ufs.directory, htarget, Option.bind_some] at hq
    refine ⟨hlater.calm hcalm, ?_⟩
    simp only [TableCall.ideal, Mounted.chgdir, hplace, htarget, hany, hdir, if_true, hfollow, hq, hnames, h.cwd,
      decide_true, and_self]
  · rw [hrun]
    refine .fails h hlater hrc fun hcalm => ?_
    have hnot := mt (chgdir_calm hset hcalm path).mpr (by rw [hrun]; exact hrc)
    simp only [TableCall.ideal, Mounted.chgdir, hplace, hany, hfollow]
    cases htarget : s.target path with
    | none => rfl
    | some p =>
      by_cases hdir : (s.seen p).any (fun x => x.1.isdir) = true
      · cases hq : s.follow p with
        | none => simp only [hdir, if_true, hq]
        | some q => exact absurd ⟨p, htarget, hdir, by rw [hq]; rfl⟩ hnot
      · simp only [hdir, Bool.false_eq_true, if_false]

/-- Each call does what its counterpart does. -/
theorem TableCall.does (h : Shows s₀ s m) (c : TableCall) : ∃ m', Shows s₀ (c.step.run s).2 m' ∧
    (s.Calm → (c.step.run s).2.Calm ∧ (c.step.run s).1 = ((c.ideal s₀).run m).1 ∧ m' = ((c.ideal s₀).run m).2) := by
  cases c with
  | mount ddname path => exact mount_does h ddname path
  | fstab line => exact fstabMount_does h line
  | unmountPath path => exact unmountPath_does h path
  | unmountDdname ddname => exact unmountDdname_does h ddname
  | unmountVdisk vdisk => exact unmountVdisk_does h vdisk
  | unmountAll => exact unmountAll_does h
  | chgdir path => exact chgdir_does h path

/-- At the start the table is that of the records. -/
theorem Shows.start {t : Minptr ≃. Nat} (h : s.Stable) (ht : s.Records t) : Shows s s ⟨t, s.cwd⟩ := ⟨h, .refl s, ht, rfl⟩

/-- After every run of calls that mount disks, take them off or change the directory, whatever requests fail, a disk is
mounted on one directory at most and a directory has one disk at most, and the records of the mounts agree. -/
theorem mounts_run {t : Minptr ≃. Nat} (h : s.Stable) (ht : s.Records t) {hist : List (TableCall × Bool)}
    (hrun : Run TableCall.step (fun _ _ => True) s hist s') : s.SameTrees s' ∧ ∃ t', s'.Records t' := by
  obtain ⟨m, hshows⟩ := hrun.invariant (I := fun s' => ∃ m, Shows s s' m) ⟨_, .start h ht⟩ fun s' c ⟨m, hm⟩ _ => by
    obtain ⟨m', hm', -⟩ := c.does hm
    exact ⟨m', hm'⟩
  exact ⟨hshows.trees, m.table, hshows.records⟩

/-- On disks on which no request fails, a list of such calls is answered as by a table of mounts that knows of the
trees alone.  The records are those of the table, and a path leads to what it leads to by the table. -/
theorem mounts_refine {t : Minptr ≃. Nat} (h : s.Stable) (hcalm : s.Calm) (ht : s.Records t) (calls : List TableCall) :
    let res := (Prog.each TableCall.step calls).run s
    let table := (Prog.each (TableCall.ideal s) calls).run ⟨t, s.cwd⟩
    res.1 = table.1 ∧ res.2.Records table.2.table ∧ res.2.cwd = table.2.cwd ∧
      ∀ path, ((lookupDirectory path).run res.2).1 = table.2.directory s path := by
  have halong : Along TableCall.step (fun _ _ => True) s calls := .of_forall (fun _ _ => trivial) calls s
  obtain ⟨hanswers, hshows, hcalm'⟩ := halong.simulates (R := fun s' m => Shows s s' m ∧ s'.Calm)
    (fun s' m c ⟨hm, hcalm⟩ _ => by
      obtain ⟨m', hm', hrest⟩ := c.does hm
      obtain ⟨hcalm', hanswer, rfl⟩ := hrest hcalm
      exact ⟨hanswer, hm', hcalm'⟩) ⟨.start h ht, hcalm⟩
  refine ⟨hanswers, hshows.records, hshows.cwd, fun path => ?_⟩
  rw [hshows.directory, lookupDirectory_calm hshows.stable.settled hcalm']

end Calls

/-- A root directory with a directory `a` in it. -/
def doorDisk : VDisk := { pairDisk with
  io := ⟨fun b => if b = 11 then Entry.setName (Entry.setInodeNumber zeroBlock 0 3) 0 [0x81] else zeroBlock, []⟩
  minodes := [
    ⟨2, false, 3, some 0, { Dinode.zero with mode := 0x41FF, nlink := 3, filesize := 64, addr := fun _ => 11 }⟩,
    ⟨3, false, 0, none, { Dinode.zero with mode := 0x41FF, nlink := 2 }⟩] }

/-- A system with two disks, the first of them mounted on its own root. -/
def twoDisks : Ufs := { bareRoot with
  vdisk := fun i => if i = 0 then doorDisk else { pairDisk with
    minodes := [⟨2, false, 0, none, { Dinode.zero with mode := 0x41FF, nlink := 2 }⟩] }
  nvdisk := 2
  ddname := fun i => if i = 0 then [0xC1] else [0xC2] }

theorem twoDisks_minode {p : Minptr} {m : Minode} (h : twoDisks.minode? p = some m) :
    m.Firm ∧ (m.mountedVdisk = if p = ⟨0, 2⟩ then some 0 else none) := by
  obtain ⟨i, ino⟩ := p
  have hmem := List.mem_of_find?_eq_some h
  have hnumber := List.find?_some h
  by_cases hi : i = 0
  · subst hi
    rcases List.mem_cons.mp hmem with rfl | hmem
    · obtain rfl : 2 = ino := of_decide_eq_true hnumber
      decide
    · obtain rfl := List.mem_singleton.mp hmem
      obtain rfl : 3 = ino := of_decide_eq_true hnumber
      decide
  · have hdisk : (twoDisks.vdisk i).minodes = [⟨2, false, 0, none, { Dinode.zero with mode := 0x41FF, nlink := 2 }⟩] := by
      simp [twoDisks, hi]
    rw [hdisk, List.mem_singleton] at hmem
    subst hmem
    simp only [Minptr.mk.injEq, hi, false_and, if_false]
    decide

theorem twoDisks_slot (i ino : Nat) : ((twoDisks.vdisk i).slot ino).isdir = false := by
  have hblock (b : Nat) (hb : b < 10) : (twoDisks.vdisk i).io.blocks b = zeroBlock := by
    have hne : b ≠ 11 := by omega
    by_cases hi : i = 0
    · simp [twoDisks, hi, doorDisk, hne]
    · simp [twoDisks, hi, pairDisk]
  have hstart : (twoDisks.vdisk i).sb.datablockStartSector = 10 := by
    change (if i = 0 then _ else _ : VDisk).sb.datablockStartSector = 10
    split <;> rfl
  have hzero (ofs : Nat) : (Dinode.ofBlock zeroBlock ofs).isdir = false := by
    have hmode : (Dinode.ofBlock zeroBlock ofs).mode = 0 := by
      simp only [Dinode.ofBlock, Bytes.half, zeroBlock]
      decide
    rw [Dinode.isdir, hmode]
    decide
  simp only [VDisk.slot, inodeInquireDiskLocation, hstart]
  split
  · rename_i hok
    rw [if_pos rfl, hblock _ hok]
    exact hzero _
  · rw [if_neg (by decide)]
    decide

theorem twoDisks_stable : twoDisks.Stable where
  vdisk i := by
    refine ⟨?_, fun ino _ h _ => (twoDisks_minode (p := ⟨i, ino⟩) h).1,
      fun ino _ h hfirm => absurd (twoDisks_minode (p := ⟨i, ino⟩) h).1 hfirm⟩
    change ((if i = 0 then _ else _ : VDisk).minodes.map _).Nodup
    split <;> decide
  sane i := by
    change 0 < (if i = 0 then _ else _ : VDisk).sb.datablockStartSector
    split <;> decide
  root := ⟨_, rfl, by decide, by decide⟩
  linked p d mounted _ hseen hdir := by
    rw [Ufs.seen, VDisk.seen] at hseen
    cases hm : twoDisks.minode? p with
    | none =>
      rw [Ufs.minode?] at hm
      rw [hm] at hseen
      dsimp only at hseen
      split at hseen
      · obtain ⟨hd, -⟩ := Prod.ext_iff.mp (Option.some.inj hseen)
        dsimp only at hd
        rw [← hd, twoDisks_slot] at hdir
        cases hdir
      · cases hseen
    | some m =>
      have hfirm := (twoDisks_minode hm).1
      rw [Ufs.minode?] at hm
      rw [hm] at hseen
      obtain ⟨hd, -⟩ := Prod.ext_iff.mp (Option.some.inj hseen)
      dsimp only at hd
      rw [← hd]
      exact hfirm.2

/-- The root on itself. -/
def rootTable : Minptr ≃. Nat := attach ⊥ ⟨0, 2⟩ 0

theorem twoDisks_records : twoDisks.Records rootTable := by
  have htable : ⇑rootTable = Function.update (fun _ => none) ⟨0, 2⟩ (some 0) := attach_apply rfl rfl
  refine ⟨funext fun p => ?_, ?_, List.nodup_singleton _, fun p => ?_⟩
  · rw [← minode_mountedVdisk, htable]
    by_cases hp : p = ⟨0, 2⟩
    · rw [hp]
      rfl
    rw [Function.update_of_ne hp, Ufs.minode, VDisk.deref]
    cases hm : twoDisks.minode? p with
    | none =>
      rw [Ufs.minode?] at hm
      rw [hm]
      rfl
    | some m =>
      have hmounted := (twoDisks_minode hm).2
      rw [if_neg hp] at hmounted
      rw [Ufs.minode?] at hm
      rw [hm]
      exact hmounted
  · refine Eq.trans (funext fun i => ?_) (attach_symm rfl rfl).symm
    change (if i = 0 then some _ else none) = _
    by_cases hi : i = 0
    · rw [hi, Function.update_self, if_pos rfl]
    · rw [Function.update_of_ne hi, if_neg hi]
      rfl
  · rw [htable]
    change p ∈ [⟨0, 2⟩] ↔ _
    by_cases hp : p = ⟨0, 2⟩
    · simp [hp]
    · simp [hp]

/-- The second disk on `/a`. -/
theorem mounts_run_door : let s' := ((TableCall.mount [0xC2] [slash, 0x81]).step.run twoDisks).2
    (twoDisks.SameTrees s' ∧ ∃ t', s'.Records t') ∧ s'.mountpoint = [⟨0, 2⟩, ⟨0, 3⟩] :=
  ⟨mounts_run twoDisks_stable twoDisks_records (.cons (TableCall.mount [0xC2] [slash, 0x81]) .nil trivial),
    by decide +kernel⟩

/-- Mounted, entered, and taken off by its ddname, which leaves the current directory behind. -/
def doorCalls : List TableCall :=
  [.mount [0xC2] [slash, 0x81], .chgdir [slash, 0x81], .unmountDdname [0x82], .unmountPath [slash, 0x81], .unmountAll]

theorem mounts_refine_door :
    let res := (Prog.each TableCall.step doorCalls).run twoDisks
    let table := (Prog.each (TableCall.ideal twoDisks) doorCalls).run ⟨rootTable, twoDisks.cwd⟩
    (res.1 = table.1 ∧ res.2.Records table.2.table ∧ res.2.cwd = table.2.cwd ∧
      ∀ path, ((lookupDirectory path).run res.2).1 = table.2.directory twoDisks path) ∧
    res.1 = [true, true, true, false, true] ∧ res.2.cwd.curDir = some ⟨1, 2⟩ := by
  have hcalm : twoDisks.Calm := fun i => by
    change (if i = 0 then _ else _ : VDisk).io.faults = []
    split <;> rfl
  exact ⟨mounts_refine twoDisks_stable hcalm twoDisks_records doorCalls, by decide +kernel, by decide +kernel⟩

end Ufs370
