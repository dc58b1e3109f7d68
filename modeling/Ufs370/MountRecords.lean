import Ufs370.MountTruth
import Ufs370.Lib.Mounting

/-! The three records of the mounts, and what a walk sees of a change in them. -/

namespace Ufs370

open Lib Lib.Mounting

namespace Ufs

variable (s : Ufs)

/-- The trees on the disks, whatever is mounted. -/
def forest : Forest Minptr Nat (List UInt8) where
  root vdisk := ⟨vdisk, rootInode⟩
  present p := (s.seen p).isSome
  passes p := (s.seen p).any fun x => s.passes x.1
  child := s.child

/-- A disk whose root is fit for a mount. -/
def rootFit (vdisk : Nat) : Bool :=
  (s.seen ⟨vdisk, rootInode⟩).any fun x => x.1.isdir && !decide (x.1.nlink < 2)

/-- A directory on which the user may mount a disk. -/
def pointFit (p : Minptr) : Bool := (s.seen p).any fun x => x.1.isdir && inodeAuth s.acee x.1 ufsaccWrite

/-- The state between calls, whatever comes to be mounted: all directories that a walk may come to have links. -/
structure Stable : Prop where
  vdisk : ∀ i, (s.vdisk i).Settled
  sane : ∀ i, 0 < (s.vdisk i).sb.datablockStartSector
  root : s.Firm s.fsroot
  linked : ∀ p d mounted, s.forest.Rooted s.fsroot p → s.seen p = some (d, mounted) → d.isdir = true → d.nlink ≠ 0

/-- From `s` to `s'` at most the handles, the mounts and the current directory changed. -/
structure SameTrees (s s' : Ufs) : Prop where
  same : s' = { s with
    vdisk := s'.vdisk
    mountedMinode := s'.mountedMinode
    mountpoint := s'.mountpoint
    cwd := s'.cwd }
  sb : ∀ i, (s'.vdisk i).sb = (s.vdisk i).sb
  entry : ∀ i, (s'.vdisk i).entry = (s.vdisk i).entry
  dinode : ∀ p, (s'.seen p).map Prod.fst = (s.seen p).map Prod.fst

/-- The three records of the mounts agree, and are those of one table. -/
structure Records (t : Minptr ≃. Nat) : Prop where
  mountedOn : s.mountedOn = t
  mountedMinode : s.mountedMinode = t.symm
  nodup : s.mountpoint.Nodup
  mem : ∀ p, p ∈ s.mountpoint ↔ (t p).isSome

end Ufs

section Trees

variable {s s' s'' : Ufs} {t : Minptr ≃. Nat} {p : Minptr}

theorem any_fst {α β : Type} {x y : Option (α × β)} (h : x.map Prod.fst = y.map Prod.fst) (f : α → Bool) :
    (x.any fun z => f z.1) = y.any fun z => f z.1 := by
  have hmap (x : Option (α × β)) : (x.any fun z => f z.1) = (x.map Prod.fst).any f := by cases x <;> rfl
  rw [hmap, hmap, h]

namespace Ufs

theorem enter_forest (s : Ufs) : s.enter = s.forest.enter s.mountedOn := by
  funext p
  rcases hp : s.seen p with _ | ⟨d, _ | vdisk⟩
  · simp [enter, Forest.enter, forest, hp]
  · simp [enter, Forest.enter, forest, mountedOn, hp]
  · rcases hroot : s.seen ⟨vdisk, rootInode⟩ with _ | x <;>
      simp [enter, Forest.enter, forest, mountedOn, hp, hroot]

theorem descend_forest (s : Ufs) : s.descend = s.forest.descend s.mountedOn := by
  funext ns
  induction ns with
  | nil => rfl
  | cons name next ih =>
    funext p
    rw [descend, Forest.descend, ih, enter_forest]
    rfl

theorem follow_forest (s : Ufs) : s.follow = s.forest.follow s.mountedOn := by
  funext p
  rcases hp : s.seen p with _ | ⟨d, _ | vdisk⟩
  · simp [follow, Forest.follow, forest, mountedOn, hp]
  · simp [follow, Forest.follow, forest, mountedOn, hp]
  · simp only [follow, Forest.follow, forest, mountedOn, hp, Option.bind_some]
    rfl

theorem Stable.settled (h : s.Stable) : s.Settled where
  vdisk := h.vdisk
  sane := h.sane
  root := h.root
  linked p d mounted hp := by
    refine h.linked p d mounted ?_
    induction hp with
    | root => exact .start
    | mount => exact .root (F := s.forest) _
    | child _ hc ih => exact .child ih hc

namespace SameTrees

theorem refl (s : Ufs) : s.SameTrees s := ⟨rfl, fun _ => rfl, fun _ => rfl, fun _ => rfl⟩

theorem trans (h : s.SameTrees s') (h' : s'.SameTrees s'') : s.SameTrees s'' where
  same := by rw [h'.same, h.same]
  sb i := (h'.sb i).trans (h.sb i)
  entry i := (h'.entry i).trans (h.entry i)
  dinode p := (h'.dinode p).trans (h.dinode p)

theorem setCwd (s : Ufs) (cwd : Cwd) : s.SameTrees { s with cwd } := ⟨rfl, fun _ => rfl, fun _ => rfl, fun _ => rfl⟩

variable (h : s.SameTrees s')
include h

theorem fsroot : s'.fsroot = s.fsroot := by rw [h.same]

theorem findVdisk : s'.findVdisk = s.findVdisk := by rw [h.same]; rfl

theorem child : s'.child = s.child := by
  funext p name
  have hdinode := h.dinode p
  have hpresent (ino : Nat) : (s'.seen ⟨p.vdisk, ino⟩).isSome = (s.seen ⟨p.vdisk, ino⟩).isSome := by
    rw [← Option.isSome_map, h.dinode, Option.isSome_map]
  rcases hp : s.seen p with _ | x <;> rcases hp' : s'.seen p with _ | x' <;> rw [hp, hp'] at hdinode
  · simp only [Ufs.child, hp, hp']
  · cases hdinode
  · cases hdinode
  · have hd : x'.1 = x.1 := Option.some.inj hdinode
    simp only [Ufs.child, hp, hp', hd, h.entry, hpresent]

theorem forest : s'.forest = s.forest := by
  have hpresent (p : Minptr) : (s'.seen p).isSome = (s.seen p).isSome := by
    rw [← Option.isSome_map, h.dinode, Option.isSome_map]
  have hpasses : s'.passes = s.passes := by rw [h.same]; rfl
  have hany (p : Minptr) : ((s'.seen p).any fun x => s.passes x.1) = (s.seen p).any fun x => s.passes x.1 :=
    any_fst (h.dinode p) s.passes
  simp only [Ufs.forest, h.child, hpresent, hpasses, hany]

theorem rootFit : s'.rootFit = s.rootFit :=
  funext fun vdisk => any_fst (h.dinode ⟨vdisk, rootInode⟩) fun d => d.isdir && !decide (d.nlink < 2)

theorem pointFit : s'.pointFit = s.pointFit := by
  have hacee : s'.acee = s.acee := by rw [h.same]
  funext p
  rw [Ufs.pointFit, Ufs.pointFit, hacee]
  exact any_fst (h.dinode p) fun d => d.isdir && inodeAuth s.acee d ufsaccWrite

theorem stable (hs : s.Stable) (hset : ∀ i, (s'.vdisk i).Settled) (hroot : s'.Firm s.fsroot) : s'.Stable where
  vdisk := hset
  sane i := by
    rw [h.sb]
    exact hs.sane i
  root := by rwa [h.fsroot]
  linked p d mounted hp hseen := by
    rw [h.forest, h.fsroot] at hp
    have hdinode := h.dinode p
    cases hold : s.seen p with
    | none =>
      rw [hseen, hold] at hdinode
      cases hdinode
    | some x =>
      rw [hseen, hold] at hdinode
      have hd : d = x.1 := Option.some.inj hdinode
      exact hd ▸ hs.linked p x.1 x.2 hp hold

end SameTrees

namespace Later

variable (h : s.Later s')
include h

theorem sameTrees : s.SameTrees s' where
  same := by rw [h.same]
  sb i := by rw [(h.vdisk i).same]; rfl
  entry := h.entry
  dinode p := by rw [h.seen]

theorem stable (hs : s.Stable) : s'.Stable :=
  h.sameTrees.stable hs (fun i => (h.vdisk i).settled) (h.firm hs.root)

end Later

theorem Records.later (ht : s.Records t) (h : s.Later s') : s'.Records t where
  mountedOn := h.sameMounts.mountedOn.trans ht.mountedOn
  mountedMinode := h.sameMounts.mountedMinode.trans ht.mountedMinode
  nodup := h.sameMounts.mountpoint ▸ ht.nodup
  mem p := by rw [h.sameMounts.mountpoint, ht.mem]

end Ufs

end Trees

section Changes

variable {s s' : Ufs} {t : Minptr ≃. Nat} {p : Minptr} {vdisk : Nat}

/-- What is mounted on an inode that stays in the cache is changed. -/
theorem setMountedVdisk_settled {v : VDisk} {ino : Nat} (h : v.Settled) (hfirm : v.Firm ino) (x : Option Nat) :
    let w := v.setMinode ino fun m => { m with mountedVdisk := x }
    w.Settled ∧ (∀ i, v.Firm i → w.Firm i) ∧ w.seen = Function.update v.seen ino ((v.seen ino).map fun y => (y.1, x)) := by
  intro w
  have hnum : ∀ m : Minode, m.inodeNumber = ino → ({ m with mountedVdisk := x } : Minode).inodeNumber = ino := fun _ => id
  obtain ⟨m, hm, hmfirm⟩ := hfirm
  have hown : w.minode? ino = some { m with mountedVdisk := x } := by
    rw [VDisk.minode?_setMinode_same hnum, hm, Option.map_some]
  have hother (i : Nat) (hi : i ≠ ino) : w.minode? i = v.minode? i := VDisk.minode?_setMinode_other hnum hi
  refine ⟨⟨(setMinode_oneHandle (g := fun m => { m with mountedVdisk := x }) fun _ => rfl).mpr h.oneHandle,
    fun i m' hm' hmounted => ?_, fun i m' hm' hgo => ?_⟩, fun i ⟨m', hm', hf⟩ => ?_, funext fun i => ?_⟩
  · by_cases hi : i = ino
    · obtain rfl := Option.some.inj ((hi ▸ hm').symm.trans hown)
      exact hmfirm
    · exact h.pinned i m' (hother i hi ▸ hm') hmounted
  · by_cases hi : i = ino
    · obtain rfl := Option.some.inj ((hi ▸ hm').symm.trans hown)
      exact absurd hmfirm hgo
    · exact h.saved i m' (hother i hi ▸ hm') hgo
  · by_cases hi : i = ino
    · subst hi
      exact ⟨_, hown, hmfirm⟩
    · exact ⟨m', (hother i hi).trans hm', hf⟩
  · by_cases hi : i = ino
    · rw [hi, Function.update_self, seen_some hown, seen_some hm, Option.map_some]
    · rw [Function.update_of_ne hi, VDisk.seen, VDisk.seen, hother i hi]
      rfl

/-- The records of the mounts with other entries for `p`. -/
def Ufs.rerecord (s : Ufs) (p : Minptr) (x : Option Nat) (mountedMinode : Nat → Option Minptr)
    (mountpoint : List Minptr) : Ufs := { s.setMountedVdisk p x with mountedMinode, mountpoint }

theorem rerecord_vdisk (s : Ufs) (p : Minptr) (x : Option Nat) (mm : Nat → Option Minptr) (mp : List Minptr) (i : Nat) :
    (s.rerecord p x mm mp).vdisk i =
      if i = p.vdisk then (s.vdisk i).setMinode p.ino fun m => { m with mountedVdisk := x } else s.vdisk i := by
  by_cases hi : i = p.vdisk
  · subst hi
    simp [Ufs.rerecord, Ufs.setMountedVdisk, Ufs.setMinode, Ufs.setVdisk]
  · simp [Ufs.rerecord, Ufs.setMountedVdisk, Ufs.setMinode, Ufs.setVdisk, hi]

/-- A change of the records changes what is mounted on `p`, and nothing else that a walk sees. -/
theorem rerecord_stable (h : s.Stable) (hfirm : s.Firm p) (x : Option Nat) (mm : Nat → Option Minptr)
    (mp : List Minptr) : (s.rerecord p x mm mp).Stable ∧ s.SameTrees (s.rerecord p x mm mp) ∧
      (s.rerecord p x mm mp).mountedOn = Function.update s.mountedOn p x ∧
      (s.Calm → (s.rerecord p x mm mp).Calm) := by
  obtain ⟨hset, hkept, hseen⟩ := setMountedVdisk_settled (h.vdisk p.vdisk) hfirm x
  have hvdisk := rerecord_vdisk s p x mm mp
  generalize hs' : s.rerecord p x mm mp = s' at hvdisk
  have hsees : s'.seen = Function.update s.seen p ((s.seen p).map fun y => (y.1, x)) := by
    funext q
    rw [Ufs.seen, hvdisk]
    by_cases hq : q = p
    · subst hq
      rw [if_pos rfl, hseen, Function.update_self, Function.update_self]
      rfl
    rw [Function.update_of_ne hq]
    by_cases hi : q.vdisk = p.vdisk
    · have hino : q.ino ≠ p.ino := fun hino => hq (by cases q; cases p; simp_all)
      rw [if_pos hi, hi, hseen, Function.update_of_ne hino, Ufs.seen, hi]
    · rw [if_neg hi]
      rfl
  have htrees : s.SameTrees s' := by
    refine ⟨by rw [← hs']; rfl, fun i => ?_, fun i => ?_, fun q => ?_⟩
    · rw [hvdisk]
      split <;> rfl
    · rw [hvdisk]
      split <;> rfl
    · rw [hsees]
      by_cases hq : q = p
      · rw [hq, Function.update_self, Option.map_map]
        rfl
      · rw [Function.update_of_ne hq]
  refine ⟨htrees.stable h (fun i => ?_) ?_, htrees, ?_, fun hcalm i => ?_⟩
  · rw [hvdisk]
    split
    · rename_i hi
      exact hi ▸ hset
    · exact h.vdisk i
  · rw [Ufs.Firm, hvdisk]
    split
    · rename_i hi
      rw [hi]
      exact hkept _ (hi ▸ h.root)
    · exact h.root
  · obtain ⟨m, hm, -⟩ := hfirm
    have hp : s.seen p = some (m.dinode, m.mountedVdisk) := seen_some hm
    funext q
    rw [Ufs.mountedOn, hsees]
    by_cases hq : q = p
    · rw [hq, Function.update_self, Function.update_self, hp]
      rfl
    · rw [Function.update_of_ne hq, Function.update_of_ne hq, Ufs.mountedOn]
  · rw [hvdisk]
    split
    · exact hcalm i
    · exact hcalm i

/-- A mount point stays in the cache, and is a directory. -/
theorem firm_of_mountedOn (h : s.Stable) (hp : (s.mountedOn p).isSome) : s.Firm p ∧ s.isdir p = true := by
  have hm : (s.minode p).mountedVdisk ≠ none := by
    rw [minode_mountedVdisk]
    exact Option.isSome_iff_ne_none.mp hp
  cases hcached : (s.vdisk p.vdisk).minode? p.ino with
  | none => exact absurd (by rw [Ufs.minode, VDisk.deref, hcached]; rfl) hm
  | some m =>
    have hminode : s.minode p = m := VDisk.deref_some hcached
    have hfirm := (h.vdisk p.vdisk).pinned p.ino m hcached (hminode ▸ hm)
    exact ⟨⟨m, hcached, hfirm⟩, by rw [Ufs.isdir, Ufs.dinode, hminode]; exact hfirm.1⟩

theorem Ufs.Records.attach (ht : s.Records t) (hp : t p = none) (hv : t.symm vdisk = none)
    (hon : s'.mountedOn = Function.update s.mountedOn p (some vdisk))
    (hminode : s'.mountedMinode = Function.update s.mountedMinode vdisk (some p))
    (hpoint : s'.mountpoint = s.mountpoint ++ [p]) : s'.Records (Mounting.attach t p vdisk) := by
  have hout : p ∉ s.mountpoint := fun hmem => by
    have := (ht.mem p).mp hmem
    rw [hp] at this
    cases this
  refine ⟨?_, ?_, ?_, fun q => ?_⟩
  · rw [hon, ht.mountedOn, attach_apply hp hv]
  · rw [hminode, ht.mountedMinode, attach_symm hp hv]
  · rw [hpoint, List.nodup_append]
    exact ⟨ht.nodup, List.nodup_singleton p, fun q hq _ hp heq => hout (List.mem_singleton.mp hp ▸ heq ▸ hq)⟩
  · rw [hpoint, List.mem_append, List.mem_singleton, ht.mem, attach_apply hp hv]
    by_cases hq : q = p
    · simp [hq]
    · simp [hq]

theorem Ufs.Records.detach (ht : s.Records t) (hp : t p = some vdisk)
    (hon : s'.mountedOn = Function.update s.mountedOn p none)
    (hminode : s'.mountedMinode = Function.update s.mountedMinode vdisk none)
    (hpoint : s'.mountpoint = eraseMountpoint s.mountpoint p) : s'.Records (Mounting.detach t p) := by
  have hnodup : s.mountpoint.reverse.Nodup := List.nodup_reverse.mpr ht.nodup
  refine ⟨?_, ?_, ?_, fun q => ?_⟩
  · rw [hon, ht.mountedOn, detach_apply]
  · rw [hminode, ht.mountedMinode, detach_symm hp]
  · rw [hpoint, eraseMountpoint, List.nodup_reverse]
    exact hnodup.erase p
  · rw [hpoint, eraseMountpoint, List.mem_reverse, hnodup.mem_erase_iff, List.mem_reverse, ht.mem, detach_apply]
    by_cases hq : q = p
    · simp [hq]
    · simp [hq]

end Changes

end Ufs370
