import Ufs370.Cwd
import Ufs370.Mount

/-! What the code that `ufs_mount` returns says about the mount. -/

namespace Ufs370

open Lib

namespace Ufs

/-- The disk that is mounted on an inode. -/
def mountedOn (s : Ufs) (p : Minptr) : Option Nat := (s.seen p).bind Prod.snd

/-- The records of all mounts are as before. -/
structure SameMounts (s s' : Ufs) : Prop where
  mountpoint : s'.mountpoint = s.mountpoint
  mountedMinode : s'.mountedMinode = s.mountedMinode
  mountedOn : s'.mountedOn = s.mountedOn

/-- The records of all mounts are as before, and those of a mount of `vdisk` on `p`. -/
structure Mounts (vdisk : Nat) (p : Minptr) (s s' : Ufs) : Prop where
  mountpoint : s'.mountpoint = s.mountpoint ++ [p]
  mountedMinode : s'.mountedMinode = Function.update s.mountedMinode vdisk (some p)
  mountedOn : s'.mountedOn = Function.update s.mountedOn p (some vdisk)

/-- The disk of a ddname came to be mounted on the directory that a path leads to. -/
def MountsNamed (ddname path : List UInt8) (s s' : Ufs) : Prop :=
  ∃ vdisk p, s.findVdisk (fun n => s.ddname n = ddname) = some vdisk ∧ s.target path = some p ∧ Mounts vdisk p s s'

end Ufs

/-- `ufs_mount` returns 0 exactly if it mounted the disk, and else leaves the records alone. -/
def MountTells (ddname path : List UInt8) (s : Ufs) : Prop :=
  let r := (mount lookupMinode ddname path).run s
  (r.1 = .ok ↔ s.MountsNamed ddname path r.2) ∧ (r.1 ≠ .ok → s.SameMounts r.2)

/-- If the root of the disk is fit for a mount and the path leads to an inode by some name, then the disk is not
mounted and the inode is no mount point. -/
def MountFree (ddname path : List UInt8) (s : Ufs) : Prop :=
  ∀ vdisk, s.findVdisk (fun n => s.ddname n = ddname) = some vdisk →
    ((checkRoot vdisk).run s).1 = .ok →
    let found := ((lookupMinode path true true).run ((checkRoot vdisk).run s).2).1
    found.1 = .ok → ∀ p, found.2.last = some p → s.mountedMinode vdisk = none ∧ p ∉ s.mountpoint

section Mounts

variable {s s' s'' : Ufs} {p : Minptr} {vdisk : Nat} {ddname path : List UInt8}

/-- The minode's own record of the mount. -/
theorem minode_mountedVdisk (s : Ufs) (p : Minptr) : (s.minode p).mountedVdisk = s.mountedOn p := by
  rw [Ufs.mountedOn, Ufs.seen, VDisk.seen, Ufs.minode, VDisk.deref]
  cases (s.vdisk p.vdisk).minode? p.ino with
  | some m => rfl
  | none =>
    simp only
    split <;> rfl

theorem use_cached (hcached : s.Cached p) : (p.use.run s).2.Cached p := by
  obtain ⟨s', huse, -, hminode⟩ := use_run s p
  rw [huse, Ufs.Cached, VDisk.Cached, ← Ufs.minode?, hminode, Function.update_self]
  simpa [Ufs.Cached, VDisk.Cached, Ufs.minode?] using hcached

theorem Ufs.Later.sameMounts (h : s.Later s') : s.SameMounts s' where
  mountpoint := by rw [h.same]
  mountedMinode := by rw [h.same]
  mountedOn := funext fun p => by rw [Ufs.mountedOn, h.seen, Ufs.mountedOn]

theorem Ufs.Mounts.congr (h : s'.Mounts vdisk p s'') (hsame : s.SameMounts s') : s.Mounts vdisk p s'' where
  mountpoint := by rw [h.mountpoint, hsame.mountpoint]
  mountedMinode := by rw [h.mountedMinode, hsame.mountedMinode]
  mountedOn := by rw [h.mountedOn, hsame.mountedOn]

theorem Ufs.SameMounts.not_mounts (h : s.SameMounts s') : ¬ s.MountsNamed ddname path s' := by
  rintro ⟨vdisk, p, -, -, hmounts⟩
  have hlen := congrArg List.length (h.mountpoint.symm.trans hmounts.mountpoint)
  rw [List.length_append, List.length_singleton] at hlen
  omega

theorem checkRoot_later (h : s.Settled) (vdisk : Nat) : s.Later ((checkRoot vdisk).run s).2 := by
  obtain ⟨x, s', hget, hlater, -⟩ := getMinode_later h vdisk rootInode
  simp only [checkRoot, Prog.run_bind, hget]
  cases x with
  | none => exact hlater
  | some minode => exact hlater.trans (rel_later (hlater.settled h))

/-- A directory with links gets a disk mounted on it. -/
theorem setMounted_settled {v : VDisk} {ino : Nat} (h : v.Settled) (hfirm : v.Firm ino) (vdisk : Nat) :
    let w := v.setMinode ino fun m => { m with mountedVdisk := some vdisk }
    w.Settled ∧ (w.seen ino).bind Prod.snd = some vdisk ∧ ∀ i, i ≠ ino → w.seen i = v.seen i := by
  intro w
  have hnum : ∀ m : Minode, m.inodeNumber = ino → ({ m with mountedVdisk := some vdisk } : Minode).inodeNumber = ino :=
    fun _ => id
  obtain ⟨m, hm, hmfirm⟩ := hfirm
  have hown : w.minode? ino = some { m with mountedVdisk := some vdisk } := by
    rw [VDisk.minode?_setMinode_same hnum, hm, Option.map_some]
  have hother (i : Nat) (hi : i ≠ ino) : w.minode? i = v.minode? i :=
    VDisk.minode?_setMinode_other hnum hi
  refine ⟨⟨(setMinode_oneHandle (g := fun m => { m with mountedVdisk := some vdisk }) fun _ => rfl).mpr h.oneHandle, fun i m' hm' hmounted => ?_, fun i m' hm' hgo => ?_⟩, ?_,
    fun i hi => ?_⟩
  · by_cases hi : i = ino
    · obtain rfl := Option.some.inj ((hi ▸ hm').symm.trans hown)
      exact hmfirm
    · exact h.pinned i m' (hother i hi ▸ hm') hmounted
  · by_cases hi : i = ino
    · obtain rfl := Option.some.inj ((hi ▸ hm').symm.trans hown)
      exact absurd hmfirm hgo
    · exact h.saved i m' (hother i hi ▸ hm') hgo
  · rw [seen_some hown]
    rfl
  · rw [VDisk.seen, VDisk.seen, hother i hi]
    rfl

/-- The records of a mount, on a directory with links that is in the cache. -/
theorem recordMount_mounts (h : s.Settled) (hfirm : s.Firm p) :
    s.Mounts vdisk p (p.rel.run ((recordMount vdisk p).run s).2).2 := by
  obtain ⟨hset, hown, hother⟩ := setMounted_settled (h.vdisk p.vdisk) hfirm vdisk
  generalize hw : (s.vdisk p.vdisk).setMinode p.ino (fun m => { m with mountedVdisk := some vdisk }) = w
    at hset hown hother
  have hlater := inodeRel_later (i := p.ino) hset
  have hvdisk : (p.rel.run ((recordMount vdisk p).run s).2).2.vdisk =
      Function.update s.vdisk p.vdisk ((inodeRel p.ino).run w).2 := by
    funext i
    by_cases hi : i = p.vdisk
    · subst hi
      simp [Minptr.rel, onDisk, recordMount, Ufs.setMountedVdisk, Ufs.setMountedMinode, Ufs.setMinode, Ufs.setVdisk, hw]
    · simp [Minptr.rel, onDisk, recordMount, Ufs.setMountedVdisk, Ufs.setMountedMinode, Ufs.setMinode, Ufs.setVdisk, hi]
  refine ⟨rfl, rfl, funext fun q => ?_⟩
  by_cases hq : q = p
  · subst hq
    rw [Function.update_self, Ufs.mountedOn, Ufs.seen, hvdisk, Function.update_self, hlater.seen, hown]
  rw [Function.update_of_ne hq, Ufs.mountedOn, Ufs.mountedOn, Ufs.seen, Ufs.seen, hvdisk]
  by_cases hi : q.vdisk = p.vdisk
  · have hino : q.ino ≠ p.ino := fun hino => hq (by cases q; cases p; simp_all)
    rw [hi, Function.update_self, hlater.seen, hother _ hino]
  · rw [Function.update_of_ne hi]

/-- An exit of `ufs_mount` that tells the truth, or one of the two that do not. -/
theorem mountVdisk_cases (path : List UInt8) (h : s.Settled)
    (hfind : s.findVdisk (fun n => s.ddname n = ddname) = some vdisk) :
    let found := ((lookupMinode path true true).run s).1
    let r := (mountVdisk lookupMinode vdisk path).run s
    r.1 ≠ .ok ∧ s.SameMounts r.2 ∧
        (found.1 = .ok → ∀ p, found.2.last = some p → s.mountedMinode vdisk = none ∧ p ∉ s.mountpoint) ∨
      r.1 = .ok ∧ s.MountsNamed ddname path r.2 ∧
        (found.1 = .ok → ∀ p, found.2.last = some p → s.mountedMinode vdisk = none ∧ p ∉ s.mountpoint) ∨
      r.1 = .ok ∧ s.SameMounts r.2 ∧ found.1 = .ok ∧
        ∃ p, found.2.last = some p ∧ ¬ (s.mountedMinode vdisk = none ∧ p ∉ s.mountpoint) := by
  obtain ⟨rc, out, s₁, hwalk, hlater, hend⟩ := lookupMinode_later h path true
  simp only [mountVdisk, Prog.run_bind, hwalk]
  rcases hend with ⟨q, rfl, htarget, hreached, hcached, hlast, -⟩ | ⟨hrc, -⟩
  swap
  · simp only [ne_eq, hrc, not_false_eq_true, if_true]
    exact .inl ⟨hrc, hlater.sameMounts, False.elim⟩
  simp only [ne_eq, not_true_eq_false, if_false]
  cases hp : out.last with
  | none => exact .inl ⟨Rc.noConfusion, hlater.sameMounts, fun _ p hp' => absurd hp' (Option.some_ne_none p).symm⟩
  | some p =>
    obtain rfl : p = q := by
      rw [hp, Option.some_or] at hlast
      exact Option.some.inj hlast
    have hsame := hlater.sameMounts
    simp only [Prog.run_bind, Prog.run_ite, Prog.run_pure, hsame.mountpoint, hsame.mountedMinode]
    by_cases hmounted : (s.mountedMinode vdisk).isSome = true
    · rw [if_pos hmounted]
      refine .inr (.inr ⟨rfl, hsame, trivial, p, rfl, fun hfree => ?_⟩)
      rw [hfree.1] at hmounted
      cases hmounted
    rw [if_neg hmounted]
    by_cases hpoint : p ∈ s.mountpoint
    · rw [if_pos hpoint]
      exact .inr (.inr ⟨rfl, hsame, trivial, p, rfl, fun hfree => hfree.2 hpoint⟩)
    rw [if_neg hpoint]
    have hfree : s.mountedMinode vdisk = none ∧ p ∉ s.mountpoint := ⟨by simpa using hmounted, hpoint⟩
    have hset := hlater.settled h
    obtain ⟨s₂, huse, -, hminode⟩ := use_run s₁ p
    have hlater₂ : s.Later s₂ := by
      have hlater' := use_later (p := p) hset
      rw [huse] at hlater'
      exact hlater.trans hlater'
    have hset₂ := hlater₂.settled h
    rw [huse]
    by_cases hcheck : mountCheck s₂ vdisk p = .ok
    swap
    · simp only [hcheck, not_false_eq_true, if_true]
      exact .inl ⟨trivial, (hlater₂.trans (rel_later hset₂)).sameMounts, fun _ _ hp => Option.some.inj hp ▸ hfree⟩
    simp only [hcheck, not_true_eq_false, if_false]
    have hdir : s₂.isdir p = true := by
      by_contra hdir
      rw [mountCheck, if_pos (by simpa using hdir)] at hcheck
      cases hcheck
    have hcached₂ : s₂.Cached p := by
      rw [Ufs.Cached, VDisk.Cached, ← Ufs.minode?, hminode, Function.update_self]
      simpa [Ufs.Cached, VDisk.Cached, Ufs.minode?] using hcached
    have hfirm := firm_of_reached hset₂ (hlater₂.reached.mpr hreached) hcached₂ hdir
    have hlater₃ : s₂.Later (p.use.run s₂).2 := use_later hset₂
    have hmounts : Ufs.Mounts vdisk p _ (p.rel.run ((recordMount vdisk p).run (p.use.run s₂).2).2).2 :=
      recordMount_mounts (hlater₃.settled hset₂) (hlater₃.firm hfirm)
    refine .inr (.inl ⟨trivial, ⟨vdisk, p, hfind, htarget, ?_⟩, fun _ _ hp => Option.some.inj hp ▸ hfree⟩)
    exact hmounts.congr (hlater₂.trans hlater₃).sameMounts

/-- `ufs_mount` tells the truth about the mount exactly if nothing was mounted there before. -/
theorem mountTells_iff (h : s.Settled) (ddname path : List UInt8) :
    MountTells ddname path s ↔ MountFree ddname path s := by
  have hfails {r : Rc × Ufs} (hrc : r.1 ≠ .ok) (hsame : s.SameMounts r.2) :
      (r.1 = .ok ↔ s.MountsNamed ddname path r.2) ∧ (r.1 ≠ .ok → s.SameMounts r.2) :=
    ⟨iff_of_false hrc hsame.not_mounts, fun _ => hsame⟩
  rw [MountTells]
  simp only [mount, Prog.run_bind, Prog.get]
  cases hfind : s.findVdisk fun n => s.ddname n = ddname with
  | none =>
    refine iff_of_true (hfails Rc.noConfusion (Ufs.Later.refl h).sameMounts) fun vdisk hvdisk => ?_
    exact absurd (hfind.symm.trans hvdisk) (Option.some_ne_none _).symm
  | some vdisk =>
    have hroot := checkRoot_later h vdisk
    simp only [Prog.run_bind, Prog.run_ite]
    by_cases hrc : ((checkRoot vdisk).run s).1 = .ok
    swap
    · simp only [ne_eq, hrc, not_false_eq_true, if_true]
      refine iff_of_true (hfails hrc hroot.sameMounts) fun vdisk' hvdisk hrc' => ?_
      obtain rfl := Option.some.inj (hfind.symm.trans hvdisk)
      exact absurd hrc' hrc
    simp only [ne_eq, hrc, not_true_eq_false, if_false]
    have hcases := mountVdisk_cases path (hroot.settled h) (by
      rw [hroot.same]
      exact hfind)
    have hsame := hroot.sameMounts
    rw [hsame.mountedMinode, hsame.mountpoint] at hcases
    have hnamed {s' : Ufs} (hs' : ((checkRoot vdisk).run s).2.MountsNamed ddname path s') : s.MountsNamed ddname path s' := by
      obtain ⟨vdisk', p, hvdisk, htarget, hmounts⟩ := hs'
      rw [hroot.same] at hvdisk
      rw [hroot.target] at htarget
      exact ⟨vdisk', p, hvdisk, htarget, hmounts.congr hsame⟩
    have hkept {s' : Ufs} (hs' : ((checkRoot vdisk).run s).2.SameMounts s') : s.SameMounts s' :=
      ⟨hs'.mountpoint.trans hsame.mountpoint, hs'.mountedMinode.trans hsame.mountedMinode,
        hs'.mountedOn.trans hsame.mountedOn⟩
    rcases hcases with ⟨hne, hs', hfree⟩ | ⟨hok, hs', hfree⟩ | ⟨hok, hs', hfound, p, hp, hbusy⟩
    · refine iff_of_true (hfails hne (hkept hs')) fun vdisk' hvdisk _ => ?_
      obtain rfl := Option.some.inj (hfind.symm.trans hvdisk)
      exact hfree
    · refine iff_of_true ⟨iff_of_true hok (hnamed hs'), fun hne => absurd hok hne⟩ fun vdisk' hvdisk _ => ?_
      obtain rfl := Option.some.inj (hfind.symm.trans hvdisk)
      exact hfree
    · refine iff_of_false (fun htells => (hkept hs').not_mounts (htells.1.mp hok)) fun hfree => ?_
      exact hbusy (hfree vdisk hfind hrc hfound p hp)

end Mounts

/-- The walk to the root itself finds no name. -/
theorem mountTells_root : MountTells [] [slash] rootUfs ∧ ((mount lookupMinode [] [slash]).run rootUfs).1 = .enoent := by
  refine ⟨(mountTells_iff rootUfs_settled [] [slash]).mpr fun vdisk hvdisk _ hfound p hp => ?_, by decide +kernel⟩
  have hzero : rootUfs.findVdisk (fun n => rootUfs.ddname n = []) = some 0 := by decide +kernel
  obtain rfl := Option.some.inj (hzero.symm.trans hvdisk)
  have hnone : ((lookupMinode [slash] true true).run ((checkRoot 0).run rootUfs).2).1.2.last = none := by decide +kernel
  exact absurd (hnone.symm.trans hp) (Option.some_ne_none p).symm

/-- A system with one disk, whose root directory has the entry `.`, mounted on its own root. -/
def dotRoot : Ufs := { bareRoot with
  ddname := fun _ => [0xC1]
  vdisk := fun _ => { pairDisk with
    io := ⟨fun _ => Entry.setName (Entry.setInodeNumber zeroBlock 0 2) 0 [dot], []⟩
    minodes := [⟨2, false, 1, some 0, { Dinode.zero with mode := 0x41ED, nlink := 2, filesize := 64, addr := fun _ => 11 }⟩] } }

/-- The disk is mounted already, and a mount of it on `/.` returns 0. -/
theorem not_mountTells : ¬ MountTells [0xC1] [slash, dot] dotRoot := by
  intro h
  obtain ⟨vdisk, p, -, -, hmounts⟩ := h.1.mp (by decide +kernel)
  have hpoint : ((mount lookupMinode [0xC1] [slash, dot]).run dotRoot).2.mountpoint = dotRoot.mountpoint := by
    decide +kernel
  have hlen := congrArg List.length (hpoint.symm.trans hmounts.mountpoint)
  rw [List.length_append, List.length_singleton] at hlen
  omega

end Ufs370
