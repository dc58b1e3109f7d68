import Ufs370.Absent
import Ufs370.FailedAllocate
import Ufs370.CallRefs

/-! The part of `ufs_mkdir` that has the parent, in any tree in which directories can be made. -/

namespace Ufs370

open Lib

section Views

variable {v v' : VDisk} {i : Nat}

theorem inode_of_seen {d : Dinode} {mounted : Option Nat} (h : v.seen i = some (d, mounted)) : v.inode i = d := by
  rw [VDisk.seen] at h
  cases hm : v.minode? i with
  | some m =>
    rw [hm] at h
    rw [VDisk.inode_some hm]
    exact (Prod.ext_iff.mp (Option.some.inj h)).1
  | none =>
    rw [hm] at h
    dsimp only at h
    split at h
    · rw [VDisk.inode_none hm]
      exact (Prod.ext_iff.mp (Option.some.inj h)).1
    · cases h

theorem inode_of_unseen (h : v.seen i = none) : v.inode i = v.slot i := by
  rw [VDisk.seen] at h
  cases hm : v.minode? i with
  | some m =>
    rw [hm] at h
    cases h
  | none => rw [VDisk.inode_none hm]

/-- What a walk leaves when no request fails. -/
theorem VDisk.Later.view (h : v.Later v') (hcalm : v.io.faults = []) : SameView v v' where
  same := by
    have hsame := h.same
    rw [h.calm hcalm, ← hcalm] at hsame
    exact hsame
  inode := by
    have hslot : v'.slot = v.slot := by
      rw [h.same]
      rfl
    funext i
    cases hseen : v.seen i with
    | none => rw [inode_of_unseen hseen, inode_of_unseen (h.seen ▸ hseen), hslot]
    | some x => rw [inode_of_seen hseen, inode_of_seen (show v'.seen i = some (x.1, x.2) from h.seen ▸ hseen)]

theorem SameView.counted (h : SameView v v') (hc : FreeCounted v) : FreeCounted v' := by
  obtain ⟨ms, rfl⟩ : ∃ ms, v' = { v with minodes := ms } := ⟨_, h.same⟩
  have hlay : SameLayout v { v with minodes := ms } := .of_sb rfl rfl
  exact ⟨hlay.geometry hc.geometry, hc.table, ⟨hc.live.faults, hc.live.writable⟩, hc.writable, hc.total,
    hc.nodup, hc.cached⟩

theorem SameView.entryRoom (h : SameView v v') (d : Nat) (mode : UInt16) : v'.EntryRoom d mode ↔ v.EntryRoom d mode := by
  rw [VDisk.EntryRoom, VDisk.EntryRoom, VDisk.room, VDisk.room, VDisk.nidx, h.filesize, h.same]
  rfl

/-- The references that a call holds to a directory and to the inode that it made there are given back. -/
theorem FileMade.released {inos : List Nat} {d ino : Nat} {name : List UInt8} {mode : UInt16}
    (h : FileMade inos d ino name mode v v') (hin : v.InSlot d) : ∃ a b c, (inodeRel d).run v' = ((), a) ∧
      (inodeGet ino).run a = (some ino, b) ∧ (inodeRel ino).run b = ((), c) ∧ SameView v' c := by
  obtain ⟨free', hw⟩ := h.wellFormed
  obtain ⟨a, hrel, hreleased⟩ := inodeRel_run h.cached
  have sa := SameView.of_released h.tended.oneHandle h.cached (fun _ => h.inSlot hin) hreleased
  have hwa := sa.wellFormed hw
  obtain ⟨b, hget, htaken⟩ := inodeGet_live hwa.geometry hwa.live (hwa.number ino (List.mem_cons_self ..))
  have sb := sa.trans (.of_taken htaken)
  obtain ⟨c, hrel', hreleased'⟩ := inodeRel_run htaken.cached
  have sc := SameView.of_released (htaken.oneHandle (hreleased.oneHandle h.tended.oneHandle)) htaken.cached
    (fun _ => sb.inSlot.mpr h.inSlotNew) hreleased'
  exact ⟨a, b, c, hrel, hget, hrel', sb.trans sc⟩

end Views

/-- A disk on which files can be made: no inode that is free is in use, and what is in the cache is on the disk. -/
structure Makes (inos : List Nat) (v : VDisk) (free : List Nat) : Prop where
  wellFormed : WellFormed v inos free
  counted : v.sb.readonly = false → FreeCounted v
  unused : ∀ i ∈ v.freeInodes, i ∉ inos ∧ v.filesize i = 0
  synced : ∀ i, InodeNumber v i → v.InSlot i

theorem Makes.ready {inos free : List Nat} {v v' : VDisk} (h : Makes inos v free) (s : SameView v v')
    (hone : v'.OneHandle) (hroom : v'.Room) (hwrite : v.sb.readonly = false) : CreateReady inos v' free where
  wellFormed := s.wellFormed h.wellFormed
  tended := ⟨hone, hroom, fun i hi _ => s.inSlot.mpr (h.synced i (s.number.mp hi))⟩
  counted := s.counted (h.counted hwrite)
  unused i hi := by
    have hfree : v'.freeInodes = v.freeInodes :=
      (SameLayout.of_sb (by rw [s.same]) (by rw [s.same])).freeInodes (by rw [s.same])
    rw [s.filesize]
    exact h.unused i (hfree ▸ hi)

namespace Ufs

variable (s : Ufs)

def inode (p : Minptr) : Dinode := (s.vdisk p.vdisk).inode p.ino

def entries (p : Minptr) : List Dirent := (s.vdisk p.vdisk).dirents p.ino

/-- A tree in which files can be made in every directory of a disk that is not read-only, and no request fails. -/
structure Makeable : Prop where
  settled : s.Settled
  calm : s.Calm
  room : ∀ p, s.uses p + 8 < 65536
  perm : s.createPerm.toNat < 512
  directory : ∀ p d mounted, s.Reached p → s.seen p = some (d, mounted) → d.isdir = true →
    (s.vdisk p.vdisk).readonly = false → ∃ inos free n, Makes inos (s.vdisk p.vdisk) free ∧ p.ino ∈ inos ∧
      d.filesize.toNat = direntSize * n ∧ SizeOk (s.vdisk p.vdisk) (direntSize * (n + 1))
  root : ∀ p d vdisk, s.Reached p → s.seen p = some (d, some vdisk) →
    ∃ d' mounted, s.seen ⟨vdisk, rootInode⟩ = some (d', mounted) ∧ d'.isdir = true

end Ufs

section Mkdir

variable {s s₂ : Ufs} {p : Minptr}

theorem newdir_type {s : Ufs} (hperm : s.createPerm.toNat < 512) :
    (UInt16.ofNat ifdir ||| s.createPerm).toNat &&& ifmt = ifdir := by
  have hlow : ∀ x < 512, (ifdir ||| x) &&& ifmt = ifdir := by decide +kernel
  rw [UInt16.toNat_or]
  exact hlow _ hperm

theorem onDisk_run {α : Type} {i : Nat} {x : Prog VDisk α} {r : α} {v : VDisk} (h : x.run (s.vdisk i) = (r, v)) :
    (onDisk i x).run s = (r, s.setVdisk i v) := by
  simp only [onDisk, Prog.run_lift, h]

theorem onDisk_setVdisk {α : Type} {i : Nat} {x : Prog VDisk α} {r : α} {v w : VDisk} (h : x.run v = (r, w)) :
    (onDisk i x).run (s.setVdisk i v) = (r, s.setVdisk i w) := by
  rw [onDisk_run (by rw [setVdisk_same, h])]
  rw [Ufs.setVdisk, Ufs.setVdisk, Ufs.setVdisk, Function.update_idem]

theorem Ufs.Later.view (h : s.Later s₂) (hcalm : s.Calm) (i : Nat) : SameView (s.vdisk i) (s₂.vdisk i) :=
  (h.vdisk i).view (hcalm i)

theorem inode_of_seenAt {d : Dinode} {mounted : Option Nat} (h : s.seen p = some (d, mounted)) : s.inode p = d :=
  inode_of_seen h

/-- The entry that `ufs_file_allocate` takes for the file that it is to make. -/
def InTheWay (fullpath : List UInt8) (e : Dirent) : Prop :=
  1 ≤ e.inodeNumber ∧ e.name = direntFilename (lookupName (direntFilename fullpath))

/-- What `ufs_mkdir` comes to once it has the parent `p`, with the inode given back that it gets in the end. -/
structure MkdirInEnds (s s₂ : Ufs) (p : Minptr) (fullpath : List UInt8) (rc : Rc) (s' : Ufs) : Prop where
  ne : rc ≠ .enoent
  other : ∀ i, i ≠ p.vdisk → s'.vdisk i = s₂.vdisk i
  made : rc = .ok → (∀ e ∈ s.entries p, ¬ InTheWay fullpath e) ∧
    ∃ ino, s'.entries p = s.entries p ++ [⟨ino, direntFilename (afterSlash (direntFilename fullpath))⟩]
  makes : (s.vdisk p.vdisk).readonly = false → (s.vdisk p.vdisk).sb.readonly = false →
    inodeAuth s.acee (s.inode p) ufsaccWrite = true → (∀ e ∈ s.entries p, ¬ InTheWay fullpath e) → (s.vdisk p.vdisk).InodeRoom →
    (s.vdisk p.vdisk).EntryRoom p.ino (UInt16.ofNat ifdir ||| s.createPerm) → rc = .ok

theorem rel_other {i : Nat} (hi : i ≠ p.vdisk) : (p.rel.run s).2.vdisk i = s.vdisk i := Function.update_of_ne hi _ _

/-- A code other than `OK` and `ENOENT` with the parent to release. -/
theorem MkdirInEnds.refused {fullpath : List UInt8} {rc : Rc} {s₃ : Ufs} (hok : rc ≠ .ok) (hne : rc ≠ .enoent)
    (hother : ∀ i, i ≠ p.vdisk → s₃.vdisk i = s₂.vdisk i)
    (hfails : (s.vdisk p.vdisk).readonly = false → (s.vdisk p.vdisk).sb.readonly = false →
      inodeAuth s.acee (s.inode p) ufsaccWrite = true → (∀ e ∈ s.entries p, ¬ InTheWay fullpath e) →
      (s.vdisk p.vdisk).InodeRoom → (s.vdisk p.vdisk).EntryRoom p.ino (UInt16.ofNat ifdir ||| s.createPerm) → False) :
    MkdirInEnds s s₂ p fullpath rc (p.rel.run s₃).2 where
  ne := hne
  other i hi := (rel_other hi).trans (hother i hi)
  made hrc := absurd hrc hok
  makes h₁ h₂ h₃ h₄ h₅ h₆ := (hfails h₁ h₂ h₃ h₄ h₅ h₆).elim

theorem entryRoom_free {v : VDisk} {d : Nat} {mode : UInt16} (hmode : mode.toNat &&& ifmt = ifdir) (h : v.EntryRoom d mode) :
    v.sb.totalFreeblock ≠ 0 := by
  intro hnone
  rw [VDisk.EntryRoom, VDisk.room, hnone, newBlocks, if_pos hmode] at h
  have hmono := placesOf_length_mono v.nidx (show ceil (v.filesize d) v.blksize ≤
    ceil (v.filesize d + direntSize) v.blksize from Nat.div_le_div_right (by omega))
  omega

/-- A disk of which the super block may not be written. -/
theorem fileAllocate_readonly {v : VDisk} {inos free : List Nat} {d n : Nat} {srcname : List UInt8} {attr : Attr} {now : Timev}
    (hw : WellFormed v inos free) (hd : d ∈ inos) (hcached : v.Cached d) (hdir : (v.inode d).isdir = true)
    (hn : v.filesize d = direntSize * n) (hro : v.sb.readonly = true) :
    ∃ rc ino, (fileAllocate d srcname attr now).run v = ((rc, ino), v) ∧ (rc = .eexist ∨ rc = .erofs) := by
  have hlookup := fileLookupByName_run (hw.stored hd hcached) hn hdir (direntFilename srcname)
  cases hfind : (v.dirents d).find? fun e =>
      decide (1 ≤ e.inodeNumber ∧ e.name = direntFilename (lookupName (direntFilename srcname))) with
  | some e =>
    rw [hfind] at hlookup
    simp only [fileAllocate, Prog.run_bind, hlookup]
    exact ⟨_, _, rfl, .inl rfl⟩
  | none =>
    rw [hfind] at hlookup
    simp only [fileAllocate, inodeAllocate, Prog.run_bind, hlookup, hro, if_true, Prog.run_pure, ne_eq, reduceCtorEq,
      not_false_eq_true]
    exact ⟨_, _, rfl, .inr rfl⟩

section Runs

variable {fullpath : List UInt8} {now : Timev} {rc : Rc} {ino : Nat} {v' a b : VDisk} (hro : s₂.readonly p = false)
  (hwrite : s₂.authWrite p = true)
include hro hwrite

theorem mkdirIn_refused (hrun : (fileAllocate p.ino fullpath (newAttr s₂ (UInt16.ofNat ifdir) [0xC1, 0xC4, 0xD4, 0xC9, 0xD5] now)
    now).run (s₂.vdisk p.vdisk) = ((rc, ino), v')) (hok : rc ≠ .ok) :
    (mkdirIn fullpath now p).run s₂ = ((rc, some p), s₂.setVdisk p.vdisk v') := by
  simp only [mkdirIn, Prog.run_bind, Prog.get, hro, hwrite, Bool.false_eq_true, if_false, Bool.not_true, onDisk_run hrun, ne_eq,
    hok, not_false_eq_true, if_true, Prog.run_pure]

theorem mkdirIn_made (hrun : (fileAllocate p.ino fullpath (newAttr s₂ (UInt16.ofNat ifdir) [0xC1, 0xC4, 0xD4, 0xC9, 0xD5] now)
    now).run (s₂.vdisk p.vdisk) = ((.ok, ino), v')) (hrel : (inodeRel p.ino).run v' = ((), a))
    (hget : (inodeGet ino).run a = (some ino, b)) :
    (mkdirIn fullpath now p).run s₂ = ((.ok, some ⟨p.vdisk, ino⟩), s₂.setVdisk p.vdisk b) := by
  have hrel' : p.rel.run (s₂.setVdisk p.vdisk v') = ((), s₂.setVdisk p.vdisk a) := by
    rw [Minptr.rel, onDisk_setVdisk hrel]
  have hget' : (getMinode p.vdisk ino).run (s₂.setVdisk p.vdisk a) = (some ⟨p.vdisk, ino⟩, s₂.setVdisk p.vdisk b) := by
    rw [getMinode, Prog.run_bind, onDisk_setVdisk hget]
    rfl
  simp only [mkdirIn, Prog.run_bind, Prog.get, hro, hwrite, Bool.false_eq_true, if_false, Bool.not_true, onDisk_run hrun, ne_eq,
    not_true_eq_false, hrel', hget', Prog.run_pure]

end Runs

theorem mkdirIn_ends (h : s.Makeable) (hl : s.Later s₂) (hroom : ∀ q, s₂.uses q + 4 < 65536) (hp : s.Reached p) {d : Dinode}
    {mounted : Option Nat} (hseen : s.seen p = some (d, mounted)) (hdir : d.isdir = true) (hcached : s₂.Cached p)
    (fullpath : List UInt8) (now : Timev) : ∃ rc x s₃, (mkdirIn fullpath now p).run s₂ = ((rc, x), s₃) ∧
      MkdirInEnds s s₂ p fullpath rc ((relOpt x).run s₃).2 := by
  have view := hl.view h.calm p.vdisk
  have hreadonly : s₂.readonly p = (s.vdisk p.vdisk).readonly := by rw [Ufs.readonly, view.same]
  have hinode : s₂.dinode p = s.inode p := (VDisk.inode_some hcached.deref).symm.trans (congrFun view.inode p.ino)
  have hacee : s₂.acee = s.acee := by rw [hl.same]
  have hperm : s₂.createPerm = s.createPerm := by rw [hl.same]
  by_cases hro : s₂.readonly p = true
  · refine ⟨.erofs, some p, s₂, ?_, .refused Rc.noConfusion Rc.noConfusion (fun _ _ => rfl) fun hwritable => ?_⟩
    · simp only [mkdirIn, Prog.run_bind, Prog.get, hro, if_true, Prog.run_pure]
    · rw [← hreadonly, hro] at hwritable
      cases hwritable
  rw [Bool.not_eq_true] at hro
  by_cases hwrite : s₂.authWrite p = true
  swap
  · refine ⟨.eacces, some p, s₂, ?_, .refused Rc.noConfusion Rc.noConfusion (fun _ _ => rfl) fun _ _ hauth => ?_⟩
    · simp only [mkdirIn, Prog.run_bind, Prog.get, hro, hwrite, Bool.false_eq_true, if_false, Bool.not_false, if_true, Prog.run_pure]
    · rw [Ufs.authWrite, hacee, hinode] at hwrite
      exact absurd hauth hwrite
  obtain ⟨inos, free, n, hmakes, hmem, hsize, hfits⟩ := h.directory p d mounted hp hseen hdir (hreadonly ▸ hro)
  have hw := view.wellFormed hmakes.wellFormed
  have hd : (s₂.vdisk p.vdisk).inode p.ino = d := (congrFun view.inode p.ino).trans (inode_of_seenAt hseen)
  have hsize₂ : (s₂.vdisk p.vdisk).filesize p.ino = direntSize * n := by rw [VDisk.filesize, hd, hsize]
  have hdir₂ : ((s₂.vdisk p.vdisk).inode p.ino).isdir = true := by rwa [hd]
  have hentries : (s₂.vdisk p.vdisk).dirents p.ino = s.entries p := congrFun view.dirents p.ino
  have hmode : (newAttr s₂ (UInt16.ofNat ifdir) [0xC1, 0xC4, 0xD4, 0xC9, 0xD5] now).mode =
      UInt16.ofNat ifdir ||| s.createPerm := by rw [newAttr, hperm]
  have hother (v' : VDisk) (i : Nat) (hi : i ≠ p.vdisk) : (s₂.setVdisk p.vdisk v').vdisk i = s₂.vdisk i :=
    Function.update_of_ne hi _ _
  by_cases hsb : (s.vdisk p.vdisk).sb.readonly = true
  · obtain ⟨rc, ino, hrun, hrc⟩ := fileAllocate_readonly hw hmem hcached hdir₂ hsize₂ (by rw [view.same]; exact hsb)
    have hok : rc ≠ .ok ∧ rc ≠ .enoent := by rcases hrc with rfl | rfl <;> exact ⟨Rc.noConfusion, Rc.noConfusion⟩
    refine ⟨_, _, _, mkdirIn_refused hro hwrite hrun hok.1, .refused hok.1 hok.2 (hother _) fun _ hwritable => ?_⟩
    rw [hsb] at hwritable
    cases hwritable
  rw [Bool.not_eq_true] at hsb
  have hready := hmakes.ready view ((hl.vdisk p.vdisk).settled.oneHandle) (fun i => hroom ⟨p.vdisk, i⟩) hsb
  have hcode := (inodeAllocate_code hready.counted).trans view.inodeRoom
  have hends : AllocateEnds inos free p.ino fullpath (newAttr s₂ (UInt16.ofNat ifdir) [0xC1, 0xC4, 0xD4, 0xC9, 0xD5] now)
    (s₂.vdisk p.vdisk) _ _ := fileAllocate_ends hready hmem hcached hdir₂ hsize₂ (hfits.congr (by rw [view.same])) now
  obtain ⟨⟨rc, ino⟩, v', hrun⟩ : ∃ r v', (fileAllocate p.ino fullpath (newAttr s₂ (UInt16.ofNat ifdir)
    [0xC1, 0xC4, 0xD4, 0xC9, 0xD5] now) now).run (s₂.vdisk p.vdisk) = (r, v') := ⟨_, _, rfl⟩
  rw [hrun] at hends
  have hrefused (hok : rc ≠ .ok) (hne : rc ≠ .enoent) (hlack : (∀ e ∈ s.entries p, ¬ InTheWay fullpath e) →
      (s.vdisk p.vdisk).InodeRoom → ¬ (s.vdisk p.vdisk).EntryRoom p.ino (UInt16.ofNat ifdir ||| s.createPerm)) :
      ∃ rc x s₃, (mkdirIn fullpath now p).run s₂ = ((rc, x), s₃) ∧
        MkdirInEnds s s₂ p fullpath rc ((relOpt x).run s₃).2 :=
    ⟨_, _, _, mkdirIn_refused hro hwrite hrun hok, .refused hok hne (hother _) fun _ _ _ => hlack⟩
  rw [← hmode] at hrefused
  cases hends with
  | found he hpos hname =>
    refine hrefused Rc.noConfusion Rc.noConfusion fun habsent => (habsent _ ?_ ⟨hpos, hname⟩).elim
    rwa [hentries] at he
  | noInode hnone => exact hrefused Rc.noConfusion Rc.noConfusion fun _ hinodes => absurd (hcode.mpr hinodes) hnone
  | badType htype => exact (htype (.inl (hmode ▸ newdir_type h.perm))).elim
  | noBlock _ hnone =>
    refine hrefused Rc.noConfusion Rc.noConfusion fun _ _ hblocks => entryRoom_free (hmode ▸ newdir_type h.perm) hblocks ?_
    rw [hmakes.wellFormed.list.total, hnone, List.length_nil]
  | noGrowth hblocks =>
    rw [view.entryRoom] at hblocks
    exact hrefused Rc.noConfusion Rc.noConfusion fun _ _ => hblocks
  | made habsent _ _ _ hmade =>
    obtain ⟨a, b, c, hrel, hget, hrel', viewₙ⟩ := hmade.released (view.inSlot.mpr (hmakes.synced p.ino
      (hmakes.wellFormed.number p.ino hmem)))
    have hlast : (relOpt (some ⟨p.vdisk, ino⟩)).run (s₂.setVdisk p.vdisk b) = ((), s₂.setVdisk p.vdisk c) := by
      rw [relOpt, Minptr.rel, onDisk_setVdisk hrel']
    refine ⟨_, _, _, mkdirIn_made hro hwrite hrun hrel hget, ?_⟩
    rw [hlast]
    rw [hentries] at habsent
    refine ⟨Rc.noConfusion, hother c, fun _ => ⟨habsent, ino, ?_⟩, fun _ _ _ _ _ _ => rfl⟩
    rw [Ufs.entries, setVdisk_same, viewₙ.dirents, hmade.dirents, hentries]

end Mkdir

end Ufs370
