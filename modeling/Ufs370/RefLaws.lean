import Ufs370.BlockMoves
import Ufs370.Calls

/-! What the programs on one disk leave of the references to its inodes and of the mounts on them. -/

namespace Ufs370

open Lib

namespace VDisk

/-- The cache without what the inodes hold. -/
def handles (v : VDisk) : List (Nat × Nat × Option Nat) :=
  v.minodes.map fun m => (m.inodeNumber, m.usecount, m.mountedVdisk)

/-- The use count of an inode; one that is not in the cache has none. -/
def uses (v : VDisk) (i : Nat) : Nat := (v.minode? i).elim 0 Minode.usecount

/-- The disk that is mounted on an inode. -/
def mounted (v : VDisk) (i : Nat) : Option Nat := (v.minode? i).bind Minode.mountedVdisk

end VDisk

/-- From `v` to `v'` no handle came or went, and none changed but for its inode. -/
def SameHandles (v v' : VDisk) : Prop := v.OneHandle → v'.handles = v.handles

theorem oneHandle_congr {v v' : VDisk} (h : v'.handles = v.handles) : v'.OneHandle ↔ v.OneHandle := by
  have hnumbers (w : VDisk) : w.minodes.map Minode.inodeNumber = w.handles.map Prod.fst := by
    rw [VDisk.handles, List.map_map]
    rfl
  rw [VDisk.OneHandle, hnumbers, h, ← hnumbers, VDisk.OneHandle]

theorem SameHandles.of_minodes {v v' : VDisk} (h : v'.minodes = v.minodes) : SameHandles v v' := fun _ => by
  rw [VDisk.handles, h, VDisk.handles]

instance : Std.Refl SameHandles := ⟨fun _ _ => rfl⟩

instance : IsTrans VDisk SameHandles where
  trans _ _ _ h h' hone := (h' ((oneHandle_congr (h hone)).mpr hone)).trans (h hone)

/-- Nothing that `x` does to a disk shows in its handles. -/
abbrev KeepsHandles {α : Type} (x : Prog VDisk α) : Prop := Prog.Moves SameHandles x

theorem ReadsOnly.keepsHandles {α : Type} {x : Prog VDisk α} (h : ReadsOnly x) : KeepsHandles x :=
  h.requests.mono fun _ _ ⟨_, h⟩ => .of_minodes (by rw [h]; rfl)

theorem minode?_of_mem {v : VDisk} (hone : v.OneHandle) {m : Minode} (hm : m ∈ v.minodes) :
    v.minode? m.inodeNumber = some m := by
  cases h : v.minode? m.inodeNumber with
  | none => exact absurd (List.mem_map_of_mem hm) (not_mem_numbers h)
  | some m' =>
    have hnumber : m'.inodeNumber = m.inodeNumber := by simpa using List.find?_some h
    rw [List.inj_on_of_nodup_map hone (List.mem_of_find?_eq_some h) hm hnumber]

theorem deref_of_mem_handles {v : VDisk} (hone : v.OneHandle) {t : Nat × Nat × Option Nat} (ht : t ∈ v.handles) :
    ((v.deref t.1).inodeNumber, (v.deref t.1).usecount, (v.deref t.1).mountedVdisk) = t := by
  obtain ⟨m, hm, rfl⟩ := List.mem_map.mp ht
  rw [VDisk.deref_some (minode?_of_mem hone hm)]

theorem sameHandles_blind : Blind SameHandles where
  rest _ _ _ _ := .of_minodes rfl
  minode v ino f hf _ := by
    change List.map _ (List.map _ _) = List.map _ _
    rw [List.map_map]
    refine List.map_congr_left fun m _ => ?_
    rw [Function.comp_apply]
    split
    · exact hf m
    · rfl
  restore {v v'} ino h hone := by
    have hhandles := h hone
    rw [← hhandles, VDisk.handles, VDisk.handles, VDisk.setMinode, List.map_map]
    refine List.map_congr_left fun m hm => ?_
    rw [Function.comp_apply]
    split
    · rename_i hi
      have hmem : (m.inodeNumber, m.usecount, m.mountedVdisk) ∈ v.handles := hhandles ▸ List.mem_map_of_mem hm
      rw [← hi]
      exact deref_of_mem_handles hone hmem
    · rfl

namespace KeepsHandles

variable {α : Type}

theorem onStore (x : Prog Store α) : KeepsHandles (VDisk.onStore x) := Blind.onStore sameHandles_blind _

theorem setMinode (ino : Nat) {f : Minode → Minode}
    (hf : ∀ m : Minode, ((f m).inodeNumber, (f m).usecount, (f m).mountedVdisk) =
      (m.inodeNumber, m.usecount, m.mountedVdisk)) : KeepsHandles (modifyMinode ino f) :=
  Blind.setMinode sameHandles_blind ino hf

theorem modifyDinode (ino : Nat) (f : Dinode → Dinode) : KeepsHandles (modifyDinode ino f) :=
  Blind.modifyDinode sameHandles_blind ..

theorem diskGetBuf : KeepsHandles diskGetBuf := Blind.diskGetBuf sameHandles_blind

theorem vdiskRead (block : Nat) : KeepsHandles (vdiskRead block) := Blind.vdiskRead sameHandles_blind ..

theorem readBuf (block : Nat) : KeepsHandles (readBuf block) := Blind.readBuf sameHandles_blind ..

theorem vdiskWrite (buf : Block) (block : Nat) : KeepsHandles (vdiskWrite buf block) :=
  Blind.vdiskWrite sameHandles_blind ..

theorem inodeWriteback (ino : Nat) : KeepsHandles (inodeWriteback ino) :=
  Blind.inodeWriteback sameHandles_blind ..

theorem datablockLink (listblk n : Nat) : KeepsHandles (datablockLink listblk n) :=
  Blind.datablockLink sameHandles_blind ..

theorem datablockExpand (ino sz : Nat) : KeepsHandles (datablockExpand ino sz) :=
  Blind.datablockExpand sameHandles_blind ..

theorem datablockContract (ino sz : Nat) : KeepsHandles (datablockContract ino sz) :=
  Blind.datablockContract sameHandles_blind ..

theorem datablockSizeChange (newsz ino : Nat) : KeepsHandles (datablockSizeChange newsz ino) :=
  Blind.datablockSizeChange sameHandles_blind ..

theorem diskWriteSuper : KeepsHandles diskWriteSuper := by
  refine .bind .get fun v => .ite (.pure _) (.bind (onStore _) fun ok => .ite (.bind ?_ fun rc => ?_) (.pure _))
  · refine .bind .get fun v => .ite (.pure _) (.bind (onStore _) fun f => ?_)
    exact .ite (.bind (.modify fun _ => .of_minodes rfl) fun _ => .pure _) (.pure _)
  · refine .ite (.pure _) (.bind (.modify fun _ => .of_minodes rfl) fun _ => .bind .get fun v => .ite (.pure _) ?_)
    refine .bind (onStore _) fun ok => .ite (.bind .get fun v => .ite (.pure _) ?_) (.pure _)
    exact .bind (onStore _) fun _ => .pure _

theorem freeinodeScan (left i k inode : Nat) : KeepsHandles (freeinodeScan left i k inode) := by
  induction left generalizing i k inode with
  | zero => exact .pure _
  | succ left ih =>
    refine .bind diskGetBuf fun ok => .ite (.bind (vdiskRead _) fun r => ?_) (.pure _)
    cases r with
    | error rc => exact .bind .get fun _ => ih ..
    | ok buf => exact .bind .get fun v => .bind (.modify fun _ => .of_minodes rfl) fun _ => ih ..

theorem freeinodeUpdate : KeepsHandles freeinodeUpdate := by
  refine .bind .get fun v => .ite (.pure _) (.bind (freeinodeScan ..) fun r => .bind .get fun v => .ite ?_ (.pure _))
  refine .bind (.modify fun _ => .of_minodes rfl) fun _ => .bind diskWriteSuper fun _ => .ite ?_ (.pure _)
  exact .bind (.modify fun _ => .of_minodes rfl) fun _ => .pure _

theorem inodeTake : KeepsHandles inodeTake := by
  refine .bind .get fun v => .bind (.modify fun _ => .of_minodes rfl) fun _ => .bind .get fun v => ?_
  exact .ite (.pure _) (.pure _)

theorem inodeAllocate : KeepsHandles inodeAllocate := by
  refine .bind .get fun v => .ite (.pure _) (.ite (.pure _) (.ite ?_ inodeTake))
  exact .bind freeinodeUpdate fun _ => .ite (.pure _) inodeTake

theorem fileLookupByName (parentDir : Nat) (name : List UInt8) : KeepsHandles (fileLookupByName parentDir name) :=
  (ReadsOnly.fileLookupByName parentDir name).keepsHandles

theorem removeSubr (p : LookupArg) (blk sz : Nat) : KeepsHandles (removeSubr p blk sz) := by
  refine .bind (readBuf _) fun r => ?_
  cases r with
  | error rc => exact .pure _
  | ok buf =>
    dsimp only
    split
    · exact .bind (vdiskWrite ..) fun _ => .ite (.pure _) (.pure _)
    · exact .pure _

theorem datablockLast (ino offset : Nat) : KeepsHandles (datablockLast ino offset) := by
  refine .bind .get fun v => ?_
  dsimp only
  split
  · exact .pure _
  · split
    · exact .pure _
    · exact datablockLink ..
    · exact .bind (datablockLink ..) fun _ => datablockLink ..
    · exact .bind (datablockLink ..) fun _ => .bind (datablockLink ..) fun _ => datablockLink ..
    · exact .pure _

theorem addEntry (parentDir minode ino : Nat) (filename : List UInt8) :
    KeepsHandles (addEntry parentDir minode ino filename) := by
  refine .bind (datablockExpand ..) fun rc => .ite (.pure _) (.bind .get fun v => .bind (datablockLast ..) fun blk => ?_)
  refine .ite (.pure _) (.bind (readBuf _) fun r => ?_)
  cases r with
  | error rc => exact .pure _
  | ok buf =>
    refine .bind .get fun v => .bind (vdiskWrite ..) fun rc => .ite (.pure _) (.bind .get fun v => .ite ?_ (.pure _))
    exact .bind (modifyDinode ..) fun _ => .bind (inodeWriteback _) fun _ => .pure _

theorem fileSyncBlock (fp : File) : KeepsHandles (fileSyncBlock fp) := by
  have hend (blkno : Nat) := Prog.Moves.ite (c := blkno = 0) (.pure { fp with blkno })
    (.bind (vdiskWrite fp.blkbuf blkno) fun _ => .pure { fp with blkno, dirty := false })
  exact .ite (.bind (datablockLast ..) hend) (.bind (.pure _) hend)

theorem fileSync (fp : File) : KeepsHandles (fileSync fp) := by
  have hend (fp : File) := Prog.Moves.bind (R := SameHandles) .get fun v : VDisk =>
    .ite (c := (v.deref fp.minode.ino).dirty) (.bind (inodeWriteback fp.minode.ino) fun _ =>
      .bind (setMinode fp.minode.ino (f := fun m => { m with dirty := false }) fun _ => rfl) fun _ => .pure fp) (.pure fp)
  exact .ite (.bind (fileSyncBlock _) hend) (.bind (.pure _) hend)

theorem fileLoad (fp : File) (newblk : Nat) : KeepsHandles (fileLoad fp newblk) := by
  refine .bind (vdiskRead _) fun r => ?_
  cases r <;> exact .pure _

theorem seekResize (fp : File) (newpos : Nat) : KeepsHandles (seekResize fp newpos) := by
  have hend (rc : Rc) := Prog.Moves.ite (R := SameHandles) (c := rc ≠ .ok) (.pure (rc, fp))
    (.bind (fileSync fp) fun fp' => .bind .get fun v : VDisk =>
      .ite (c := newpos < (v.din fp.minode.ino).filesize.toNat ∧ !fp'.mode.read)
        (.bind (datablockSizeChange newpos fp.minode.ino) fun rc => .pure (rc, fp')) (.pure (Rc.ok, fp')))
  exact .bind .get fun _ => .ite (.bind (datablockSizeChange ..) hend) (.bind (.pure _) hend)

theorem seekMove (fp : File) (newpos : Nat) : KeepsHandles (seekMove fp newpos) := by
  have hend (x : Rc × File) := Prog.Moves.ite (R := SameHandles) (c := x.1 ≠ .ok) (.pure (x.1, x.2))
    (.bind .get fun v : VDisk => .pure (Rc.ok, { x.2 with
      eof := decide ((v.din fp.minode.ino).filesize.toNat ≤ x.2.filepos), err := false, error := .ok }))
  refine .bind .get fun v => .bind (datablockLast ..) fun newblk => ?_
  exact .ite (.bind (.pure _) hend) (.ite (.bind (fileLoad ..) hend) (.bind (.pure _) hend))

theorem fseek (fp : File) (offset : Int) (whence : Whence) : KeepsHandles (fseek fp offset whence) := by
  refine .bind .get fun v => ?_
  have hmove (fp : File) (newpos : Nat) := Prog.Moves.bind (seekMove fp newpos) fun x =>
    .pure (x.1, if x.1 ≠ .ok then x.2.fail x.1 else x.2)
  split
  · exact .pure _
  · rename_i newpos _
    have hend (x : Rc × File) := Prog.Moves.ite (R := SameHandles) (c := x.1 ≠ .ok) (.pure (x.1, x.2.fail x.1))
      (hmove x.2 newpos)
    exact .ite (.bind (seekResize ..) hend) (.bind (.pure _) hend)

theorem openHandle (fp : File) (fm : Mode) (now : Timev) : KeepsHandles (openHandle fp fm now) := by
  have hend := Prog.Moves.bind (fseek { fp with mode := fm } 0 (if fm.append then .fin else .set)) fun x =>
    .bind (inodeWriteback fp.minode.ino) fun _ =>
    .bind (setMinode fp.minode.ino (f := fun m => { m with dirty := false }) fun _ => rfl) fun _ => .pure x.2
  exact .bind (modifyDinode ..) fun _ => .ite (.bind (datablockSizeChange ..) fun _ => hend) (.bind (.pure _) fun _ => hend)

theorem removeForeach (ino : Nat) (arg : LookupArg) : KeepsHandles (datablockForeach Ufs370.removeSubr ino arg) :=
  datablockForeach_moves (fun ⟨_, h⟩ => .of_minodes (by rw [h]; rfl)) removeSubr ..

end KeepsHandles

/-- From `v₀` to `v` one reference was taken for each number in `held`, and no inode that was in use
lost its mount. -/
structure Held (v₀ : VDisk) (held : List Nat) (v : VDisk) : Prop where
  oneHandle : v.OneHandle
  uses : ∀ i, v.uses i = v₀.uses i + held.count i
  mounted : ∀ i, 0 < v₀.uses i → v.mounted i = v₀.mounted i

/-- The use counts leave room for the references of one call. -/
def VDisk.Room (v : VDisk) : Prop := ∀ i, v.uses i + 4 < 65536

section Handle

variable {v v' : VDisk} {i j : Nat}

theorem uses_some {m : Minode} (h : v.minode? i = some m) : v.uses i = m.usecount := by
  rw [VDisk.uses, h, Option.elim_some]

theorem mounted_some {m : Minode} (h : v.minode? i = some m) : v.mounted i = m.mountedVdisk := by
  rw [VDisk.mounted, h, Option.bind_some]

theorem uses_none (h : v.minode? i = none) : v.uses i = 0 := by
  rw [VDisk.uses, h, Option.elim_none]

theorem uses_eq_loaded (v : VDisk) (i : Nat) : v.uses i = (v.loaded i).usecount := by
  rw [VDisk.uses, VDisk.loaded]
  cases v.minode? i <;> rfl

theorem mounted_eq_loaded (v : VDisk) (i : Nat) : v.mounted i = (v.loaded i).mountedVdisk := by
  rw [VDisk.mounted, VDisk.loaded]
  cases v.minode? i <;> rfl

theorem handle_congr (h : v'.minode? i = v.minode? i) : v'.uses i = v.uses i ∧ v'.mounted i = v.mounted i := by
  rw [VDisk.uses, VDisk.mounted, h, VDisk.uses, VDisk.mounted]
  exact ⟨rfl, rfl⟩

theorem handles_find (v : VDisk) (i : Nat) : v.handles.find? (fun t => decide (t.1 = i)) =
    (v.minode? i).map fun m => (m.inodeNumber, m.usecount, m.mountedVdisk) := by
  rw [VDisk.handles, List.find?_map]
  rfl

theorem handle_of_handles (h : v'.handles = v.handles) (i : Nat) :
    v'.uses i = v.uses i ∧ v'.mounted i = v.mounted i := by
  have hfind := handles_find v i
  rw [← h, handles_find v' i] at hfind
  simp only [VDisk.uses, VDisk.mounted]
  cases h' : v'.minode? i <;> cases h'' : v.minode? i <;> simp_all

end Handle

namespace Held

variable {α : Type} {v₀ v v' : VDisk} {held : List Nat} {i ino : Nat}

theorem refl (hone : v₀.OneHandle) : Held v₀ [] v₀ := ⟨hone, fun _ => rfl, fun _ _ => rfl⟩

theorem handles (h : Held v₀ held v) (hsame : v'.handles = v.handles) : Held v₀ held v' where
  oneHandle := (oneHandle_congr hsame).mpr h.oneHandle
  uses i := (handle_of_handles hsame i).1.trans (h.uses i)
  mounted i hi := (handle_of_handles hsame i).2.trans (h.mounted i hi)

/-- A program that keeps the handles keeps the references. -/
theorem keeps {x : Prog VDisk α} (hx : KeepsHandles x) (h : Held v₀ held v) : Held v₀ held (x.run v).2 :=
  h.handles (hx.run v h.oneHandle)

theorem triple {x : Prog VDisk α} (hx : KeepsHandles x) : Prog.Triple (Held v₀ held) x fun _ => Held v₀ held :=
  ⟨fun _ h => h.keeps hx⟩

theorem taken (hroom : v₀.Room) (hlen : held.length < 4) (h : Held v₀ held v) (ht : Taken i v v') :
    Held v₀ (i :: held) v' := by
  have huses : v'.uses i = v.uses i + 1 := by
    rw [uses_some ht.own, u16, ← uses_eq_loaded, Nat.mod_eq_of_lt]
    have := hroom i
    have := h.uses i
    have := List.count_le_length (a := i) (l := held)
    omega
  refine ⟨ht.oneHandle h.oneHandle, fun j => ?_, fun j hj => ?_⟩
  · by_cases hij : j = i
    · subst hij
      rw [huses, h.uses, List.count_cons_self, Nat.add_assoc]
    · rw [(handle_congr (ht.other j hij)).1, h.uses, List.count_cons_of_ne (Ne.symm hij)]
  · by_cases hij : j = i
    · subst hij
      rw [mounted_some ht.own, ← h.mounted j hj, mounted_eq_loaded]
    · rw [(handle_congr (ht.other j hij)).2, h.mounted j hj]

theorem released (h : Held v₀ (i :: held) v) (hr : Released i v v') : Held v₀ held v' := by
  have hpos : 0 < v.uses i := by
    rw [h.uses, List.count_cons_self]
    exact Nat.succ_pos _
  obtain ⟨m, hm⟩ : ∃ m, v.minode? i = some m := by
    cases hm : v.minode? i with
    | none => exact absurd (uses_none hm) hpos.ne'
    | some m => exact ⟨m, rfl⟩
  have huses : m.usecount = v₀.uses i + held.count i + 1 := by
    rw [← uses_some hm, h.uses, List.count_cons_self, Nat.add_assoc]
  refine ⟨hr.oneHandle h.oneHandle, fun j => ?_, fun j hj => ?_⟩
  · by_cases hij : j = i
    · subst hij
      by_cases hstays : m.Stays
      · rw [uses_some (hr.stays m hm hstays), huses, Nat.add_sub_cancel]
      · rw [uses_none (hr.gone h.oneHandle m hm hstays)]
        rw [Minode.Stays, not_or, not_not, huses, Nat.add_sub_cancel] at hstays
        exact hstays.2.symm
    · rw [(handle_congr (hr.other j hij)).1, h.uses, List.count_cons_of_ne (Ne.symm hij)]
  · by_cases hij : j = i
    · subst hij
      have hstays : m.Stays := .inr (by rw [huses]; omega)
      rw [mounted_some (hr.stays m hm hstays), ← h.mounted j hj, mounted_some hm]
    · rw [(handle_congr (hr.other j hij)).2, h.mounted j hj]

/-- The two ways that a reference is asked for. -/
theorem get {f : Option Nat → Prog VDisk α} {Q : α → VDisk → Prop} (hroom : v₀.Room) (hlen : held.length < 4)
    (hnone : Prog.Triple (fun v => Held v₀ held v ∧ v.uses i = 0) (f none) Q)
    (hsome : Prog.Triple (Held v₀ (i :: held)) (f (some i)) Q) :
    Prog.Triple (Held v₀ held) (inodeGet i >>= f) Q where
  run v h := by
    obtain ⟨fs, ⟨hrun, hm⟩ | ⟨v', hrun, ht⟩⟩ := inodeGet_cases v i
    · have hwith : Held v₀ held (v.withFaults fs) := h.handles rfl
      simp only [Prog.run_bind, hrun]
      exact hnone.run _ ⟨hwith, uses_none hm⟩
    · have hwith : Held v₀ held (v.withFaults fs) := h.handles rfl
      simp only [Prog.run_bind, hrun]
      exact hsome.run _ (hwith.taken hroom hlen ht)

theorem rel : Prog.Triple (Held v₀ (i :: held)) (inodeRel i) fun _ => Held v₀ held where
  run v h := by
    have hcached : v.Cached i := by
      rw [VDisk.Cached]
      cases hm : v.minode? i with
      | none =>
        have := h.uses i
        rw [uses_none hm, List.count_cons_self] at this
        omega
      | some m => rfl
    obtain ⟨v', hrun, hr⟩ := inodeRel_run hcached
    rw [hrun]
    exact h.released hr

end Held

namespace Held

variable {v₀ : VDisk} {held : List Nat} (hroom : v₀.Room)
include hroom

theorem directoryAddEntry (hlen : held.length < 4) (parentDir ino : Nat) (srcname : List UInt8) :
    Prog.Triple (Held v₀ held) (directoryAddEntry parentDir ino srcname) fun _ => Held v₀ held := by
  refine Held.get hroom hlen (.pure fun _ h => h.1) (.bind (Held.triple (.addEntry ..)) fun rc => ?_)
  exact .bind Held.rel fun _ => .pure fun _ => id

theorem removeTarget (hlen : held.length < 4) (parentDir ino : Nat) :
    Prog.Triple (Held v₀ held) (removeTarget parentDir ino) fun _ => Held v₀ held := by
  refine .bind (Held.triple (.datablockContract ..)) fun rc => Held.get hroom hlen (.pure fun _ h => h.1) ?_
  have hend : Prog.Triple (Held v₀ (ino :: held)) (inodeRel ino >>= fun _ => pure Rc.ok) fun _ => Held v₀ held :=
    .bind Held.rel fun _ => .pure fun _ => id
  refine Prog.Triple.get fun v hv => .ite (fun _ => ?_) (fun _ => hend.pre fun w hw => hw ▸ hv)
  refine .pre (.bind (Held.triple (.modifyDinode ..)) fun _ => ?_) fun w hw => hw ▸ hv
  exact .bind (Held.triple (.inodeWriteback _)) fun _ => hend

theorem directoryRemoveEntry (hlen : held.length < 4) (parentDir : Nat) (name : List UInt8) :
    Prog.Triple (Held v₀ held) (directoryRemoveEntry parentDir name) fun _ => Held v₀ held := by
  refine Prog.Triple.get fun v hv => .pre ?_ fun w hw => hw ▸ hv
  refine .bind (Held.triple (.datablockLast ..)) fun blk => .bind (Held.triple (.readBuf _)) fun r => ?_
  cases r with
  | error rc => exact .pure fun _ => id
  | ok buf =>
    refine .bind (Held.triple (.removeForeach ..)) fun r => .ite (fun _ => .pure fun _ => id) fun _ => ?_
    exact removeTarget hroom hlen ..

end Held

/-- The requests for the block of `.` and `..`: with a buffer that fails, and with a write that fails,
the new inode keeps a reference.  After a read that fails it is wiped out. -/
def DotsSpared (unused : Prop) (v : VDisk) : Prop :=
  v.io.faults.headD .none = .none ∧
    if v.io.faults.tail.headD .none = .none then
      v.readonly = false ∧ v.io.faults.tail.tail.headD .none = .none
    else unused

/-- The exits of `ufs_file_allocate` that wipe its inode out find no other reference to it, and the
exits that keep it are not taken. -/
def TypeSpared (v : VDisk) (ino : Nat) (mode : UInt16) : Prop :=
  let unused := v.uses ino = 1
  let type := mode.toNat &&& ifmt
  if type = ifdir then
    let r := (datablockExpand ino (direntSize * 2)).run (v.setDinode ino fun d => { d with nlink := 2 })
    if r.1 = .ok then DotsSpared unused r.2 else unused
  else type ∈ [ifchr, ifblk, iffifo, ifsock, iflnk, ifreg] ∨ unused

def AllocSpared (v : VDisk) (parentDir : Nat) (srcname : List UInt8) (attr : Attr) (now : Timev) : Prop :=
  let r := (fileLookupByName parentDir (direntFilename srcname)).run v
  r.1.isOk ∨
    let r := inodeAllocate.run r.2
    r.1.1 ≠ .ok ∨
      let ino := r.1.2
      let r := (inodeGet ino).run r.2
      r.1 = none ∨ TypeSpared (r.2.setDinode ino fun d => d.setAttr attr now) ino attr.mode

namespace Held

variable {v₀ v : VDisk} {held : List Nat} {ino : Nat} (hroom : v₀.Room)

/-- The handle of a deallocated inode. -/
def wipedMinode (ino : Nat) : Minode := ⟨ino, false, 0, none, .zero⟩

omit hroom in
theorem wiped (hunused : v₀.uses ino = 0) (h : Held v₀ [ino, ino] v) :
    Held v₀ [] (v.setMinode ino fun _ => wipedMinode ino) := by
  have hown : (v.setMinode ino fun _ => wipedMinode ino).minode? ino =
      (v.minode? ino).map fun _ => wipedMinode ino := VDisk.minode?_setMinode_same fun _ _ => rfl
  have hother {i : Nat} (hi : i ≠ ino) : (v.setMinode ino fun _ => wipedMinode ino).minode? i = v.minode? i :=
    VDisk.minode?_setMinode_other (fun _ _ => rfl) hi
  have hnumbers : (v.setMinode ino fun _ => wipedMinode ino).minodes.map Minode.inodeNumber =
      v.minodes.map Minode.inodeNumber := by
    rw [VDisk.setMinode, List.map_map]
    refine List.map_congr_left fun m _ => ?_
    rw [Function.comp_apply]
    split
    · exact Eq.symm ‹_›
    · rfl
  refine ⟨?_, fun i => ?_, fun i hpos => ?_⟩
  · rw [VDisk.OneHandle, hnumbers]
    exact h.oneHandle
  · by_cases hi : i = ino
    · rw [hi, VDisk.uses, hown, hunused]
      cases v.minode? ino <;> rfl
    · rw [(handle_congr (hother hi)).1, h.uses]
      simp [Ne.symm hi]
  · have hi : i ≠ ino := by
      rintro rfl
      omega
    rw [(handle_congr (hother hi)).2, h.mounted i hpos]

include hroom

theorem inodeDeallocate (hunused : v₀.uses ino = 0) :
    Prog.Triple (Held v₀ [ino]) (inodeDeallocate ino) fun _ => Held v₀ [] := by
  have hwipe : Prog.Triple (Held v₀ [ino, ino]) (modifyMinode ino fun _ => wipedMinode ino) fun _ => Held v₀ [] :=
    .modify fun v h => h.wiped hunused
  refine Held.get hroom (by simp) (.pure fun v h => ?_) (.bind hwipe fun _ => ?_)
  · have := h.1.uses ino
    rw [h.2, List.count_cons_self] at this
    omega
  · exact .bind (Held.triple (.inodeWriteback _)) fun _ => .modify fun v h => h.handles rfl

end Held

section Requests

theorem vdiskWrite_ok {v : VDisk} (hwritable : v.readonly = false) (hfault : v.io.faults.headD .none = .none)
    (buf : Block) (block : Nat) : ((vdiskWrite buf block).run v).1 = .ok := by
  simp only [vdiskWrite, Prog.run_bind, hwritable, Bool.false_eq_true, if_false, VDisk.onStore, Store.write,
    Prog.run_lift, Store.takeFault_run, hfault]
  rfl

end Requests

namespace Held

variable {v₀ v : VDisk} {ino : Nat} (hroom : v₀.Room)
include hroom

theorem allocateDots (parentDir : Nat) (h : Held v₀ [ino] v)
    (hspared : let r := (datablockExpand ino (direntSize * 2)).run v
      if r.1 = .ok then DotsSpared (v₀.uses ino = 0) r.2 else v₀.uses ino = 0) :
    let r := (allocateDots ino parentDir).run v
    Held v₀ (if r.1 = .ok then [ino] else []) r.2 := by
  have hexpand := h.keeps (.datablockExpand ino (direntSize * 2))
  simp only [Ufs370.allocateDots, Prog.run_bind] at hspared ⊢
  generalize (datablockExpand ino (direntSize * 2)).run v = r at hspared hexpand ⊢
  obtain ⟨rc, w⟩ := r
  by_cases hrc : rc = .ok
  · simp only [hrc, if_true, DotsSpared] at hspared
    obtain ⟨hbuf, hspared⟩ := hspared
    simp only [hrc, ne_eq, not_true_eq_false, if_false, Prog.run_bind, diskGetBuf_run, hbuf, decide_true, if_true,
      vdiskRead_run]
    by_cases hfault : w.io.faults.tail.headD .none = .none
    · rw [if_pos hfault] at hspared
      have hwith : Held v₀ [ino] (w.withFaults w.io.faults.tail.tail) := hexpand.handles rfl
      have hwrite := vdiskWrite_ok (v := w.withFaults w.io.faults.tail.tail) hspared.1 hspared.2
      rw [VDisk.withFaults] at hwith hwrite
      simp only [if_pos hfault, Prog.run_bind, hwrite, if_true, Prog.run_pure]
      exact hwith.keeps (.vdiskWrite ..)
    · rw [if_neg hfault] at hspared
      simp only [if_neg hfault, Prog.run_bind, Prog.run_pure]
      rw [if_neg (by decide)]
      exact (inodeDeallocate hroom hspared).run _ (hexpand.handles rfl)
  · simp only [hrc, if_false] at hspared
    simp only [ne_eq, hrc, not_false_eq_true, if_true, Prog.run_bind, Prog.run_pure, if_false]
    exact (inodeDeallocate hroom hspared).run _ hexpand

theorem allocateType (parentDir : Nat) (mode : UInt16) (h : Held v₀ [ino] v) (hspared : TypeSpared v ino mode) :
    let r := (allocateType ino parentDir mode).run v
    Held v₀ (if r.1 = .ok then [ino] else []) r.2 := by
  have hunused : v.uses ino = 1 ↔ v₀.uses ino = 0 := by
    rw [h.uses, List.count_cons_self, List.count_nil]
    omega
  rw [TypeSpared, hunused] at hspared
  simp only [Ufs370.allocateType] at hspared ⊢
  by_cases htype : mode.toNat &&& ifmt = ifdir
  · simp only [htype, if_true, Prog.run_bind] at hspared ⊢
    exact allocateDots hroom parentDir (h.keeps (.modifyDinode ..)) hspared
  · simp only [htype, if_false] at hspared ⊢
    by_cases hvalid : mode.toNat &&& ifmt ∈ [ifchr, ifblk, iffifo, ifsock, iflnk, ifreg]
    · simp only [hvalid, if_true]
      exact h.keeps (.bind (KeepsHandles.modifyDinode ..) fun _ => .pure _)
    · simp only [hvalid, if_false]
      exact (inodeDeallocate hroom (hspared.resolve_left hvalid)).run _ h

/-- A new file or directory leaves no reference behind, unless one of the exits on the way does. -/
theorem fileAllocate (hone : v₀.OneHandle) (parentDir : Nat) (srcname : List UInt8) (attr : Attr) (now : Timev)
    (hspared : AllocSpared v₀ parentDir srcname attr now) :
    Held v₀ [] ((fileAllocate parentDir srcname attr now).run v₀).2 := by
  have h₀ := Held.refl hone
  rw [AllocSpared] at hspared
  simp only [Ufs370.fileAllocate, Prog.run_bind]
  have h₁ := h₀.keeps (.fileLookupByName parentDir (direntFilename srcname))
  generalize (Ufs370.fileLookupByName parentDir (direntFilename srcname)).run v₀ = r₁ at hspared h₁ ⊢
  obtain ⟨_ | ino, v₁⟩ := r₁
  case ok => exact h₁
  replace hspared := hspared.resolve_left (by simp [Except.isOk, Except.toBool])
  have h₂ := keeps .inodeAllocate h₁
  simp only [Prog.run_bind] at h₂ ⊢
  generalize Ufs370.inodeAllocate.run v₁ = r₂ at hspared h₂ ⊢
  obtain ⟨⟨error, ino⟩, v₂⟩ := r₂
  by_cases herror : error = .ok
  swap
  · simp only [ne_eq, herror, not_false_eq_true, if_true]
    exact h₂
  replace hspared := hspared.resolve_left (not_not_intro herror)
  simp only [ne_eq, herror, not_true_eq_false, if_false, Prog.run_bind]
  obtain ⟨fs, ⟨hget, -⟩ | ⟨v₃, hget, htaken⟩⟩ := inodeGet_cases v₂ ino
  · simp only [hget]
    exact h₂.handles rfl
  · simp only [hget, reduceCtorEq, false_or] at hspared
    have hwith : Held v₀ [] (v₂.withFaults fs) := h₂.handles rfl
    have h₃ : Held v₀ [ino] v₃ := hwith.taken hroom (by simp) htaken
    have h₄ := allocateType hroom parentDir attr.mode (h₃.keeps (.modifyDinode ino fun d => d.setAttr attr now)) hspared
    simp only [hget, Prog.run_bind] at h₄ ⊢
    generalize (Ufs370.allocateType ino parentDir attr.mode).run _ = r at h₄ ⊢
    obtain ⟨error, v₄⟩ := r
    by_cases herror : error = .ok
    · simp only [herror, if_true, not_true_eq_false, if_false, Prog.run_bind] at h₄ ⊢
      have hrel : Prog.Triple (Held v₀ [ino]) (inodeRel ino) fun _ => Held v₀ [] := Held.rel
      have hadd : Prog.Triple (Held v₀ []) _ fun _ => Held v₀ [] :=
        directoryAddEntry hroom (by simp) parentDir ino (afterSlash (direntFilename srcname))
      exact hadd.run _ (hrel.run _ (h₄.keeps (.inodeWriteback ino)))
    · simp only [herror, if_false, not_false_eq_true, if_true] at h₄ ⊢
      exact h₄

omit hroom in
theorem deallocateInode (minode : Nat) (name : List UInt8) : KeepsHandles (deallocateInode minode name) := by
  have hend := Prog.Moves.bind (KeepsHandles.inodeWriteback minode) fun _ => .pure Rc.ok
  have hdir := Prog.Moves.bind (KeepsHandles.modifyDinode minode fun d => { d with nlink := 0 }) fun _ => hend
  refine .bind .get fun v => .ite (.ite (.pure _) (.ite (.ite (.pure _) ?_) hdir)) ?_
  · exact .bind (KeepsHandles.datablockSizeChange ..) fun _ => .ite (.pure _) hdir
  · exact .bind (KeepsHandles.modifyDinode ..) fun _ => hend

theorem fileDeallocate (hone : v₀.OneHandle) (parentDir : Nat) (name : List UInt8) :
    Held v₀ [] ((fileDeallocate parentDir name).run v₀).2 := by
  have hrel {rc : Rc} {i : Nat} : Prog.Triple (Held v₀ [i]) (inodeRel i >>= fun _ => pure rc) fun _ => Held v₀ [] :=
    .bind Held.rel fun _ => .pure fun _ => id
  suffices h : Prog.Triple (Held v₀ []) (Ufs370.fileDeallocate parentDir name) fun _ => Held v₀ [] from
    h.run v₀ (.refl hone)
  refine .bind (Held.triple (.fileLookupByName ..)) fun r => ?_
  cases r with
  | error rc => exact .pure fun _ => id
  | ok ino =>
    refine Held.get hroom (by simp) (.pure fun _ h => h.1) (Prog.Triple.get fun v hv => ?_)
    refine .ite (fun _ => hrel.pre fun w hw => hw ▸ hv) fun _ => .pre ?_ fun w hw => hw ▸ hv
    refine .bind (Held.triple (deallocateInode ..)) fun rc => ?_
    refine .ite (fun _ => .bind (.pure fun _ => id) fun _ => hrel) fun _ => .bind ?_ fun _ => hrel
    exact directoryRemoveEntry hroom (by simp) ..

end Held

end Ufs370
