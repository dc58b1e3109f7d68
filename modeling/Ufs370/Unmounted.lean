import Ufs370.RefLaws
import Ufs370.Rename

/-! Calls on a disk on which nothing is mounted mount nothing. -/

namespace Ufs370

open Lib

/-- Nothing is mounted on the inodes of a disk. -/
structure VDisk.Unmounted (v : VDisk) : Prop where
  oneHandle : v.OneHandle
  mounted : ∀ i, v.mounted i = none

def StaysUnmounted (v v' : VDisk) : Prop := v.Unmounted → v'.Unmounted

instance : Std.Refl StaysUnmounted := ⟨fun _ => id⟩

instance : IsTrans VDisk StaysUnmounted := ⟨fun _ _ _ h h' hv => h' (h hv)⟩

namespace VDisk.Unmounted

variable {v v' : VDisk} {i : Nat}

theorem handles (h : v.Unmounted) (hsame : v'.handles = v.handles) : v'.Unmounted where
  oneHandle := (oneHandle_congr hsame).mpr h.oneHandle
  mounted i := (handle_of_handles hsame i).2.trans (h.mounted i)

theorem taken (h : v.Unmounted) (ht : Taken i v v') : v'.Unmounted where
  oneHandle := ht.oneHandle h.oneHandle
  mounted j := by
    by_cases hj : j = i
    · subst hj
      rw [mounted_some ht.own, ← h.mounted j, mounted_eq_loaded]
    · rw [(handle_congr (ht.other j hj)).2, h.mounted j]

theorem released (h : v.Unmounted) (hr : Released i v v') (hcached : v.Cached i) : v'.Unmounted where
  oneHandle := hr.oneHandle h.oneHandle
  mounted j := by
    by_cases hj : j = i
    · subst hj
      have hm := hcached.deref
      by_cases hstays : (v.deref j).Stays
      · rw [mounted_some (hr.stays _ hm hstays), ← mounted_some hm, h.mounted j]
      · rw [VDisk.mounted, hr.gone h.oneHandle _ hm hstays, Option.bind_none]
    · rw [(handle_congr (hr.other j hj)).2, h.mounted j]

theorem wiped {ino : Nat} (h : v.Unmounted) : (v.setMinode ino fun _ => Held.wipedMinode ino).Unmounted where
  oneHandle := by
    have hnumbers : (v.setMinode ino fun _ => Held.wipedMinode ino).minodes.map Minode.inodeNumber =
        v.minodes.map Minode.inodeNumber := by
      rw [VDisk.setMinode, List.map_map]
      refine List.map_congr_left fun m _ => ?_
      rw [Function.comp_apply]
      split
      · exact Eq.symm ‹_›
      · rfl
    rw [VDisk.OneHandle, hnumbers]
    exact h.oneHandle
  mounted j := by
    have hown : (v.setMinode ino fun _ => Held.wipedMinode ino).minode? ino =
        (v.minode? ino).map fun _ => Held.wipedMinode ino := VDisk.minode?_setMinode_same fun _ _ => rfl
    by_cases hj : j = ino
    · rw [hj, VDisk.mounted, hown]
      cases v.minode? ino <;> rfl
    · have hother : (v.setMinode ino fun _ => Held.wipedMinode ino).minode? j = v.minode? j :=
        VDisk.minode?_setMinode_other (fun _ _ => rfl) hj
      rw [(handle_congr hother).2, h.mounted j]

end VDisk.Unmounted

/-- A program that mounts nothing. -/
abbrev MountsNothing {α : Type} (x : Prog VDisk α) : Prop := Prog.Moves StaysUnmounted x

namespace MountsNothing

variable {α : Type} {i : Nat}

theorem keeps {x : Prog VDisk α} (h : KeepsHandles x) : MountsNothing x :=
  h.mono fun _ _ hsame hv => hv.handles (hsame hv.oneHandle)

theorem inodeGet (i : Nat) : MountsNothing (inodeGet i) where
  run v hv := by
    obtain ⟨fs, ⟨hrun, -⟩ | ⟨v', hrun, ht⟩⟩ := inodeGet_cases v i
    · rw [hrun]
      exact hv.handles rfl
    · rw [hrun]
      have hwith : (v.withFaults fs).Unmounted := hv.handles rfl
      exact hwith.taken ht

theorem inodeRel (i : Nat) : MountsNothing (inodeRel i) where
  run v hv := by
    by_cases hcached : v.Cached i
    · obtain ⟨v', hrun, hr⟩ := inodeRel_run hcached
      rw [hrun]
      exact hv.released hr hcached
    · have hno (m : Minode) (hm : m ∈ v.minodes) : m.inodeNumber ≠ i := fun heq =>
        List.find?_eq_none.mp (Option.not_isSome_iff_eq_none.mp hcached) m hm (decide_eq_true heq)
      have hset : (v.setMinode i fun m => { m with usecount := m.usecount - 1 }) = v := by
        have hmap : (v.minodes.map fun m => if m.inodeNumber = i then { m with usecount := m.usecount - 1 } else m) =
            v.minodes := (List.map_congr_left fun m hm => if_neg (hno m hm)).trans (List.map_id _)
        rw [VDisk.setMinode, hmap]
      simp only [Ufs370.inodeRel, modifyMinode, Prog.run_bind, hset, Prog.run_ite, Prog.run_pure]
      split
      · exact hv
      · split
        · refine hv.handles ?_
          rw [VDisk.handles, List.eraseP_of_forall_not fun m hm heq => hno m hm (of_decide_eq_true heq)]
          rfl
        · exact hv

/-- A program with a reference to an inode, if it gets one. -/
theorem take {f : Option Nat → Prog VDisk α} (hnone : MountsNothing (f none)) (hsome : MountsNothing (f (some i))) :
    MountsNothing (Ufs370.inodeGet i >>= f) where
  run v hv := by
    have hget := (inodeGet i).run v hv
    obtain ⟨fs, ⟨hrun, -⟩ | ⟨v', hrun, -⟩⟩ := inodeGet_cases v i
    · rw [hrun] at hget
      simp only [Prog.run_bind, hrun]
      exact hnone.run _ hget
    · rw [hrun] at hget
      simp only [Prog.run_bind, hrun]
      exact hsome.run _ hget

theorem inodeDeallocate (ino : Nat) : MountsNothing (inodeDeallocate ino) := by
  have hwipe : MountsNothing (modifyMinode ino fun _ => Held.wipedMinode ino) := .modify fun v hv => hv.wiped
  refine take (.pure _) (.bind hwipe fun _ => .bind (keeps (.inodeWriteback _)) fun _ => ?_)
  exact keeps (.modify fun _ => .of_minodes rfl)

theorem directoryAddEntry (parentDir ino : Nat) (srcname : List UInt8) :
    MountsNothing (directoryAddEntry parentDir ino srcname) :=
  take (.pure _) (.bind (keeps (.addEntry ..)) fun _ => .bind (inodeRel _) fun _ => .pure _)

theorem fileLink (d p : Nat) (name : List UInt8) : MountsNothing (fileLink d p name) :=
  .bind (directoryAddEntry ..) fun _ => .ite (.pure _) (.bind (keeps (.modifyDinode ..)) fun _ =>
    .bind (keeps (.inodeWriteback _)) fun _ => .pure _)

theorem removeTarget (parentDir ino : Nat) : MountsNothing (removeTarget parentDir ino) := by
  have hend : MountsNothing (Ufs370.inodeRel ino >>= fun _ => pure Rc.ok) := .bind (inodeRel ino) fun _ => .pure _
  refine .bind (keeps (.datablockContract ..)) fun _ => take (.pure _) (.bind .get fun v => .ite ?_ hend)
  exact .bind (keeps (.modifyDinode ..)) fun _ => .bind (keeps (.inodeWriteback _)) fun _ => hend

theorem directoryRemoveEntry (parentDir : Nat) (name : List UInt8) :
    MountsNothing (directoryRemoveEntry parentDir name) := by
  refine .bind .get fun v => .bind (keeps (.datablockLast ..)) fun blk => .bind (keeps (.readBuf _)) fun r => ?_
  cases r with
  | error rc => exact .pure _
  | ok buf => exact .bind (keeps (.removeForeach ..)) fun _ => .ite (.pure _) (removeTarget ..)

theorem allocateType (ino parentDir : Nat) (mode : UInt16) : MountsNothing (allocateType ino parentDir mode) := by
  have hfail (rc : Rc) : MountsNothing (Ufs370.inodeDeallocate ino >>= fun _ => pure rc) :=
    .bind (inodeDeallocate ino) fun _ => .pure _
  refine .ite (.bind (keeps (.modifyDinode ..)) fun _ => .bind (keeps (.datablockExpand ..)) fun error => ?_)
    (.ite (.bind (keeps (.modifyDinode ..)) fun _ => .pure _) (hfail _))
  refine .ite (hfail _) (.bind .get fun v => .bind (keeps .diskGetBuf) fun ok => .ite ?_ (.pure _))
  refine .bind (keeps (.vdiskRead _)) fun r => ?_
  cases r with
  | error rc => exact hfail _
  | ok buf => exact .bind (keeps (.vdiskWrite ..)) fun rc => .pure _

theorem fileAllocate (parentDir : Nat) (srcname : List UInt8) (attr : Attr) (now : Timev) :
    MountsNothing (fileAllocate parentDir srcname attr now) := by
  refine .bind (keeps (.fileLookupByName ..)) fun r => ?_
  cases r with
  | ok ino => exact .pure _
  | error rc =>
    refine .bind (keeps .inodeAllocate) fun r => .ite (.pure _) (take (.pure _) ?_)
    refine .bind (keeps (.modifyDinode ..)) fun _ => .bind (allocateType ..) fun error => .ite (.pure _) ?_
    refine .bind (keeps (.inodeWriteback _)) fun _ => .bind (inodeRel _) fun _ => ?_
    exact .bind (directoryAddEntry ..) fun _ => .pure _

theorem fileDeallocate (parentDir : Nat) (name : List UInt8) : MountsNothing (fileDeallocate parentDir name) := by
  have hrel (rc : Rc) (i : Nat) : MountsNothing (Ufs370.inodeRel i >>= fun _ => pure rc) := .bind (inodeRel i) fun _ => .pure _
  refine .bind (keeps (.fileLookupByName ..)) fun r => ?_
  cases r with
  | error rc => exact .pure _
  | ok ino =>
    refine take (.pure _) (.bind .get fun v => .ite (hrel ..) (.bind (keeps (Held.deallocateInode ..)) fun error => ?_))
    exact .ite (.bind (.pure _) fun _ => hrel ..) (.bind (directoryRemoveEntry ..) fun _ => hrel ..)

/-! The calls that `ufs_file_rename` makes. -/

theorem withLoaded (m : Minode) (x : Prog VDisk α) : MountsNothing (withLoaded m x) :=
  keeps ⟨fun _ => .of_minodes rfl⟩

theorem dirmoveLoop (fromIno fuel : Nat) (m : Minode) : MountsNothing (dirmoveLoop fromIno fuel m) := by
  induction fuel generalizing m with
  | zero => exact .pure _
  | succ fuel ih =>
    refine .bind (withLoaded ..) fun r => .ite (.pure _) (.bind (keeps (ReadsOnly.inodeLoad _).keepsHandles) fun r => ?_)
    cases r with
    | error rc => exact .pure _
    | ok m => exact .ite (.pure _) (.ite (ih m) (.pure _))

theorem canDirmove (fuel fromIno toIno : Nat) : MountsNothing (canDirmove fuel fromIno toIno) := by
  refine .bind (keeps (ReadsOnly.inodeLoad _).keepsHandles) fun r => ?_
  cases r with
  | error rc => exact .pure _
  | ok m => exact .ite (.pure _) (dirmoveLoop ..)

theorem replaceSubr (p : LookupArg) (blk sz : Nat) : KeepsHandles (replaceSubr p blk sz) := by
  refine .bind (KeepsHandles.readBuf _) fun r => ?_
  cases r with
  | error rc => exact .pure _
  | ok buf =>
    dsimp only
    split
    · exact .bind (KeepsHandles.vdiskWrite ..) fun _ => .ite (.pure _) (.pure _)
    · exact .pure _

theorem directoryReplaceEntry (d : Nat) (name : List UInt8) (ino : Nat) : MountsNothing (directoryReplaceEntry d name ino) :=
  .bind (keeps (datablockForeach_moves (fun ⟨_, h⟩ => .of_minodes (by rw [h]; rfl)) replaceSubr ..)) fun _ => .pure _

theorem renameTarget (parentTo : Nat) (toName : List UInt8) : MountsNothing (renameTarget parentTo toName) := by
  refine .bind (keeps (.fileLookupByName ..)) fun r => ?_
  cases r with
  | error rc => exact .pure _
  | ok ino => exact fileDeallocate ..

theorem renameEntries (a : Nat) (fromName : List UInt8) (b : Nat) (toName : List UInt8) (x : Nat) (dirMove : Bool) :
    MountsNothing (renameEntries a fromName b toName x dirMove) := by
  refine .bind (directoryAddEntry ..) fun _ => .ite (.pure _) (.bind (directoryRemoveEntry ..) fun _ => .ite (.pure _) ?_)
  refine .ite (.bind (directoryReplaceEntry ..) fun _ => .ite (.pure _) ?_) (.pure _)
  exact .bind (keeps (.inodeWriteback _)) fun _ => .pure _

theorem renameInode (fuel a : Nat) (fromName : List UInt8) (b : Nat) (toName : List UInt8) (x : Nat) :
    MountsNothing (renameInode fuel a fromName b toName x) := by
  have hend (r : Option Rc) (dirMove : Bool) : MountsNothing (if r ≠ some .ok then pure r else
      Ufs370.renameEntries a fromName b toName x dirMove >>= fun rc => pure (some rc)) :=
    .ite (.pure _) (.bind (renameEntries ..) fun _ => .pure _)
  refine .bind .get fun v => .bind (renameTarget ..) fun _ => .ite (.pure _) (.ite ?_ ?_)
  · exact .bind (canDirmove ..) fun r => hend r _
  · exact .bind (.pure _) fun r => hend r _

theorem fileRename (fuel a : Nat) (fromName : List UInt8) (b : Nat) (toName : List UInt8) :
    MountsNothing (fileRename fuel a fromName b toName) := by
  refine .bind (keeps (.fileLookupByName ..)) fun r => ?_
  cases r with
  | error rc => exact .pure _
  | ok ino => exact take (.pure _) (.bind (renameInode ..) fun _ => .bind (inodeRel _) fun _ => .pure _)

end MountsNothing

end Ufs370
