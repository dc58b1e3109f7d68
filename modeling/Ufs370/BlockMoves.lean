import Ufs370.FreeInodeLaws
import Ufs370.HandleLaws

/-! The relations between disks that the programs on the blocks and inodes of a disk go along. -/

namespace Ufs370

open Lib

/-- `R` does not look at the blocks and the super block of a disk, nor at what its inodes hold, and one
inode may be taken back to what it was. -/
structure Blind (R : VDisk → VDisk → Prop) : Prop where
  rest : ∀ v io sb super, R v { v with io, sb, super }
  minode : ∀ v ino {f : Minode → Minode}, (∀ m : Minode, ((f m).inodeNumber, (f m).usecount, (f m).mountedVdisk) =
    (m.inodeNumber, m.usecount, m.mountedVdisk)) → R v (v.setMinode ino f)
  restore : ∀ {v v'} ino, R v v' → R v (v'.setMinode ino fun _ => v.deref ino)

/-- What the rounds of `ufs_datablock_expand` are made of goes along `R`. -/
structure Grows (R : VDisk → VDisk → Prop) : Prop where
  allocate : Prog.Moves R datablockAllocate
  link : ∀ listblk n, Prog.Moves R (datablockLink listblk n)
  addLeaf : ∀ up idx, Prog.Moves R (datablockAddLeaf up idx)
  setAddr : ∀ ino i blk, Prog.Moves R (setAddr ino i blk)

namespace Grows

variable {R : VDisk → VDisk → Prop} [Std.Refl R] [IsTrans VDisk R] (h : Grows R)
include h

theorem expandLevel (ino level idxblk : Nat) : Prog.Moves R (expandLevel ino level idxblk) := by
  unfold Ufs370.expandLevel
  split
  · exact .bind (h.setAddr ..) fun _ => h.addLeaf ..
  · exact .bind (h.setAddr ..) fun _ => .bind (h.addLeaf ..) fun _ => h.addLeaf ..
  · exact .bind (h.setAddr ..) fun _ => .bind (h.addLeaf ..) fun _ =>
      .bind (h.addLeaf ..) fun _ => h.addLeaf ..
  · exact .pure _

theorem expandWithin (ino : Nat) (oldmap newmap : Addrmap) : Prog.Moves R (expandWithin ino oldmap newmap) := by
  unfold Ufs370.expandWithin
  split
  · exact .bind h.allocate fun r => .ite (.pure _) (.bind (h.setAddr ..) fun _ => .pure _)
  · exact .bind .get fun _ => .bind (h.addLeaf ..) fun _ => .pure _
  · refine .bind .get fun v => ?_
    have hnext := Prog.Moves.bind (h.link ((v.din ino).addrAt naddrIndex2) (newmap.index 0)) fun link =>
      .bind (h.addLeaf link (newmap.index 1)) fun blk => .pure (Rc.ok, blk)
    exact .ite (.bind (h.addLeaf ..) fun _ => hnext) hnext
  · refine .bind .get fun v => ?_
    have hlast := Prog.Moves.bind (h.link ((v.din ino).addrAt naddrIndex3) (newmap.index 0)) fun link =>
      .bind (h.link link (newmap.index 1)) fun link =>
      .bind (h.addLeaf link (newmap.index 2)) fun blk => .pure (Rc.ok, blk)
    have hmid := Prog.Moves.ite (c := oldmap.index 1 ≠ newmap.index 1)
      (.bind (h.link ((v.din ino).addrAt naddrIndex3) (newmap.index 0)) fun link =>
        .bind (h.addLeaf link (newmap.index 1)) fun _ => hlast)
      hlast
    exact .ite (.bind (h.addLeaf ..) fun _ => hmid) hmid

theorem expandBlock (ino : Nat) (oldmap newmap : Addrmap) : Prog.Moves R (expandBlock ino oldmap newmap) :=
  .ite (.bind h.allocate fun _ => .ite (.pure _) (.bind (h.expandLevel ..) fun _ => .pure _)) (h.expandWithin ..)

end Grows

namespace Blind

variable {R : VDisk → VDisk → Prop} (hR : Blind R)
include hR

theorem onStore (x : Prog Store α) : Prog.Moves R (VDisk.onStore x) := ⟨fun _ => hR.rest ..⟩

theorem readsOnly {α : Type} {x : Prog VDisk α} (hx : ReadsOnly x) : Prog.Moves R x where
  run v := by
    obtain ⟨fs, hfs⟩ := hx.run v
    rw [hfs]
    exact hR.rest ..

theorem setMinode (ino : Nat) {f : Minode → Minode}
    (hf : ∀ m : Minode, ((f m).inodeNumber, (f m).usecount, (f m).mountedVdisk) =
      (m.inodeNumber, m.usecount, m.mountedVdisk)) : Prog.Moves R (modifyMinode ino f) :=
  ⟨fun v => hR.minode v ino hf⟩

theorem modifyDinode (ino : Nat) (f : Dinode → Dinode) : Prog.Moves R (modifyDinode ino f) :=
  hR.setMinode ino fun _ => rfl

theorem setAddr (ino i blk : Nat) : Prog.Moves R (setAddr ino i blk) := hR.modifyDinode ..

theorem diskGetBuf : Prog.Moves R diskGetBuf := hR.onStore _

theorem vdiskRead (block : Nat) : Prog.Moves R (vdiskRead block) := hR.onStore _

theorem readBuf (block : Nat) : Prog.Moves R (readBuf block) := hR.readsOnly (.readBuf block)

theorem datablockLink (listblk n : Nat) : Prog.Moves R (datablockLink listblk n) :=
  hR.readsOnly (.datablockLink listblk n)

variable [Std.Refl R] [IsTrans VDisk R]

theorem vdiskWrite (buf : Block) (block : Nat) : Prog.Moves R (vdiskWrite buf block) :=
  .bind .get fun _ => .ite (.pure _) (hR.onStore _)

theorem writeBuf (buf : Block) (block : Nat) : Prog.Moves R (writeBuf buf block) :=
  .bind (hR.vdiskWrite ..) fun _ => .pure _

theorem inodeWriteback (ino : Nat) : Prog.Moves R (inodeWriteback ino) := by
  refine .bind .get fun v => ?_
  dsimp only
  split
  · exact .pure _
  · refine .bind (hR.readBuf _) fun r => ?_
    cases r with
    | error rc => exact .pure _
    | ok buf =>
      refine .bind .get fun v => .bind (hR.writeBuf ..) fun rc => .ite (.pure _) ?_
      exact .bind (hR.setMinode _ fun _ => rfl) fun _ => .pure _

theorem freeblockUpdate (blk : Nat) : Prog.Moves R (freeblockUpdate blk) := by
  refine .bind hR.diskGetBuf fun ok => .ite (.bind .get fun v => .ite (.bind (hR.vdiskRead _) fun r => ?_) (.pure _)) (.pure _)
  cases r with
  | error rc => exact .pure _
  | ok buf => exact .bind (.modify fun _ => hR.rest ..) fun _ => .pure _

theorem allocateLoop (fuel : Nat) (error : Rc) : Prog.Moves R (allocateLoop fuel error) := by
  induction fuel generalizing error with
  | zero => exact .pure _
  | succ fuel ih =>
    refine .bind .get fun v => .ite (.pure _) (.bind (.modify fun _ => hR.rest ..) fun _ => ?_)
    have hnext (rc : Rc) := Prog.Moves.bind (R := R) .get fun w : VDisk =>
      .ite (c := datablockNumberSanity w (v.sb.freeblock (u32sub v.sb.nfreeblock 1)) = true)
        (.pure (rc, v.sb.freeblock (u32sub v.sb.nfreeblock 1))) (ih rc)
    exact .ite (.bind (hR.freeblockUpdate _) hnext) (.bind (.pure _) hnext)

theorem datablockAllocate : Prog.Moves R datablockAllocate := by
  refine .bind .get fun v => .bind (hR.allocateLoop ..) fun r => .ite (.pure _) (.bind (hR.readBuf _) fun r => ?_)
  cases r with
  | error rc => exact .pure _
  | ok buf => exact .bind (hR.writeBuf ..) fun _ => .pure _

theorem datablockDeallocate (blk : Nat) : Prog.Moves R (datablockDeallocate blk) := by
  refine .bind .get fun v => .ite (.pure _) (.bind .get fun v => .ite ?_ (.bind (hR.readBuf _) fun r => ?_))
  · exact .bind (.modify fun _ => hR.rest ..) fun _ => .pure _
  · cases r with
    | error rc => exact .pure _
    | ok buf => exact .bind (hR.writeBuf ..) fun _ => .ite (.pure _) (.bind (.modify fun _ => hR.rest ..) fun _ => .pure _)

theorem datablockAddLeaf (up idx : Nat) : Prog.Moves R (datablockAddLeaf up idx) := by
  refine .ite (.pure _) (.bind .get fun v => .ite (.pure _) (.bind hR.datablockAllocate fun r => .ite (.pure _) ?_))
  refine .bind (hR.readBuf _) fun r => ?_
  cases r with
  | error rc => exact .pure _
  | ok buf => exact .bind (hR.vdiskWrite ..) fun _ => .pure _

theorem datablockUnlink (idxblk n : Nat) : Prog.Moves R (datablockUnlink idxblk n) := by
  refine .bind (hR.readBuf _) fun r => ?_
  cases r with
  | error rc => exact .pure _
  | ok buf => exact .bind (hR.vdiskWrite ..) fun _ => .pure _

theorem datablockRemoveLeaf (up n : Nat) : Prog.Moves R (datablockRemoveLeaf up n) :=
  .bind .get fun _ => .ite (.pure _) (.bind (hR.datablockUnlink ..) fun _ => .bind (hR.datablockDeallocate _) fun _ => .pure _)

theorem datablockRemoveSelf (up : Nat) : Prog.Moves R (datablockRemoveSelf up) :=
  .bind .get fun _ => .ite (.pure _) (.bind (hR.datablockUnlink ..) fun _ => .bind (hR.datablockDeallocate _) fun _ => .pure _)

theorem grows : Grows R where
  allocate := hR.datablockAllocate
  link := hR.datablockLink
  addLeaf := hR.datablockAddLeaf
  setAddr := hR.setAddr

/-- The loop takes the inode that it started with back if it fails. -/
theorem expandLoop {ino oldFilesize : Nat} {v v' : VDisk} (h : R v v') (left i : Nat) (oldmap : Addrmap) :
    R v ((expandLoop ino oldFilesize (v.deref ino) left i oldmap).run v').2 := by
  induction left generalizing v' i oldmap with
  | zero => exact h
  | succ left ih =>
    have hblock (newmap : Addrmap) : R v ((Ufs370.expandBlock ino oldmap newmap).run v').2 :=
      IsTrans.trans _ _ _ h ((hR.grows.expandBlock ino oldmap newmap).run v')
    simp only [Ufs370.expandLoop, Prog.run_bind]
    generalize hr : (Ufs370.expandBlock ino oldmap _).run v' = r
    have hnext : R v r.2 := hr ▸ hblock _
    split
    · exact hnext
    · split
      · exact hR.restore ino hnext
      · exact ih hnext ..

theorem datablockExpand (ino sz : Nat) : Prog.Moves R (datablockExpand ino sz) where
  run v := by
    have hend := Prog.Moves.bind (hR.modifyDinode ino fun d => d.setFilesize (d.filesize.toNat + sz)) fun _ =>
      .bind (hR.inodeWriteback ino) fun _ => .pure Rc.ok
    have hloop (left : Nat) (map : Addrmap) : R v ((Ufs370.expandLoop ino (v.din ino).filesize.toNat (v.deref ino)
        left 0 map).run v).2 := hR.expandLoop (Std.Refl.refl v) ..
    simp only [Ufs370.datablockExpand, Prog.run_bind]
    split
    · exact hend.run v
    · rw [Prog.run_bind]
      split
      · exact hloop ..
      · exact IsTrans.trans _ _ _ (hloop ..) (hend.run _)

theorem contractLevel (ino level : Nat) (error : Rc) : Prog.Moves R (contractLevel ino level error) := by
  refine .bind .get fun v => ?_
  dsimp only
  split
  · exact .bind (hR.setAddr ..) fun _ => .bind (hR.datablockRemoveSelf _) fun _ => hR.datablockDeallocate _
  · exact .bind (hR.setAddr ..) fun _ => .bind (hR.datablockRemoveSelf _) fun _ =>
      .bind (hR.datablockRemoveSelf _) fun _ => hR.datablockDeallocate _
  · exact .bind (hR.setAddr ..) fun _ => .bind (hR.datablockRemoveSelf _) fun _ =>
      .bind (hR.datablockRemoveSelf _) fun _ => .bind (hR.datablockRemoveSelf _) fun _ => hR.datablockDeallocate _
  · exact .pure _

theorem contractWithin (ino : Nat) (oldmap newmap : Addrmap) (error : Rc) :
    Prog.Moves R (contractWithin ino oldmap newmap error) := by
  refine .bind .get fun v => ?_
  dsimp only
  split
  · exact hR.datablockDeallocate _
  · exact .bind (hR.datablockRemoveLeaf ..) fun _ => .pure _
  · refine .bind (hR.datablockLink ..) fun _ => .bind (hR.datablockRemoveLeaf ..) fun _ => ?_
    exact .ite (.bind (hR.datablockRemoveLeaf ..) fun _ => .pure _) (.pure _)
  · refine .bind (hR.datablockLink ..) fun _ => .bind (hR.datablockLink ..) fun _ =>
      .bind (hR.datablockRemoveLeaf ..) fun _ => ?_
    have hlast := Prog.Moves.ite (c := oldmap.index 0 ≠ newmap.index 0)
      (.bind (hR.datablockRemoveLeaf ((v.din ino).addrAt naddrIndex3) (oldmap.index 0)) fun _ => .pure error)
      (.pure error)
    exact .ite (.bind (hR.datablockLink ..) fun _ => .bind (hR.datablockRemoveLeaf ..) fun _ => hlast) hlast

theorem contractLoop (ino oldFilesize left i : Nat) (oldmap : Addrmap) (error : Rc) :
    Prog.Moves R (contractLoop ino oldFilesize left i oldmap error) := by
  induction left generalizing i oldmap error with
  | zero => exact .pure _
  | succ left ih =>
    exact .bind .get fun _ => .bind (.ite (hR.contractLevel ..) (hR.contractWithin ..)) fun _ => ih ..

theorem datablockContract (ino sz : Nat) : Prog.Moves R (datablockContract ino sz) := by
  refine .bind .get fun v => ?_
  have hend (error : Rc) := Prog.Moves.bind
    (hR.modifyDinode ino fun d => d.setFilesize (u32sub d.filesize.toNat sz)) fun _ =>
      .bind (hR.inodeWriteback ino) fun _ => .pure error
  exact .ite (.bind (.pure _) hend) (.bind (hR.contractLoop ..) hend)

theorem datablockSizeChange (newsz ino : Nat) : Prog.Moves R (datablockSizeChange newsz ino) :=
  .bind .get fun _ => .ite (.pure _) (.ite (hR.datablockExpand ..) (hR.datablockContract ..))

end Blind

end Ufs370
