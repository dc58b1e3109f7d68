import Ufs370.BlockMoves
import Ufs370.Content
import Ufs370.FaultyAlloc

/-! A growth of a file that fails: what becomes of the blocks that it has taken. -/

namespace Ufs370

open Lib Lib.IndexForest Lib.IndexLayout

/-- The same inode `ino`, in its handle and in its slot, and the same free blocks. -/
structure Restored (ino : Nat) (free : List Nat) (v v' : VDisk) : Prop where
  minode : v'.minode? ino = v.minode? ino
  slot : v'.slot ino = v.slot ino
  list : ∃ l, FreeList v' l ∧ l.Perm free

/-- No block comes back to the free list. -/
def Spends (v v' : VDisk) : Prop := v'.sb.totalFreeblock ≤ v.sb.totalFreeblock

namespace Spends

instance : Std.Refl Spends := ⟨fun _ => Nat.le_refl _⟩

instance : IsTrans VDisk Spends := ⟨fun _ _ _ h h' => Nat.le_trans h' h⟩

theorem readsOnly {α : Type} {x : Prog VDisk α} (hx : ReadsOnly x) : Prog.Moves Spends x where
  run v := by
    obtain ⟨fs, hfs⟩ := hx.run v
    rw [hfs]
    exact Nat.le_refl _

theorem vdiskWrite (buf : Block) (block : Nat) : Prog.Moves Spends (vdiskWrite buf block) :=
  ⟨fun _ => Nat.le_of_eq (congrArg Superblock.totalFreeblock (vdiskWrite_sb buf block))⟩

theorem writeBuf (buf : Block) (block : Nat) : Prog.Moves Spends (writeBuf buf block) :=
  .bind (vdiskWrite ..) fun _ => .pure _

theorem modifyMinode (ino : Nat) (f : Minode → Minode) : Prog.Moves Spends (modifyMinode ino f) :=
  ⟨fun _ => Nat.le_refl _⟩

theorem setAddr (ino i blk : Nat) : Prog.Moves Spends (setAddr ino i blk) := modifyMinode ..

theorem copyFreeblock (v : VDisk) (n m : Nat) (words : Nat → Nat) (b : Bool) :
    Spends v { v with sb := { v.sb.copyFreeblock n words with nfreeblock := m, modified := b } } := Nat.le_refl _

theorem freeblockUpdate (blk : Nat) : Prog.Moves Spends (freeblockUpdate blk) := by
  refine .bind (readsOnly .alloc) fun ok => .ite (.bind .get fun v => .ite ?_ (.pure _)) (.pure _)
  refine .bind (readsOnly (.vdiskRead _)) fun r => ?_
  cases r with
  | error rc => exact .pure _
  | ok buf => exact .bind (.modify fun v => copyFreeblock v ..) fun _ => .pure _

theorem allocateLoop (fuel : Nat) (error : Rc) : Prog.Moves Spends (allocateLoop fuel error) := by
  induction fuel generalizing error with
  | zero => exact .pure _
  | succ fuel ih =>
    constructor
    intro v
    by_cases htotal : v.sb.totalFreeblock = 0
    · simp only [Ufs370.allocateLoop, Prog.run_bind, htotal, if_true, Prog.run_pure]
      exact Nat.le_refl _
    · rw [allocateLoop_round htotal]
      have hround : Spends v (allocateRound v error).2.2 := by
        have hset : Spends v (v.setFree (u32sub v.sb.nfreeblock 1) v.sb.freeblock (v.sb.totalFreeblock - 1)) :=
          Nat.sub_le ..
        simp only [allocateRound]
        split
        · exact IsTrans.trans _ _ _ hset ((freeblockUpdate _).run _)
        · exact hset
      dsimp only
      split
      · exact hround
      · exact IsTrans.trans _ _ _ hround ((ih _).run _)

theorem datablockAllocate : Prog.Moves Spends datablockAllocate := by
  refine .bind .get fun v => .bind (allocateLoop ..) fun r => .ite (.pure _) ?_
  refine .bind (readsOnly (.readBuf _)) fun r => ?_
  cases r with
  | error rc => exact .pure _
  | ok buf => exact .bind (writeBuf ..) fun _ => .pure _

theorem datablockAddLeaf (up idx : Nat) : Prog.Moves Spends (datablockAddLeaf up idx) := by
  refine .ite (.pure _) (.bind .get fun v => .ite (.pure _) (.bind datablockAllocate fun r => .ite (.pure _) ?_))
  refine .bind (readsOnly (.readBuf _)) fun r => ?_
  cases r with
  | error rc => exact .pure _
  | ok buf => exact .bind (vdiskWrite ..) fun _ => .pure _

theorem grows : Grows Spends where
  allocate := datablockAllocate
  link listblk n := readsOnly (.datablockLink listblk n)
  addLeaf := datablockAddLeaf
  setAddr := setAddr

theorem inodeWriteback (ino : Nat) : Prog.Moves Spends (inodeWriteback ino) := by
  refine .bind .get fun v => ?_
  dsimp only
  split
  · exact .pure _
  · refine .bind (readsOnly (.readBuf _)) fun r => ?_
    cases r with
    | error rc => exact .pure _
    | ok buf =>
      refine .bind .get fun v => .bind (writeBuf ..) fun rc => .ite (.pure _) ?_
      exact .bind (modifyMinode ..) fun _ => .pure _

theorem expandLoop (ino oldFilesize : Nat) (backup : Minode) (left i : Nat) (oldmap : Addrmap) :
    Prog.Moves Spends (expandLoop ino oldFilesize backup left i oldmap) := by
  induction left generalizing i oldmap with
  | zero => exact .pure _
  | succ left ih =>
    refine .bind .get fun v => .bind (grows.expandBlock ..) fun r => .ite (.pure _) (.ite ?_ (ih ..))
    exact .bind (modifyMinode ..) fun _ => .pure _

end Spends

section NoBlock

variable {v : VDisk} {α β : Type}

/-- On a disk that is `v` up to the requests it will serve, the program ends as `Q` says, on such a disk. -/
def Idle (v : VDisk) (x : Prog VDisk α) (Q : α → Prop) : Prop :=
  Prog.Triple (fun w => ∃ fs, w = v.withFaults fs) x fun a w => Q a ∧ ∃ fs, w = v.withFaults fs

namespace Idle

variable {x : Prog VDisk α} {f : α → Prog VDisk β} {P : α → Prop} {Q : β → Prop}

theorem bind (hx : Idle v x P) (hf : ∀ a, P a → Idle v (f a) Q) : Idle v (x >>= f) Q :=
  ⟨fun w hw => (hf _ (hx.run w hw).1).run _ (hx.run w hw).2⟩

theorem pure {a : α} (h : P a) : Idle v (Pure.pure a) P := ⟨fun _ hw => ⟨h, hw⟩⟩

theorem get {f : VDisk → Prog VDisk β} (hf : ∀ w, (∃ fs, w = v.withFaults fs) → Idle v (f w) Q) :
    Idle v (Prog.get >>= f) Q :=
  ⟨fun w hw => (hf w hw).run w hw⟩

theorem ite {c : Prop} [Decidable c] {y : Prog VDisk α} (hx : c → Idle v x P) (hy : ¬ c → Idle v y P) :
    Idle v (if c then x else y) P := Prog.Triple.ite hx hy

theorem readsOnly (hx : ReadsOnly x) : Idle v x fun _ => True where
  run w hw := by
    obtain ⟨fs, rfl⟩ := hw
    obtain ⟨fs', hfs⟩ := hx.run (v.withFaults fs)
    exact ⟨trivial, fs', hfs⟩

end Idle

/-- With no free block nothing is done. -/
theorem datablockAllocate_idle (hnone : v.sb.totalFreeblock = 0) :
    Idle v datablockAllocate fun r => r.1 ≠ .ok where
  run w hw := by
    obtain ⟨fs, rfl⟩ := hw
    have htotal : (v.withFaults fs).sb.totalFreeblock = 0 := hnone
    simp only [datablockAllocate, allocateLoop, Prog.run_bind, htotal, if_true, Prog.run_pure,
      ne_eq, reduceCtorEq, not_false_eq_true, true_and]
    exact ⟨fs, rfl⟩

theorem datablockAddLeaf_idle (hnone : v.sb.totalFreeblock = 0) (up idx : Nat) :
    Idle v (datablockAddLeaf up idx) fun b => b = 0 :=
  .ite (fun _ => .pure rfl) fun _ => .get fun _ _ => .ite (fun _ => .pure rfl) fun _ =>
    .bind (datablockAllocate_idle hnone) fun _ hrc => .ite (fun _ => .pure rfl) fun h => absurd hrc h

theorem expandBlock_idle (hnone : v.sb.totalFreeblock = 0) (ino : Nat) (oldmap newmap : Addrmap) :
    Idle v (expandBlock ino oldmap newmap) fun r => r.1 ≠ .ok ∨ r.2 = 0 := by
  have hleaf (up idx : Nat) : Idle v (do return (Rc.ok, ← datablockAddLeaf up idx)) fun r => r.1 ≠ .ok ∨ r.2 = 0 :=
    .bind (datablockAddLeaf_idle hnone up idx) fun _ hb => .pure (.inr hb)
  have hlink (up idx : Nat) : Idle v (datablockLink up idx) fun _ => True := .readsOnly (.datablockLink up idx)
  refine .ite (fun _ => ?_) fun _ => ?_
  · exact .bind (datablockAllocate_idle hnone) fun r hrc => .ite (fun _ => .pure (.inl hrc)) fun h => absurd hrc h
  · unfold expandWithin
    split
    · exact .bind (datablockAllocate_idle hnone) fun r hrc => .ite (fun _ => .pure (.inl hrc)) fun h => absurd hrc h
    · exact .get fun w _ => hleaf ..
    · refine .get fun w _ => ?_
      have hnext := Idle.bind (hlink ((w.din ino).addrAt naddrIndex2) (newmap.index 0)) fun link _ =>
        hleaf link (newmap.index 1)
      exact .ite (fun _ => .bind (datablockAddLeaf_idle hnone ..) fun _ _ => hnext) fun _ => hnext
    · refine .get fun w _ => ?_
      have hlast := Idle.bind (hlink ((w.din ino).addrAt naddrIndex3) (newmap.index 0)) fun link _ =>
        Idle.bind (hlink link (newmap.index 1)) fun link _ => hleaf link (newmap.index 2)
      have hmid := Idle.ite (c := oldmap.index 1 ≠ newmap.index 1)
        (fun _ => .bind (hlink ((w.din ino).addrAt naddrIndex3) (newmap.index 0)) fun link _ =>
          .bind (datablockAddLeaf_idle hnone link (newmap.index 1)) fun _ _ => hlast)
        fun _ => hlast
      exact .ite (fun _ => .bind (datablockAddLeaf_idle hnone ..) fun _ _ => hmid) fun _ => hmid

end NoBlock

section Expand

variable {v w : VDisk} {ino sz : Nat} {free : List Nat}

theorem Restored.withFaults (hlist : FreeList v free) (fs : List Fault) : Restored ino free v (v.withFaults fs) :=
  ⟨rfl, rfl, free, ⟨hlist.volume, hlist.holds, hlist.nodup, hlist.sane, hlist.total⟩, .refl _⟩

theorem Restored.setMinode (hcached : v.Cached ino) (h : Restored ino free v w) :
    Restored ino free v (w.setMinode ino fun _ => v.deref ino) where
  minode := by
    have hnumber : ∀ m : Minode, m.inodeNumber = ino → (v.deref ino).inodeNumber = ino :=
      fun _ _ => VDisk.minode?_number hcached.deref
    rw [VDisk.minode?_setMinode_same hnumber, h.minode, hcached.deref, Option.map_some]
  slot := h.slot
  list := by
    obtain ⟨l, hl, hperm⟩ := h.list
    exact ⟨l, ⟨hl.volume, hl.holds, hl.nodup, hl.sane, hl.total⟩, hperm⟩

/-- A growth with no free block that does not work is undone. -/
theorem datablockExpand_idle (hlist : FreeList v free) (hcached : v.Cached ino)
    (hnone : v.sb.totalFreeblock = 0) (hrc : ((datablockExpand ino sz).run v).1 ≠ .ok) :
    Restored ino free v ((datablockExpand ino sz).run v).2 := by
  revert hrc
  simp only [datablockExpand, Prog.run_bind]
  split
  · exact fun hrc => absurd rfl hrc
  · cases u32sub (nblocks v (u32 ((v.din ino).filesize.toNat + sz))) (nblocks v (v.din ino).filesize.toNat) with
    | zero => exact fun hrc => absurd rfl hrc
    | succ left =>
      simp only [Prog.run_bind, expandLoop]
      have hround := (expandBlock_idle hnone ino (datablockAddr v (v.din ino).filesize.toNat).2
        (datablockAddr v (u32 ((v.din ino).filesize.toNat + (0 + 1) * v.blksize))).2).run v ⟨v.io.faults, rfl⟩
      generalize (expandBlock ino _ _).run v = r at hround ⊢
      obtain ⟨hfail, fs, hw⟩ := hround
      by_cases herror : r.1.1 = .ok
      · have hblk : r.1.2 = 0 := hfail.resolve_left fun h => h herror
        simp only [herror, hblk, ne_eq, not_true_eq_false, if_true, if_false, Prog.run_bind, Prog.run_pure,
          reduceCtorEq, not_false_eq_true, hw, modifyMinode]
        exact fun _ => (Restored.withFaults hlist fs).setMinode hcached
      · simp only [herror, ne_eq, not_false_eq_true, if_true, Prog.run_pure, hw]
        exact fun _ => .withFaults hlist fs

end Expand

section FirstBlock

variable {v : VDisk} {α β : Type} {n ino : Nat} {cnt : Nat → Nat} {free : List Nat} {all : Set Nat}
  {old new : Addrmap}

/-- The program takes a free block. -/
def TakesBlock (v : VDisk) (x : Prog VDisk α) : Prop := (x.run v).2.sb.totalFreeblock < v.sb.totalFreeblock

theorem TakesBlock.bind {x : Prog VDisk α} {f : α → Prog VDisk β} (hx : TakesBlock v x)
    (hf : ∀ a, Prog.Moves Spends (f a)) : TakesBlock v (x >>= f) :=
  Nat.lt_of_le_of_lt ((hf _).run _) hx

theorem TakesBlock.get {f : VDisk → Prog VDisk α} (hf : TakesBlock v (f v)) : TakesBlock v (Prog.get >>= f) := hf

theorem TakesBlock.ite {c : Prop} [Decidable c] {x y : Prog VDisk α} (hx : c → TakesBlock v x) (hy : ¬ c → TakesBlock v y) :
    TakesBlock v (if c then x else y) := by
  split
  · exact hx ‹_›
  · exact hy ‹_›

theorem TakesBlock.after {x : Prog VDisk α} {f : α → Prog VDisk β} {a : α} {fs : List Fault}
    (hx : x.run v = (a, v.withFaults fs)) (hf : TakesBlock (v.withFaults fs) (f a)) : TakesBlock v (x >>= f) := by
  rw [TakesBlock, Prog.run_bind, hx]
  exact hf

theorem datablockAllocate_takes (hlist : FreeList v free) (hfree : v.sb.totalFreeblock ≠ 0) :
    TakesBlock v datablockAllocate := by
  cases free with
  | nil => exact absurd hlist.total hfree
  | cons b l =>
    rw [TakesBlock, (datablockAllocate_pops hlist).1, hlist.total]
    exact Nat.lt_succ_self _

theorem datablockAddLeaf_takes (hlist : FreeList v free) (hfree : v.sb.totalFreeblock ≠ 0) {up : Nat}
    (hpos : up ≠ 0) (hup : datablockNumberSanity v up) (idx : Nat) : TakesBlock v (datablockAddLeaf up idx) := by
  have hsane : ¬ (!datablockNumberSanity v up) = true := by simp [hup]
  rw [datablockAddLeaf, if_neg hpos]
  change TakesBlock v (if _ then _ else _)
  rw [if_neg hsane]
  refine .bind (datablockAllocate_takes hlist hfree) fun r => .ite (.pure _) ?_
  refine .bind (Spends.readsOnly (.readBuf _)) fun r => ?_
  cases r with
  | error rc => exact .pure _
  | ok buf => exact .bind (Spends.vdiskWrite ..) fun _ => .pure _

/-- A link to a block that can be one, with two requests. -/
theorem datablockLink_served {up i : Nat} (hserves : v.Serves 2) (hup : datablockNumberSanity v up)
    (hdown : datablockNumberSanity v (v.word up i)) :
    (datablockLink up i).run v = (v.word up i, v.withFaults v.io.faults.tail.tail) := by
  rcases readBuf_run (v := v) up with ⟨_, hrun⟩ | ⟨hnot, _⟩
  · have hsane : datablockNumberSanity (v.withFaults v.io.faults.tail.tail) (v.word up i) := hdown
    simp only [VDisk.word] at hsane
    simp only [datablockLink, Prog.run_bind, hup, Bool.not_true, Bool.false_eq_true, if_false, hrun, hsane,
      if_true, Prog.run_pure]
    rfl
  · exact absurd hserves hnot

/-- The requests before the first round asks for a block. -/
def firstReads (old new : Addrmap) : Nat :=
  if old.level ≠ new.level then 0
  else match new.level with
    | 0 => 0
    | 1 => 0
    | 2 => if old.index 0 ≠ new.index 0 then 0 else 2
    | _ => if old.index 0 ≠ new.index 0 then 0 else if old.index 1 ≠ new.index 1 then 2 else 4

/-- The first round takes a block if the index blocks that it starts with can be read. -/
theorem expandBlock_takes (h : Owned (v.withFaults []) (Within n cnt) [] free all) (hcached : v.Cached ino)
    (hfree : v.sb.totalFreeblock ≠ 0) (hold : MapOf n old (cnt ino)) (hserves : v.Serves (firstReads old new)) :
    TakesBlock v (expandBlock ino old new) := by
  have hlist (fs : List Fault) : FreeList (v.withFaults fs) free :=
    ⟨h.list.volume, h.list.holds, h.list.nodup, h.list.sane, h.list.total⟩
  have hallocate : TakesBlock v datablockAllocate := datablockAllocate_takes (hlist v.io.faults) hfree
  have hroot (r : Nat) : (v.din ino).addrAt r = v.forest.node ((ino, r), []) := by
    rw [hcached.din]
    rfl
  have hsane {x : BlockPath} (hx : x ∈ Within n cnt) : datablockNumberSanity v (v.forest.node x) :=
    h.sane _ (h.node_mem hx)
  have hpos {x : BlockPath} (hx : x ∈ Within n cnt) : v.forest.node x ≠ 0 :=
    Nat.ne_of_gt (h.pos_of_mem (h.node_mem hx))
  have hleaf (fs : List Fault) {x : BlockPath} (hx : x ∈ Within n cnt) (i : Nat) :
      TakesBlock (v.withFaults fs) (datablockAddLeaf (v.forest.node x) i) :=
    datablockAddLeaf_takes (hlist fs) hfree (hpos hx) (hsane hx) i
  have hlink (fs : List Fault) (is : List Nat) {r i : Nat} (hx : ((ino, r), is ++ [i]) ∈ Within n cnt)
      (hserves : (v.withFaults fs).Serves 2) :
      (datablockLink (v.forest.node ((ino, r), is)) i).run (v.withFaults fs) =
        (v.forest.node ((ino, r), is ++ [i]), (v.withFaults fs).withFaults fs.tail.tail) := by
    have hdown := hsane hx
    rw [Forest.node_snoc] at hdown ⊢
    exact datablockLink_served hserves (hsane (within_closed n cnt _ _ _ hx)) hdown
  unfold expandBlock
  by_cases hlevel : old.level = new.level
  · rw [if_neg (not_not.mpr hlevel)]
    have hmem (hne : new.level ≠ 0) : ((ino, old.place.1), old.place.2) ∈ Within n cnt := by
      cases hcnt : cnt ino with
      | zero =>
        rw [hcnt] at hold
        exact absurd (hlevel.symm.trans hold) hne
      | succ m =>
        rw [hcnt] at hold
        exact (Addrmap.IsBlock.place hold).mem_within cnt (hcnt ▸ Nat.lt_succ_self m)
    have hstart : v.withFaults v.io.faults = v := rfl
    rw [firstReads, if_neg (not_not.mpr hlevel)] at hserves
    unfold expandWithin
    rcases hnew : new.level with _ | _ | _ | level
    · exact hallocate.bind fun r => .ite (.pure _) (.bind (Spends.setAddr ..) fun _ => .pure _)
    · -- one index block, which is known
      have hmem := hmem (hnew ▸ Nat.succ_ne_zero _)
      rw [Addrmap.place, hlevel, hnew] at hmem
      have hroot1 : ((ino, naddrIndex1), []) ∈ Within n cnt := within_closed n cnt _ [] _ hmem
      refine .get (.bind ?_ fun _ => .pure _)
      rw [hroot]
      exact hleaf v.io.faults hroot1 _
    · have hmem := hmem (hnew ▸ Nat.succ_ne_zero _)
      rw [Addrmap.place, hlevel, hnew] at hmem
      have hindex : ((ino, naddrIndex2), [old.index 0]) ∈ Within n cnt := within_closed n cnt _ [_] _ hmem
      have hroot2 : ((ino, naddrIndex2), []) ∈ Within n cnt := within_closed n cnt _ [] _ hindex
      refine .get (.ite (fun _ => .bind ?_ fun _ => ?_) fun hcarry => ?_)
      · rw [hroot]
        exact hleaf v.io.faults hroot2 _
      · exact .bind (Spends.grows.link ..) fun _ => .bind (Spends.grows.addLeaf ..) fun _ => .pure _
      · rw [not_not] at hcarry
        rw [hcarry] at hindex
        rw [hroot]
        have hserves2 : v.Serves 2 := by
          simpa only [hnew, ne_eq, hcarry, not_true_eq_false, if_false] using hserves
        exact .after (hlink v.io.faults [] hindex hserves2) ((hleaf _ hindex _).bind fun _ => .pure _)
    · have hmem := hmem (hnew ▸ Nat.succ_ne_zero _)
      rw [Addrmap.place, hlevel, hnew] at hmem
      have hindex2 : ((ino, naddrIndex3), [old.index 0, old.index 1]) ∈ Within n cnt :=
        within_closed n cnt _ [_, _] _ hmem
      have hindex1 : ((ino, naddrIndex3), [old.index 0]) ∈ Within n cnt := within_closed n cnt _ [_] _ hindex2
      have hroot3 : ((ino, naddrIndex3), []) ∈ Within n cnt := within_closed n cnt _ [] _ hindex1
      have hlast (up : Nat) : Prog.Moves Spends (do
          let link ← datablockLink (← datablockLink up (new.index 0)) (new.index 1)
          return (Rc.ok, ← datablockAddLeaf link (new.index 2))) :=
        .bind (Spends.grows.link ..) fun _ => .bind (Spends.grows.link ..) fun _ =>
          .bind (Spends.grows.addLeaf ..) fun _ => .pure _
      refine .get (.ite (fun _ => .bind ?_ fun _ => .ite ?_ (hlast _)) fun hcarry =>
        .ite (fun hcarry1 => ?_) fun hcarry1 => ?_)
      · rw [hroot]
        exact hleaf v.io.faults hroot3 _
      · exact .bind (Spends.grows.link ..) fun _ => .bind (Spends.grows.addLeaf ..) fun _ => hlast _
      · rw [not_not] at hcarry
        rw [hcarry] at hindex1
        rw [hroot]
        have hserves2 : v.Serves 2 := by
          simpa only [hnew, ne_eq, hcarry, hcarry1, not_true_eq_false, not_false_eq_true, if_true, if_false]
            using hserves
        refine .after (hlink v.io.faults [] hindex1 hserves2) ((hleaf _ hindex1 _).bind fun _ => hlast _)
      · rw [not_not] at hcarry hcarry1
        rw [hcarry] at hindex1
        rw [hcarry, hcarry1] at hindex2
        rw [hroot]
        have hserves4 : v.Serves (2 + 2) := by
          simpa only [hnew, ne_eq, hcarry, hcarry1, not_true_eq_false, if_false] using hserves
        obtain ⟨hserves2, hserves2'⟩ := VDisk.serves_two_add.mp hserves4
        refine .after (hlink v.io.faults [] hindex1 hserves2) ?_
        refine .after (hlink _ [_] hindex2 hserves2') ?_
        exact (hleaf _ hindex2 _).bind fun _ => .pure _
  · rw [if_pos hlevel]
    exact hallocate.bind fun r => .ite (.pure _) (.bind (Spends.grows.expandLevel ..) fun _ => .pure _)

/-- The requests before a growth asks for a block. -/
def VDisk.growthReads (v : VDisk) (ino : Nat) : Nat :=
  let oldFilesize := (v.din ino).filesize.toNat
  firstReads (datablockAddr v oldFilesize).2 (datablockAddr v (u32 (oldFilesize + v.blksize))).2

theorem datablockExpand_takes {sz : Nat} (h : Owned (v.withFaults []) (Within n cnt) [] free all)
    (hcached : v.Cached ino) (hold : MapOf n (datablockAddr v (v.din ino).filesize.toNat).2 (cnt ino))
    (hfree : v.sb.totalFreeblock ≠ 0) (hserves : v.Serves (v.growthReads ino))
    (hrc : ((datablockExpand ino sz).run v).1 ≠ .ok) : TakesBlock v (datablockExpand ino sz) := by
  revert hrc
  simp only [TakesBlock, datablockExpand, Prog.run_bind]
  split
  · exact fun hrc => absurd rfl hrc
  · cases u32sub (nblocks v (u32 ((v.din ino).filesize.toNat + sz))) (nblocks v (v.din ino).filesize.toNat) with
    | zero => exact fun hrc => absurd rfl hrc
    | succ left =>
      intro _
      have hone : (v.din ino).filesize.toNat + (0 + 1) * v.blksize = (v.din ino).filesize.toNat + v.blksize := by
        rw [Nat.zero_add, Nat.one_mul]
      have hround : TakesBlock v (expandLoop ino (v.din ino).filesize.toNat (v.deref ino) (left + 1) 0
          (datablockAddr v (v.din ino).filesize.toNat).2) := by
        refine .get (.bind ?_ fun r => .ite (.pure _) (.ite (.bind (Spends.modifyMinode ..) fun _ => .pure _)
          (Spends.expandLoop ..)))
        rw [hone]
        exact expandBlock_takes h hcached hfree hold hserves
      rw [Prog.run_bind]
      refine Nat.lt_of_le_of_lt ?_ hround
      split
      · exact Nat.le_refl _
      · exact (Prog.Moves.bind (Spends.modifyMinode ..) fun _ =>
          .bind (Spends.inodeWriteback ino) fun _ => .pure Rc.ok).run _

end FirstBlock

section Exact

variable {v : VDisk} {inos free : List Nat} {ino sz : Nat}

/-- A growth that takes a block does not put it back. -/
theorem not_restored {v' : VDisk} (hlist : FreeList v free)
    (htakes : v'.sb.totalFreeblock < v.sb.totalFreeblock) : ¬ Restored ino free v v' := by
  rintro ⟨_, _, l, hl, hperm⟩
  rw [hl.total, hlist.total, hperm.length_eq] at htakes
  exact Nat.lt_irrefl _ htakes

theorem datablockExpand_ok_iff (h : WellFormed v inos free) (hino : ino ∈ inos) (hcached : v.Cached ino)
    (hsz : SizeOk v (v.filesize ino + sz)) :
    ((datablockExpand ino sz).run v).1 = .ok ↔ v.FreeFor ino (v.filesize ino + sz) := by
  have hcnt : v.counts inos ino = ceil (v.filesize ino) v.blksize := if_pos hino
  have hnum : ∀ i, v.counts inos i ≠ 0 → InodeNumber v i := fun i hi => by
    by_cases hmem : i ∈ inos
    · exact h.number i hmem
    · exact absurd (if_neg hmem) hi
  rw [VDisk.FreeFor, VDisk.room, h.list.total, ← hcnt]
  rcases datablockExpand_spec h.owned hnum (h.number ino hino) hcached hcnt
    (SizeOk.fileSize h.geometry (h.size ino hino)) (SizeOk.fileSize h.geometry hsz) rfl with
    ⟨v', hrun, hshort, _⟩ | ⟨v', free', hrun, r⟩
  · rw [hrun]
    exact iff_of_false Rc.noConfusion (Nat.not_le.mpr hshort)
  · rw [hrun]
    have hlength := r.length
    exact iff_of_true rfl (by omega)

end Exact

end Ufs370
