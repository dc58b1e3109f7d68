import Ufs370.FreeBlock
import Ufs370.InodeHandout
import Ufs370.PagerLaws

/-! What `ufs_sync` leaves on the disk: all of the super block and of the page cache. -/

namespace Ufs370

open Lib

/-- A disk that is open: its handle, which sees the blocks that its pager shows. -/
structure Served where
  disk : VDisk
  pager : Pager

namespace Served

def onDisk {α : Type} (x : Prog VDisk α) : Prog Served α :=
  Prog.lift Served.disk (fun disk s => { s with disk }) x

def onPager {α : Type} (x : Prog Pager α) : Prog Served α :=
  Prog.lift Served.pager (fun pager s => { s with pager }) x

/-- The pager shows the blocks of the disk. -/
def Serves (s : Served) : Prop :=
  s.pager.Ok ∧ ∀ b, b < s.disk.sb.volumeSize → s.pager.logical b = s.disk.io.blocks b

/-- `ufs_disk_open` on the disk alone: the super block read back and an empty inode cache. -/
def reopen (s : Served) : VDisk where
  blksize := s.disk.blksize
  readonly := s.disk.readonly
  sb := { s.disk.super with modified := false }
  io := s.pager.store
  super := s.disk.super
  minodes := []

end Served

/-- The part of `ufs_sync` that saves the super block. -/
def syncSuper : Prog VDisk Rc := do
  if (← Prog.get).sb.modified then
    let rc ← diskWriteSuper
    if rc = .ok then
      Prog.modify fun v => { v with sb := { v.sb with modified := false } }
    return rc
  else
    return .ok

/-- `ufs_sync` on one pager, with the codes of the write of the super block and of the flush. -/
def sync : Prog Served (Rc × Rc) := do
  let rc ← Served.onDisk syncSuper
  return (rc, ← Served.onPager pagerFlush)

/-- What happens to a super block between two calls of `ufs_sync`.  `other` is any program that
leaves it alone. -/
inductive DiskOp
  | datablockAllocate
  | datablockDeallocate (blk : Nat)
  | inodeAllocate
  | inodeDeallocate (ino : Nat)
  | other (x : Prog VDisk Unit)

def diskOp : DiskOp → Prog VDisk Unit
  | .datablockAllocate => do let _ ← datablockAllocate
  | .datablockDeallocate blk => do let _ ← datablockDeallocate blk
  | .inodeAllocate => do let _ ← inodeAllocate
  | .inodeDeallocate ino => inodeDeallocate ino
  | .other x => x

inductive ServedOp
  | read (now block : Nat)
  | write (now block : Nat) (buf : Block)
  | call (op : DiskOp) (pager : Pager)
  | sync

/-- A request for a block, after which the disk is what the pager shows; an operation with all
its requests, after which the pager is another one; or a sync. -/
def servedStep : ServedOp → Prog Served (Rc × Rc)
  | .read now block => do
    match ← Served.onPager (pagerRead now block) with
    | .ok _ => return (.ok, .ok)
    | .error rc => return (rc, .ok)
  | .write now block buf => do
    let rc ← Served.onPager (pagerWrite now block buf)
    Prog.modify fun s => { s with disk := s.disk.setBlock block (s.pager.logical block) }
    return (rc, .ok)
  | .call op pager => do
    Served.onDisk (diskOp op)
    Prog.modify fun s => { s with pager }
    return (.ok, .ok)
  | .sync => sync

def DiskOp.Allowed : DiskOp → Prop
  | .other x => KeepsSuper x
  | _ => True

def ServedOp.Allowed (s : Served) : ServedOp → Prop
  | .read _ block => block < s.disk.sb.volumeSize
  | .write _ block _ => block < s.disk.sb.volumeSize ∧
    ∀ pg ∈ s.pager.pages, pg.block = block → pg.dirty + 1 < 4294967296
  | .call op pager => op.Allowed ∧ Served.Serves ⟨((diskOp op).run s.disk).2, pager⟩
  | .sync => True

section Serves

variable {v : VDisk} {p : Pager} (h : Served.Serves ⟨v, p⟩) (hvol : v.sb.volumeSize ≤ noBlock) (now : Nat)
  {b : Nat} (hb : b < v.sb.volumeSize)

include h hvol hb

theorem pagerRead_serves : Served.Serves ⟨v, ((pagerRead now b).run p).2⟩ ∧
    ∀ buf, ((pagerRead now b).run p).1 = .ok buf → buf = v.io.blocks b := by
  have hne : ∀ {c}, c < v.sb.volumeSize → c ≠ noBlock := fun hc =>
    Nat.ne_of_lt (Nat.lt_of_lt_of_le hc hvol)
  obtain ⟨hsame, hread⟩ := pagerRead_spec now h.1 (hne hb)
  exact ⟨⟨hsame.1, fun c hc => (hsame.2 c (hne hc)).trans (h.2 c hc)⟩,
    fun buf hbuf => (hread buf hbuf).trans (h.2 b hb)⟩

/-- After a write the block is what the pager shows, and that is what was written if the write
reports no failure. -/
theorem pagerWrite_serves (buf : Block)
    (hwrap : ∀ pg ∈ p.pages, pg.block = b → pg.dirty + 1 < 4294967296) :
    let p' := ((pagerWrite now b buf).run p).2
    Served.Serves ⟨v.setBlock b (p'.logical b), p'⟩ ∧
      (((pagerWrite now b buf).run p).1 = .ok → p'.logical b = buf) := by
  intro p'
  have hne : ∀ {c}, c < v.sb.volumeSize → c ≠ noBlock := fun hc =>
    Nat.ne_of_lt (Nat.lt_of_lt_of_le hc hvol)
  obtain ⟨hok, hany⟩ := pagerWrite_spec now h.1 (hne hb) buf hwrap
  have hother : p'.Ok ∧ ∀ c, c < v.sb.volumeSize → c ≠ b → p'.logical c = v.io.blocks c := by
    rcases hany with hsame | hwrote
    · exact ⟨hsame.1, fun c hc _ => (hsame.2 c (hne hc)).trans (h.2 c hc)⟩
    · refine ⟨hwrote.1, fun c hc hcb => ?_⟩
      rw [hwrote.2 c (hne hc), Function.update_of_ne hcb]
      exact h.2 c hc
  refine ⟨⟨hother.1, fun c hc => ?_⟩, fun hrc => ?_⟩
  · by_cases hcb : c = b
    · rw [hcb, VDisk.setBlock_self]
    · rw [VDisk.setBlock_other _ _ hcb]
      exact hother.2 c hc hcb
  · rw [(hok hrc).2 b (hne hb), Function.update_self]

end Serves

namespace VDisk

/-- The super block is saved unless its flag says otherwise. -/
def Saved (v : VDisk) : Prop := v.sb.modified = false → { v.super with modified := false } = v.sb

end VDisk

/-- The super block is saved or flagged, and says that the disk ends at block `vol` and its data
blocks start at `start`. -/
structure SavedWithin (start vol : Nat) (v : VDisk) : Prop where
  saved : v.Saved
  start : v.sb.datablockStartSector = start
  volume : v.sb.volumeSize = vol

section Saved

variable {start vol : Nat}

theorem KeepsSuper.saved {α : Type} {x : Prog VDisk α} (hx : KeepsSuper x) :
    x.Keeps (SavedWithin start vol) := fun v hv => by
  obtain ⟨hsb, hsuper, _⟩ := hx v
  refine ⟨?_, by rw [hsb, hv.start], by rw [hsb, hv.volume]⟩
  rw [VDisk.Saved, hsb, hsuper]
  exact hv.saved

/-- Whoever sets the flag may change the rest. -/
theorem saved_modified {f : VDisk → VDisk} (hflag : ∀ v, (f v).sb.modified = true)
    (hstart : ∀ v, (f v).sb.datablockStartSector = v.sb.datablockStartSector)
    (hvolume : ∀ v, (f v).sb.volumeSize = v.sb.volumeSize) :
    (Prog.modify f).Keeps (SavedWithin start vol) := fun v hv =>
  ⟨fun h => absurd ((hflag v).symm.trans h) (by simp), (hstart v).trans hv.start, (hvolume v).trans hv.volume⟩

theorem copyFreeblock_saved (n : Nat) (words : Nat → Nat) : (Prog.modify fun v => { v with
    sb := { v.sb.copyFreeblock n words with nfreeblock := n, modified := true } }).Keeps
      (SavedWithin start vol) :=
  saved_modified (fun _ => rfl) (fun _ => rfl) (fun _ => rfl)

theorem freeblockUpdate_saved (blk : Nat) : (freeblockUpdate blk).Keeps (SavedWithin start vol) := by
  refine .bind (KeepsSuper.onStore _).saved fun ok => ?_
  cases ok with
  | false => exact .pure _ _
  | true =>
    refine .bind KeepsSuper.get.saved fun v => ?_
    dsimp only
    split
    · refine .bind (KeepsSuper.onStore _).saved fun r => ?_
      cases r with
      | error rc => exact .pure _ _
      | ok buf =>
        exact .bind (copyFreeblock_saved _ _) fun _ => .pure _ _
    · exact .pure _ _

theorem allocateLoop_saved (fuel : Nat) (error : Rc) :
    (allocateLoop fuel error).Keeps (SavedWithin start vol) := by
  induction fuel generalizing error with
  | zero => exact .pure _ _
  | succ fuel ih =>
    refine .bind KeepsSuper.get.saved fun v => ?_
    dsimp only
    split
    · exact .pure _ _
    · have hrest : ∀ blk error, Prog.Keeps (SavedWithin start vol) (do
          if datablockNumberSanity (← Prog.get) blk then
            return (error, blk)
          allocateLoop fuel error) := fun blk error => by
        refine .bind KeepsSuper.get.saved fun v => ?_
        split
        · exact .pure _ _
        · exact ih error
      refine .bind (saved_modified (fun _ => rfl) (fun _ => rfl) (fun _ => rfl)) fun _ => ?_
      split
      · exact .bind (freeblockUpdate_saved _) fun error => hrest _ error
      · exact .bind (.pure _ _) fun error => hrest _ error

theorem datablockAllocate_saved : datablockAllocate.Keeps (SavedWithin start vol) := by
  refine .bind KeepsSuper.get.saved fun v => .bind (allocateLoop_saved _ _) fun r => ?_
  dsimp only
  split
  · exact .pure _ _
  · refine .bind (KeepsSuper.readBuf _).saved fun r => ?_
    cases r with
    | error rc => exact .pure _ _
    | ok buf => exact .bind (KeepsSuper.writeBuf _ _).saved fun _ => .pure _ _

theorem datablockDeallocate_saved (blk : Nat) :
    (datablockDeallocate blk).Keeps (SavedWithin start vol) := by
  refine .bind KeepsSuper.get.saved fun v => ?_
  dsimp only
  split
  · exact .pure _ _
  · refine .bind KeepsSuper.get.saved fun v => ?_
    split
    · exact .bind (saved_modified (fun _ => rfl) (fun _ => rfl) (fun _ => rfl)) fun _ => .pure _ _
    · refine .bind (KeepsSuper.readBuf _).saved fun r => ?_
      cases r with
      | error rc => exact .pure _ _
      | ok buf =>
        refine .bind (KeepsSuper.writeBuf _ _).saved fun rc => ?_
        split
        · exact .pure _ _
        · exact .bind (saved_modified (fun _ => rfl) (fun _ => rfl) (fun _ => rfl)) fun _ => .pure _ _

/-- What the scan finds sets the flag. -/
theorem fill_saved {v : VDisk} (hv : SavedWithin start vol v) (k : Nat) (xs : List Nat) (fs : List Fault) :
    SavedWithin start vol { v with sb := v.sb.fill k xs, io := { v.io with faults := fs } } := by
  obtain ⟨f, m, hsame⟩ := Superblock.fill_same v.sb k xs
  refine ⟨fun hflag => ?_, ?_, ?_⟩
  · have hnil : xs = [] := by
      rw [Superblock.fill_modified] at hflag
      simpa using (Bool.or_eq_false_iff.mp hflag).2
    subst hnil
    exact hv.saved hflag
  · simp only [hsame]
    exact hv.start
  · simp only [hsame]
    exact hv.volume

theorem freeinodeScan_saved (left i k inode : Nat) :
    (freeinodeScan left i k inode).Keeps (SavedWithin start vol) := by
  induction left generalizing i k inode with
  | zero => exact .pure _ _
  | succ left ih =>
    intro v hv
    have hfaults : ∀ fs, SavedWithin start vol { v with io := { v.io with faults := fs } } :=
      fun fs => fill_saved hv 0 [] fs
    simp only [freeinodeScan, Prog.run_bind, diskGetBuf_run]
    by_cases h0 : v.io.faults.headD .none = .none
    · simp only [h0, decide_true, if_true, Prog.run_bind, vdiskRead_run]
      by_cases h1 : v.io.faults.tail.headD .none = .none
      · obtain ⟨xs, hxs⟩ := freeinodeScanBlock_spec (v.io.blocks i) v.sb.inodesPerBlock 0 k inode v.sb
        obtain ⟨next, hscan, _⟩ := hxs.run
        simp only [h1, if_true, Prog.run_bind, hscan]
        exact ih _ _ _ _ (fill_saved hv k xs _)
      · simp only [h1, if_false, Prog.run_bind]
        exact ih _ _ _ _ (hfaults _)
    · simp only [h0, decide_false, Bool.false_eq_true, if_false, Prog.run_pure]
      exact hfaults _

theorem freeinodeUpdate_saved : freeinodeUpdate.Keeps (SavedWithin start vol) := by
  refine .bind KeepsSuper.get.saved fun v => ?_
  dsimp only
  split
  · exact .pure _ _
  · refine .bind (freeinodeScan_saved _ _ _ _) fun r => ?_
    obtain ⟨rc, k⟩ := r
    intro w hw
    simp only [Prog.run_bind, Prog.run_ite, Prog.run_pure]
    split
    · obtain ⟨rc', m, super, fs, hwrite, hsaved⟩ := diskWriteSuper_spec
        { w with sb := { w.sb with modified := false, nfreeinode := k } }
      simp only [hwrite]
      split
      · exact ⟨fun h => absurd h (by simp), hw.start, hw.volume⟩
      · rename_i hrc
        rcases hsaved with ⟨_, hne⟩ | ⟨hm, hsuper⟩
        · exact absurd hne hrc
        · refine ⟨fun _ => ?_, hw.start, hw.volume⟩
          simp only [hsuper, hm]
    · exact hw

theorem inodeTake_saved : inodeTake.Keeps (SavedWithin start vol) := by
  refine .bind KeepsSuper.get.saved fun v => ?_
  refine .bind (saved_modified (fun _ => rfl) (fun _ => rfl) (fun _ => rfl)) fun _ => ?_
  refine .bind KeepsSuper.get.saved fun w => ?_
  dsimp only
  split <;> exact .pure _ _

theorem inodeAllocate_saved : inodeAllocate.Keeps (SavedWithin start vol) := by
  refine .bind KeepsSuper.get.saved fun v => ?_
  dsimp only
  split
  · exact .pure _ _
  · split
    · exact .pure _ _
    · split
      · refine .bind freeinodeUpdate_saved fun rc => ?_
        split
        · exact .pure _ _
        · exact inodeTake_saved
      · exact inodeTake_saved

theorem inodeDeallocate_saved (ino : Nat) : (inodeDeallocate ino).Keeps (SavedWithin start vol) := by
  refine .bind (KeepsSuper.inodeGet ino).saved fun r => ?_
  cases r with
  | none => exact .pure _ _
  | some minode =>
    exact .bind (KeepsSuper.modifyMinode _ _).saved fun _ => .bind (KeepsSuper.inodeWriteback _).saved fun _ =>
      saved_modified (fun _ => rfl) (fun _ => rfl) (fun _ => rfl)

theorem diskOp_saved {op : DiskOp} (hop : op.Allowed) : (diskOp op).Keeps (SavedWithin start vol) := by
  cases op with
  | datablockAllocate => exact .bind datablockAllocate_saved fun _ => .pure _ _
  | datablockDeallocate blk => exact .bind (datablockDeallocate_saved blk) fun _ => .pure _ _
  | inodeAllocate => exact .bind inodeAllocate_saved fun _ => .pure _ _
  | inodeDeallocate ino => exact inodeDeallocate_saved ino
  | other x => exact KeepsSuper.saved hop

end Saved

/-- The disk behind `s'`, opened afresh, shows what `s` shows: the same super block with its lists
of free blocks and inodes, the same blocks and so the same directories and file bytes, and of
each inode what its slot held. -/
structure Durable (s s' : Served) : Prop where
  sb : s'.reopen.sb = { s.disk.sb with modified := false }
  blocks : ∀ b, b < s.disk.sb.volumeSize → s'.reopen.io.blocks b = s.disk.io.blocks b
  inode : ∀ i, s'.reopen.inode i = s.disk.slot i

section Sync

variable {start vol : Nat} {s : Served}

/-- The inodes lie below the data blocks, where the disk and its physical blocks agree. -/
theorem Durable.of_blocks {s' : Served} (hwithin : s.disk.sb.datablockStartSector ≤ s.disk.sb.volumeSize)
    (hbs : s'.disk.blksize = s.disk.blksize)
    (hsb : s'.reopen.sb = { s.disk.sb with modified := false })
    (hblocks : ∀ b, b < s.disk.sb.volumeSize → s'.reopen.io.blocks b = s.disk.io.blocks b) :
    Durable s s' := by
  refine ⟨hsb, hblocks, fun i => ?_⟩
  have hlay : SameLayout s.disk s'.reopen :=
    ⟨hbs, by rw [hsb], by rw [hsb], by rw [hsb], by rw [hsb], by rw [hsb]⟩
  rw [VDisk.inode_none rfl]
  simp only [VDisk.slot, hlay.location]
  generalize hloc : inodeInquireDiskLocation s.disk i = loc
  obtain ⟨rc, blk, ofs⟩ := loc
  by_cases hrc : rc = .ok
  · have hblk : blk < s.disk.sb.datablockStartSector := by
      simp only [inodeInquireDiskLocation, Prod.mk.injEq] at hloc
      obtain ⟨hcode, hblk, _⟩ := hloc
      rw [← hblk]
      by_contra hge
      rw [if_neg hge] at hcode
      exact absurd (hcode.trans hrc) (by decide)
    simp only [hblocks blk (Nat.lt_of_lt_of_le hblk hwithin)]
  · simp only [hrc, if_false]

/-- What `ufs_sync` does to the super block. -/
theorem syncSuper_spec {v : VDisk} (hv : SavedWithin start vol v) : ∃ rc v', syncSuper.run v = (rc, v') ∧
    SavedWithin start vol v' ∧ v'.io.blocks = v.io.blocks ∧ v'.blksize = v.blksize ∧
    (rc = .ok → { v'.super with modified := false } = { v.sb with modified := false }) := by
  simp only [syncSuper, Prog.run_bind, Prog.run_ite, Prog.run_pure]
  by_cases hmod : v.sb.modified = true
  · obtain ⟨rc, m, super, fs, hwrite, hsaved⟩ := diskWriteSuper_spec v
    rw [if_pos hmod, hwrite]
    rcases hsaved with ⟨hm, hne⟩ | ⟨hm, hsuper⟩
    · rw [if_neg hne]
      refine ⟨rc, _, rfl, ⟨fun h => ?_, hv.start, hv.volume⟩, rfl, rfl, fun h => absurd h hne⟩
      exact absurd ((hm.trans hmod).symm.trans h) (by simp)
    · have hwithin : SavedWithin start vol { v with
          io := { v.io with faults := fs }, sb := { v.sb with modified := false }, super } :=
        ⟨fun _ => by simp only [hsuper], hv.start, hv.volume⟩
      subst hm
      split
      · exact ⟨rc, _, rfl, hwithin, rfl, rfl, fun _ => by simp only [hsuper]⟩
      · exact ⟨rc, _, rfl, hwithin, rfl, rfl, fun _ => by simp only [hsuper]⟩
  · rw [if_neg hmod]
    have hclean := hv.saved (Bool.eq_false_of_not_eq_true hmod)
    exact ⟨.ok, v, rfl, hv, rfl, rfl, fun _ => by rw [← hclean]⟩

/-- A sync that meets no failure. -/
theorem sync_spec (hs : SavedWithin start vol s.disk) (hserves : s.Serves) (hstart : start ≤ vol)
    (hvol : vol ≤ noBlock) : SavedWithin start vol (sync.run s).2.disk ∧ (sync.run s).2.Serves ∧
      ((sync.run s).1 = (.ok, .ok) → Durable s (sync.run s).2) := by
  obtain ⟨rc, v, hsuper, hv, hblocks, hbs, hsaved⟩ := syncSuper_spec hs
  obtain ⟨hsame, hclean⟩ := pagerFlush_spec hserves.1
  have hne : ∀ {b}, b < s.disk.sb.volumeSize → b ≠ noBlock := fun hb =>
    Nat.ne_of_lt (Nat.lt_of_lt_of_le hb (hs.volume ▸ hvol))
  simp only [sync, Served.onDisk, Served.onPager, Prog.run_bind, hsuper, Prog.run_pure]
  refine ⟨hv, ⟨hsame.1, fun b hb => ?_⟩, fun hok => ?_⟩
  · rw [hv.volume, ← hs.volume] at hb
    exact ((hsame.2 b (hne hb)).trans (hserves.2 b hb)).trans (congrFun hblocks.symm b)
  · rw [Prod.mk.injEq] at hok
    refine .of_blocks (by rw [hs.start, hs.volume]; exact hstart) hbs (hsaved hok.1) fun b hb => ?_
    exact ((hsame.1.store_eq (hclean hok.2) (hne hb)).trans (hsame.2 b (hne hb))).trans (hserves.2 b hb)

end Sync

/-- A disk whose super block has one inode less in its cache than the one on the disk. -/
def unsaved : Served where
  disk := { twoFree.disk with sb := { twoFree.disk.sb with nfreeinode := 0, modified := true } }
  pager := pagerNew twoFree.disk.io false 1

end Ufs370
