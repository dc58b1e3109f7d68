import Ufs370.CacheLaws
import Ufs370.InodeHandout
import Ufs370.InodeNumbering
import Ufs370.Lib.Runs

/-! The free inodes of a disk and their count, over runs of allocations. -/

namespace Ufs370

open Lib

/-- The inodes of which the slot has no mode. -/
def VDisk.freeInodes (v : VDisk) : List Nat :=
  (List.range' 1 v.inodes).filter fun m => decide ((v.slot m).mode = 0)

/-- One allocation, with the write of an inode that has a mode if it works. -/
def allocateStep (dinode : Dinode) : Prog VDisk (Rc × Nat) := do
  let (error, ino) ← inodeAllocate
  if error ≠ .ok then
    return (error, ino)
  let _ ← clientWriteback ino dinode
  return (.ok, ino)

/-- A disk of which no request fails, with the number of its free inodes and some of them in the cache. -/
structure FreeCounted (v : VDisk) : Prop where
  geometry : Geometry v
  table : v.TableLayout
  live : v.Live
  writable : v.sb.readonly = false
  total : v.sb.totalFreeinode = v.freeInodes.length
  nodup : v.freeCache.Nodup
  cached : ∀ m ∈ v.freeCache, m ∈ v.freeInodes

/-- Every free inode can be had: the count is right, a refill caches only numbers that are accepted, and an
allocation is refused only if there is no free inode. -/
structure FreeUsable (v : VDisk) : Prop where
  total : v.sb.totalFreeinode = v.freeInodes.length
  cached : ∀ i, v.sb.nfreeinode ≤ i → i < (freeinodeUpdate.run v).2.sb.nfreeinode →
    inodeNumberSanity v ((freeinodeUpdate.run v).2.sb.freeinode i) = .ok
  refused : (inodeAllocate.run v).1.1 ≠ .ok → v.freeInodes = []

section Table

variable {v w : VDisk} {m : Nat}

theorem Geometry.tableGeometry (g : Geometry v) (hper : v.TableLayout) : v.TableGeometry where
  shift := g.blksize
  perBlock := by
    rw [hper.blksize g.table, Nat.mul_comm]
  blksize := Nat.lt_of_le_of_lt g.blksize_bounds.2 (by decide)
  ilist := Nat.le_of_lt g.data
  start := Nat.lt_of_le_of_lt g.order g.volume

theorem Geometry.inodes_le (g : Geometry v) (hper : v.TableLayout) : v.inodes ≤ 33554432 := by
  have hbytes := g.ilistBytes
  rw [(g.tableGeometry hper).bytes] at hbytes
  simp only [dinodeSize] at hbytes
  omega

theorem mem_freeInodes (g : Geometry v) (hper : v.TableLayout) :
    m ∈ v.freeInodes ↔ InodeNumber v m ∧ (v.slot m).mode = 0 := by
  rw [(g.tableGeometry hper).number, VDisk.freeInodes, List.mem_filter, List.mem_range'_1, decide_eq_true_eq]
  constructor
  · rintro ⟨⟨hlo, hhi⟩, hmode⟩
    exact ⟨⟨hlo, by omega⟩, hmode⟩
  · rintro ⟨⟨hlo, hhi⟩, hmode⟩
    exact ⟨⟨hlo, by omega⟩, hmode⟩

theorem freeInodes_nodup (v : VDisk) : v.freeInodes.Nodup :=
  List.Nodup.filter _ (List.nodup_range' ..)

theorem SameLayout.freeInodes (h : SameLayout v w) (hblocks : w.io.blocks = v.io.blocks) :
    w.freeInodes = v.freeInodes := by
  rw [VDisk.freeInodes, VDisk.freeInodes, h.inodes]
  exact List.filter_congr fun m _ => by rw [h.slot hblocks]

theorem SameLayout.numberSanity (h : SameLayout v w) : inodeNumberSanity w m = inodeNumberSanity v m := by
  rw [inodeNumberSanity, inodeNumberSanity, h.blksize, h.start]

end Table

section Refill

/-- Every request works, and the disk and its super block may be written. -/
structure Quiet (v : VDisk) : Prop where
  live : v.Live
  writable : v.sb.readonly = false

theorem diskGetBuf_quiet : Prog.Triple Quiet diskGetBuf fun ok v => ok = true ∧ Quiet v where
  run v hv := by
    rw [diskGetBuf_live hv.live]
    exact ⟨rfl, hv⟩

theorem vdiskRead_quiet (block : Nat) :
    Prog.Triple Quiet (vdiskRead block) fun r v => (∃ buf, r = .ok buf) ∧ Quiet v where
  run v hv := by
    rw [vdiskRead_live hv.live]
    exact ⟨⟨_, rfl⟩, hv⟩

theorem freeinodeScan_quiet (left i k inode : Nat) :
    Prog.Triple Quiet (freeinodeScan left i k inode) fun r v => r.1 = .ok ∧ Quiet v := by
  induction left generalizing i k inode with
  | zero => exact .pure fun v hv => ⟨rfl, hv⟩
  | succ left ih =>
    refine .bind diskGetBuf_quiet fun ok => .ite (fun _ => ?_) fun hno => .pure fun v hv => absurd hv.1 hno
    refine .bind ((vdiskRead_quiet i).pre fun v hv => hv.2) fun r => ?_
    cases r with
    | error rc => exact ⟨fun v hv => absurd hv.1 (by simp)⟩
    | ok buf =>
      refine .get fun v hv => .bind (.modify (Q := fun _ => Quiet) fun w hw => ?_) fun _ => ih ..
      obtain ⟨xs, hxs⟩ := freeinodeScanBlock_spec buf v.sb.inodesPerBlock 0 k inode v.sb
      obtain ⟨next, hscan, -⟩ := hxs.run
      obtain ⟨f, m, hfill⟩ := Superblock.fill_same v.sb k xs
      rw [hw, hscan, hfill]
      exact ⟨⟨hv.2.live.faults, hv.2.live.writable⟩, hv.2.writable⟩

theorem diskWriteSuper_quiet : Prog.Triple Quiet diskWriteSuper fun rc v => rc = .ok ∧ Quiet v where
  run v hv := by
    have hfaults := hv.live.faults
    simp only [diskWriteSuper, diskWriteSector1, diskWriteBoot, Prog.run_bind, VDisk.onStore,
      Store.alloc_nil hfaults, Store.takeFault_nil hfaults, hv.writable, hv.live.writable, Bool.false_eq_true,
      if_false, ne_eq, reduceCtorEq, not_false_eq_true, if_true, not_true_eq_false, Prog.run_pure, true_and]
    exact ⟨⟨hfaults, rfl⟩, rfl⟩

/-- A refill that no request gets in the way of. -/
theorem freeinodeUpdate_quiet : Prog.Triple Quiet freeinodeUpdate fun rc v => rc = .ok ∧ Quiet v := by
  refine .get fun v hv => .ite (fun hro => ?_) fun _ => ?_
  · exact ⟨fun _ _ => absurd hro (by simp [hv.writable])⟩
  · refine .bind ((freeinodeScan_quiet ..).pre fun w hw => hw ▸ hv) fun r => ?_
    refine .get fun w hw => .ite (fun _ => ?_) fun _ => .pure fun w' hw' => ⟨hw.1, hw' ▸ hw.2⟩
    have hflags : Quiet { w with sb := { w.sb with modified := false, nfreeinode := r.2 } } :=
      ⟨⟨hw.2.live.faults, hw.2.live.writable⟩, hw.2.writable⟩
    refine .bind (.modify (Q := fun _ => Quiet) fun w' hw' => hw' ▸ hflags) fun _ => ?_
    refine .bind diskWriteSuper_quiet fun rc => .ite (fun hne => ?_) fun _ => .pure fun w' hw' => ⟨hw.1, hw'.2⟩
    exact ⟨fun w' hw' => absurd hw'.1 hne⟩

end Refill

section Allocate

variable {v w : VDisk}

/-- From `v` to `w` number `x` was taken from the cache, after a refill or not. -/
structure TookFree (v : VDisk) (x : Nat) (w : VDisk) : Prop where
  layout : SameLayout v w
  quiet : Quiet w
  blocks : w.io.blocks = v.io.blocks
  total : w.sb.totalFreeinode = v.sb.totalFreeinode - 1
  nodup : w.freeCache.Nodup
  cached : ∀ m ∈ w.freeCache, m ∈ v.freeInodes ∧ m ≠ x

theorem inodeTake_free (hq : Quiet v) (hnodup : v.freeCache.Nodup) (hcached : ∀ m ∈ v.freeCache, m ∈ v.freeInodes)
    (hn : 0 < v.sb.nfreeinode) (htotal : 0 < v.sb.totalFreeinode) : ∃ x ∈ v.freeInodes, ∃ w, TookFree v x w ∧
      inodeTake.run v = ((inodeNumberSanity v x, if inodeNumberSanity v x = .ok then x else 0), w) := by
  have hsub : u32sub v.sb.nfreeinode 1 = v.sb.nfreeinode - 1 := u32sub_of_le hn
  have hsub' : u32sub v.sb.totalFreeinode 1 = v.sb.totalFreeinode - 1 := u32sub_of_le htotal
  let x := v.sb.freeinode (v.sb.nfreeinode - 1)
  let w : VDisk := { v with sb := { v.sb with
    nfreeinode := v.sb.nfreeinode - 1, totalFreeinode := v.sb.totalFreeinode - 1, modified := true } }
  have hcache : v.freeCache = w.freeCache ++ [x] := by
    rw [VDisk.freeCache]
    conv_lhs => rw [← Nat.sub_add_cancel hn, List.range_succ, List.map_append]
    rfl
  rw [hcache] at hnodup hcached
  obtain ⟨hnodup', -, hdisj⟩ := List.nodup_append'.mp hnodup
  refine ⟨x, hcached x (List.mem_append_right _ (List.mem_singleton_self x)), w,
    ⟨.take .., ⟨⟨hq.live.faults, hq.live.writable⟩, hq.writable⟩, rfl, rfl, hnodup', fun m hm => ?_⟩, ?_⟩
  · refine ⟨hcached m (List.mem_append_left _ hm), fun hx => ?_⟩
    exact hdisj hm (hx ▸ List.mem_singleton_self x)
  · simp only [inodeTake, Prog.run_bind, hsub, hsub']
    have hsanity : inodeNumberSanity w x = inodeNumberSanity v x := rfl
    change (if inodeNumberSanity w x ≠ .ok then pure (inodeNumberSanity w x, 0) else pure (Rc.ok, x) : Prog VDisk _).run w = _
    rw [hsanity]
    by_cases hok : inodeNumberSanity v x = .ok
    · rw [if_neg (not_not.mpr hok), if_pos hok, hok]
      rfl
    · rw [if_pos hok, if_neg hok]
      rfl

/-- A free slot is found by a scan that no request gets in the way of. -/
theorem finds_free (h : FreeCounted v) {m : Nat} (hm : m ∈ v.freeInodes) :
    v.Finds (v.sb.datablockStartSector - v.sb.ilistSector) v.sb.ilistSector := by
  have g := h.geometry.tableGeometry h.table
  obtain ⟨hnum, hmode⟩ := (mem_freeInodes h.geometry h.table).mp hm
  obtain ⟨hpos, hle⟩ := g.number.mp hnum
  rw [VDisk.slot, location_eq g (h.geometry.inodes_le h.table) hnum] at hmode
  have hper : 0 < v.sb.inodesPerBlock := by
    by_contra hzero
    rw [VDisk.inodes, Nat.eq_zero_of_not_pos hzero, Nat.mul_zero] at hle
    omega
  refine ⟨(m - 1) / v.sb.inodesPerBlock, ?_, ⟨(m - 1) % v.sb.inodesPerBlock, Nat.mod_lt _ hper, hmode⟩, ?_, ?_⟩
  · refine (Nat.div_lt_iff_lt_mul hper).mpr ?_
    change m - 1 < v.inodes
    omega
  · rw [h.live.faults]
    rfl
  · rw [h.live.faults]
    rfl

/-- A refill of an empty cache on a disk with a free inode. -/
theorem freeinodeUpdate_free (h : FreeCounted v) (hempty : v.sb.nfreeinode = 0) (hfree : v.freeInodes ≠ []) :
    ∃ w, freeinodeUpdate.run v = (.ok, w) ∧ SameLayout v w ∧ Quiet w ∧ w.io.blocks = v.io.blocks ∧
      w.sb.totalFreeinode = v.sb.totalFreeinode ∧ w.freeCache.Nodup ∧ (∀ m ∈ w.freeCache, m ∈ v.freeInodes) ∧
      0 < w.sb.nfreeinode := by
  obtain ⟨m, hm⟩ := List.exists_mem_of_ne_nil _ hfree
  obtain ⟨rc, xs, w, hrun, hw⟩ := freeinodeUpdate_spec h.geometry h.table h.writable hempty
  have hquiet := freeinodeUpdate_quiet.run v ⟨h.live, h.writable⟩
  rw [hrun] at hquiet
  obtain ⟨rfl, hquiet⟩ := hquiet
  have hcache : w.freeCache = xs := by
    have := freeCache_fill (v := v) xs w.sb.modified
    rw [← hw.sb] at this
    exact this
  obtain ⟨f, mod, hfill⟩ := Superblock.fill_same v.sb 0 xs
  have hsb := hw.sb
  rw [hfill] at hsb
  refine ⟨w, hrun, ⟨by rw [hw.same], by rw [hsb], by rw [hsb], by rw [hsb], by rw [hsb], by rw [hsb]⟩, hquiet,
    by rw [hw.same], by rw [hsb], ?_, fun x hx => ?_, ?_⟩
  · rw [hcache]
    exact hw.sorted.imp Nat.ne_of_lt
  · rw [hcache] at hx
    exact (mem_freeInodes h.geometry h.table).mpr (hw.mem x hx)
  · rw [hsb]
    exact List.length_pos_of_ne_nil (hw.some rfl (finds_free h hm))

/-- An allocation takes a free inode and fails only if there is none or if the number is refused. -/
theorem inodeAllocate_free (h : FreeCounted v) :
    v.freeInodes = [] ∧ inodeAllocate.run v = ((.enospc, 0), v) ∨
      ∃ x ∈ v.freeInodes, ∃ w, TookFree v x w ∧
        inodeAllocate.run v = ((inodeNumberSanity v x, if inodeNumberSanity v x = .ok then x else 0), w) := by
  simp only [inodeAllocate, Prog.run_bind, h.writable, Bool.false_eq_true, if_false]
  by_cases htotal : v.sb.totalFreeinode = 0
  · refine .inl ⟨List.eq_nil_of_length_eq_zero (h.total ▸ htotal), ?_⟩
    rw [if_pos htotal, Prog.run_pure]
  have hpos := Nat.pos_of_ne_zero htotal
  have hfree : v.freeInodes ≠ [] := List.ne_nil_of_length_pos (h.total ▸ hpos)
  rw [if_neg htotal]
  right
  by_cases hempty : v.sb.nfreeinode = 0
  · obtain ⟨u, hrun, hlay, hquiet, hblocks, hsame, hnodup, hcached, hn⟩ := freeinodeUpdate_free h hempty hfree
    have hslots := hlay.freeInodes hblocks
    obtain ⟨x, hx, w, hw, htake⟩ := inodeTake_free hquiet hnodup (hslots ▸ hcached) hn (hsame ▸ hpos)
    rw [hslots] at hx
    refine ⟨x, hx, w, ⟨hlay.trans hw.layout, hw.quiet, hw.blocks.trans hblocks, hsame ▸ hw.total, hw.nodup,
      hslots ▸ hw.cached⟩, ?_⟩
    rw [if_pos hempty]
    simp only [Prog.run_bind, hrun, ne_eq, not_true_eq_false, if_false, htake, hlay.numberSanity]
  · obtain ⟨x, hx, w, hw, htake⟩ := inodeTake_free ⟨h.live, h.writable⟩ h.nodup h.cached
      (Nat.pos_of_ne_zero hempty) hpos
    refine ⟨x, hx, w, hw, ?_⟩
    rw [if_neg hempty, htake]

end Allocate

section Write

variable {v w : VDisk} {x : Nat} {d : Dinode}

/-- From `v` to `w` the slot of inode `x` was written. -/
structure WroteSlot (v : VDisk) (x : Nat) (d : Dinode) (w : VDisk) : Prop where
  sb : w.sb = v.sb
  blksize : w.blksize = v.blksize
  live : w.Live
  own : w.slot x = d
  other : ∀ m, InodeNumber v m → m ≠ x → w.slot m = v.slot m

theorem clientWriteback_slot (g : Geometry v) (hv : v.Live) (hx : InodeNumber v x) :
    ∃ w, (clientWriteback x d).run v = (.ok, w) ∧ WroteSlot v x d w := by
  obtain ⟨u, hget, taken⟩ := inodeGet_live g hv hx
  obtain ⟨ms, rfl⟩ : ∃ ms, u = { v with minodes := ms } := ⟨_, taken.same⟩
  let u : VDisk := ({ v with minodes := ms } : VDisk).setDinode x fun _ => d
  have hu : u.Live := ⟨hv.faults, hv.writable⟩
  have hcached : u.Cached x := VDisk.cached_setDinode.mpr taken.cached
  have hdin : u.din x = d := by
    rw [hcached.din]
    exact VDisk.inode_setDinode_same taken.cached
  have hlay : SameLayout v u := ⟨rfl, rfl, rfl, rfl, rfl, rfl⟩
  have gu := hlay.geometry g
  have hxu := hlay.inodeNumber hx
  have hcached' : (u.writtenBack x).Cached x := by
    rw [VDisk.Cached, minode?_writtenBack_same, Option.isSome_map]
    exact hcached
  obtain ⟨w, hrel, released⟩ := inodeRel_run hcached'
  obtain ⟨ms', rfl⟩ : ∃ ms', w = { u.writtenBack x with minodes := ms' } := ⟨_, released.same⟩
  have hslot (m : Nat) : VDisk.slot { u.writtenBack x with minodes := ms' } m = (u.writtenBack x).slot m := rfl
  have hslots (m : Nat) : u.slot m = v.slot m := rfl
  refine ⟨{ u.writtenBack x with minodes := ms' }, ?_, rfl, rfl, ⟨hv.faults, hv.writable⟩, ?_, fun m hm hne => ?_⟩
  · simp only [clientWriteback, Prog.run_bind, hget, modifyDinode, Prog.run_pure, inodeWriteback_live gu hu hxu, hrel, u]
  · rw [hslot, slot_writtenBack_same gu.table hxu, hdin]
  · rw [hslot, slot_writtenBack_other gu.table hxu (hlay.inodeNumber hm) hne, hslots]

end Write

section Run

variable {v v₀ w : VDisk} {x : Nat} {d : Dinode} {hist : List (Dinode × Rc × Nat)}

theorem numberSanity_ok (hpos : 1 < x) :
    inodeNumberSanity v x = .ok ↔ x < maxInode v.blksize v.sb.datablockStartSector := by
  rw [inodeNumberSanity]
  split
  · rename_i hbad
    exact iff_of_false (by decide) fun hlt => hbad.elim (fun h => absurd hpos (Nat.not_lt.mpr (Nat.lt_succ_iff.mp h)))
      fun h => absurd hlt (Nat.not_lt.mpr h)
  · rename_i hgood
    exact iff_of_true rfl (Nat.lt_of_not_le fun h => hgood (.inr h))

/-- What the write of its mode makes of a free inode that was taken. -/
theorem TookFree.written (h : FreeCounted v) (hx : x ∈ v.freeInodes) (htook : TookFree v x w) (hd : d.mode ≠ 0) :
    ∃ w', (clientWriteback x d).run w = (.ok, w') ∧ SameLayout v w' ∧ FreeCounted w' ∧
      w'.freeInodes = v.freeInodes.erase x := by
  have hnum := (mem_freeInodes h.geometry h.table).mp hx
  have gw := htook.layout.geometry h.geometry
  obtain ⟨w', hrun, hw⟩ := clientWriteback_slot gw htook.quiet.live (htook.layout.inodeNumber hnum.1) (d := d)
  have hlay : SameLayout v w' := htook.layout.trans (.of_sb hw.blksize hw.sb)
  have hfree : w'.freeInodes = v.freeInodes.erase x := by
    rw [(freeInodes_nodup v).erase_eq_filter, VDisk.freeInodes, VDisk.freeInodes, List.filter_filter, hlay.inodes]
    refine List.filter_congr fun m hm => ?_
    have hmnum : InodeNumber v m := by
      rw [(h.geometry.tableGeometry h.table).number]
      have := List.mem_range'_1.mp hm
      omega
    by_cases hmx : m = x
    · subst hmx
      simp [hw.own, hd]
    · rw [hw.other m (htook.layout.inodeNumber hmnum) hmx, htook.layout.slot htook.blocks]
      simp [hmx]
  have hcache : w'.freeCache = w.freeCache := by
    rw [VDisk.freeCache, VDisk.freeCache, hw.sb]
  refine ⟨w', hrun, hlay, ⟨hlay.geometry h.geometry, hlay.tableLayout h.table, hw.live, ?_, ?_, ?_, fun m hm => ?_⟩,
    hfree⟩
  · rw [hw.sb]
    exact htook.quiet.writable
  · rw [hfree, List.length_erase_of_mem hx, hw.sb, htook.total, h.total]
  · exact hcache ▸ htook.nodup
  · rw [hcache] at hm
    rw [hfree, (freeInodes_nodup v).mem_erase_iff]
    exact (htook.cached m hm).symm

/-- An allocation after which the inode is no longer free. -/
theorem allocateStep_free (h : FreeCounted v) (hd : d.mode ≠ 0)
    (hsane : ∀ m ∈ v.freeInodes, inodeNumberSanity v m = .ok) : SameLayout v ((allocateStep d).run v).2 ∧
      FreeCounted ((allocateStep d).run v).2 ∧
      ∃ x, ((allocateStep d).run v).2.freeInodes = v.freeInodes.erase x := by
  rcases inodeAllocate_free h with ⟨hnone, hrun⟩ | ⟨x, hx, w, htook, hrun⟩
  · simp only [allocateStep, Prog.run_bind, hrun, ne_eq, reduceCtorEq, not_false_eq_true, if_true, Prog.run_pure]
    exact ⟨.refl v, h, 0, by rw [hnone]; rfl⟩
  · obtain ⟨w', hwrite, hlay, hnext, hfree⟩ := htook.written h hx hd
    rw [hsane x hx, if_pos rfl] at hrun
    simp only [allocateStep, Prog.run_bind, hrun, ne_eq, not_true_eq_false, if_false, hwrite, Prog.run_pure]
    exact ⟨hlay, hnext, x, hfree⟩

theorem FreeCounted.usable (h : FreeCounted v) (hsane : ∀ m ∈ v.freeInodes, inodeNumberSanity v m = .ok) :
    FreeUsable v where
  total := h.total
  cached i hlo hhi := by
    have g := h.geometry.tableGeometry h.table
    have hfound := freeinodeUpdate_adds g (h.geometry.inodes_le h.table) hlo hhi
    exact hsane _ ((mem_freeInodes h.geometry h.table).mpr hfound)
  refused hne := by
    rcases inodeAllocate_free h with ⟨hnone, -⟩ | ⟨x, hx, w, -, hrun⟩
    · exact hnone
    · rw [hrun] at hne
      exact absurd (hsane x hx) hne

/-- A free inode with a number that is refused is reached by allocations. -/
theorem not_freeUsable {n m : Nat} (hn : v.freeInodes.length = n) (h : FreeCounted v) (hd : d.mode ≠ 0)
    (hrun : Run allocateStep (fun _ d => d.mode ≠ 0) v₀ hist v) (hm : m ∈ v.freeInodes)
    (hrefused : inodeNumberSanity v m ≠ .ok) :
    ¬ ∀ hist v, Run allocateStep (fun _ d => d.mode ≠ 0) v₀ hist v → FreeUsable v := by
  intro husable
  induction n generalizing v hist with
  | zero => exact absurd hm (List.eq_nil_of_length_eq_zero hn ▸ List.not_mem_nil)
  | succ n ih =>
    rcases inodeAllocate_free h with ⟨hnone, -⟩ | ⟨x, hx, w, htook, halloc⟩
    · exact absurd hm (hnone ▸ List.not_mem_nil)
    have hok : inodeNumberSanity v x = .ok := by
      by_contra hno
      have hnone := (husable hist v hrun).refused (by rw [halloc]; exact hno)
      exact absurd hm (hnone ▸ List.not_mem_nil)
    have hmx : m ≠ x := fun heq => hrefused (heq ▸ hok)
    obtain ⟨w', hwrite, hlay, hnext, hfree⟩ := htook.written h hx hd
    have hstep : (allocateStep d).run v = ((.ok, x), w') := by
      rw [hok, if_pos rfl] at halloc
      simp only [allocateStep, Prog.run_bind, halloc, ne_eq, not_true_eq_false, if_false, hwrite, Prog.run_pure]
    have hrun' := hrun.cons d hd
    rw [hstep] at hrun'
    refine ih ?_ hnext hrun' ?_ ?_
    · rw [hfree, List.length_erase_of_mem hx, hn, Nat.add_sub_cancel]
    · rw [hfree]
      exact (List.mem_erase_of_ne hmx).mpr hm
    · rwa [hlay.numberSanity]

/-- Every free inode can be had throughout every run unless a free one has a number out of range. -/
theorem freeUsable_iff (h : FreeCounted v₀) (hone : 1 ∉ v₀.freeInodes) :
    (∀ hist v, Run allocateStep (fun _ d => d.mode ≠ 0) v₀ hist v → FreeUsable v) ↔
      ∀ m ∈ v₀.freeInodes, m < maxInode v₀.blksize v₀.sb.datablockStartSector := by
  have hsanity : ∀ m ∈ v₀.freeInodes, (inodeNumberSanity v₀ m = .ok ↔
      m < maxInode v₀.blksize v₀.sb.datablockStartSector) := by
    intro m hm
    have hpos := ((mem_freeInodes h.geometry h.table).mp hm).1.pos
    have hne : m ≠ 1 := fun heq => hone (heq ▸ hm)
    exact numberSanity_ok (by omega)
  constructor
  · intro husable m hm
    by_contra hno
    exact not_freeUsable (d := { Dinode.zero with mode := 1 }) rfl h (by decide) .nil hm
      (mt (hsanity m hm).mp hno) husable
  · intro hrange hist v hrun
    have hinv : SameLayout v₀ v ∧ FreeCounted v ∧ ∀ m ∈ v.freeInodes, m ∈ v₀.freeInodes := by
      refine hrun.invariant (I := fun v => SameLayout v₀ v ∧ FreeCounted v ∧ ∀ m ∈ v.freeInodes, m ∈ v₀.freeInodes)
        ⟨.refl v₀, h, fun m hm => hm⟩ ?_
      rintro v d ⟨hlay, hv, hsub⟩ hd
      obtain ⟨hlay', hnext, x, hfree⟩ := allocateStep_free hv hd fun m hm => by
        rw [hlay.numberSanity]
        exact (hsanity m (hsub m hm)).mpr (hrange m (hsub m hm))
      refine ⟨hlay.trans hlay', hnext, fun m hm => hsub m ?_⟩
      rw [hfree] at hm
      exact List.mem_of_mem_erase hm
    obtain ⟨hlay, hv, hsub⟩ := hinv
    refine hv.usable fun m hm => ?_
    rw [hlay.numberSanity]
    exact (hsanity m (hsub m hm)).mpr (hrange m (hsub m hm))

end Run

theorem twoFree_counted : FreeCounted twoFree.disk where
  geometry := twoFree_wellFormed.geometry
  table := rfl
  live := ⟨rfl, rfl⟩
  writable := rfl
  total := by decide +kernel
  nodup := twoFree_wellFormed.nodup
  cached := by decide +kernel

/-- Of eight inodes the last one is in use. -/
theorem freeUsable_twoFree : twoFree.disk.freeInodes = [3, 7] ∧
    ∀ hist v, Run allocateStep (fun _ d => d.mode ≠ 0) twoFree.disk hist v → FreeUsable v :=
  ⟨by decide +kernel, (freeUsable_iff twoFree_counted (by decide +kernel)).mpr (by decide +kernel)⟩

/-- Eight inodes, of which 4 and 8 are free, with an empty cache. -/
def lastFree : VDisk := { twoFree.disk with
  sb := { twoFree.disk.sb with nfreeinode := 0 }
  io := ⟨fun _ o => if o / dinodeSize = 3 then 0 else 1, []⟩ }

theorem not_freeUsable_lastFree : FreeCounted lastFree ∧ 1 ∉ lastFree.freeInodes ∧
    ¬ ∀ hist v, Run allocateStep (fun _ d => d.mode ≠ 0) lastFree hist v → FreeUsable v := by
  have counted : FreeCounted lastFree := by
    refine ⟨⟨?_, ?_, ?_, ?_, ?_, ?_, ?_, ?_⟩, rfl, ⟨rfl, rfl⟩, rfl, ?_, ?_, ?_⟩
    all_goals decide +kernel
  exact ⟨counted, by decide +kernel, not_freeUsable (d := { Dinode.zero with mode := 1 }) rfl counted (by decide) .nil
    (m := 8) (by decide +kernel) (by decide +kernel)⟩

end Ufs370
