import Ufs370.BlockPartition
import Ufs370.FreeInodeLaws
import Ufs370.HandleLaws

/-! The allocation of a block on a disk of which requests fail. -/

namespace Ufs370

open Lib

/-- The next `n` requests to a disk work. -/
def VDisk.Serves (v : VDisk) (n : Nat) : Prop := ∀ f ∈ v.io.faults.take n, f = .none

instance (v : VDisk) (n : Nat) : Decidable (v.Serves n) :=
  inferInstanceAs (Decidable (∀ f ∈ v.io.faults.take n, f = .none))

section Requests

variable {v : VDisk} {n : Nat}

theorem VDisk.serves_one : v.Serves 1 ↔ v.io.faults.headD .none = .none := by
  rw [Serves]
  cases v.io.faults <;> simp

/-- A request, and those after it. -/
theorem VDisk.serves_succ : v.Serves (n + 1) ↔ v.Serves 1 ∧ (v.withFaults v.io.faults.tail).Serves n := by
  rw [serves_one, Serves, Serves]
  cases h : v.io.faults <;> simp [VDisk.withFaults]

theorem VDisk.serves_congr {w : VDisk} (h : w.io.faults = v.io.faults) : w.Serves n ↔ v.Serves n := by
  rw [Serves, Serves, h]

theorem VDisk.Live.serves (hv : v.Live) : v.Serves n := by
  rw [Serves, hv.faults]
  simp

theorem vdiskWrite_ok_iff (buf : Block) (block : Nat) :
    ((vdiskWrite buf block).run v).1 = .ok ↔ v.readonly = false ∧ v.Serves 1 := by
  rcases hreadonly : v.readonly
  · rw [VDisk.serves_one]
    simp only [vdiskWrite, hreadonly, VDisk.onStore, Store.write, Prog.run_lift, Prog.run_bind,
      Store.takeFault_run, Prog.run_pure, Prog.run_ite, Bool.false_eq_true, if_false, true_and]
    cases v.io.faults.headD .none <;> simp
  · simp [vdiskWrite, hreadonly]

theorem vdiskWrite_done {buf : Block} {block : Nat} (hok : ((vdiskWrite buf block).run v).1 = .ok) :
    ((vdiskWrite buf block).run v).2 = (v.setBlock block buf).withFaults v.io.faults.tail := by
  obtain ⟨hreadonly, hserves⟩ := (vdiskWrite_ok_iff buf block).mp hok
  rw [VDisk.serves_one] at hserves
  simp only [vdiskWrite, hreadonly, VDisk.onStore, Store.write, Prog.run_lift, Prog.run_bind,
    Store.takeFault_run, hserves, Prog.run_pure, Bool.false_eq_true, if_false, ne_eq, reduceCtorEq,
    not_false_eq_true, if_true]
  rw [← hreadonly]
  rfl

theorem vdiskWrite_sb (buf : Block) (block : Nat) : ((vdiskWrite buf block).run v).2.sb = v.sb := by
  simp only [vdiskWrite, Prog.run_bind, Prog.run_ite, VDisk.onStore, Prog.run_pure]
  split <;> rfl

theorem readBuf_run (block : Nat) :
    v.Serves 2 ∧ (readBuf block).run v = (.ok (v.io.blocks block), v.withFaults v.io.faults.tail.tail) ∨
    ¬ v.Serves 2 ∧ ∃ rc fs, (readBuf block).run v = (.error rc, v.withFaults fs) ∧ rc ≠ .ok := by
  rw [VDisk.serves_succ, VDisk.serves_one, VDisk.serves_one]
  by_cases hbuf : v.io.faults.headD .none = .none
  · by_cases hread : v.io.faults.tail.headD .none = .none
    · refine .inl ⟨⟨hbuf, hread⟩, ?_⟩
      simp only [readBuf, Prog.run_bind, diskGetBuf_run, vdiskRead_run, hbuf, hread, decide_true, if_true,
        Prog.run_pure]
      rfl
    · refine .inr ⟨fun h => hread h.2, .eio, v.io.faults.tail.tail, ?_, Rc.noConfusion⟩
      simp only [readBuf, Prog.run_bind, diskGetBuf_run, vdiskRead_run, hbuf, hread, decide_true, if_true,
        if_false, Prog.run_pure]
      rfl
  · refine .inr ⟨fun h => hbuf h.1, .enomem, v.io.faults.tail, ?_, Rc.noConfusion⟩
    simp only [readBuf, Prog.run_bind, diskGetBuf_run, hbuf, decide_false, Bool.false_eq_true, if_false,
      Prog.run_pure]
    rfl

end Requests

theorem sanity_congr {v w : VDisk} (hstart : w.sb.datablockStartSector = v.sb.datablockStartSector)
    (hvolume : w.sb.volumeSize = v.sb.volumeSize) (b : Nat) :
    datablockNumberSanity w b = datablockNumberSanity v b := by
  rw [datablockNumberSanity, datablockNumberSanity, hstart, hvolume]

/-- The block that a round of the loop takes, and the disk that it leaves. -/
def allocateRound (v : VDisk) (error : Rc) : Nat × Rc × VDisk :=
  let n := u32sub v.sb.nfreeblock 1
  let v₁ := v.setFree n v.sb.freeblock (v.sb.totalFreeblock - 1)
  (v.sb.freeblock n, if n = 0 then (freeblockUpdate (v.sb.freeblock n)).run v₁ else (error, v₁))

theorem allocateLoop_round {v : VDisk} (htotal : v.sb.totalFreeblock ≠ 0) (fuel : Nat) (error : Rc) :
    (allocateLoop (fuel + 1) error).run v =
      let r := allocateRound v error
      if datablockNumberSanity r.2.2 r.1 then ((r.2.1, r.1), r.2.2) else (allocateLoop fuel r.2.1).run r.2.2 := by
  simp only [allocateLoop, allocateRound, Prog.run_bind, Prog.run_ite, htotal, if_false]
  by_cases hn : u32sub v.sb.nfreeblock 1 = 0
  · simp only [hn, if_true]
    rfl
  · simp only [hn, if_false]
    rfl

/-- A refill of the array of free blocks that works, or fails and leaves the array. -/
theorem freeblockUpdate_run {v : VDisk} {b : Nat} (hb : datablockNumberSanity v b) :
    v.Serves 2 ∧ (freeblockUpdate b).run v = (.ok, { v.withFaults v.io.faults.tail.tail with
      sb := { v.sb.copyFreeblock (v.word b 0) (fun i => v.word b (i + 1)) with
        nfreeblock := v.word b 0, modified := true } }) ∨
    ¬ v.Serves 2 ∧ ∃ rc fs, (freeblockUpdate b).run v = (rc, v.withFaults fs) ∧ rc ≠ .ok := by
  rw [VDisk.serves_succ, VDisk.serves_one, VDisk.serves_one]
  have hsane : datablockNumberSanity { v with io := { v.io with faults := v.io.faults.tail } } b := hb
  by_cases hbuf : v.io.faults.headD .none = .none
  · by_cases hread : v.io.faults.tail.headD .none = .none
    · refine .inl ⟨⟨hbuf, hread⟩, ?_⟩
      simp only [freeblockUpdate, Prog.run_bind, diskGetBuf_run, vdiskRead_run, hbuf, hread, hsane,
        decide_true, if_true, Prog.run_pure]
      rfl
    · refine .inr ⟨fun h => hread h.2, .eio, v.io.faults.tail.tail, ?_, Rc.noConfusion⟩
      simp only [freeblockUpdate, Prog.run_bind, diskGetBuf_run, vdiskRead_run, hbuf, hread, hsane,
        decide_true, if_true, if_false, Prog.run_pure]
      rfl
  · refine .inr ⟨fun h => hbuf h.1, .enomem, v.io.faults.tail, ?_, Rc.noConfusion⟩
    simp only [freeblockUpdate, Prog.run_bind, diskGetBuf_run, hbuf, decide_false, Bool.false_eq_true,
      if_false, Prog.run_pure]
    rfl

section Allocate

variable {v w : VDisk} {b : Nat} {l : List Nat} {rc : Rc}

theorem VDisk.serves_add {m n : Nat} : v.Serves (m + n) ↔
    v.Serves m ∧ (v.withFaults (v.io.faults.drop m)).Serves n := by
  simp only [Serves, VDisk.withFaults, List.take_add, List.mem_append]
  exact ⟨fun h => ⟨fun f hf => h f (.inl hf), fun f hf => h f (.inr hf)⟩,
    fun h f hf => hf.elim (h.1 f) (h.2 f)⟩

theorem VDisk.serves_two_add {n : Nat} : v.Serves (2 + n) ↔
    v.Serves 2 ∧ (v.withFaults v.io.faults.tail.tail).Serves n := by
  have htail : v.io.faults.drop 2 = v.io.faults.tail.tail := by simp [← List.drop_one]
  rw [serves_add, htail]

/-- The block that the loop of `ufs_datablock_allocate` found is cleared, with three requests. -/
theorem allocate_clear (hloop : (allocateLoop (v.sb.totalFreeblock + 1) .ok).run v = ((.ok, b), w)) :
    (datablockAllocate.run v).2.sb = w.sb ∧
      ((datablockAllocate.run v).1.1 = .ok ↔ w.readonly = false ∧ w.Serves 3) := by
  have hthree : w.Serves 3 ↔ w.Serves 2 ∧ (w.withFaults w.io.faults.tail.tail).Serves 1 := by
    rw [show 3 = 2 + 1 from rfl, VDisk.serves_two_add]
  simp only [datablockAllocate, Prog.run_bind, hloop, ne_eq, not_true_eq_false, if_false]
  rcases readBuf_run b with ⟨hserves, hrun⟩ | ⟨hserves, rc, fs, hrun, hrc⟩
  · rw [hrun]
    simp only [writeBuf, Prog.run_bind, Prog.run_pure]
    refine ⟨vdiskWrite_sb .., ?_⟩
    have hwrite := vdiskWrite_ok_iff (v := w.withFaults w.io.faults.tail.tail) zeroBlock b
    rw [hthree, ← and_assoc, and_comm (a := w.readonly = false), and_assoc]
    refine Iff.trans ?_ (hwrite.trans (and_iff_right hserves).symm)
    split <;> simp_all
  · rw [hrun]
    simp only [Prog.run_pure]
    exact ⟨rfl, iff_of_false hrc fun h => hserves (hthree.mp h.2).1⟩

/-- A loop that ends with an error code is the end of the call. -/
theorem allocate_error (hloop : (allocateLoop (v.sb.totalFreeblock + 1) .ok).run v = ((rc, b), w))
    (hrc : rc ≠ .ok) : datablockAllocate.run v = ((rc, 0), w) := by
  simp only [datablockAllocate, Prog.run_bind, hloop, hrc, ne_eq, not_false_eq_true, if_true, Prog.run_pure]

/-- The number of requests of an allocation: two more if the array of free blocks has to be refilled. -/
def VDisk.allocateRequests (v : VDisk) : Nat := if v.sb.nfreeblock = 1 then 5 else 3

/-- One block leaves the list before anything can fail. -/
theorem datablockAllocate_pops (h : FreeList v (b :: l)) :
    (datablockAllocate.run v).2.sb.totalFreeblock = l.length ∧
      ((datablockAllocate.run v).1.1 = .ok ↔ v.readonly = false ∧ v.Serves v.allocateRequests) := by
  have hpos : 0 < v.sb.nfreeblock := h.holds.count_pos
  have hsub : u32sub v.sb.nfreeblock 1 = v.sb.nfreeblock - 1 := u32sub_of_le hpos
  have htotal : v.sb.totalFreeblock = l.length + 1 := h.total
  have htop : v.sb.freeblock (v.sb.nfreeblock - 1) = b := h.holds.top
  have hb : datablockNumberSanity v b := h.sane b (List.mem_cons_self ..)
  have hloop {rc : Rc} {w : VDisk} (hround : allocateRound v .ok = (b, rc, w))
      (hw : datablockNumberSanity w b) :
      (allocateLoop (v.sb.totalFreeblock + 1) .ok).run v = ((rc, b), w) := by
    rw [allocateLoop_round (htotal ▸ Nat.succ_ne_zero _), hround]
    exact if_pos hw
  by_cases hone : v.sb.nfreeblock = 1
  · -- the array is refilled with two requests, and the sanity check reads what no refill touches
    have hsub0 : u32sub v.sb.nfreeblock 1 = 0 := by rw [hsub, hone]
    have htop0 : v.sb.freeblock 0 = b := by rw [← htop, hone]
    have hsane : datablockNumberSanity (v.setFree 0 v.sb.freeblock l.length) b := hb
    have hround : allocateRound v .ok =
        (b, (freeblockUpdate b).run (v.setFree 0 v.sb.freeblock l.length)) := by
      simp only [allocateRound, hsub0, htop0, htotal, Nat.add_sub_cancel, if_true]
    rw [VDisk.allocateRequests, if_pos hone, show 5 = 2 + 3 from rfl, VDisk.serves_two_add]
    rcases freeblockUpdate_run hsane with ⟨hserves, hrun⟩ | ⟨hserves, rc, fs, hrun, hrc⟩
    · rw [hrun] at hround
      obtain ⟨hsb, hok⟩ := allocate_clear (hloop hround ((sanity_congr rfl rfl b).trans hb))
      have hserves' : v.Serves 2 := hserves
      have hrest : VDisk.Serves _ 3 ↔ (v.withFaults v.io.faults.tail.tail).Serves 3 := VDisk.serves_congr rfl
      rw [hsb, hok, hrest]
      exact ⟨rfl, and_congr_right fun _ => (and_iff_right hserves').symm⟩
    · rw [hrun] at hround
      rw [allocate_error (hloop hround hsane) hrc]
      exact ⟨rfl, iff_of_false hrc fun h => hserves h.2.1⟩
  · have hne : u32sub v.sb.nfreeblock 1 ≠ 0 := by omega
    have hround : allocateRound v .ok = (b, .ok, v.setFree (v.sb.nfreeblock - 1) v.sb.freeblock l.length) := by
      rw [allocateRound, if_neg hne, hsub, htop, htotal, Nat.add_sub_cancel]
    have hsane : datablockNumberSanity (v.setFree (v.sb.nfreeblock - 1) v.sb.freeblock l.length) b := hb
    obtain ⟨hsb, hok⟩ := allocate_clear (hloop hround hsane)
    rw [VDisk.allocateRequests, if_neg hone, hsb, hok]
    exact ⟨rfl, Iff.rfl⟩

/-- A call that fails leaves the free blocks as they were exactly if there were none, and it fails on a list
with blocks exactly if one of its requests does. -/
theorem allocate_failure_keeps (h : FreeList v l) :
    ((datablockAllocate.run v).1.1 ≠ .ok → ∃ l', FreeList (datablockAllocate.run v).2 l' ∧ l'.Perm l) ↔
      v.sb.totalFreeblock = 0 ∨ v.readonly = false ∧ v.Serves v.allocateRequests := by
  cases l with
  | nil =>
    rw [datablockAllocate_nil h]
    exact iff_of_true (fun _ => ⟨[], h, .refl _⟩) (.inl h.total)
  | cons b l =>
    have htotal : v.sb.totalFreeblock ≠ 0 := by
      rw [h.total]
      exact Nat.succ_ne_zero _
    obtain ⟨hpop, hok⟩ := datablockAllocate_pops h
    rw [or_iff_right htotal, ← hok]
    constructor
    · intro hkeeps
      by_contra hrc
      obtain ⟨l', hl', hperm⟩ := hkeeps hrc
      have hlength := hl'.total.symm.trans hpop
      rw [hperm.length_eq, List.length_cons] at hlength
      exact absurd hlength (Nat.succ_ne_self _)
    · exact fun hrc hne => absurd hrc hne

end Allocate

/-- With every request served there is nothing to keep. -/
theorem allocate_failure_keeps_pair :
    (datablockAllocate.run pairDisk).1.1 = .ok ∧ ((datablockAllocate.run pairDisk).1.1 ≠ .ok →
      ∃ l', FreeList (datablockAllocate.run pairDisk).2 l' ∧ l'.Perm [10, 11]) :=
  ⟨by decide, (allocate_failure_keeps pairDisk_wellFormed.list).mpr (.inr ⟨rfl, by decide⟩)⟩

/-- The new block of two free ones cannot be read. -/
def unreadDisk : VDisk := pairDisk.withFaults [.none, .fail]

/-- The call fails, and the block that it took is in no list. -/
theorem not_allocate_failure_keeps :
    FreeList unreadDisk [10, 11] ∧ (datablockAllocate.run unreadDisk).1.1 = .eio ∧
      ¬ ∃ l', FreeList (datablockAllocate.run unreadDisk).2 l' ∧ l'.Perm [10, 11] := by
  obtain ⟨hvolume, hholds, hnodup, hsane, htotal⟩ := pairDisk_wellFormed.list
  have hlist : FreeList unreadDisk [10, 11] := ⟨hvolume, hholds, hnodup, hsane, htotal⟩
  refine ⟨hlist, by decide, fun ⟨l', hl', hperm⟩ => ?_⟩
  have hlength := hl'.total.symm.trans (datablockAllocate_pops hlist).1
  rw [hperm.length_eq] at hlength
  exact absurd hlength (by decide)

end Ufs370
