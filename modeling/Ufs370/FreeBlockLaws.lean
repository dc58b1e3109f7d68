import Ufs370.FreeBlock
import Ufs370.Lib.LinkedStack
import Ufs370.Lib.Runs
import Mathlib.Data.Finset.Card
import Mathlib.Order.Interval.Finset.Nat

/-! Allocation pops the free list and deallocation pushes onto it. -/

namespace Ufs370

open Lib Lib.LinkedStack
open scoped List

namespace VDisk

/-- What a block holds if it is a link of the free list. -/
def saved (v : VDisk) : Saved := fun b => (v.word b 0, fun i => v.word b (i + 1))

def setFree (v : VDisk) (nfreeblock : Nat) (freeblock : Nat → Nat) (totalFreeblock : Nat) : VDisk :=
  { v with sb := { v.sb with nfreeblock, freeblock, totalFreeblock, modified := true } }

section Simp

variable (v : VDisk) (n t b : Nat) (f : Nat → Nat) (buf : Block)

@[simp] theorem setFree_io : (v.setFree n f t).io = v.io := rfl
@[simp] theorem setFree_word : (v.setFree n f t).word = v.word := rfl
@[simp] theorem setFree_minodes : (v.setFree n f t).minodes = v.minodes := rfl
@[simp] theorem setFree_blksize : (v.setFree n f t).blksize = v.blksize := rfl
@[simp] theorem setBlock_sb : (v.setBlock b buf).sb = v.sb := rfl
@[simp] theorem setBlock_minodes : (v.setBlock b buf).minodes = v.minodes := rfl
@[simp] theorem setBlock_blksize : (v.setBlock b buf).blksize = v.blksize := rfl

@[simp] theorem setBlock_self : (v.setBlock b buf).io.blocks b = buf := Function.update_self ..

variable {b} in
theorem setBlock_other {c} (h : c ≠ b) : (v.setBlock b buf).io.blocks c = v.io.blocks c :=
  Function.update_of_ne h ..

@[simp] theorem setBlock_same : v.setBlock b (v.io.blocks b) = v := by
  simp [setBlock]

@[simp] theorem setFree_setFree (n' t' : Nat) (f' : Nat → Nat) :
    (v.setFree n f t).setFree n' f' t' = v.setFree n' f' t' := rfl

@[simp] theorem sanity_setFree :
    datablockNumberSanity (v.setFree n f t) = datablockNumberSanity v := rfl

@[simp] theorem sanity_setBlock :
    datablockNumberSanity (v.setBlock b buf) = datablockNumberSanity v := rfl

end Simp

theorem Live.setFree {v : VDisk} (hv : v.Live) (n t : Nat) (f : Nat → Nat) :
    (v.setFree n f t).Live := ⟨hv.faults, hv.writable⟩

theorem saved_other {v : VDisk} {b c : Nat} (buf : Block) (h : c ≠ b) :
    (v.setBlock b buf).saved c = v.saved c := by
  simp only [saved, word, setBlock_other v buf h]

end VDisk

open VDisk

/-- The free blocks of a disk are those on `l`, the next one to be allocated first. -/
structure FreeList (v : VDisk) (l : List Nat) : Prop where
  volume : v.sb.volumeSize < 4294967296
  holds : Holds maxFreeblock v.saved v.sb.nfreeblock v.sb.freeblock l
  nodup : l.Nodup
  sane : ∀ b ∈ l, datablockNumberSanity v b
  total : v.sb.totalFreeblock = l.length

theorem lt_volumeSize {v : VDisk} {b : Nat} (h : datablockNumberSanity v b) : b < v.sb.volumeSize := by
  simp only [datablockNumberSanity, decide_eq_true_eq] at h
  exact h.2

section FreeList

variable {v : VDisk} {l : List Nat} {b : Nat}

theorem FreeList.unique {l' : List Nat} (h : FreeList v l) (h' : FreeList v l') : l = l' :=
  h.holds.unique h'.holds

/-- The list is in the super block and in the blocks. -/
theorem FreeList.congr {v' : VDisk} (h : FreeList v l) (hsb : v'.sb = v.sb) (hio : v'.io = v.io) :
    FreeList v' l where
  volume := hsb ▸ h.volume
  holds := by
    have hsaved : v'.saved = v.saved := by
      unfold saved word
      rw [hio]
    rw [hsaved, hsb]
    exact h.holds
  nodup := h.nodup
  sane b hb := by
    have := h.sane b hb
    rwa [datablockNumberSanity, ← hsb] at this
  total := hsb ▸ h.total

/-- A write to a block that is not free leaves the list alone. -/
theorem FreeList.setBlock (h : FreeList v l) (hb : b ∉ l) (buf : Block) :
    FreeList (v.setBlock b buf) l where
  volume := h.volume
  holds := h.holds.congr (fun _ _ => rfl) fun _ hc => saved_other buf (ne_of_mem_of_not_mem hc hb)
  nodup := h.nodup
  sane := h.sane
  total := h.total

/-- The list with one more block is still shorter than a `UINT32` can count. -/
theorem FreeList.length_lt (h : FreeList v l) (hb : b ∉ l) (hsane : datablockNumberSanity v b) :
    l.length + 1 < 4294967296 := by
  have hnodup : (b :: l).Nodup := List.nodup_cons.mpr ⟨hb, h.nodup⟩
  have hsub : (b :: l).toFinset ⊆ Finset.range v.sb.volumeSize := by
    intro c hc
    rcases List.mem_cons.mp (List.mem_toFinset.mp hc) with rfl | hc
    · exact Finset.mem_range.mpr (lt_volumeSize hsane)
    · exact Finset.mem_range.mpr (lt_volumeSize (h.sane c hc))
  have hcard := Finset.card_le_card hsub
  rw [List.toFinset_card_of_nodup hnodup, Finset.card_range, List.length_cons] at hcard
  exact Nat.lt_of_le_of_lt hcard h.volume

/-- A link of at most 51 entries overwrites nothing but the array. -/
theorem copyFreeblock_eq (sb : Superblock) {n : Nat} (hn : n ≤ maxFreeblock) (words : Nat → Nat) :
    sb.copyFreeblock n words =
      { sb with freeblock := fun i => if i < n then words i else sb.freeblock i } := by
  have h51 : ¬ 51 < n := Nat.not_lt.mpr hn
  have hpast : ∀ k, ¬ 52 + k < n := fun k h => h51 (by omega)
  simp only [Superblock.copyFreeblock, h51, hpast, hpast 64, hpast 65, hpast 66, if_false]

theorem freeblockUpdate_live (hv : v.Live) (hb : datablockNumberSanity v b)
    (hn : v.word b 0 ≤ maxFreeblock) :
    (freeblockUpdate b).run v = (.ok, v.setFree (v.word b 0)
      (fun i => if i < v.word b 0 then v.word b (i + 1) else v.sb.freeblock i)
      v.sb.totalFreeblock) := by
  have hn' : Bytes.word (v.io.blocks b) 0 ≤ maxFreeblock := hn
  simp only [freeblockUpdate, Prog.run_bind, diskGetBuf_live hv, vdiskRead_live hv, hb, if_true,
    copyFreeblock_eq _ hn', Prog.run_pure]
  rfl

/-- One round of the loop takes the top of the list. -/
theorem allocateLoop_cons (hv : v.Live) (h : FreeList v (b :: l)) (fuel : Nat) :
    ∃ n f, (allocateLoop (fuel + 1) .ok).run v = ((.ok, b), v.setFree n f l.length) ∧
      FreeList (v.setFree n f l.length) l := by
  have hpos : 0 < v.sb.nfreeblock := h.holds.count_pos
  have hle : v.sb.nfreeblock ≤ 51 := h.holds.count_le
  have hsub : u32sub v.sb.nfreeblock 1 = v.sb.nfreeblock - 1 := u32sub_of_le hpos
  have htotal : v.sb.totalFreeblock = l.length + 1 := h.total
  have htop : v.sb.freeblock (v.sb.nfreeblock - 1) = b := h.holds.top
  have hb : datablockNumberSanity v b := h.sane b (List.mem_cons_self ..)
  have hsane : ∀ c ∈ l, datablockNumberSanity v c := fun c hc => h.sane c (List.mem_cons_of_mem _ hc)
  have hnodup : l.Nodup := (List.nodup_cons.mp h.nodup).2
  by_cases hone : v.sb.nfreeblock = 1
  · -- the last entry of the array: what its block holds comes back
    have hlast : Holds maxFreeblock v.saved (v.saved b).1 (v.saved b).2 l := by
      have := h.holds
      rw [hone] at this
      exact this.pop_last
    have hsub0 : u32sub v.sb.nfreeblock 1 = 0 := by rw [hsub, hone]
    have htop0 : v.sb.freeblock 0 = b := by rw [← htop, hone]
    refine ⟨v.word b 0, fun i => if i < v.word b 0 then v.word b (i + 1) else v.sb.freeblock i,
      ?_, ⟨h.volume, ?_, hnodup, hsane, rfl⟩⟩
    · have hupd := freeblockUpdate_live (hv.setFree 0 l.length v.sb.freeblock) hb hlast.count_le
      simp only [setFree] at hupd
      simp only [allocateLoop, Prog.run_bind, Prog.run_ite, hsub0, htotal, Nat.succ_ne_zero, if_false,
        if_true, htop0, Nat.add_sub_cancel, hupd]
      exact (if_pos hb).trans rfl
    · exact hlast.congr (fun i hi => if_pos hi) fun _ _ => rfl
  · have hne : v.sb.nfreeblock - 1 ≠ 0 := by omega
    refine ⟨v.sb.nfreeblock - 1, v.sb.freeblock, ?_, ⟨h.volume, ?_, hnodup, hsane, rfl⟩⟩
    · simp only [allocateLoop, Prog.run_bind, Prog.run_ite, hsub, htotal, Nat.succ_ne_zero, if_false,
        htop, hne, Prog.run_pure, Nat.add_sub_cancel]
      exact (if_pos hb).trans rfl
    · exact h.holds.pop (by omega)

theorem datablockAllocate_cons (hv : v.Live) (h : FreeList v (b :: l)) :
    ∃ n f, datablockAllocate.run v = ((.ok, b), (v.setFree n f l.length).setBlock b zeroBlock) ∧
      FreeList ((v.setFree n f l.length).setBlock b zeroBlock) l := by
  obtain ⟨n, f, hrun, hlist⟩ := allocateLoop_cons hv h v.sb.totalFreeblock
  have hlive := hv.setFree n l.length f
  refine ⟨n, f, ?_, hlist.setBlock (List.nodup_cons.mp h.nodup).1 _⟩
  simp only [datablockAllocate, Prog.run_bind, hrun, ne_eq, not_true_eq_false,
    if_false, readBuf_live hlive, writeBuf_live hlive, if_true, Prog.run_pure]

theorem datablockAllocate_nil (h : FreeList v []) : datablockAllocate.run v = ((.enospc, 0), v) := by
  have htotal : v.sb.totalFreeblock = 0 := h.total
  simp [datablockAllocate, allocateLoop, htotal]

theorem word_freeblockBuf_count (f : Nat → Nat) : Bytes.word (freeblockBuf f) 0 = maxFreeblock := by
  have : Bytes.long (freeblockBuf f) 0 = UInt32.ofNat 51 := by
    apply Bytes.long_bytes
    intro k hk
    have h51 : (UInt32.ofNat 51).toNat = maxFreeblock := rfl
    rw [Nat.zero_add, h51]
    simp only [freeblockBuf, hk, if_true]
  simp only [Bytes.word, Nat.mul_zero, this]
  rfl

theorem word_freeblockBuf (f : Nat → Nat) {i : Nat} (hi : i < maxFreeblock) (hf : f i < 4294967296) :
    Bytes.word (freeblockBuf f) (i + 1) = f i := by
  have hto : (UInt32.ofNat (f i)).toNat = f i := by
    rw [UInt32.toNat_ofNat']
    exact Nat.mod_eq_of_lt hf
  have : Bytes.long (freeblockBuf f) (4 * (i + 1)) = UInt32.ofNat (f i) := by
    apply Bytes.long_bytes
    intro k hk
    have h4 : ¬ 4 * (i + 1) + k < 4 := by omega
    have hlt : 4 * (i + 1) + k < 4 * (maxFreeblock + 1) := by omega
    have hdiv : (4 * (i + 1) + k) / 4 - 1 = i := by omega
    have hmod : (4 * (i + 1) + k) % 4 = k := by omega
    simp only [freeblockBuf, h4, hlt, hdiv, hmod, hto, if_false, if_true]
  rw [Bytes.word, this, hto]

/-- The entries in use are blocks of the list. -/
theorem FreeList.entry_lt (h : FreeList v l) {i : Nat} (hi : i < v.sb.nfreeblock) :
    v.sb.freeblock i < 4294967296 := by
  have hmem : ∀ {n f l}, Holds maxFreeblock v.saved n f l → ∀ {i}, i < n → f i ∈ l := by
    intro n f l hh
    induction hh with
    | nil => intro i hi; exact absurd hi (Nat.not_lt_zero i)
    | link _ _ _ =>
      intro i hi
      obtain rfl : i = 0 := by omega
      exact List.mem_cons_self ..
    | @entry n f l _ _ _ ih =>
      intro i hi
      rcases Nat.lt_succ_iff_lt_or_eq.mp hi with hlt | rfl
      · exact List.mem_cons_of_mem _ (ih hlt)
      · exact List.mem_cons_self ..
  exact Nat.lt_trans (lt_volumeSize (h.sane _ (hmem h.holds hi))) h.volume

theorem datablockDeallocate_spec (hv : v.Live) (h : FreeList v l) (hb : b ∉ l)
    (hsane : datablockNumberSanity v b) (hfirst : l ≠ [] ∨ v.word b 0 = 0) :
    ∃ n f buf, (datablockDeallocate b).run v =
        (.ok, (v.setFree n f (l.length + 1)).setBlock b buf) ∧
      FreeList ((v.setFree n f (l.length + 1)).setBlock b buf) (b :: l) := by
  have htotal : u32 (v.sb.totalFreeblock + 1) = l.length + 1 := by
    rw [h.total]
    exact u32_of_lt (h.length_lt hb hsane)
  have hnodup : (b :: l).Nodup := List.nodup_cons.mpr ⟨hb, h.nodup⟩
  have hsanes : ∀ c ∈ b :: l, datablockNumberSanity v c := by
    intro c hc
    rcases List.mem_cons.mp hc with rfl | hc
    · exact hsane
    · exact h.sane c hc
  by_cases hroom : v.sb.nfreeblock < maxFreeblock
  · refine ⟨v.sb.nfreeblock + 1, Function.update v.sb.freeblock v.sb.nfreeblock b, v.io.blocks b,
      ?_, ?_⟩
    · rw [← setFree_io v (v.sb.nfreeblock + 1) (l.length + 1), setBlock_same]
      simp [datablockDeallocate, hsane, hroom, htotal, setFree]
    · rw [← setFree_io v (v.sb.nfreeblock + 1) (l.length + 1), setBlock_same]
      refine ⟨h.volume, ?_, hnodup, hsanes, rfl⟩
      rcases Nat.eq_zero_or_pos v.sb.nfreeblock with hzero | hpos
      · -- the list is empty, so the block itself must end the chain
        have hnil : l = [] := by
          have := h.holds
          rw [hzero] at this
          exact this.eq_nil
        have hword : v.word b 0 = 0 := hfirst.resolve_left fun hne => hne hnil
        subst hnil
        simp only [setFree, hzero]
        exact Holds.push_first (by decide) hword
      · exact h.holds.push hpos hroom b
  · have hfull : v.sb.nfreeblock = maxFreeblock :=
      Nat.le_antisymm h.holds.count_le (Nat.not_lt.mp hroom)
    refine ⟨1, Function.update v.sb.clearFreeblock 0 b, freeblockBuf v.sb.freeblock, ?_,
      ⟨h.volume, ?_, hnodup, hsanes, rfl⟩⟩
    · simp [datablockDeallocate, hsane, hroom, readBuf_live hv, writeBuf_live hv, htotal, setFree,
        VDisk.setBlock]
    · have htop : Function.update v.sb.clearFreeblock 0 b 0 = b := Function.update_self ..
      refine h.holds.spill (by decide) htop ?_ ?_ ?_
      · simp only [saved, word, setBlock_self, word_freeblockBuf_count, hfull]
      · intro i hi
        simp only [saved, word, setBlock_self]
        exact word_freeblockBuf _ (hfull ▸ hi) (h.entry_lt hi)
      · exact fun _ hc => saved_other _ (ne_of_mem_of_not_mem hc hb)

end FreeList

/-! ### Runs of a user of the blocks -/

/-- A disk and the blocks that are allocated on it. -/
structure BlockUser where
  disk : VDisk
  held : List Nat

inductive BlockOp
  | allocate
  | deallocate (blk : Nat)
  | fill (blk : Nat) (buf : Block)

def BlockUser.onDisk {α : Type} (x : Prog VDisk α) : Prog BlockUser α :=
  Prog.lift BlockUser.disk (fun v u => { u with disk := v }) x

def blockStep : BlockOp → Prog BlockUser (Rc × Nat)
  | .allocate => do
    let (rc, blk) ← BlockUser.onDisk datablockAllocate
    if rc = .ok then
      Prog.modify fun u => { u with held := blk :: u.held }
    return (rc, blk)
  | .deallocate blk => do
    let rc ← BlockUser.onDisk (datablockDeallocate blk)
    if rc = .ok then
      Prog.modify fun u => { u with held := u.held.erase blk }
    return (rc, blk)
  | .fill blk buf => return (← BlockUser.onDisk (vdiskWrite buf blk), blk)

/-- Only allocated blocks are given back or written to. -/
def BlockUser.Owns (u : BlockUser) : BlockOp → Prop
  | .allocate => True
  | .deallocate blk => blk ∈ u.held
  | .fill blk _ => blk ∈ u.held

/-- A block given back to an empty list has zero in its first word. -/
def BlockUser.EndsChain (u : BlockUser) : BlockOp → Prop
  | .deallocate blk => u.disk.sb.totalFreeblock = 0 → u.disk.word blk 0 = 0
  | _ => True

/-- The free list is well formed and shares the blocks `all` with the user. -/
structure BlockUser.Sound (all : List Nat) (u : BlockUser) : Prop where
  count_le : u.disk.sb.nfreeblock ≤ maxFreeblock
  free : ∃ free, FreeList u.disk free ∧ (free ++ u.held).Perm all ∧ List.Disjoint free u.held
  fresh : ∀ blk, (datablockAllocate.run u.disk).1 = (.ok, blk) → blk ∉ u.held

section Sound

variable {u : BlockUser} {free all : List Nat}

theorem BlockUser.Sound.of_free (hlive : u.disk.Live) (h : FreeList u.disk free)
    (hperm : (free ++ u.held).Perm all) (hall : all.Nodup) : u.Sound all := by
  have hdisj : List.Disjoint free u.held := (List.nodup_append'.mp (hperm.nodup_iff.mpr hall)).2.2
  refine ⟨h.holds.count_le, ⟨free, h, hperm, hdisj⟩, fun blk hrun => ?_⟩
  cases free with
  | nil => rw [datablockAllocate_nil h] at hrun; cases hrun
  | cons b l =>
    obtain ⟨n, f, hb, _⟩ := datablockAllocate_cons hlive h
    rw [hb] at hrun
    cases hrun
    exact fun hheld => hdisj (List.mem_cons_self ..) hheld

/-- What one step does to the two parts. -/
theorem blockStep_free (hlive : u.disk.Live) (h : FreeList u.disk free)
    (hnodup : (free ++ u.held).Nodup) (hheld : ∀ b ∈ u.held, datablockNumberSanity u.disk b)
    {op : BlockOp} (howns : u.Owns op) (hends : u.EndsChain op) :
    ∃ free', ((blockStep op).run u).2.disk.Live ∧ FreeList ((blockStep op).run u).2.disk free' ∧
      (free' ++ ((blockStep op).run u).2.held).Perm (free ++ u.held) ∧
      ∀ b ∈ ((blockStep op).run u).2.held, datablockNumberSanity ((blockStep op).run u).2.disk b := by
  have hdisj : List.Disjoint free u.held := (List.nodup_append'.mp hnodup).2.2
  cases op with
  | allocate =>
    cases free with
    | nil =>
      simp only [blockStep, BlockUser.onDisk, Prog.run_bind, datablockAllocate_nil h]
      exact ⟨[], hlive, h, .refl _, hheld⟩
    | cons b l =>
      obtain ⟨n, f, hrun, hlist⟩ := datablockAllocate_cons hlive h
      simp only [blockStep, BlockUser.onDisk, Prog.run_bind, hrun, if_true]
      refine ⟨l, (hlive.setFree ..).setBlock .., hlist, List.perm_middle, fun c hc => ?_⟩
      rcases List.mem_cons.mp hc with rfl | hc
      · exact h.sane c (List.mem_cons_self ..)
      · exact hheld c hc
  | deallocate b =>
    have hb : b ∉ free := fun hfree => hdisj hfree howns
    have hfirst : free ≠ [] ∨ u.disk.word b 0 = 0 := by
      rcases free with _ | ⟨c, l⟩
      · exact .inr (hends h.total)
      · exact .inl (List.cons_ne_nil _ _)
    obtain ⟨n, f, buf, hrun, hlist⟩ := datablockDeallocate_spec hlive h hb (hheld b howns) hfirst
    simp only [blockStep, BlockUser.onDisk, Prog.run_bind, hrun, if_true]
    refine ⟨b :: free, (hlive.setFree ..).setBlock .., hlist, ?_,
      fun c hc => hheld c (List.mem_of_mem_erase hc)⟩
    calc b :: free ++ u.held.erase b
      _ ~ free ++ b :: u.held.erase b := List.perm_middle.symm
      _ ~ free ++ u.held := (List.perm_cons_erase howns).symm.append_left free
  | fill b buf =>
    simp only [blockStep, BlockUser.onDisk, Prog.run_bind, vdiskWrite_live hlive]
    exact ⟨free, hlive.setBlock .., h.setBlock (fun hfree => hdisj hfree howns) buf, .refl _, hheld⟩

/-- A block with data in its first word spoils an empty list. -/
theorem blockStep_spoils (h : u.Sound all) {op : BlockOp} (howns : u.Owns op)
    (hheld : ∀ b ∈ u.held, datablockNumberSanity u.disk b) (hends : ¬ u.EndsChain op) :
    ¬ ((blockStep op).run u).2.Sound all := by
  cases op with
  | allocate => exact absurd trivial hends
  | fill b buf => exact absurd trivial hends
  | deallocate b =>
    obtain ⟨htotal, hword⟩ := Classical.not_imp.mp hends
    obtain ⟨free, hfree, _, _⟩ := h.free
    have hzero : u.disk.sb.nfreeblock = 0 := by
      have hnil : free = [] := List.length_eq_zero_iff.mp (hfree.total ▸ htotal)
      subst hnil
      have := hfree.holds
      cases hn : u.disk.sb.nfreeblock with
      | zero => rfl
      | succ n =>
        rw [hn] at this
        cases this
    intro hsound
    obtain ⟨free', hfree', _, _⟩ := hsound.free
    have hrun : (datablockDeallocate b).run u.disk =
        (.ok, u.disk.setFree 1 (Function.update u.disk.sb.freeblock 0 b) 1) := by
      simp [datablockDeallocate, hheld b howns, hzero, htotal, maxFreeblock, u32, VDisk.setFree]
    simp only [blockStep, BlockUser.onDisk, Prog.run_bind, hrun, if_true] at hfree'
    have htotal' : 1 = free'.length := hfree'.total
    obtain ⟨c, rfl⟩ := List.length_eq_one_iff.mp htotal'.symm
    have hholds : Holds maxFreeblock u.disk.saved 1 (Function.update u.disk.sb.freeblock 0 b) [c] :=
      hfree'.holds
    obtain rfl : b = c := by simpa using hholds.top
    have hlast := hholds.pop_last
    cases hn : u.disk.word b 0 with
    | zero => exact hword hn
    | succ n =>
      simp only [VDisk.saved, hn] at hlast
      cases hlast

end Sound

/-- The free list stays well formed exactly as long as no block with data in its first
word is given back to an empty list. -/
theorem freeblock_sound {u₀ u : BlockUser} {free : List Nat} {hist} (hlive : u₀.disk.Live)
    (hfree : FreeList u₀.disk free) (hnodup : (free ++ u₀.held).Nodup)
    (hheld : ∀ b ∈ u₀.held, datablockNumberSanity u₀.disk b)
    (hrun : Run blockStep (fun u op => u.Owns op ∧ u.EndsChain op) u₀ hist u) :
    u.Sound (free ++ u₀.held) ∧ ∀ op, u.Owns op → ¬ u.EndsChain op →
      ¬ ((blockStep op).run u).2.Sound (free ++ u₀.held) := by
  have hinv : ∃ l, u.disk.Live ∧ FreeList u.disk l ∧ (l ++ u.held).Perm (free ++ u₀.held) ∧
      ∀ b ∈ u.held, datablockNumberSanity u.disk b := by
    refine hrun.invariant (I := fun u => ∃ l, u.disk.Live ∧ FreeList u.disk l ∧
      (l ++ u.held).Perm (free ++ u₀.held) ∧ ∀ b ∈ u.held, datablockNumberSanity u.disk b)
      ⟨free, hlive, hfree, .refl _, hheld⟩ ?_
    rintro u op ⟨l, hl, hf, hp, hs⟩ ⟨howns, hends⟩
    obtain ⟨l', hl', hf', hp', hs'⟩ :=
      blockStep_free hl hf (hp.nodup_iff.mpr hnodup) hs howns hends
    exact ⟨l', hl', hf', hp'.trans hp, hs'⟩
  obtain ⟨l, hl, hf, hp, hs⟩ := hinv
  have hsound := BlockUser.Sound.of_free hl hf hp hnodup
  exact ⟨hsound, fun op howns hends => blockStep_spoils hsound howns hs hends⟩

section Full

def fullSuper : Superblock where
  datablockStartSector := 10
  volumeSize := 12
  modified := false
  readonly := false
  totalFreeblock := 1
  totalFreeinode := 0
  nfreeblock := 1
  freeblock := fun _ => 11
  nfreeinode := 0
  freeinode := fun _ => 0
  inodesPerBlock := 4
  blksizeShift := 9
  ilistSector := 2

/-- Block 11 is the last free block, and block 10 holds a file whose first word is 99. -/
def fullDisk : BlockUser where
  disk := {
    blksize := 512, readonly := false, sb := fullSuper, super := fullSuper, minodes := []
    io := ⟨fun b => if b = 10 then Bytes.setWord zeroBlock 0 99 else zeroBlock, []⟩ }
  held := [10]

theorem fullDisk_free : FreeList fullDisk.disk [11] where
  volume := by decide
  holds := by
    have hsaved : (fullDisk.disk.saved 11).1 = 0 := Bytes.word_zero 0
    refine .link (by decide) ?_
    change Holds _ _ (fullDisk.disk.saved 11).1 _ _
    rw [hsaved]
    exact .nil
  nodup := by decide
  sane := by decide
  total := rfl

/-- Once the disk is full, a block given back and taken again brings its data as a free list. -/
theorem freeblock_not_sound :
    fullDisk.disk.Live ∧ FreeList fullDisk.disk [11] ∧ ([11] ++ fullDisk.held).Nodup ∧
    ∃ hist u, Run blockStep BlockUser.Owns fullDisk hist u ∧ u.disk.sb.nfreeblock = 99 ∧
      ¬ u.Sound ([11] ++ fullDisk.held) := by
  have h₁ : Run blockStep BlockUser.Owns fullDisk _ _ := .cons BlockOp.allocate .nil trivial
  have hheld : 10 ∈ ((blockStep .allocate).run fullDisk).2.held := by decide
  have h₃ := (h₁.cons (BlockOp.deallocate 10) hheld).cons BlockOp.allocate trivial
  have h99 : ((blockStep .allocate).run ((blockStep (.deallocate 10)).run
      ((blockStep .allocate).run fullDisk).2).2).2.disk.sb.nfreeblock = 99 := by decide
  refine ⟨⟨rfl, rfl⟩, fullDisk_free, by decide, _, _, h₃, h99, fun hsound => ?_⟩
  exact absurd (h99 ▸ hsound.count_le) (by decide)

/-- Taking the last block leaves an empty list. -/
theorem freeblock_sound_full :
    (((blockStep .allocate).run fullDisk).2).Sound ([11] ++ fullDisk.held) := by
  have h₁ : Run blockStep (fun u op => u.Owns op ∧ u.EndsChain op) fullDisk _ _ :=
    .cons BlockOp.allocate .nil ⟨trivial, trivial⟩
  exact (freeblock_sound ⟨rfl, rfl⟩ fullDisk_free (by decide) (by decide) h₁).1

end Full

end Ufs370
