import Ufs370.ForeachLaws

/-! Iteration and random access see the same data blocks. -/

namespace Ufs370

open Lib Lib.IndexLayout

section Iterate

variable {κ : Type}

/-- `func` on each block of a list, until it returns a code. -/
def iterate (func : κ → Nat → Nat → Prog VDisk (Rc × κ)) : List (Nat × Nat) → κ → Prog VDisk (Rc × κ)
  | [], ctx => return (.iteratorEnd, ctx)
  | (blk, sz) :: rest, ctx => do
    let (ret, ctx) ← func ctx blk sz
    if ret ≠ .ok then
      return (ret, ctx)
    iterate func rest ctx

/-- The visits of `walk` from block `m` on are those to the blocks that a file has from there. -/
theorem walk_iterate (func : κ → Nat → Nat → Prog VDisk (Rc × κ)) (b : Nat → Nat) {bs fs : Nat}
    (hbs : 0 < bs) {left j m : Nat} (hleft : m + (left + 1) = ceil fs bs) (hj : left < j) (ctx : κ)
    (w : VDisk) : ended ((walk func b bs fs j m ctx).run w) =
      (iterate func ((List.range' m (left + 1)).map fun k => (b k, min bs (fs - k * bs))) ctx).run w := by
  induction j generalizing m left ctx w with
  | zero => exact absurd hj (Nat.not_lt_zero _)
  | succ j ih =>
    rw [List.range'_succ]
    simp only [walk, List.map_cons, iterate, Prog.run_bind]
    by_cases hret : ((func ctx (b m) (min bs (fs - m * bs))).run w).1.1 = .ok
    · simp only [hret, ne_eq, not_true_eq_false, if_false]
      have hmore : (m + 1) * bs < fs ↔ 0 < left := by
        rw [← lt_ceil hbs, ← hleft]
        omega
      have hmul : (m + 1) * bs = m * bs + bs := Nat.succ_mul ..
      cases left with
      | zero =>
        have hlast : fs - m * bs ≤ bs := by
          have := hmore.not.mpr (Nat.lt_irrefl 0)
          omega
        simp only [hlast, if_true, Prog.run_pure, List.range'_zero, List.map_nil, iterate, ended]
        rfl
      | succ left =>
        have hlast : ¬ fs - m * bs ≤ bs := by
          have := hmore.mpr (Nat.succ_pos left)
          omega
        rw [if_neg hlast]
        exact ih (by omega) (by omega) _ _
    · simp only [hret, ne_eq, not_false_eq_true, if_true, Prog.run_pure, ended, if_false]

end Iterate

namespace VDisk

/-- The data blocks of an inode as `ufs_datablock_last` finds them, and their lengths. -/
def visits (v : VDisk) (ino : Nat) : List (Nat × Nat) :=
  (List.range (v.blockCount ino)).map fun k =>
    (((datablockLast ino (k * v.blksize + 1)).run v).1,
      min v.blksize ((v.inode ino).filesize.toNat - k * v.blksize))

end VDisk

/-- `ufs_datablock_foreach` calls each function on the blocks that `ufs_datablock_last` finds, if
the function leaves the inode and its index blocks alone while it returns 0. -/
def IterationAgrees (v : VDisk) (ino : Nat) : Prop :=
  ∀ (κ : Type) (func : κ → Nat → Nat → Prog VDisk (Rc × κ)) (ctx : κ),
    Steady func (SameLists ino v) →
      (datablockForeach func ino ctx).run v = (iterate func (v.visits ino) ctx).run v

section Agree

variable {v v₀ : VDisk} {inos free : List Nat} {ino : Nat}

theorem WellFormed.iteration (h : WellFormed v inos free) (hino : ino ∈ inos) (hcached : v.Cached ino)
    (hpos : 0 < (v.inode ino).filesize.toNat) : IterationAgrees v ino := by
  intro κ func ctx hsteady
  have hbs := h.geometry.blksize_bounds
  have hcnt : v.counts inos ino = v.blockCount ino := if_pos hino
  have haddr : Addressable v (v.counts inos ino) :=
    hcnt ▸ (SizeOk.fileSize h.geometry (h.size ino hino)).addr
  have hlt : ∀ m, m < v.blockCount ino ↔ m * v.blksize < (v.inode ino).filesize.toNat := fun m =>
    lt_ceil (by omega)
  have hcount : 0 < v.blockCount ino := (hlt 0).mpr (by rwa [Nat.zero_mul])
  have hmax := h.le_maxBlocks hino
  have hvisits : v.visits ino = (List.range' 0 (v.blockCount ino - 1 + 1)).map fun k =>
      (v.blockAt ino (placeOf v.nidx k), min v.blksize ((v.inode ino).filesize.toNat - k * v.blksize)) := by
    rw [VDisk.visits, List.range_eq_range', Nat.sub_add_cancel hcount]
    refine List.map_congr_left fun k hk => ?_
    have hk : k < v.blockCount ino := by simpa using (List.mem_range'_1.mp hk).2
    rw [datablockLast_block h.owned hcnt haddr hcached ((hlt k).mp hk) (Nat.lt_succ_self _)
      (by rw [Nat.succ_mul]; omega)]
  rw [hvisits, foreach_walk h.owned hcnt haddr hsteady (fun _ => id) rfl hcached hpos ctx (.refl h.live)]
  exact walk_iterate func _ (by omega) (by rw [Nat.zero_add, Nat.sub_add_cancel hcount]; rfl)
    (by omega) ctx v

/-- After any size changes that leave the free list in order, iteration agrees with random access. -/
theorem foreach_agrees {hist : List ((Nat × Nat) × Rc)} (h : WellFormed v₀ inos free)
    (hrun : Run sizeStep (SizeTry inos) v₀ hist v) (hino : ino ∈ inos) (hcached : v.Cached ino)
    (hpos : 0 < (v.inode ino).filesize.toNat) : IterationAgrees v ino := by
  obtain ⟨free', hwf⟩ := hrun.invariant (I := fun w => ∃ free, WellFormed w inos free) ⟨free, h⟩
    fun w op ⟨free, hw⟩ hop => hop.wellFormed hw
  exact hwf.iteration hino hcached hpos

/-- An inode that takes a block. -/
theorem foreach_agrees_pair : IterationAgrees ((sizeStep (2, 512)).run pairDisk).2 2 :=
  foreach_agrees pairDisk_wellFormed
    (.cons (2, 512) .nil ⟨⟨by decide, rfl, .inl (by decide)⟩, fun h => absurd h (by decide)⟩)
    (List.mem_singleton_self 2) rfl (by decide)

/-- A block of a file that would be taken for a table of 118 free blocks. -/
def tableBlock : Block := Bytes.setWord (Bytes.setWord (Bytes.setWord zeroBlock 0 118) 117 4) 118 8

/-- No free block, and an inode with a block. -/
def tableDisk : VDisk where
  blksize := 512
  readonly := false
  sb := { pairSuper with totalFreeblock := 0, nfreeblock := 0 }
  io := ⟨Function.update (fun _ => zeroBlock) 11 tableBlock, []⟩
  super := pairSuper
  minodes := [⟨2, false, 1, none, ({ Dinode.zero with filesize := 512 }).setAddr 0 11⟩]

theorem tableDisk_wellFormed : WellFormed tableDisk [2] [] where
  geometry := by constructor <;> decide
  live := ⟨rfl, rfl⟩
  distinct := by decide
  number := by
    intro i hi
    obtain rfl := List.mem_singleton.mp hi
    constructor <;> decide
  size := by
    intro i hi
    obtain rfl := List.mem_singleton.mp hi
    exact .inl (by decide)
  list := ⟨by decide, .nil, List.nodup_nil, fun _ h => absurd h List.not_mem_nil, rfl⟩
  blocks := by decide
  sane := by decide

/-- Once the block has been given back and taken again, the super block has a new block size. -/
theorem not_foreach_agrees : ¬ ∀ (v₀ v : VDisk) (inos free : List Nat) (hist : List ((Nat × Nat) × Rc))
    (ino : Nat), WellFormed v₀ inos free → Run sizeStep (SizeAsked inos) v₀ hist v → ino ∈ inos →
      v.Cached ino → 0 < (v.inode ino).filesize.toNat → IterationAgrees v ino := by
  intro hall
  have shrink : SizeAsked [2] tableDisk (2, 0) := ⟨by decide, rfl, .inl (by decide)⟩
  have grow : SizeAsked [2] ((sizeStep (2, 0)).run tableDisk).2 (2, 512) :=
    ⟨by decide, rfl, .inl (by decide)⟩
  have h := hall _ _ _ _ _ 2 tableDisk_wellFormed (.cons (2, 512) (.cons (2, 0) .nil shrink) grow)
    (List.mem_singleton_self 2) rfl (by decide)
    _ (fun seen blk sz => return (.ok, seen ++ [(blk, sz)])) [] (fun _ hw _ _ _ _ => hw)
  have hseen := congrArg (fun r => r.1.2) h
  revert hseen
  decide +kernel

end Agree

end Ufs370
