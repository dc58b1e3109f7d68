import Ufs370.BlockPartition
import Ufs370.Directory

/-! An iteration over an inode visits its data blocks in order. -/

namespace Ufs370

open Lib Lib.IndexForest Lib.IndexLayout

section Walk

variable {κ : Type} (func : κ → Nat → Nat → Prog VDisk (Rc × κ)) (b : Nat → Nat) (bs fs : Nat)

/-- Visits of up to `j` of the blocks `b` of a file of `fs` bytes, from number `m` on. -/
def walk : Nat → Nat → κ → Prog VDisk (Rc × κ)
  | 0, _, ctx => return (.ok, ctx)
  | j + 1, m, ctx => do
    let (ret, ctx) ← func ctx (b m) (min bs (fs - m * bs))
    if ret ≠ .ok then
      return (ret, ctx)
    if fs - m * bs ≤ bs then
      return (.iteratorEnd, ctx)
    walk j (m + 1) ctx

theorem walk_add (j j' m : Nat) (ctx : κ) (v : VDisk) : (walk func b bs fs (j + j') m ctx).run v =
    let r := (walk func b bs fs j m ctx).run v
    if r.1.1 = .ok then (walk func b bs fs j' (m + j) r.1.2).run r.2 else r := by
  induction j generalizing m ctx v with
  | zero => simp only [Nat.zero_add, Nat.add_zero, walk, Prog.run_pure, if_true]
  | succ j ih =>
    rw [Nat.succ_add]
    simp only [walk, Prog.run_bind]
    by_cases hret : ((func ctx (b m) (min bs (fs - m * bs))).run v).1.1 = .ok
    · simp only [hret, ne_eq, not_true_eq_false, if_false]
      by_cases hlast : fs - m * bs ≤ bs
      · simp [hlast]
      · simp only [hlast, if_false, ih]
        rw [Nat.succ_add_eq_add_succ]
    · simp [hret]

/-- Visits that neither end the iteration nor change anything. -/
theorem walk_skip {j m : Nat} {ctx : κ} {v : VDisk} (j' : Nat)
    (hok : ∀ i, i < j → (func ctx (b (m + i)) (min bs (fs - (m + i) * bs))).run v = ((.ok, ctx), v))
    (hsize : (m + j) * bs < fs) :
    (walk func b bs fs (j + j') m ctx).run v = (walk func b bs fs j' (m + j) ctx).run v := by
  induction j generalizing m with
  | zero => rw [Nat.zero_add, Nat.add_zero]
  | succ j ih =>
    have hstep : m + (j + 1) = m + 1 + j := by omega
    have hle : (m + 2) * bs ≤ (m + (j + 1)) * bs + bs := by
      rw [← Nat.succ_mul]
      exact Nat.mul_le_mul_right _ (by omega)
    have hspan : (m + 2) * bs = m * bs + bs + bs := by rw [Nat.succ_mul, Nat.succ_mul]
    have hlast : ¬ fs - m * bs ≤ bs := by omega
    have hfirst := hok 0 (by omega)
    rw [Nat.add_zero] at hfirst
    rw [hstep] at hsize ⊢
    rw [Nat.succ_add]
    simp only [walk, Prog.run_bind, hfirst, ne_eq, not_true_eq_false, if_false, hlast]
    refine ih (fun i hi => ?_) hsize
    rw [show m + 1 + i = m + (i + 1) by omega]
    exact hok (i + 1) (by omega)

/-- A function that stays among the disks `I` while it does not end the iteration. -/
def Steady (I : VDisk → Prop) : Prop :=
  ∀ w, I w → ∀ ctx blk sz, ((func ctx blk sz).run w).1.1 = .ok → I ((func ctx blk sz).run w).2

/-- `prog` makes the visits of `walk` and keeps count of the size that is left. -/
def Walks (I : VDisk → Prop) (j m : Nat) (ctx : κ) (prog : Prog VDisk (Rc × Nat × κ)) : Prop :=
  ∀ w, I w → let r := (walk func b bs fs j m ctx).run w
    ∃ left, prog.run w = ((r.1.1, left, r.1.2), r.2) ∧
      (r.1.1 = .ok → I r.2 ∧ left = fs - (m + j) * bs ∧ (m + j) * bs < fs)

/-- The result of an iteration whose visits came out as `r`. -/
def ended {κ : Type} (r : (Rc × κ) × VDisk) : (Rc × κ) × VDisk :=
  ((if r.1.1 = .ok then .efbig else r.1.1, r.1.2), r.2)

/-- What follows the visits of `prog` ends the iteration, or goes on where they stopped. -/
theorem Walks.chain {func : κ → Nat → Nat → Prog VDisk (Rc × κ)} {b : Nat → Nat} {bs fs j j' m : Nat}
    {I : VDisk → Prop} {ctx : κ} {prog : Prog VDisk (Rc × Nat × κ)}
    {rest : Rc × Nat × κ → Prog VDisk (Rc × κ)} (hw : Walks func b bs fs I j m ctx prog)
    (hstop : ∀ ret left ctx, ret ≠ .ok → rest (ret, left, ctx) = pure (ret, ctx))
    (hnext : ∀ ctx, (m + j) * bs < fs → ∀ w, I w → (rest (.ok, fs - (m + j) * bs, ctx)).run w =
      ended ((walk func b bs fs j' (m + j) ctx).run w)) {w : VDisk} (hI : I w) :
    (prog >>= rest).run w = ended ((walk func b bs fs (j + j') m ctx).run w) := by
  obtain ⟨left, hrun, hok⟩ := hw w hI
  rw [Prog.run_bind, hrun, walk_add]
  by_cases hret : ((walk func b bs fs j m ctx).run w).1.1 = .ok
  · obtain ⟨hI', hleft, hlt⟩ := hok hret
    simp only [hret, if_true, hleft, hnext _ hlt _ hI']
  · simp only [hstop _ _ _ hret, Prog.run_pure, ended, hret, if_false]

end Walk

section Loops

variable {κ : Type} {func : κ → Nat → Nat → Prog VDisk (Rc × κ)} {b : Nat → Nat} {bs fs : Nat}
  {I : VDisk → Prop}

theorem blockLoop_walks (hsteady : Steady func I) (hbs : ∀ w, I w → w.blksize = bs) {entry : Nat → Prog VDisk Nat} (m : Nat) (left k : Nat)
    (ctx : κ) (hentry : ∀ w, I w → ∀ i, i < k + left → (m + i) * bs < fs →
      (entry i).run w = (b (m + i), w) ∧ datablockNumberSanity w (b (m + i)))
    (hfs : (m + k) * bs < fs) :
    Walks func b bs fs I left (m + k) ctx (blockLoop func entry left k (fs - (m + k) * bs) ctx) := by
  induction left generalizing k ctx with
  | zero => exact fun w hI => ⟨_, rfl, fun _ => ⟨hI, rfl, hfs⟩⟩
  | succ left ih =>
    intro w hI
    obtain ⟨hrun, hsane⟩ := hentry w hI k (by omega) hfs
    have hsz : (if decide (fs - (m + k) * bs ≤ bs) = true then fs - (m + k) * bs else bs) =
        min bs (fs - (m + k) * bs) := by
      simp only [decide_eq_true_eq]
      split <;> omega
    simp only [blockLoop, walk, Prog.run_bind, hrun, hsane, hbs w hI, Bool.not_true, Bool.false_eq_true,
      if_false, hsz]
    by_cases hret : ((func ctx (b (m + k)) (min bs (fs - (m + k) * bs))).run w).1.1 = .ok
    · have hI' := hsteady w hI _ _ _ hret
      simp only [hret, ne_eq, not_true_eq_false, if_false]
      by_cases hlast : fs - (m + k) * bs ≤ bs
      · simp [hlast]
      · have hmul : (m + (k + 1)) * bs = (m + k) * bs + bs := Nat.succ_mul ..
        have hnext : u32sub (fs - (m + k) * bs) bs = fs - (m + (k + 1)) * bs := by
          rw [u32sub_of_le (by omega)]
          omega
        simp only [hlast, decide_false, Bool.false_eq_true, if_false, hnext]
        obtain ⟨x, hx, hok⟩ := ih (k + 1) _ (fun w hw i hi => hentry w hw i (by omega)) (by omega) _ hI'
        refine ⟨x, hx, fun h => ?_⟩
        rw [show m + k + (left + 1) = m + (k + 1) + left by omega]
        exact hok h
    · simp [hret]

theorem listLoop_walks {inner : Nat → Nat → κ → Prog VDisk (Rc × Nat × κ)} {listblk s N : Nat}
    (m : Nat) (hlink : ∀ j, j < N → (m + j * s) * bs < fs → ∃ blk,
      (∀ w, I w → (datablockLink listblk j).run w = (blk, w) ∧ datablockNumberSanity w blk) ∧
        ∀ ctx, Walks func b bs fs I s (m + j * s) ctx (inner blk (fs - (m + j * s) * bs) ctx))
    (left j : Nat) (hj : j + left = N) (ctx : κ) (hfs : (m + j * s) * bs < fs) :
    Walks func b bs fs I (left * s) (m + j * s) ctx
      (listLoop inner listblk left j (fs - (m + j * s) * bs) ctx) := by
  induction left generalizing j ctx with
  | zero =>
    rw [Nat.zero_mul]
    exact fun w hI => ⟨_, rfl, fun _ => ⟨hI, rfl, hfs⟩⟩
  | succ left ih =>
    intro w hI
    obtain ⟨blk, hblk, hinner⟩ := hlink j (by omega) hfs
    obtain ⟨hrun, hsane⟩ := hblk w hI
    obtain ⟨x, hx, hok⟩ := hinner ctx w hI
    have hnext : m + j * s + s = m + (j + 1) * s := by rw [Nat.succ_mul]; omega
    have hspan : (left + 1) * s = s + left * s := by rw [Nat.succ_mul]; omega
    simp only [hspan, walk_add, listLoop, Prog.run_bind, hrun, hsane, Bool.not_true,
      Bool.false_eq_true, if_false, hx]
    by_cases hret : ((walk func b bs fs s (m + j * s) ctx).run w).1.1 = .ok
    · obtain ⟨hI', hleft, hlt⟩ := hok hret
      simp only [hret, ne_eq, not_true_eq_false, if_false, if_true, hleft, hnext]
      rw [hnext] at hlt
      obtain ⟨y, hy, hok'⟩ := ih (j + 1) (by omega) _ hlt _ hI'
      refine ⟨y, hy, fun h => ?_⟩
      rw [show m + j * s + (s + left * s) = m + (j + 1) * s + left * s by rw [Nat.succ_mul]; omega]
      exact hok' h
    · simp [hret]

end Loops

section Places

variable {n i j k : Nat}

theorem placeOf_direct (hi : i < 16) : placeOf n i = (i, []) := if_pos hi

theorem lt_maxBlocks {m : Nat} (h : m < 16 + n + n ^ 2 + n ^ 3) : m < maxBlocks n := h

theorem placeOf_index1 (hi : i < n) : placeOf n (16 + i) = (naddrIndex1, [i]) :=
  (placeOf_data (by omega) (lt_maxBlocks (by omega))).unique (.index1 hi)

theorem placeOf_index2 (hi : i < n) (hj : j < n) :
    placeOf n (16 + n + (i * n + j)) = (naddrIndex2, [i, j]) := by
  have hp := DataPlace.index2 hi hj
  have hlt : i * n + j < n ^ 2 := by
    rw [Nat.pow_two]
    calc i * n + j
      _ < i * n + n := Nat.add_lt_add_left hj _
      _ = (i + 1) * n := (Nat.succ_mul ..).symm
      _ ≤ n * n := Nat.mul_le_mul_right _ hi
  exact (placeOf_data (by omega) (lt_maxBlocks (by omega))).unique hp

theorem placeOf_index3 (hi : i < n) (hj : j < n) (hk : k < n) :
    placeOf n (16 + n + n ^ 2 + (i * n ^ 2 + (j * n + k))) = (naddrIndex3, [i, j, k]) := by
  have hp := DataPlace.index3 hi hj hk
  have hlt : i * n ^ 2 + (j * n + k) < n ^ 3 := by
    calc i * n ^ 2 + (j * n + k)
      _ < i * n ^ 2 + (j * n + n) := by omega
      _ = i * n ^ 2 + (j + 1) * n := by rw [Nat.succ_mul]
      _ ≤ i * n ^ 2 + n * n := Nat.add_le_add_left (Nat.mul_le_mul_right _ hj) _
      _ = (i + 1) * n ^ 2 := by ring
      _ ≤ n * n ^ 2 := Nat.mul_le_mul_right _ hi
      _ = n ^ 3 := by ring
  exact (placeOf_data (by omega) (lt_maxBlocks (by omega))).unique hp

end Places

theorem lt_ceil {m fs bs : Nat} (hbs : 0 < bs) : m < ceil fs bs ↔ m * bs < fs := by
  obtain ⟨hle, hlt⟩ := ceil_mul fs hbs
  constructor
  · intro h
    have : (m + 1) * bs ≤ ceil fs bs * bs := Nat.mul_le_mul_right _ h
    rw [Nat.succ_mul] at this
    omega
  · intro h
    exact Nat.lt_of_mul_lt_mul_right (Nat.lt_of_lt_of_le h hle)

section Foreach

variable {κ : Type} {func : κ → Nat → Nat → Prog VDisk (Rc × κ)} {v : VDisk} {ino fs : Nat}
  {cnt : Nat → Nat} {hand free : List Nat} {all : Set Nat}
  (h : Owned v (Within v.nidx cnt) hand free all) (hcnt : cnt ino = ceil fs v.blksize)
  (haddr : Addressable v (cnt ino))
include h hcnt haddr

/-- The places of the data blocks are in use. -/
theorem placeOf_mem {m : Nat} (hm : m * v.blksize < fs) {r : Nat} {is : List Nat}
    (hp : placeOf v.nidx m = (r, is)) : ((ino, r), is) ∈ Within v.nidx cnt := by
  have hbs := h.geometry.blksize_bounds
  have hn := h.geometry.nidx_bounds
  have hlt : m < cnt ino := by
    rw [hcnt]
    exact (lt_ceil (by omega)).mpr hm
  have hq := placeOf_data (n := v.nidx) (by omega) (Nat.lt_of_lt_of_le hlt haddr.le_maxBlocks)
  rw [hp] at hq
  exact hq.mem_within cnt hlt

theorem blockAt_sane {m : Nat} (hm : m * v.blksize < fs) :
    datablockNumberSanity v (v.blockAt ino (placeOf v.nidx m)) :=
  h.sane _ (h.node_mem (placeOf_mem h hcnt haddr hm rfl))

theorem link_of_place {m r k : Nat} {is : List Nat} (hm : m * v.blksize < fs)
    (hp : placeOf v.nidx m = (r, is ++ [k])) :
    (datablockLink (v.blockAt ino (r, is)) k).run v = (v.blockAt ino (placeOf v.nidx m), v) := by
  rw [hp]
  exact h.link (placeOf_mem h hcnt haddr hm hp)

/-- `ufs_datablock_last` finds the block that a size ends in. -/
theorem datablockLast_block (hcached : v.Cached ino) {m sz : Nat} (hm : m * v.blksize < fs)
    (hlo : m * v.blksize < sz) (hhi : sz ≤ (m + 1) * v.blksize) :
    (datablockLast ino sz).run v = (v.blockAt ino (placeOf v.nidx m), v) := by
  have hbs := h.geometry.blksize_bounds
  have hn := h.geometry.nidx_bounds
  have hlt : m < cnt ino := by
    rw [hcnt]
    exact (lt_ceil (by omega)).mpr hm
  have haddr' : Addressable v (m + 1) := haddr.mono hlt
  obtain ⟨hrc, hblock⟩ := datablockAddr_block h.geometry haddr' hlo hhi
  have hmax := haddr'.lt_maxBlocks
  have hplace := (placeOf_data (by omega) hmax).unique hblock.place
  have hmem : ((ino, (placeOf v.nidx m).1), (placeOf v.nidx m).2) ∈ Within v.nidx cnt :=
    placeOf_mem h hcnt haddr hm rfl
  have hroot : ∀ r, (v.din ino).addrAt r = v.forest.node ((ino, r), []) := fun r => by
    rw [hcached.din]
    rfl
  rw [hplace] at hmem ⊢
  have hlevel := hblock.level
  simp only [datablockLast, Prog.run_bind, hrc, ne_eq, not_true_eq_false, if_false, hroot]
  generalize (datablockAddr v sz).2 = map at hmem hlevel
  rcases map with ⟨_ | _ | _ | _ | level, index⟩
  · rfl
  · have hmem1 : ((ino, naddrIndex1), [] ++ [index 0]) ∈ Within v.nidx cnt := hmem
    exact h.link hmem1
  · have hmem2 : ((ino, naddrIndex2), [index 0] ++ [index 1]) ∈ Within v.nidx cnt := hmem
    have hmem1 : ((ino, naddrIndex2), [] ++ [index 0]) ∈ Within v.nidx cnt :=
      h.partition.closed _ _ _ hmem2
    simp only [Prog.run_bind, h.link hmem1]
    exact h.link hmem2
  · have hmem3 : ((ino, naddrIndex3), [index 0, index 1] ++ [index 2]) ∈ Within v.nidx cnt := hmem
    have hmem2 : ((ino, naddrIndex3), [index 0] ++ [index 1]) ∈ Within v.nidx cnt :=
      h.partition.closed _ _ _ hmem3
    have hmem1 : ((ino, naddrIndex3), [] ++ [index 0]) ∈ Within v.nidx cnt :=
      h.partition.closed _ _ _ hmem2
    have h1 := h.link hmem1
    have h2 := h.link hmem2
    simp only [List.nil_append, List.cons_append] at h1 h2
    simp only [Prog.run_bind, h1, h2]
    exact h.link hmem3
  · exact absurd hlevel (by simp)

/-- What an iteration over inode `ino` reads is in `w` as in `v`. -/
structure SameLists (ino : Nat) (v w : VDisk) : Prop where
  live : w.Live
  blksize : w.blksize = v.blksize
  sane : ∀ b, datablockNumberSanity w b = datablockNumberSanity v b
  din : w.din ino = v.din ino
  index : ∀ b ∈ v.indexBlocks ino, w.io.blocks b = v.io.blocks b

omit h hcnt haddr in
theorem SameLists.refl (hv : v.Live) : SameLists ino v v := ⟨hv, rfl, fun _ => rfl, rfl, fun _ _ => rfl⟩

omit h hcnt haddr in
theorem datablockLink_live (hv : v.Live) (blk k : Nat) : (datablockLink blk k).run v =
    (if datablockNumberSanity v blk ∧ datablockNumberSanity v (v.word blk k) then v.word blk k else 0,
      v) := by
  simp only [datablockLink, Prog.run_bind]
  by_cases hup : datablockNumberSanity v blk
  · by_cases hdown : datablockNumberSanity v (v.word blk k)
    · have hdown' : datablockNumberSanity v (Bytes.word (v.io.blocks blk) k) := hdown
      simp only [hup, hdown, hdown', Bool.not_true, Bool.false_eq_true, if_false, readBuf_live hv,
        Prog.run_bind, Prog.run_pure, and_self, if_true]
      rfl
    · have hdown' : ¬ datablockNumberSanity v (Bytes.word (v.io.blocks blk) k) := hdown
      simp only [hup, hdown, hdown', Bool.not_true, Bool.false_eq_true, if_false, readBuf_live hv,
        Prog.run_bind, Prog.run_pure, and_false]
  · simp [hup]

omit h hcnt haddr in
/-- An index block of the inode has the same links. -/
theorem SameLists.link {w : VDisk} (hs : SameLists ino v w)
    (h : Owned v (Within v.nidx cnt) hand free all) (hcnt : cnt ino = v.blockCount ino)
    (haddr : Addressable v (cnt ino)) {r k : Nat} {is : List Nat}
    (hmem : ((ino, r), is ++ [k]) ∈ Within v.nidx cnt) :
    (datablockLink (v.blockAt ino (r, is)) k).run w = (v.blockAt ino (r, is ++ [k]), w) := by
  have hn : 0 < v.nidx := by have := h.geometry.nidx_bounds; omega
  have hparent : (r, is) ∈ needed v.nidx naddrDirect (cnt ino) := h.partition.closed _ _ _ hmem
  have hheight : is.length ≠ height naddrDirect r := by
    have := hmem.1.length
    simp only [List.length_append, List.length_singleton] at this
    omega
  have hindex : v.blockAt ino (r, is) ∈ v.indexBlocks ino := by
    refine List.mem_map_of_mem (List.mem_filter.mpr ⟨?_, decide_eq_true hheight⟩)
    rw [← hcnt]
    exact (mem_placesOf hn haddr.le_maxBlocks).mpr hparent
  have hword : w.word (v.blockAt ino (r, is)) k = v.word (v.blockAt ino (r, is)) k := by
    rw [VDisk.word, VDisk.word, hs.index _ hindex]
  have hrun : (datablockLink (v.blockAt ino (r, is)) k).run v = (v.blockAt ino (r, is ++ [k]), v) :=
    h.link hmem
  rw [datablockLink_live h.live] at hrun
  rw [datablockLink_live hs.live, hword, hs.sane, hs.sane, (Prod.mk.inj hrun).1]

variable {I : VDisk → Prop} (hsteady : Steady func I) (hsame : ∀ w, I w → SameLists ino v w)
  (hfs : (v.inode ino).filesize.toNat = fs)

/-- The first block behind a slot is there if a block under it is. -/
theorem root_of_place {m r : Nat} {is : List Nat} (hm : m * v.blksize < fs)
    (hp : placeOf v.nidx m = (r, is)) : ((ino, r), []) ∈ Within v.nidx cnt := by
  have hmem := placeOf_mem h hcnt haddr hm hp
  clear hp
  induction is using List.reverseRecOn with
  | nil => exact hmem
  | append_singleton is i ih => exact ih (h.partition.closed _ _ _ hmem)

include hsame hfs

/-- A link of an index block, as each of the disks has it. -/
theorem link_walks {r k : Nat} {is : List Nat} (hmem : ((ino, r), is ++ [k]) ∈ Within v.nidx cnt)
    (w : VDisk) (hw : I w) :
    (datablockLink (v.blockAt ino (r, is)) k).run w = (v.blockAt ino (r, is ++ [k]), w) ∧
      datablockNumberSanity w (v.blockAt ino (r, is ++ [k])) := by
  have hs := hsame w hw
  have hcount : cnt ino = v.blockCount ino := by rw [VDisk.blockCount, hfs, hcnt]
  exact ⟨hs.link h hcount haddr hmem, (hs.sane _).trans (h.sane _ (h.node_mem hmem))⟩

omit hfs in
theorem foreachIndex_walks (hcached : v.Cached ino) {loop : Nat → Nat → κ → Prog VDisk (Rc × Nat × κ)}
    {m r j : Nat} {is : List Nat} (hm : m * v.blksize < fs) (hp : placeOf v.nidx m = (r, is)) (ctx : κ)
    (hloop : Walks func (fun m => v.blockAt ino (placeOf v.nidx m)) v.blksize fs I j m ctx
      (loop (v.blockAt ino (r, [])) (fs - m * v.blksize) ctx)) :
    Walks func (fun m => v.blockAt ino (placeOf v.nidx m)) v.blksize fs I j m ctx
      (foreachIndex loop ino r (fs - m * v.blksize) ctx) := by
  intro w hw
  have hs := hsame w hw
  have hroot := root_of_place h hcnt haddr hm hp
  have hnode : (w.din ino).addrAt r = v.blockAt ino (r, []) := by
    rw [hs.din, hcached.din]
    rfl
  have hsane : datablockNumberSanity w (v.blockAt ino (r, [])) = true :=
    (hs.sane _).trans (h.sane _ (h.node_mem hroot))
  obtain ⟨x, hx, hok⟩ := hloop w hw
  refine ⟨x, ?_, hok⟩
  simp only [foreachIndex, Prog.run_bind, hnode, hsane, Bool.not_true, Bool.false_eq_true, if_false, hx]

include hsteady

/-- The blocks that one index block lists. -/
theorem loop1_walks {m r : Nat} {is : List Nat}
    (hp : ∀ k, k < v.nidx → placeOf v.nidx (m + k) = (r, is ++ [k])) (hm : m * v.blksize < fs)
    (ctx : κ) : Walks func (fun m => v.blockAt ino (placeOf v.nidx m)) v.blksize fs I v.nidx m ctx
      (datablockLoop1 func (v.blockAt ino (r, is)) (fs - m * v.blksize) ctx) := by
  intro w hw
  have hloop := blockLoop_walks hsteady (fun w hw => (hsame w hw).blksize)
    (b := fun m => v.blockAt ino (placeOf v.nidx m)) m v.nidx 0 ctx (fun w hw k hk hlt => by
      have hq := hp k (by omega)
      have hlink := link_walks h hcnt haddr hsame hfs (placeOf_mem h hcnt haddr hlt hq) w hw
      rwa [← hq] at hlink) hm w hw
  simp only [datablockLoop1, Prog.run_bind, (hsame w hw).blksize]
  exact hloop

/-- The blocks two levels below an index block. -/
theorem loop2_walks {m r : Nat} {is : List Nat} (hp : ∀ j k, j < v.nidx → k < v.nidx →
      placeOf v.nidx (m + (j * v.nidx + k)) = (r, is ++ [j] ++ [k])) (hm : m * v.blksize < fs)
    (ctx : κ) :
    Walks func (fun m => v.blockAt ino (placeOf v.nidx m)) v.blksize fs I (v.nidx * v.nidx) m ctx
      (datablockLoop2 func (v.blockAt ino (r, is)) (fs - m * v.blksize) ctx) := by
  have hn := h.geometry.nidx_bounds
  have hloop : Walks func (fun m => v.blockAt ino (placeOf v.nidx m)) v.blksize fs I
      (v.nidx * v.nidx) (m + 0 * v.nidx) ctx (listLoop (datablockLoop1 func) (v.blockAt ino (r, is))
        v.nidx 0 (fs - (m + 0 * v.nidx) * v.blksize) ctx) := by
    refine listLoop_walks (N := v.nidx) m (fun j hj hlt => ?_) v.nidx 0 (Nat.zero_add _) ctx
      (by rwa [Nat.zero_mul])
    have hq : placeOf v.nidx (m + j * v.nidx) = (r, is ++ [j] ++ [0]) := hp j 0 hj (by omega)
    have hmem := h.partition.closed _ _ _ (placeOf_mem h hcnt haddr hlt hq)
    exact ⟨_, link_walks h hcnt haddr hsame hfs hmem, loop1_walks h hcnt haddr hsteady hsame hfs
      (fun k hk => by rw [Nat.add_assoc, hp j k hj hk]) hlt⟩
  rw [Nat.zero_mul] at hloop
  intro w hw
  simp only [datablockLoop2, Prog.run_bind, (hsame w hw).blksize]
  exact hloop w hw

/-- The blocks three levels below an index block. -/
theorem loop3_walks {m r : Nat} {is : List Nat}
    (hp : ∀ i j k, i < v.nidx → j < v.nidx → k < v.nidx →
      placeOf v.nidx (m + (i * v.nidx ^ 2 + (j * v.nidx + k))) = (r, is ++ [i] ++ [j] ++ [k]))
    (hm : m * v.blksize < fs) (ctx : κ) :
    Walks func (fun m => v.blockAt ino (placeOf v.nidx m)) v.blksize fs I (v.nidx * v.nidx ^ 2) m ctx
      (Prog.get >>= fun w => listLoop (datablockLoop2 func) (v.blockAt ino (r, is)) (w.blksize / 4) 0
        (fs - m * v.blksize) ctx) := by
  have hn := h.geometry.nidx_bounds
  have hloop : Walks func (fun m => v.blockAt ino (placeOf v.nidx m)) v.blksize fs I
      (v.nidx * v.nidx ^ 2) (m + 0 * v.nidx ^ 2) ctx (listLoop (datablockLoop2 func)
        (v.blockAt ino (r, is)) v.nidx 0 (fs - (m + 0 * v.nidx ^ 2) * v.blksize) ctx) := by
    refine listLoop_walks (N := v.nidx) m (fun i hi hlt => ?_) v.nidx 0 (Nat.zero_add _) ctx
      (by rwa [Nat.zero_mul])
    have hzero : m + i * v.nidx ^ 2 = m + (i * v.nidx ^ 2 + (0 * v.nidx + 0)) := by omega
    have hq : placeOf v.nidx (m + i * v.nidx ^ 2) = (r, is ++ [i] ++ [0] ++ [0]) :=
      hzero ▸ hp i 0 0 hi (by omega) (by omega)
    have hmem := h.partition.closed _ _ _ (h.partition.closed _ _ _ (placeOf_mem h hcnt haddr hlt hq))
    refine ⟨_, link_walks h hcnt haddr hsame hfs hmem, fun ctx => ?_⟩
    rw [Nat.pow_two] at hlt ⊢
    exact loop2_walks h hcnt haddr hsteady hsame hfs (fun j k hj hk => by
      rw [Nat.add_assoc, ← Nat.pow_two, hp i j k hi hj hk]) hlt ctx
  rw [Nat.zero_mul] at hloop
  intro w hw
  simp only [Prog.run_bind, (hsame w hw).blksize]
  exact hloop w hw

/-- `ufs_datablock_foreach` visits the data blocks of an inode. -/
theorem foreach_walk (hcached : v.Cached ino) (hpos : 0 < fs) (ctx : κ) {w : VDisk} (hw : I w) :
    (datablockForeach func ino ctx).run w =
      ended ((walk func (fun m => v.blockAt ino (placeOf v.nidx m)) v.blksize fs
        (maxBlocks v.nidx) 0 ctx).run w) := by
  have hn := h.geometry.nidx_bounds
  have hstart : Walks func (fun m => v.blockAt ino (placeOf v.nidx m)) v.blksize fs I 16 (0 + 0) ctx
      (blockLoop func (fun i => do return ((← Prog.get).din ino).addrAt i) naddrDirect 0
        (fs - (0 + 0) * v.blksize) ctx) := by
    refine blockLoop_walks hsteady (fun w hw => (hsame w hw).blksize) 0 16 0 ctx
      (fun w hw i hi hlt => ⟨?_, ((hsame w hw).sane _).trans (blockAt_sane h hcnt haddr hlt)⟩)
      (by rwa [Nat.zero_add, Nat.zero_mul])
    simp only [Prog.run_bind, Prog.run_pure, (hsame w hw).din, hcached.din, Nat.zero_add,
      placeOf_direct hi]
    rfl
  rw [Nat.zero_add, Nat.zero_mul, Nat.sub_zero] at hstart
  have hsplit : maxBlocks v.nidx = 16 + (v.nidx + (v.nidx * v.nidx + (v.nidx * v.nidx ^ 2 + 0))) := by
    rw [maxBlocks]
    ring
  have hsize : (w.din ino).filesize.toNat = fs := by rw [(hsame w hw).din, hcached.din, hfs]
  rw [hsplit, datablockForeach, Prog.run_bind]
  refine (congrArg (Prog.run · w) (if_neg (show ¬ (w.din ino).filesize.toNat = 0 by omega))).trans ?_
  change Prog.run (blockLoop func _ naddrDirect 0 (w.din ino).filesize.toNat ctx >>= _) w = _
  rw [hsize]
  have hstop : ∀ {α : Type} {ret : Rc} (x y : α), ret ≠ .ok → (if ret ≠ .ok then x else y) = x :=
    fun x y hret => if_pos hret
  have h1 : placeOf v.nidx (0 + 16) = (naddrIndex1, [0]) := placeOf_index1 (n := v.nidx) (i := 0) (by omega)
  have h2 : placeOf v.nidx (0 + 16 + v.nidx) = (naddrIndex2, [0, 0]) := by
    have := placeOf_index2 (n := v.nidx) (i := 0) (j := 0) (by omega) (by omega)
    rwa [Nat.zero_mul] at this
  have h3 : placeOf v.nidx (0 + 16 + v.nidx + v.nidx * v.nidx) = (naddrIndex3, [0, 0, 0]) := by
    have := placeOf_index3 (n := v.nidx) (i := 0) (j := 0) (k := 0) (by omega) (by omega) (by omega)
    rwa [Nat.zero_mul, Nat.zero_mul, Nat.pow_two] at this
  refine hstart.chain (fun _ _ _ => hstop _ _) (fun ctx hlt w hw => ?_) hw
  simp only [ne_eq, not_true_eq_false, if_false]
  refine (foreachIndex_walks h hcnt haddr hsame hcached hlt h1 ctx
    (loop1_walks h hcnt haddr hsteady hsame hfs (fun k hk => ?_) hlt ctx)).chain
    (fun _ _ _ => hstop _ _) (fun ctx hlt w hw => ?_) hw
  · rw [Nat.zero_add, placeOf_index1 hk]
    rfl
  simp only [not_true_eq_false, if_false]
  refine (foreachIndex_walks h hcnt haddr hsame hcached hlt h2 ctx
    (loop2_walks h hcnt haddr hsteady hsame hfs (fun j k hj hk => ?_) hlt ctx)).chain
    (fun _ _ _ => hstop _ _) (fun ctx hlt w hw => ?_) hw
  · rw [Nat.zero_add, placeOf_index2 hj hk]
    rfl
  simp only [not_true_eq_false, if_false]
  refine (foreachIndex_walks h hcnt haddr hsame hcached hlt h3 ctx
    (loop3_walks h hcnt haddr hsteady hsame hfs (fun i j k hi hj hk => ?_) hlt ctx)).chain
    (fun _ _ _ => hstop _ _) (fun ctx hlt w hw => ?_) hw
  · rw [Nat.zero_add, ← Nat.pow_two, placeOf_index3 hi hj hk]
    rfl
  rfl

omit hsteady hsame in
/-- An iteration skips the blocks before the one where it ends. -/
theorem foreach_visit (hquiet : Steady func (· = v)) (hcached : v.Cached ino) {m : Nat} {ctx ctx' : κ}
    {ret : Rc} {v' : VDisk} (hm : m < cnt ino)
    (hskip : ∀ i, i < m → (func ctx (v.blockAt ino (placeOf v.nidx i))
      (min v.blksize (fs - i * v.blksize))).run v = ((.ok, ctx), v))
    (hvisit : (func ctx (v.blockAt ino (placeOf v.nidx m)) (min v.blksize (fs - m * v.blksize))).run v =
      ((ret, ctx'), v'))
    (hend : ret = .ok → m + 1 = cnt ino) : (datablockForeach func ino ctx).run v =
      ((if ret = .ok then .iteratorEnd else ret, ctx'), v') := by
  have hbs := h.geometry.blksize_bounds
  have hmax := haddr.le_maxBlocks
  have hlt := (lt_ceil (by omega)).mp (hcnt ▸ hm)
  have hrefl : ∀ w, w = v → SameLists ino v w := fun w hw => by
    rw [hw]
    exact .refl h.live
  rw [foreach_walk h hcnt haddr hquiet hrefl hfs hcached (by omega) ctx rfl]
  obtain ⟨j, hj⟩ : ∃ j, maxBlocks v.nidx = m + (j + 1) := ⟨maxBlocks v.nidx - m - 1, by omega⟩
  rw [hj, walk_skip _ _ _ _ _ (fun i hi => by rw [Nat.zero_add]; exact hskip i hi)
    (by rwa [Nat.zero_add])]
  simp only [walk, Nat.zero_add, Prog.run_bind, hvisit]
  by_cases hret : ret = .ok
  · have hlast : fs - m * v.blksize ≤ v.blksize := by
      have hnot : ¬ (m + 1) * v.blksize < fs := fun hmore => by
        have := (lt_ceil (by omega)).mpr hmore
        have := hend hret
        omega
      rw [Nat.succ_mul] at hnot
      omega
    simp only [hret, ne_eq, not_true_eq_false, if_false, if_true, hlast, Prog.run_pure, ended]
    rfl
  · simp only [hret, ne_eq, not_false_eq_true, if_true, Prog.run_pure, ended, if_false]

end Foreach

end Ufs370
