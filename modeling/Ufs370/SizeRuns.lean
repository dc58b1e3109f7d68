import Ufs370.OpenFiles

/-! What runs of size changes make of the bytes of files. -/

namespace Ufs370

open Lib Lib.IndexForest Lib.IndexLayout

/-- The bytes in the data blocks of a file, with those past its end. -/
def VDisk.extent (v : VDisk) (i : Nat) : List UInt8 :=
  (List.range (v.blockCount i * v.blksize)).map (v.fileByte i)

/-- The bytes in the blocks of inode `i` after some calls.  One that works cuts off what is past the last block
of the new size, or adds zeros up to the end of that block. -/
def extentAfter (bs : Nat) : List ((Nat × Nat) × Rc) → Nat → List UInt8 → List UInt8
  | [], _, xs => xs
  | (op, rc) :: hist, i, xs =>
    if op.1 = i ∧ rc = .ok then (extentAfter bs hist i xs).takeD (ceil op.2 bs * bs) 0 else extentAfter bs hist i xs

/-- The size of inode `i` after some calls, of which some were refused. -/
def grantedSize : List ((Nat × Nat) × Rc) → Nat → Nat → Nat
  | [], _, sz => sz
  | (op, rc) :: hist, i, sz => if op.1 = i ∧ rc = .ok then op.2 else grantedSize hist i sz

section Lists

variable {α : Type} {xs ys : List α} {a : α} {n k : Nat}

theorem getElem?_takeD (xs : List α) (n : Nat) (a : α) (hk : k < n) : (xs.takeD n a)[k]? = some (xs[k]?.getD a) := by
  induction n generalizing xs k with
  | zero => omega
  | succ n ih =>
    cases k with
    | zero => cases xs <;> simp
    | succ k =>
      have hk := Nat.lt_of_succ_lt_succ hk
      cases xs with
      | nil => simp [hk]
      | cons x xs => simp [ih xs hk]

theorem getElem?_takeD_of_le (xs : List α) (a : α) (hk : n ≤ k) : (xs.takeD n a)[k]? = none :=
  List.getElem?_eq_none (by rwa [List.takeD_length])

/-- The front of a longer list, cut or padded, is that of the list, if only the padding follows its front. -/
theorem take_takeD_iff {size new room : Nat} (hsize : size ≤ xs.length) (hnew : new ≤ room) :
    (xs.takeD room a).take new = (xs.take size).takeD new a ↔
      ∀ k, size ≤ k → k < new → ∀ x, xs[k]? = some x → x = a := by
  have hleft (k : Nat) (hk : k < new) : ((xs.takeD room a).take new)[k]? = some (xs[k]?.getD a) := by
    rw [List.getElem?_take_of_lt hk, getElem?_takeD _ _ _ (by omega)]
  have hright (k : Nat) (hk : k < new) : ((xs.take size).takeD new a)[k]? =
      some (if k < size then xs[k]?.getD a else a) := by
    rw [getElem?_takeD _ _ _ hk]
    split
    · rename_i hlt
      rw [List.getElem?_take_of_lt hlt]
    · rename_i hge
      rw [List.getElem?_eq_none (by rw [List.length_take]; omega), Option.getD_none]
  constructor
  · intro heq k hk hlt x hx
    have := (hleft k hlt).symm.trans ((congrArg (·[k]?) heq).trans (hright k hlt))
    rw [hx, if_neg (Nat.not_lt.mpr hk)] at this
    exact Option.some.inj this
  · intro hpad
    refine List.ext_getElem? fun k => ?_
    by_cases hk : k < new
    · rw [hleft k hk, hright k hk]
      split
      · rfl
      · rename_i hge
        cases hx : xs[k]? with
        | none => rfl
        | some x => rw [Option.getD_some, hpad k (Nat.not_lt.mp hge) hk x hx]
    · rw [getElem?_takeD_of_le _ _ (Nat.not_lt.mp hk), List.getElem?_eq_none]
      rw [List.length_take]
      omega

end Lists

section Extents

variable {cnt : Nat → Nat} {all : Set Nat} {v v' : VDisk} {inos free free' : List Nat} {i newsz : Nat}

theorem extent_length (v : VDisk) (i : Nat) : (v.extent i).length = v.blockCount i * v.blksize := by
  simp [VDisk.extent]

theorem filesize_le_extent (hbs : 0 < v.blksize) (i : Nat) : v.filesize i ≤ (v.extent i).length := by
  rw [extent_length]
  exact (ceil_mul _ hbs).1

theorem extent_getElem? (v : VDisk) (i k : Nat) :
    (v.extent i)[k]? = if k < v.blockCount i * v.blksize then some (v.fileByte i k) else none := by
  rw [VDisk.extent, List.getElem?_map]
  split
  · rename_i hk
    rw [List.getElem?_range hk]
    rfl
  · rename_i hk
    rw [List.getElem?_eq_none (by rw [List.length_range]; omega)]
    rfl

theorem content_extent (hbs : 0 < v.blksize) (i : Nat) : v.content i = (v.extent i).take (v.filesize i) := by
  have hle : v.filesize i ≤ v.blockCount i * v.blksize := (ceil_mul _ hbs).1
  rw [VDisk.extent, ← List.map_take, List.take_range, Nat.min_eq_left hle]
  rfl

theorem SameFile.extent (h : SameFile i v v') (hbs : 0 < v.blksize) : v'.extent i = v.extent i := by
  have hcount : v'.blockCount i = v.blockCount i := by
    rw [VDisk.blockCount, h.inode, h.blksize]
    rfl
  rw [VDisk.extent, VDisk.extent, hcount, h.blksize]
  refine List.map_congr_left fun k hk => h.fileByte ?_
  exact (lt_ceil hbs).mp (Nat.div_lt_of_lt_mul (by rw [Nat.mul_comm]; exact List.mem_range.mp hk))

/-- The blocks of a file whose size was changed. -/
theorem Resized.extent (h : Stored cnt all i v free) (r : Resized cnt all i newsz v free v' free')
    (hnew : FileSize v newsz) : v'.extent i = (v.extent i).takeD (ceil newsz v.blksize * v.blksize) 0 := by
  have hbs := h.blksize_pos
  have hcount : v'.blockCount i = ceil newsz v.blksize := by
    have hsize := r.filesize_eq h hnew
    rw [VDisk.filesize] at hsize
    rw [VDisk.blockCount, hsize, r.blksize]
  refine List.ext_getElem? fun k => ?_
  rw [extent_getElem?, hcount, r.blksize]
  split
  · rename_i hk
    have hm : k / v.blksize * v.blksize < newsz :=
      (lt_ceil hbs).mp (Nat.div_lt_of_lt_mul (by rw [Nat.mul_comm]; exact hk))
    rw [getElem?_takeD _ _ _ hk, extent_getElem?]
    split
    · rename_i hold
      have hold : k / v.blksize * v.blksize < v.filesize i :=
        (lt_ceil hbs).mp (Nat.div_lt_of_lt_mul (by rw [Nat.mul_comm]; exact hold))
      rw [VDisk.fileByte, r.blksize, (r.fileBlock_old h hm hold).2]
      rfl
    · rename_i hold
      have hold : v.filesize i ≤ k / v.blksize * v.blksize := by
        refine Nat.not_lt.mp fun hlt => hold ?_
        have hdiv := (lt_ceil hbs).mpr hlt
        exact (Nat.div_lt_iff_lt_mul hbs).mp hdiv
      rw [VDisk.fileByte, r.blksize, r.data_new h hnew hm hold]
      rfl
  · rename_i hk
    rw [getElem?_takeD_of_le _ _ (Nat.not_lt.mp hk)]

/-- A file that was refused more blocks. -/
theorem Exhausted.extent (h : Stored cnt all i v free) (he : Exhausted cnt i v v') : v'.extent i = v.extent i := by
  have hbs := h.blksize_pos
  have hsize := (he.content h).1
  have hcount : v'.blockCount i = v.blockCount i := by
    rw [VDisk.filesize, VDisk.filesize] at hsize
    rw [VDisk.blockCount, hsize, he.blksize]
    rfl
  have hnidx : v'.nidx = v.nidx := by rw [VDisk.nidx, he.blksize]; rfl
  rw [VDisk.extent, VDisk.extent, hcount, he.blksize]
  refine List.map_congr_left fun k hk => ?_
  have hlt : k / v.blksize * v.blksize < v.filesize i :=
    (lt_ceil hbs).mp (Nat.div_lt_of_lt_mul (by rw [Nat.mul_comm]; exact List.mem_range.mp hk))
  have hfile : v'.fileBlock i (k / v.blksize) = v.fileBlock i (k / v.blksize) := by
    rw [VDisk.fileBlock, hnidx]
    exact he.node _ (h.mem_within hlt)
  rw [VDisk.fileByte, he.blksize, hfile, VDisk.fileByte]
  exact congrFun (he.data _ (h.mem_within hlt) fun _ => (h.dataPlace hlt).full) _

end Extents

/-- What holds after each call of a run that started at `v`. -/
structure Sized (v : VDisk) (inos : List Nat) (hist : List ((Nat × Nat) × Rc)) (w : VDisk) : Prop where
  wellFormed : ∃ free, WellFormed w inos free
  blksize : w.blksize = v.blksize
  extent : ∀ i ∈ inos, w.extent i = extentAfter v.blksize hist i (v.extent i)
  filesize : ∀ i ∈ inos, w.filesize i = grantedSize hist i (v.filesize i)

section Runs

variable {v w : VDisk} {inos free : List Nat} {hist : List ((Nat × Nat) × Rc)} {op : Nat × Nat} {i : Nat}

/-- One call: it works, or there are too few free blocks. -/
theorem sizeStep_cases (h : WellFormed w inos free) (hop : SizeTry inos w op) :
    (∃ free', ((sizeStep op).run w).1 = .ok ∧ Resized (w.counts inos) {b | b ∈ w.allBlocks inos free} op.1 op.2 w free
      ((sizeStep op).run w).2 free') ∨
    ((sizeStep op).run w).1 ≠ .ok ∧ Exhausted (w.counts inos) op.1 w ((sizeStep op).run w).2 := by
  have hstored := h.stored hop.inode hop.cached
  have hfirst : ceil op.2 w.blksize < ceil (w.inode op.1).filesize.toNat w.blksize → free ≠ [] ∨ w.EndsChain op.1 :=
      fun hless => by
    by_cases hfree : free = []
    · refine .inr (hop.chain ?_ hless)
      rw [h.list.total, hfree]
      rfl
    · exact .inl hfree
  have hlt := (h.size _ hop.inode).lt h.geometry
  have hlt' := hop.size.lt h.geometry
  rcases datablockSizeChange_spec h.owned hstored.numbers hstored.number hop.cached hstored.count hstored.size
    (SizeOk.fileSize h.geometry hop.size) (by omega) (by omega) hfirst with
    ⟨rc, w', hrun, hrc, -, hfull⟩ | ⟨w', free', hrun, r⟩
  · right
    rw [sizeStep, hrun]
    exact ⟨hrc, hfull⟩
  · left
    rw [sizeStep, hrun]
    exact ⟨free', rfl, r⟩

theorem Sized.step (h : Sized v inos hist w) (hop : SizeTry inos w op) :
    Sized v inos ((op, ((sizeStep op).run w).1) :: hist) ((sizeStep op).run w).2 := by
  obtain ⟨free, hw⟩ := h.wellFormed
  have hbs := hw.geometry.blockSize.pos
  have hfiled := Filed.of_wellFormed hw
  have hstored := hw.stored hop.inode hop.cached
  rcases sizeStep_cases hw hop with ⟨free', hrc, r⟩ | ⟨hrc, he⟩
  · have hnew := hop.size.fileSize hw.geometry
    have hother (i : Nat) (hi : i ∈ inos) (hne : ¬ op.1 = i) : SameFile i w ((sizeStep op).run w).2 :=
      hfiled.sameFile (r.beside hstored).spares hi (Ne.symm hne)
    refine ⟨⟨free', (r.wellFormed hw hop.toSizeAsked).1⟩, r.blksize.trans h.blksize, fun i hi => ?_, fun i hi => ?_⟩
    · rw [extentAfter, hrc]
      by_cases hown : op.1 = i
      · subst hown
        rw [if_pos ⟨rfl, rfl⟩, ← h.extent _ hi, ← h.blksize, r.extent hstored hnew]
      · rw [if_neg fun hand => hown hand.1, (hother i hi hown).extent hbs, h.extent i hi]
    · rw [grantedSize, hrc]
      by_cases hown : op.1 = i
      · subst hown
        rw [if_pos ⟨rfl, rfl⟩, r.filesize_eq hstored hnew]
      · rw [if_neg fun hand => hown hand.1, (hother i hi hown).filesize, h.filesize i hi]
  · have hother (i : Nat) (hi : i ∈ inos) (hne : ¬ op.1 = i) : SameFile i w ((sizeStep op).run w).2 :=
      hfiled.sameFile (he.spares hw.geometry) hi (Ne.symm hne)
    refine ⟨⟨[], he.wellFormed hw hop.inode⟩, he.blksize.trans h.blksize, fun i hi => ?_, fun i hi => ?_⟩
    · rw [extentAfter, if_neg fun hand => hrc hand.2, ← h.extent i hi]
      by_cases hown : op.1 = i
      · subst hown
        exact he.extent hstored
      · exact (hother i hi hown).extent hbs
    · rw [grantedSize, if_neg fun hand => hrc hand.2, ← h.filesize i hi]
      by_cases hown : op.1 = i
      · subst hown
        exact (he.content hstored).1
      · exact (hother i hi hown).filesize

end Runs

/-- `halfBlock` cut within its first block. -/
def thirdBlock : VDisk := ((sizeStep (2, 300)).run halfBlock).2

/-- A byte that was cut off comes back. -/
theorem not_zero_filled :
    let v := twoBlocks.setBlock 10 fun o => if o = 3 then 7 else 0
    ((sizeStep (2, 5)).run ((sizeStep (2, 2)).run v).2).2.content 2 = [0, 0, 0, 7, 0] := by
  decide +kernel

end Ufs370
