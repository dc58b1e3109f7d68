import Ufs370.ForeachLaws

/-! The entries of a directory, as a block holds them and as a list. -/

namespace Ufs370

open Lib Lib.IndexForest Lib.IndexLayout

/-- An entry: the number of an inode and the name, cut to `UFS_NAME_MAX` bytes. -/
structure Dirent where
  inodeNumber : Nat
  name : List UInt8
  deriving DecidableEq

namespace Entry

/-- Entry `i` of a block. -/
def dirent (buf : Block) (i : Nat) : Dirent := ⟨inodeNumber buf i, CString.read nameMax (name buf i)⟩

variable {b c : Block} {i j : Nat}

theorem dirent_congr (h : ∀ k, k < direntSize → b (direntSize * i + k) = c (direntSize * j + k)) :
    dirent b i = dirent c j := by
  have hino : inodeNumber b i = inodeNumber c j := Bytes.word_congr fun k hk => by
    have := h k (Nat.lt_of_lt_of_le hk (by decide))
    rwa [show direntSize * i = 4 * (16 * i) by rw [direntSize]; omega,
      show direntSize * j = 4 * (16 * j) by rw [direntSize]; omega] at this
  have hname : CString.read nameMax (name b i) = CString.read nameMax (name c j) :=
    CString.read_congr fun k hk => by
      have := h (4 + k) (by simp only [direntSize, nameMax] at hk ⊢; omega)
      simpa only [name, Nat.add_assoc] using this
  rw [dirent, hino, hname, dirent]

theorem div_direntSize {k : Nat} (hk : k < direntSize) : (direntSize * i + k) / direntSize = i := by
  rw [Nat.mul_add_div (by decide), Nat.div_eq_of_lt hk, Nat.add_zero]

theorem mod_direntSize {k : Nat} (hk : k < direntSize) : (direntSize * i + k) % direntSize = k := by
  rw [Nat.mul_add_mod, Nat.mod_eq_of_lt hk]

theorem dirent_set_same (b c : Block) (i j : Nat) :
    dirent (set b i fun k => c (direntSize * j + k)) i = dirent c j :=
  dirent_congr fun k hk => by simp only [set, div_direntSize hk, mod_direntSize hk, if_true]

theorem dirent_set_other (b : Block) (d : Nat → UInt8) (h : i ≠ j) :
    dirent (set b j d) i = dirent b i :=
  dirent_congr fun k hk => by simp only [set, div_direntSize hk, h, if_false]

section Add

variable {ino : Nat} {filename : List UInt8}

theorem setName_number {k : Nat} (hk : k < 4) :
    setName b i filename (direntSize * j + k) = b (direntSize * j + k) := by
  have hmod := mod_direntSize (i := j) (k := k) (Nat.lt_of_lt_of_le hk (by decide))
  have hlow : ¬ 4 ≤ k := Nat.not_le.mpr hk
  simp only [setName, hmod, hlow, false_and, and_false, if_false]

theorem dirent_add_same (hino : ino < 4294967296) :
    dirent (setName (setInodeNumber b i ino) i filename) i =
      ⟨ino, CString.read nameMax (CString.chars filename)⟩ := by
  have hnumber : inodeNumber (setName (setInodeNumber b i ino) i filename) i = ino := by
    have hword : inodeNumber (setName (setInodeNumber b i ino) i filename) i =
        Bytes.word (setInodeNumber b i ino) (16 * i) := Bytes.word_congr fun k hk => by
      rw [show 4 * (16 * i) = direntSize * i by rw [direntSize]; omega]
      exact setName_number hk
    rw [hword, setInodeNumber, Bytes.word_setWord_same]
    exact Nat.mod_eq_of_lt hino
  rw [dirent, hnumber]
  congr 1
  refine CString.read_congr fun k hk => ?_
  have hk' : 4 + k < direntSize := by
    simp only [direntSize, nameMax] at hk ⊢
    omega
  have hlt : 4 + k < 4 + nameMax := Nat.add_lt_add_left hk 4
  simp only [name, Nat.add_assoc, setName, div_direntSize hk', mod_direntSize hk', hlt,
    Nat.le_add_right, and_self, if_true, Nat.add_sub_cancel_left]

theorem dirent_add_other (h : i ≠ j) :
    dirent (setName (setInodeNumber b j ino) j filename) i = dirent b i :=
  dirent_congr fun k hk => by
    simp only [setName, div_direntSize hk, h, false_and, if_false, setInodeNumber, Bytes.setWord]
    have hdiv : (direntSize * i + k) / 4 ≠ 16 * j := by
      simp only [direntSize] at hk ⊢
      omega
    simp only [hdiv, if_false]

end Add

end Entry

section Scan

variable (name : List UInt8) (buf : Block) (left i : Nat)

theorem strncmpEq_name : CString.strncmpEq nameMax (Entry.name buf i) (CString.chars name) = true ↔
    (Entry.dirent buf i).name = direntFilename name := CString.strncmpEq_iff

theorem lookupScan_eq : lookupScan name buf left i = ((List.range' i left).find? fun i =>
    decide (1 ≤ (Entry.dirent buf i).inodeNumber ∧ (Entry.dirent buf i).name = direntFilename name)).map
      (Entry.inodeNumber buf) := by
  induction left generalizing i with
  | zero => rfl
  | succ left ih =>
    rw [lookupScan, List.range'_succ]
    by_cases hino : 1 ≤ Entry.inodeNumber buf i
    · rw [if_neg (Nat.not_lt.mpr hino)]
      by_cases hname : (Entry.dirent buf i).name = direntFilename name
      · rw [if_pos ((strncmpEq_name ..).mpr hname),
          List.find?_cons_of_pos (by rw [decide_eq_true_eq]; exact ⟨hino, hname⟩), Option.map_some]
      · rw [if_neg fun h => hname ((strncmpEq_name ..).mp h), ih,
          List.find?_cons_of_neg (by rw [decide_eq_true_eq]; exact fun h => hname h.2)]
    · rw [if_pos (Nat.not_le.mp hino), ih,
        List.find?_cons_of_neg (by rw [decide_eq_true_eq]; exact fun h => hino h.1)]

theorem removeScan_eq : removeScan name buf left i = (List.range' i left).find? fun i =>
    decide ((Entry.dirent buf i).name = direntFilename name) := by
  induction left generalizing i with
  | zero => rfl
  | succ left ih =>
    have hcmp : CString.strncmpEq nameMax (CString.chars name) (Entry.name buf i) = true ↔
        (Entry.dirent buf i).name = direntFilename name := CString.strncmpEq_iff.trans eq_comm
    rw [removeScan, List.range'_succ]
    by_cases hname : (Entry.dirent buf i).name = direntFilename name
    · rw [if_pos (hcmp.mpr hname), List.find?_cons_of_pos (by rwa [decide_eq_true_eq])]
    · rw [if_neg fun h => hname (hcmp.mp h), ih,
        List.find?_cons_of_neg (by rw [decide_eq_true_eq]; exact hname)]

end Scan

namespace VDisk

/-- The entries in a block. -/
def perBlock (v : VDisk) : Nat := v.blksize / direntSize

/-- Entry `e` of directory `d`. -/
def direntAt (v : VDisk) (d e : Nat) : Dirent :=
  Entry.dirent (v.io.blocks (v.blockAt d (placeOf v.nidx (e / v.perBlock)))) (e % v.perBlock)

/-- The entries of directory `d`. -/
def dirents (v : VDisk) (d : Nat) : List Dirent :=
  (List.range ((v.inode d).filesize.toNat / direntSize)).map (v.direntAt d)

end VDisk

/-- Inode `d` is in the cache and has the size of `n` entries. -/
structure HasEntries (v : VDisk) (cnt : Nat → Nat) (d n : Nat) : Prop where
  cached : v.Cached d
  filesize : (v.inode d).filesize.toNat = direntSize * n
  fits : FileSize v (direntSize * n)
  blocks : cnt d = ceil (direntSize * n) v.blksize

section Sizes

variable {v : VDisk} {cnt : Nat → Nat} {d n e : Nat}

theorem Geometry.perBlock (g : Geometry v) : v.blksize = direntSize * v.perBlock ∧ 8 ≤ v.perBlock := by
  have hdvd : direntSize ∣ v.blksize := by
    rw [g.blksize]
    exact Nat.pow_dvd_pow 2 (show 6 ≤ v.sb.blksizeShift by have := g.low; omega)
  have hmul : v.blksize = direntSize * v.perBlock := (Nat.mul_div_cancel' hdvd).symm
  have := g.blksize_bounds.1
  refine ⟨hmul, ?_⟩
  simp only [direntSize] at hmul
  omega

theorem HasEntries.length (h : HasEntries v cnt d n) : (v.dirents d).length = n := by
  rw [VDisk.dirents, List.length_map, List.length_range, h.filesize, Nat.mul_div_cancel_left _ (by decide)]

theorem HasEntries.dirents (h : HasEntries v cnt d n) : v.dirents d = (List.range n).map (v.direntAt d) := by
  rw [VDisk.dirents, h.filesize, Nat.mul_div_cancel_left _ (by decide)]

/-- The block of an entry. -/
theorem block_lt (g : Geometry v) (he : e < n) : e / v.perBlock * v.blksize < direntSize * n := by
  obtain ⟨hbs, _⟩ := g.perBlock
  have := Nat.div_mul_le_self e v.perBlock
  rw [hbs, Nat.mul_left_comm]
  exact Nat.mul_lt_mul_of_pos_left (by omega) (by decide)

/-- The entries in block `m`. -/
theorem entries_in (g : Geometry v) (m : Nat) :
    min v.blksize (direntSize * n - m * v.blksize) / direntSize = min v.perBlock (n - m * v.perBlock) := by
  obtain ⟨hbs, _⟩ := g.perBlock
  rw [hbs, Nat.mul_left_comm, ← Nat.mul_sub, Nat.mul_min_mul_left]
  exact Nat.mul_div_cancel_left _ (by decide)

end Sizes

end Ufs370
