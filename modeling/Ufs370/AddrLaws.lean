import Ufs370.Datablock
import Ufs370.Lib.IndexLayout

/-! The address map of a size is the place of its last block. -/

namespace Ufs370

open Lib Lib.IndexLayout

theorem and_two_pow_sub {y s : Nat} (hs : s ≤ 32) (hy : y < 4294967296) :
    y &&& (4294967296 - 2 ^ s) = y / 2 ^ s * 2 ^ s := by
  have h32 : (4294967296 : Nat) - 2 ^ s = (2 ^ (32 - s) - 1) * 2 ^ s := by
    rw [Nat.sub_mul, ← Nat.pow_add, Nat.sub_add_cancel hs, Nat.one_mul]
  apply Nat.eq_of_testBit_eq
  intro i
  rw [h32, Nat.testBit_and, Nat.testBit_mul_two_pow, Nat.testBit_mul_two_pow,
    Nat.testBit_two_pow_sub_one, Nat.testBit_div_two_pow]
  by_cases hi : s ≤ i
  · by_cases hi' : i < 32
    · have : i - s < 32 - s := by omega
      simp [hi, this]
    · have hpow : (2 : Nat) ^ 32 ≤ 2 ^ i := Nat.pow_le_pow_right (by decide) (Nat.not_lt.mp hi')
      have : y.testBit i = false := Nat.testBit_lt_two_pow (Nat.lt_of_lt_of_le hy hpow)
      simp [Nat.sub_add_cancel hi, this]
  · simp [hi]

theorem roundUp_two_pow {x s : Nat} (hs : s ≤ 32) (hx : x + (2 ^ s - 1) < 4294967296) :
    roundUp x (2 ^ s) = (x + (2 ^ s - 1)) / 2 ^ s * 2 ^ s := by
  rw [roundUp, u32_of_lt hx, and_two_pow_sub hs hx]

/-- A size that ends in block `m` is rounded up to the end of that block. -/
theorem roundUp_block {x m s : Nat} (hs : s ≤ 32) (hlo : m * 2 ^ s < x) (hhi : x ≤ (m + 1) * 2 ^ s)
    (hfit : x + 2 ^ s ≤ 4294967296) : roundUp x (2 ^ s) = (m + 1) * 2 ^ s := by
  have hpos : 0 < 2 ^ s := Nat.pow_pos (by decide)
  have h1 : (m + 1) * 2 ^ s = m * 2 ^ s + 2 ^ s := Nat.succ_mul m (2 ^ s)
  have h2 : (m + 2) * 2 ^ s = (m + 1) * 2 ^ s + 2 ^ s := Nat.succ_mul (m + 1) (2 ^ s)
  rw [roundUp_two_pow hs (by omega)]
  congr 1
  apply Nat.div_eq_of_lt_le
  · omega
  · change x + (2 ^ s - 1) < (m + 2) * 2 ^ s
    omega

theorem indexOf_block {x m s : Nat} (hs : s ≤ 32) (hlo : m * 2 ^ s < x) (hhi : x ≤ (m + 1) * 2 ^ s)
    (hfit : x + 2 ^ s ≤ 4294967296) : indexOf x (2 ^ s) = m := by
  rw [indexOf, roundUp_block hs hlo hhi hfit, Nat.mul_div_cancel _ (Nat.pow_pos (by decide)),
    u32sub_of_le (Nat.le_add_left 1 m), Nat.add_sub_cancel]

/-- The geometry of a well-formed disk. -/
structure Geometry (v : VDisk) : Prop where
  blksize : v.blksize = 2 ^ v.sb.blksizeShift
  low : 9 ≤ v.sb.blksizeShift
  high : v.sb.blksizeShift ≤ 15
  ilist : 2 ≤ v.sb.ilistSector
  data : v.sb.ilistSector < v.sb.datablockStartSector
  order : v.sb.datablockStartSector ≤ v.sb.volumeSize
  ilistBytes : (v.sb.datablockStartSector - v.sb.ilistSector) * v.blksize ≤ 4294967296
  volume : v.sb.volumeSize < 4294967296

/-- The block sizes that `ufs_disk_open` admits. -/
structure BlockSize (v : VDisk) : Prop where
  blksize : v.blksize = 2 ^ v.sb.blksizeShift
  low : 9 ≤ v.sb.blksizeShift
  high : v.sb.blksizeShift ≤ 15

theorem Geometry.blockSize {v : VDisk} (g : Geometry v) : BlockSize v := ⟨g.blksize, g.low, g.high⟩

namespace VDisk

/-- The links in an index block. -/
def nidx (v : VDisk) : Nat := v.blksize / 4

end VDisk

/-- The files that one disk can hold in a given number of blocks: at most 16 direct
blocks and one index block, or any number below 4 GiB if the blocks are small. -/
def Addressable (v : VDisk) (m : Nat) : Prop :=
  m ≤ 16 + v.nidx ∨ v.blksize ≤ 2048 ∧ m * v.blksize < 4294967296 ∧
    m ≤ 16 + v.nidx + v.nidx ^ 2 + v.nidx ^ 3

namespace Addrmap

/-- The place that a map points to. -/
def place (map : Addrmap) : Place :=
  match map.level with
  | 0 => (map.index 0, [])
  | 1 => (naddrIndex1, [map.index 0])
  | 2 => (naddrIndex2, [map.index 0, map.index 1])
  | _ => (naddrIndex3, [map.index 0, map.index 1, map.index 2])

end Addrmap

/-- `q` is the place of data block `m`. -/
structure DataPlace (n : Nat) (q : Place) (m : Nat) : Prop where
  valid : Valid n naddrDirect q
  full : q.2.length = height naddrDirect q.1
  block : firstBlock n naddrDirect q = m

theorem DataPlace.unique {n m : Nat} {q q' : Place} (h : DataPlace n q m) (h' : DataPlace n q' m) :
    q = q' :=
  firstBlock_inj h.valid h'.valid h.full h'.full (h.block.trans h'.block.symm)

structure Addrmap.IsBlock (n : Nat) (map : Addrmap) (m : Nat) : Prop where
  level : map.level ≤ 3
  place : DataPlace n map.place m

theorem base_index1 (n : Nat) : base n naddrDirect naddrIndex1 = 16 := base_direct n (Nat.le_refl 16)

theorem base_index2 (n : Nat) : base n naddrDirect naddrIndex2 = 16 + n := by
  change base n naddrDirect naddrIndex1 + n ^ 1 = _
  rw [base_index1, Nat.pow_one]

theorem base_index3 (n : Nat) : base n naddrDirect naddrIndex3 = 16 + n + n ^ 2 := by
  change base n naddrDirect naddrIndex2 + n ^ 2 = _
  rw [base_index2]

section Addr

variable {v : VDisk} {sz m : Nat}

theorem DataPlace.direct (n : Nat) {i : Nat} (hi : i < 16) : DataPlace n (i, []) i where
  valid := ⟨Nat.zero_le _, fun _ hj => absurd hj List.not_mem_nil⟩
  full := by
    change 0 = i + 1 - 16
    omega
  block := base_direct n (Nat.le_of_lt hi)

theorem DataPlace.index1 {n i : Nat} (hi : i < n) : DataPlace n (naddrIndex1, [i]) (16 + i) where
  valid := ⟨Nat.le_refl _, fun j hj => by
    obtain rfl : j = i := List.mem_singleton.mp hj
    exact hi⟩
  full := rfl
  block := by
    change base n naddrDirect naddrIndex1 + (i * n ^ 0 + 0) = 16 + i
    rw [base_index1, Nat.pow_zero, Nat.mul_one, Nat.add_zero]

theorem DataPlace.index2 {n i j : Nat} (hi : i < n) (hj : j < n) :
    DataPlace n (naddrIndex2, [i, j]) (16 + n + (i * n + j)) where
  valid := ⟨Nat.le_refl _, fun k hk => by
    rcases List.mem_pair.mp hk with rfl | rfl
    · exact hi
    · exact hj⟩
  full := rfl
  block := by
    change base n naddrDirect naddrIndex2 + (i * n ^ 1 + (j * n ^ 0 + 0)) = _
    rw [base_index2, Nat.pow_one, Nat.pow_zero, Nat.mul_one, Nat.add_zero]

theorem DataPlace.index3 {n i j k : Nat} (hi : i < n) (hj : j < n) (hk : k < n) :
    DataPlace n (naddrIndex3, [i, j, k]) (16 + n + n ^ 2 + (i * n ^ 2 + (j * n + k))) where
  valid := ⟨Nat.le_refl _, fun l hl => by
    rcases List.mem_cons.mp hl with rfl | hl
    · exact hi
    · rcases List.mem_pair.mp hl with rfl | rfl
      · exact hj
      · exact hk⟩
  full := rfl
  block := by
    change base n naddrDirect naddrIndex3 + (i * n ^ 2 + (j * n ^ 1 + (k * n ^ 0 + 0))) = _
    rw [base_index3, Nat.pow_one, Nat.pow_zero, Nat.mul_one, Nat.add_zero]

/-- Taking the index into blocks of `c` off a size leaves a size within one of them. -/
theorem addr_digit {x c bs t : Nat} (ha : c * bs = 2 ^ t) (ht : t ≤ 32) (hbs : 0 < bs)
    (hfit : (x + 1) * bs + c * bs ≤ 4294967296) :
    indexOf ((x + 1) * bs) (c * bs) = x / c ∧
      u32sub ((x + 1) * bs) (u32 (x / c * (c * bs))) = (x % c + 1) * bs := by
  have hc : 0 < c := Nat.pos_of_mul_pos_right (ha ▸ Nat.pow_pos (by decide))
  have hdiv : x / c * c + x % c = x := Nat.div_add_mod' x c
  have hmod : x % c < c := Nat.mod_lt x hc
  have hmul : x / c * (c * bs) = x / c * c * bs := (Nat.mul_assoc ..).symm
  have hle : x / c * c * bs ≤ x * bs := Nat.mul_le_mul_right _ (by omega)
  have hsucc : (x + 1) * bs = x * bs + bs := Nat.succ_mul x bs
  have hsplit : (x + 1) * bs = x / c * c * bs + (x % c + 1) * bs := by
    rw [← Nat.add_mul]
    congr 1
    omega
  have hrest : (x % c + 1) * bs ≤ c * bs := Nat.mul_le_mul_right _ hmod
  have hone : (x / c + 1) * (c * bs) = x / c * (c * bs) + c * bs := Nat.succ_mul ..
  have htwo : (x / c + 2) * (c * bs) = (x / c + 1) * (c * bs) + c * bs := Nat.succ_mul ..
  constructor
  · rw [ha] at hmul hone htwo ⊢
    exact indexOf_block ht (by omega) (by omega) (by omega)
  · rw [u32_of_lt (by omega), u32sub_of_le (by omega)]
    omega

theorem BlockSize.nidx_eq (g : BlockSize v) : v.nidx = 2 ^ (v.sb.blksizeShift - 2) := by
  have : v.sb.blksizeShift = v.sb.blksizeShift - 2 + 2 := by have := g.low; omega
  rw [VDisk.nidx, g.blksize]
  conv_lhs => rw [this, Nat.pow_add]
  exact Nat.mul_div_cancel _ (by decide)

theorem BlockSize.blksize_eq (g : BlockSize v) : v.blksize = 4 * v.nidx := by
  have : v.sb.blksizeShift = 2 + (v.sb.blksizeShift - 2) := by have := g.low; omega
  rw [g.nidx_eq, g.blksize]
  conv_lhs => rw [this, Nat.pow_add]

theorem BlockSize.nidx_bounds (g : BlockSize v) : 128 ≤ v.nidx ∧ v.nidx ≤ 8192 := by
  rw [g.nidx_eq]
  have h1 := g.low
  have h2 := g.high
  constructor
  · change 2 ^ 7 ≤ _
    exact Nat.pow_le_pow_right (by decide) (by omega)
  · change _ ≤ 2 ^ 13
    exact Nat.pow_le_pow_right (by decide) (by omega)

theorem Geometry.nidx_eq (g : Geometry v) : v.nidx = 2 ^ (v.sb.blksizeShift - 2) :=
  g.blockSize.nidx_eq

theorem Geometry.blksize_eq (g : Geometry v) : v.blksize = 4 * v.nidx := g.blockSize.blksize_eq

theorem Geometry.nidx_bounds (g : Geometry v) : 128 ≤ v.nidx ∧ v.nidx ≤ 8192 :=
  g.blockSize.nidx_bounds

theorem Addressable.bytes (g : Geometry v) (hm : Addressable v m) : m * v.blksize < 4294967296 := by
  rcases hm with hm | ⟨_, hm, _⟩
  · obtain ⟨_, hn⟩ := g.nidx_bounds
    have hbs := g.blksize_eq
    calc m * v.blksize
      _ ≤ (16 + 8192) * 32768 := Nat.mul_le_mul (by omega) (by omega)
      _ < 4294967296 := by decide
  · exact hm

section Levels

variable (g : BlockSize v) (hlo : m * v.blksize < sz) (hhi : sz ≤ (m + 1) * v.blksize)
  (hbytes : (m + 1) * v.blksize < 4294967296)
include g

theorem BlockSize.pos : 0 < v.blksize := by
  have := g.blksize_eq
  have := g.nidx_bounds
  omega

/-- Whole blocks below 4 GiB leave room for one more. -/
theorem BlockSize.room {a : Nat} (h : a * v.blksize < 4294967296) :
    a * v.blksize + v.blksize ≤ 4294967296 := by
  have hhigh := g.high
  have hsplit : 2 ^ (32 - v.sb.blksizeShift) * v.blksize = 4294967296 := by
    rw [g.blksize, ← Nat.pow_add, Nat.sub_add_cancel (by omega)]
  rw [← hsplit] at h ⊢
  rw [← Nat.succ_mul]
  exact Nat.mul_le_mul_right _ (Nat.lt_of_mul_lt_mul_right h)

theorem BlockSize.mul_le (a b : Nat) : a * v.blksize ≤ b * v.blksize ↔ a ≤ b :=
  Nat.mul_le_mul_right_iff g.pos

/-- The index of the last of `x + 1` blocks. -/
theorem BlockSize.last (x : Nat) : u32sub (((x + 1) * v.blksize) >>> v.sb.blksizeShift) 1 = x := by
  rw [Nat.shiftRight_eq_div_pow, ← g.blksize, Nat.mul_div_cancel _ g.pos,
    u32sub_of_le (Nat.le_add_left 1 x), Nat.add_sub_cancel]

theorem BlockSize.direct_size : u32 (naddrDirect * v.blksize) = 16 * v.blksize := by
  have := g.blksize_eq
  have := g.nidx_bounds
  exact u32_of_lt (by simp only [naddrDirect]; omega)

theorem BlockSize.index1_size : u32 (v.blksize / 4 * v.blksize) = v.nidx * v.blksize := by
  have := g.blksize_eq
  have hn := g.nidx_bounds
  have hle : v.blksize ≤ 32768 := by omega
  exact u32_of_lt (Nat.lt_of_le_of_lt (Nat.mul_le_mul hn.2 hle) (by decide))

theorem BlockSize.index1_pow :
    v.nidx * v.blksize = 2 ^ (v.sb.blksizeShift - 2 + v.sb.blksizeShift) := by
  rw [Nat.pow_add, ← g.nidx_eq, ← g.blksize]

theorem BlockSize.index2_pow : v.nidx * v.nidx * v.blksize =
    2 ^ (v.sb.blksizeShift - 2 + (v.sb.blksizeShift - 2) + v.sb.blksizeShift) := by
  rw [Nat.pow_add, Nat.pow_add, ← g.nidx_eq, ← g.blksize]

theorem BlockSize.small_shift (hsmall : v.blksize ≤ 2048) : v.sb.blksizeShift ≤ 11 := by
  by_contra h
  have hpow : 2 ^ 12 ≤ 2 ^ v.sb.blksizeShift := Nat.pow_le_pow_right (by decide) (by omega)
  have := g.blksize
  omega

theorem BlockSize.index2_le (hsmall : v.blksize ≤ 2048) :
    v.nidx * v.nidx * v.blksize ≤ 512 * 512 * 2048 := by
  have := g.blksize_eq
  exact Nat.mul_le_mul (Nat.mul_le_mul (by omega) (by omega)) hsmall

theorem BlockSize.index2_size (hsmall : v.blksize ≤ 2048) :
    u32 (v.blksize / 4 * (v.blksize / 4) * v.blksize) = v.nidx * v.nidx * v.blksize :=
  u32_of_lt (Nat.lt_of_le_of_lt (g.index2_le hsmall) (by decide))

include hlo hhi hbytes

theorem roundUp_size : roundUp sz v.blksize = (m + 1) * v.blksize := by
  have hshift := g.high
  have hroom := g.room hbytes
  rw [g.blksize] at hlo hhi hroom ⊢
  exact roundUp_block (by omega) hlo hhi (by omega)

theorem datablockAddr_direct (hm : m < 16) : datablockAddr v sz = (.ok, .at 0 m 0 0) := by
  have hsz : sz ≠ 0 := by omega
  simp only [datablockAddr, hsz, if_false, roundUp_size g hlo hhi hbytes, g.direct_size, g.mul_le, g.last]
  exact if_pos hm

theorem datablockAddr_index1 (hm : 16 ≤ m) (hm' : m - 16 < v.nidx) :
    datablockAddr v sz = (.ok, .at 1 (m - 16) 0 0) := by
  have hsz : sz ≠ 0 := by omega
  have h0 : ¬ m + 1 ≤ 16 := by omega
  have hrest : (m + 1) * v.blksize - 16 * v.blksize = (m - 16 + 1) * v.blksize := by
    rw [← Nat.sub_mul]
    congr 1
    omega
  simp only [datablockAddr, hsz, if_false, roundUp_size g hlo hhi hbytes, g.direct_size, g.mul_le, h0,
    g.index1_size, hrest, g.last]
  exact if_pos hm'

theorem datablockAddr_index2 (hsmall : v.blksize ≤ 2048) {x : Nat} (hm : m = 16 + v.nidx + x)
    (hx : x < v.nidx * v.nidx) :
    datablockAddr v sz = (.ok, .at 2 (x / v.nidx) (x % v.nidx) 0) := by
  have hsz : sz ≠ 0 := by omega
  have h0 : ¬ m + 1 ≤ 16 := by omega
  have h1 : ¬ v.nidx + x + 1 ≤ v.nidx := by omega
  have hrest : (m + 1) * v.blksize - 16 * v.blksize = (v.nidx + x + 1) * v.blksize := by
    rw [← Nat.sub_mul]
    congr 1
    omega
  have hrest' : (v.nidx + x + 1) * v.blksize - v.nidx * v.blksize = (x + 1) * v.blksize := by
    rw [← Nat.sub_mul]
    congr 1
    omega
  have hshift := g.small_shift hsmall
  have hfit : (x + 1) * v.blksize ≤ (m + 1) * v.blksize := (g.mul_le _ _).mpr (by omega)
  have hnbs : v.nidx * v.blksize ≤ v.nidx * v.nidx * v.blksize :=
    Nat.mul_le_mul_right _ (Nat.le_mul_of_pos_left _ (by have := g.nidx_bounds; omega))
  have hcap := g.index2_le hsmall
  obtain ⟨hi, hj⟩ := addr_digit (x := x) g.index1_pow (by omega) g.pos (by omega)
  simp only [datablockAddr, hsz, if_false, roundUp_size g hlo hhi hbytes, g.direct_size, g.mul_le, h0,
    g.index1_size, hrest, h1, hrest', g.index2_size hsmall, hi, hj, g.last]
  exact if_pos hx

theorem datablockAddr_index3 (hsmall : v.blksize ≤ 2048) {x : Nat}
    (hm : m = 16 + v.nidx + v.nidx * v.nidx + x) : datablockAddr v sz =
      (.ok, .at 3 (x / (v.nidx * v.nidx)) (x % (v.nidx * v.nidx) / v.nidx)
        (x % (v.nidx * v.nidx) % v.nidx)) := by
  have hn := g.nidx_bounds
  have hsz : sz ≠ 0 := by omega
  have h0 : ¬ m + 1 ≤ 16 := by omega
  have h1 : ¬ v.nidx + v.nidx * v.nidx + x + 1 ≤ v.nidx := by
    have : 0 < v.nidx * v.nidx := Nat.mul_pos (by omega) (by omega)
    omega
  have h2 : ¬ v.nidx * v.nidx + x + 1 ≤ v.nidx * v.nidx := by omega
  have hrest : (m + 1) * v.blksize - 16 * v.blksize = (v.nidx + v.nidx * v.nidx + x + 1) * v.blksize := by
    rw [← Nat.sub_mul]
    congr 1
    omega
  have hrest' : (v.nidx + v.nidx * v.nidx + x + 1) * v.blksize - v.nidx * v.blksize =
      (v.nidx * v.nidx + x + 1) * v.blksize := by
    rw [← Nat.sub_mul]
    congr 1
    omega
  have hrest'' : (v.nidx * v.nidx + x + 1) * v.blksize - v.nidx * v.nidx * v.blksize =
      (x + 1) * v.blksize := by
    rw [← Nat.sub_mul]
    congr 1
    omega
  have hshift := g.small_shift hsmall
  have hfit : ∀ y, y ≤ x → (y + 1) * v.blksize ≤ (m + 1) * v.blksize := fun y hy =>
    (g.mul_le _ _).mpr (by omega)
  have hnbs : v.nidx * v.blksize ≤ v.nidx * v.nidx * v.blksize :=
    Nat.mul_le_mul_right _ (Nat.le_mul_of_pos_left _ (by omega))
  have hcap := g.index2_le hsmall
  have hmod : x % (v.nidx * v.nidx) ≤ x := Nat.mod_le ..
  obtain ⟨hi, hj⟩ := addr_digit (x := x) g.index2_pow (by omega) g.pos (by
    have := hfit x (Nat.le_refl x)
    omega)
  obtain ⟨hj', hk⟩ := addr_digit (x := x % (v.nidx * v.nidx)) g.index1_pow (by omega) g.pos (by
    have hlt : x % (v.nidx * v.nidx) + 1 ≤ v.nidx * v.nidx :=
      Nat.mod_lt _ (Nat.mul_pos (by omega) (by omega))
    have := (g.mul_le _ _).mpr hlt
    omega)
  have hlast : ¬ v.blksize / 4 ≤ x % (v.nidx * v.nidx) % v.nidx :=
    Nat.not_le.mpr (Nat.mod_lt _ (by omega))
  simp only [datablockAddr, hsz, if_false, roundUp_size g hlo hhi hbytes, g.direct_size, g.mul_le, h0,
    g.index1_size, hrest, h1, hrest', h2, hrest'', g.index2_size hsmall, hi, hj, hj', hk, g.last, hlast]

end Levels

/-- The map of a size is the place of the block that the size ends in. -/
theorem datablockAddr_block (g : Geometry v) (hm : Addressable v (m + 1))
    (hlo : m * v.blksize < sz) (hhi : sz ≤ (m + 1) * v.blksize) :
    (datablockAddr v sz).1 = .ok ∧ (datablockAddr v sz).2.IsBlock v.nidx m := by
  have hn := g.nidx_bounds
  have hbytes := hm.bytes g
  by_cases h0 : m < 16
  · rw [datablockAddr_direct g.blockSize hlo hhi hbytes h0]
    exact ⟨rfl, Nat.zero_le _, .direct _ h0⟩
  by_cases h1 : m - 16 < v.nidx
  · rw [datablockAddr_index1 g.blockSize hlo hhi hbytes (by omega) h1]
    have hplace := DataPlace.index1 h1
    rw [show 16 + (m - 16) = m by omega] at hplace
    exact ⟨rfl, Nat.le_of_ble_eq_true rfl, hplace⟩
  -- only small blocks have the higher levels
  obtain ⟨hsmall, _, hcap⟩ : v.blksize ≤ 2048 ∧ (m + 1) * v.blksize < 4294967296 ∧
      m + 1 ≤ 16 + v.nidx + v.nidx ^ 2 + v.nidx ^ 3 := hm.resolve_left (by omega)
  by_cases h2 : m - 16 - v.nidx < v.nidx * v.nidx
  · rw [datablockAddr_index2 g.blockSize hlo hhi hbytes hsmall (x := m - 16 - v.nidx) (by omega) h2]
    have hplace := DataPlace.index2 (Nat.div_lt_of_lt_mul h2)
      (Nat.mod_lt (m - 16 - v.nidx) (y := v.nidx) (by omega))
    rw [Nat.div_add_mod', show 16 + v.nidx + (m - 16 - v.nidx) = m by omega] at hplace
    exact ⟨rfl, Nat.le_of_ble_eq_true rfl, hplace⟩
  · have hcube : v.nidx ^ 3 = v.nidx * v.nidx * v.nidx := by ring
    have hsquare : v.nidx ^ 2 = v.nidx * v.nidx := Nat.pow_two _
    generalize hx : m - 16 - v.nidx - v.nidx * v.nidx = x
    rw [datablockAddr_index3 g.blockSize hlo hhi hbytes hsmall (x := x) (by omega)]
    have hmod : x % (v.nidx * v.nidx) < v.nidx * v.nidx :=
      Nat.mod_lt _ (Nat.mul_pos (by omega) (by omega))
    have hplace := DataPlace.index3 (n := v.nidx) (i := x / (v.nidx * v.nidx))
      (j := x % (v.nidx * v.nidx) / v.nidx) (k := x % (v.nidx * v.nidx) % v.nidx)
      (Nat.div_lt_of_lt_mul (by omega)) (Nat.div_lt_of_lt_mul hmod) (Nat.mod_lt _ (by omega))
    rw [Nat.div_add_mod', hsquare, Nat.div_add_mod',
      show 16 + v.nidx + v.nidx * v.nidx + x = m by omega] at hplace
    exact ⟨rfl, Nat.le_refl 3, hplace⟩

end Addr

end Ufs370
