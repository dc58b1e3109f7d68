import Ufs370.SizeChange

/-! The address map of a size, with its divisions checked. -/

namespace Ufs370

open Lib

/-- `ROUND(sz, a) / a - 1`; nothing if it divides by zero. -/
def indexOfChecked (sz a : Nat) : Option Nat := if a = 0 then none else some (indexOf sz a)

/-- `ufs_datablock_addr`, which the machine interrupts if it divides by zero. -/
def datablockAddrChecked (v : VDisk) (sz : Nat) : Option (Rc × Addrmap) :=
  let blksize := v.blksize
  let blkshift := v.sb.blksizeShift
  let nidx := blksize / 4
  let directSz := u32 (naddrDirect * blksize)
  let idx1Sz := u32 (nidx * blksize)
  let idx2Sz := u32 (nidx * nidx * blksize)
  if sz = 0 then some (.ok, .at 0 0 0 0)
  else
    let sz := roundUp sz blksize
    if sz ≤ directSz then some (.ok, .at 0 (u32sub (sz >>> blkshift) 1) 0 0)
    else
      let sz := sz - directSz
      if sz ≤ idx1Sz then some (.ok, .at 1 (u32sub (sz >>> blkshift) 1) 0 0)
      else
        let sz := sz - idx1Sz
        if sz ≤ idx2Sz then do
          let i ← indexOfChecked sz idx1Sz
          return (.ok, .at 2 i (u32sub (u32sub sz (u32 (i * idx1Sz)) >>> blkshift) 1) 0)
        else do
          let sz := sz - idx2Sz
          let i ← indexOfChecked sz idx2Sz
          let sz := u32sub sz (u32 (i * idx2Sz))
          let j ← indexOfChecked sz idx1Sz
          let sz := u32sub sz (u32 (j * idx1Sz))
          let k := u32sub (sz >>> blkshift) 1
          return (if nidx ≤ k then .enospc else .ok, .at 3 i j k)

/-- The level of block `k`, and its indices there. -/
def position (n k : Nat) : Nat × List Nat :=
  if k < 16 then (0, [k])
  else if k < 16 + n then (1, [k - 16])
  else if k < 16 + n + n ^ 2 then (2, [(k - 16 - n) / n, (k - 16 - n) % n])
  else
    let x := k - 16 - n - n ^ 2
    (3, [x / n ^ 2, x % n ^ 2 / n, x % n ^ 2 % n])

/-- The indices that are looked at. -/
def Addrmap.indices (map : Addrmap) : List Nat :=
  match map.level with
  | 0 | 1 => [map.index 0]
  | 2 => [map.index 0, map.index 1]
  | _ => [map.index 0, map.index 1, map.index 2]

def Addrmap.position (map : Addrmap) : Nat × List Nat := (map.level, map.indices)

/-- The last block of a size. -/
def lastBlock (v : VDisk) (sz : Nat) : Nat := ceil sz v.blksize - 1

/-- A size is mapped to the position of its last block, or refused for lack of room. -/
def AddrExact (v : VDisk) (sz : Nat) : Prop :=
  ∃ rc map, datablockAddrChecked v sz = some (rc, map) ∧
    (lastBlock v sz < maxBlocks v.nidx → rc = .ok ∧
      map.position = position v.nidx (lastBlock v sz) ∧ ∀ i ∈ map.indices, i < v.nidx) ∧
    (maxBlocks v.nidx ≤ lastBlock v sz → rc = .enospc)

section Position

variable {n k k' : Nat}

theorem position_lt (hn : 16 ≤ n) (hk : k < maxBlocks n) : ∀ i ∈ (position n k).2, i < n := by
  rw [maxBlocks] at hk
  have hsq : 0 < n ^ 2 := Nat.pow_pos (by omega)
  have hsquare : n ^ 2 = n * n := Nat.pow_two n
  have hcube : n ^ 3 = n ^ 2 * n := Nat.pow_succ ..
  have hmod : ∀ x, x % n < n := fun x => Nat.mod_lt x (by omega)
  simp only [position]
  split_ifs with h0 h1 h2
  · intro i hi
    rw [List.mem_singleton.mp hi]
    omega
  · intro i hi
    rw [List.mem_singleton.mp hi]
    omega
  · intro i hi
    rcases List.mem_pair.mp hi with rfl | rfl
    · exact Nat.div_lt_of_lt_mul (by omega)
    · exact hmod _
  · intro i hi
    rcases List.mem_cons.mp hi with rfl | hi
    · exact Nat.div_lt_of_lt_mul (by omega)
    rcases List.mem_pair.mp hi with rfl | rfl
    · exact Nat.div_lt_of_lt_mul (hsquare ▸ Nat.mod_lt _ hsq)
    · exact hmod _

/-- The block at a position. -/
def blockNumber (n : Nat) : Nat × List Nat → Nat
  | (0, [i]) => i
  | (1, [i]) => 16 + i
  | (2, [i, j]) => 16 + n + (i * n + j)
  | (_, [i, j, k]) => 16 + n + n ^ 2 + (i * n ^ 2 + (j * n + k))
  | _ => 0

theorem blockNumber_position (n k : Nat) : blockNumber n (position n k) = k := by
  simp only [position]
  split_ifs with h0 h1 h2
  · rfl
  · change 16 + (k - 16) = k
    omega
  · change 16 + n + ((k - 16 - n) / n * n + (k - 16 - n) % n) = k
    rw [Nat.div_add_mod']
    omega
  · simp only [blockNumber]
    rw [Nat.div_add_mod', Nat.div_add_mod']
    omega

theorem position_inj (h : position n k = position n k') : k = k' := by
  rw [← blockNumber_position n k, h, blockNumber_position]

end Position

section Checked

variable {v : VDisk} {sz : Nat} (g : BlockSize v)
include g

theorem BlockSize.index1_ne : u32 (v.blksize / 4 * v.blksize) ≠ 0 := by
  have hn := g.nidx_bounds
  rw [g.index1_size]
  exact Nat.ne_of_gt (Nat.mul_pos (by omega) g.pos)

theorem BlockSize.index2_ne (hsmall : v.blksize ≤ 2048) :
    u32 (v.blksize / 4 * (v.blksize / 4) * v.blksize) ≠ 0 := by
  have hn := g.nidx_bounds
  rw [g.index2_size hsmall]
  exact Nat.ne_of_gt (Nat.mul_pos (Nat.mul_pos (by omega) (by omega)) g.pos)

/-- From 4096 bytes on, the size of the blocks behind the second index is a multiple of 2^32. -/
theorem BlockSize.index2_wraps (hbig : ¬ v.blksize ≤ 2048) :
    u32 (v.blksize / 4 * (v.blksize / 4) * v.blksize) = 0 := by
  have hshift : 12 ≤ v.sb.blksizeShift := by
    by_contra h
    have hpow : 2 ^ v.sb.blksizeShift ≤ 2 ^ 11 := Nat.pow_le_pow_right (by decide) (by omega)
    have := g.blksize
    omega
  have hdvd : 2 ^ 32 ∣ v.nidx * v.nidx * v.blksize := by
    rw [g.index2_pow]
    exact Nat.pow_dvd_pow 2 (by omega)
  exact Nat.mod_eq_zero_of_dvd hdvd

theorem datablockAddrChecked_small (hsmall : v.blksize ≤ 2048) :
    datablockAddrChecked v sz = some (datablockAddr v sz) := by
  have h1 := g.index1_ne
  have h2 := g.index2_ne hsmall
  simp only [datablockAddrChecked, datablockAddr, indexOfChecked, h1, h2, if_false, Option.pure_def,
    Option.bind_eq_bind, Option.bind_some]
  split_ifs <;> rfl

section Block

variable {m : Nat} (hlo : m * v.blksize < sz) (hhi : sz ≤ (m + 1) * v.blksize)
  (hbytes : (m + 1) * v.blksize < 4294967296)
include hlo hhi hbytes

theorem datablockAddrChecked_index1 (hm : m < 16 + v.nidx) :
    datablockAddrChecked v sz = some (datablockAddr v sz) := by
  have hsz : sz ≠ 0 := by omega
  by_cases h0 : m + 1 ≤ 16
  · simp only [datablockAddrChecked, datablockAddr, hsz, if_false, roundUp_size g hlo hhi hbytes,
      g.direct_size, g.mul_le, h0, if_true]
  · have hrest : (m + 1) * v.blksize - 16 * v.blksize = (m - 16 + 1) * v.blksize := by
      rw [← Nat.sub_mul]
      congr 1
      omega
    have h1 : m - 16 + 1 ≤ v.nidx := by omega
    simp only [datablockAddrChecked, datablockAddr, hsz, if_false, roundUp_size g hlo hhi hbytes,
      g.direct_size, g.mul_le, h0, g.index1_size, hrest, h1, if_true]

/-- Behind the first index, the division by the wrapped size fails. -/
theorem datablockAddrChecked_big (hbig : ¬ v.blksize ≤ 2048) (hm : 16 + v.nidx ≤ m) :
    datablockAddrChecked v sz = none := by
  have hsz : sz ≠ 0 := by omega
  have h0 : ¬ m + 1 ≤ 16 := by omega
  have h1 : ¬ m - 16 + 1 ≤ v.nidx := by omega
  have hrest : (m + 1) * v.blksize - 16 * v.blksize = (m - 16 + 1) * v.blksize := by
    rw [← Nat.sub_mul]
    congr 1
    omega
  have hrest' : (m - 16 + 1) * v.blksize - v.nidx * v.blksize =
      (m - 16 - v.nidx + 1) * v.blksize := by
    rw [← Nat.sub_mul]
    congr 1
    omega
  have h2 : ¬ (m - 16 - v.nidx + 1) * v.blksize ≤ 0 :=
    Nat.not_le.mpr (Nat.mul_pos (Nat.succ_pos _) g.pos)
  simp only [datablockAddrChecked, indexOfChecked, hsz, if_false, roundUp_size g hlo hhi hbytes,
    g.direct_size, g.mul_le, h0, g.index1_size, hrest, h1, hrest', g.index2_wraps hbig, h2, if_true]
  rfl

end Block

/-- The map of a size on a disk that can hold it. -/
theorem datablockAddr_position {m : Nat} (hlo : m * v.blksize < sz) (hhi : sz ≤ (m + 1) * v.blksize)
    (hbytes : (m + 1) * v.blksize < 4294967296) (hm : v.blksize ≤ 2048 ∨ m < 16 + v.nidx) :
    (datablockAddr v sz).1 = .ok ∧ (datablockAddr v sz).2.position = position v.nidx m := by
  have hn := g.nidx_bounds
  have hsquare : v.nidx ^ 2 = v.nidx * v.nidx := Nat.pow_two _
  by_cases h0 : m < 16
  · rw [datablockAddr_direct g hlo hhi hbytes h0, position, if_pos h0]
    exact ⟨rfl, rfl⟩
  by_cases h1 : m < 16 + v.nidx
  · rw [datablockAddr_index1 g hlo hhi hbytes (by omega) (by omega), position, if_neg h0, if_pos h1]
    exact ⟨rfl, rfl⟩
  have hsmall := hm.resolve_right h1
  by_cases h2 : m < 16 + v.nidx + v.nidx ^ 2
  · rw [datablockAddr_index2 g hlo hhi hbytes hsmall (x := m - 16 - v.nidx) (by omega) (by omega),
      position, if_neg h0, if_neg h1, if_pos h2]
    exact ⟨rfl, rfl⟩
  · rw [datablockAddr_index3 g hlo hhi hbytes hsmall (x := m - 16 - v.nidx - v.nidx * v.nidx)
        (by omega), position, if_neg h0, if_neg h1, if_neg h2, hsquare]
    exact ⟨rfl, rfl⟩

theorem lastBlock_bounds (hpos : 0 < sz) (hsz : sz ≤ 2147483647) :
    lastBlock v sz * v.blksize < sz ∧ sz ≤ (lastBlock v sz + 1) * v.blksize ∧
      (lastBlock v sz + 1) * v.blksize < 4294967296 := by
  obtain ⟨hle, hlt⟩ := ceil_mul sz g.pos
  have hceil : 0 < ceil sz v.blksize := Nat.pos_of_ne_zero fun h => by
    rw [h, Nat.zero_mul] at hle
    omega
  have hlast : lastBlock v sz + 1 = ceil sz v.blksize := Nat.sub_add_cancel hceil
  have hsucc : (lastBlock v sz + 1) * v.blksize = lastBlock v sz * v.blksize + v.blksize :=
    Nat.succ_mul ..
  have hbelow : lastBlock v sz * v.blksize < sz := by
    rw [← hlast] at hlt
    omega
  refine ⟨hbelow, hlast ▸ hle, Nat.lt_of_le_of_lt ?_ (show 2147483648 < 4294967296 by decide)⟩
  have hhigh := g.high
  have hsplit : 2 ^ (31 - v.sb.blksizeShift) * v.blksize = 2147483648 := by
    rw [g.blksize, ← Nat.pow_add, Nat.sub_add_cancel (by omega)]
  rw [← hsplit]
  refine Nat.mul_le_mul_right _ (Nat.lt_of_mul_lt_mul_right (a := v.blksize) ?_)
  omega

/-- The address map is exact up to the first index, and on disks of small blocks up to the third. -/
theorem addrExact_iff (hpos : 0 < sz) (hsz : sz ≤ 2147483647) : AddrExact v sz ↔
    lastBlock v sz < 16 + v.nidx ∨ v.blksize ≤ 2048 ∧ lastBlock v sz < maxBlocks v.nidx := by
  obtain ⟨hlo, hhi, hbytes⟩ := lastBlock_bounds g hpos hsz
  have hn := g.nidx_bounds
  have hmax : 16 + v.nidx ≤ maxBlocks v.nidx := by
    rw [maxBlocks]
    omega
  constructor
  · rintro ⟨rc, map, hsome, hok, hfull⟩
    by_contra hcond
    obtain ⟨hfar, hroom⟩ := not_or.mp hcond
    by_cases hsmall : v.blksize ≤ 2048
    · have hrc := hfull (Nat.not_lt.mp fun h => hroom ⟨hsmall, h⟩)
      rw [datablockAddrChecked_small g hsmall, Option.some.injEq] at hsome
      have := (datablockAddr_position g hlo hhi hbytes (.inl hsmall)).1
      rw [hsome, hrc] at this
      cases this
    · rw [datablockAddrChecked_big g hlo hhi hbytes hsmall (Nat.not_lt.mp hfar)] at hsome
      cases hsome
  · intro hcond
    have hsome : datablockAddrChecked v sz = some (datablockAddr v sz) := hcond.elim
      (datablockAddrChecked_index1 g hlo hhi hbytes) fun h => datablockAddrChecked_small g h.1
    have hlt : lastBlock v sz < maxBlocks v.nidx :=
      hcond.elim (fun h => Nat.lt_of_lt_of_le h hmax) And.right
    obtain ⟨hrc, hplace⟩ :=
      datablockAddr_position g hlo hhi hbytes (hcond.symm.imp_left And.left)
    refine ⟨_, _, hsome, fun _ => ⟨hrc, hplace, ?_⟩, fun h => absurd hlt (Nat.not_lt.mpr h)⟩
    have hindices := position_lt (by omega) hlt
    rwa [← hplace] at hindices

end Checked

/-- Where the address map is exact it keeps different blocks apart. -/
theorem AddrExact.inj {v : VDisk} {sz sz' : Nat} {r r' : Rc × Addrmap}
    (h : AddrExact v sz) (h' : AddrExact v sz') (hlt : lastBlock v sz < maxBlocks v.nidx)
    (hlt' : lastBlock v sz' < maxBlocks v.nidx) (hr : datablockAddrChecked v sz = some r)
    (hr' : datablockAddrChecked v sz' = some r') (heq : r.2.position = r'.2.position) :
    lastBlock v sz = lastBlock v sz' := by
  obtain ⟨rc, map, hsome, hok, -⟩ := h
  obtain ⟨rc', map', hsome', hok', -⟩ := h'
  rw [hr, Option.some.injEq] at hsome
  rw [hr', Option.some.injEq] at hsome'
  have hplace := (hok hlt).2.1
  have hplace' := (hok' hlt').2.1
  rw [hsome, hsome', hplace, hplace'] at heq
  exact position_inj heq

/-- The sizes whose address map is exact, and what follows for two of them. -/
theorem datablockAddr_exact (v : VDisk) (g : BlockSize v) :
    (∀ sz, 0 < sz → sz ≤ 2147483647 → (AddrExact v sz ↔
      lastBlock v sz < 16 + v.nidx ∨ v.blksize ≤ 2048 ∧ lastBlock v sz < maxBlocks v.nidx)) ∧
    ∀ sz sz' r r', AddrExact v sz → AddrExact v sz' → lastBlock v sz < maxBlocks v.nidx →
      lastBlock v sz' < maxBlocks v.nidx → datablockAddrChecked v sz = some r →
      datablockAddrChecked v sz' = some r' → lastBlock v sz ≠ lastBlock v sz' →
      r.2.position ≠ r'.2.position := by
  constructor
  · intro sz hpos hsz
    exact addrExact_iff g hpos hsz
  · intro sz sz' r r' h h' hlt hlt' hr hr' hne heq
    exact hne (h.inj h' hlt hlt' hr hr' heq)

def blankSuper (shift : Nat) : Superblock where
  datablockStartSector := 3
  volumeSize := 12
  modified := false
  readonly := false
  totalFreeblock := 0
  totalFreeinode := 0
  nfreeblock := 0
  freeblock := fun _ => 0
  nfreeinode := 0
  freeinode := fun _ => 0
  inodesPerBlock := 2 ^ shift / 128
  blksizeShift := shift
  ilistSector := 2

/-- A disk of blocks of `2 ^ shift` bytes without any contents. -/
def blankDisk (shift : Nat) : VDisk where
  blksize := 2 ^ shift
  readonly := false
  sb := blankSuper shift
  io := ⟨fun _ => zeroBlock, []⟩
  super := blankSuper shift
  minodes := []

theorem blankDisk_blockSize {shift : Nat} (hlow : 9 ≤ shift) (hhigh : shift ≤ 15) :
    BlockSize (blankDisk shift) := ⟨rfl, hlow, hhigh⟩

theorem datablockAddr_exact_small : AddrExact (blankDisk 9) 8193 ∧ ¬ AddrExact (blankDisk 12) 4259841 := by
  have g9 : BlockSize (blankDisk 9) := blankDisk_blockSize (by decide) (by decide)
  have g12 : BlockSize (blankDisk 12) := blankDisk_blockSize (by decide) (by decide)
  constructor
  · exact ((datablockAddr_exact _ g9).1 8193 (by decide) (by decide)).mpr (.inl (by decide))
  · exact fun h => absurd (((datablockAddr_exact _ g12).1 4259841 (by decide) (by decide)).mp h) (by decide)

/-- With blocks of 4096 bytes, the first block behind the single index is asked for with a
division by zero; with blocks of 512 bytes, the first block past the layout is not refused. -/
theorem not_datablockAddr_exact :
    (BlockSize (blankDisk 12) ∧ datablockAddrChecked (blankDisk 12) 4259841 = none) ∧
    (BlockSize (blankDisk 9) ∧ maxBlocks (blankDisk 9).nidx = lastBlock (blankDisk 9) 1082204161 ∧
      ∃ map, datablockAddrChecked (blankDisk 9) 1082204161 = some (.ok, map)) ∧
    ¬ ∀ v, BlockSize v → ∀ sz, 0 < sz → sz ≤ 2147483647 → AddrExact v sz := by
  have g12 : BlockSize (blankDisk 12) := blankDisk_blockSize (by decide) (by decide)
  have hnone : datablockAddrChecked (blankDisk 12) 4259841 = none := by decide
  refine ⟨⟨g12, hnone⟩, ⟨blankDisk_blockSize (by decide) (by decide), by decide, _, rfl⟩, fun h => ?_⟩
  obtain ⟨rc, map, hsome, -⟩ := h _ g12 4259841 (by decide) (by decide)
  rw [hnone] at hsome
  cases hsome

end Ufs370
