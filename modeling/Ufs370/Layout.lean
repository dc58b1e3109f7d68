import Ufs370.Shrinkage

/-! The places of the first blocks of a file, listed and counted. -/

namespace Ufs370

open Lib Lib.IndexForest Lib.IndexLayout

/-- The number of data blocks that an address list can reach. -/
def maxBlocks (n : Nat) : Nat := 16 + n + n ^ 2 + n ^ 3

/-- The place of data block `m`. -/
def placeOf (n m : Nat) : Place :=
  if m < 16 then (m, [])
  else if m - 16 < n then (naddrIndex1, [m - 16])
  else if m - 16 - n < n ^ 2 then (naddrIndex2, [(m - 16 - n) / n, (m - 16 - n) % n])
  else
    let y := m - 16 - n - n ^ 2
    (naddrIndex3, [y / n ^ 2, y % n ^ 2 / n, y % n ^ 2 % n])

/-- The block that the address list of an inode has at a place. -/
def VDisk.blockAt (v : VDisk) (i : Nat) (q : Place) : Nat := v.forest.node ((i, q.1), q.2)

/-- The places that the first `k` data blocks need. -/
def placesOf (n k : Nat) : List Place := (List.range k).flatMap fun m => newPlaces (placeOf n m)

/-- `⌈x / a⌉` -/
def ceil (x a : Nat) : Nat := (x + a - 1) / a

/-- The number of index blocks of a file of `k` data blocks. -/
def indexCount (n k : Nat) : Nat :=
  if k ≤ 16 then 0
  else if k - 16 ≤ n then 1
  else if k - 16 - n ≤ n ^ 2 then 2 + ceil (k - 16 - n) n
  else
    let y := k - 16 - n - n ^ 2
    3 + n + ceil y (n ^ 2) + ceil y n

variable {n m k : Nat}

theorem placeOf_data (hn : 0 < n) (hm : m < maxBlocks n) : DataPlace n (placeOf n m) m := by
  rw [maxBlocks] at hm
  have hsq : 0 < n ^ 2 := Nat.pow_pos hn
  have hsquare : n ^ 2 = n * n := Nat.pow_two n
  have hcube : n ^ 3 = n ^ 2 * n := Nat.pow_succ ..
  simp only [placeOf]
  split
  · exact .direct n (by assumption)
  split
  · have := DataPlace.index1 (n := n) (i := m - 16) (by assumption)
    rwa [show 16 + (m - 16) = m by omega] at this
  split
  · rename_i h0 h1 h2
    have := DataPlace.index2 (n := n) (i := (m - 16 - n) / n) (j := (m - 16 - n) % n)
      (Nat.div_lt_of_lt_mul (hsquare ▸ h2)) (Nat.mod_lt _ hn)
    rwa [Nat.div_add_mod', show 16 + n + (m - 16 - n) = m by omega] at this
  · rename_i h0 h1 h2
    generalize hy : m - 16 - n - n ^ 2 = y
    have hmod : y % n ^ 2 < n * n := hsquare ▸ Nat.mod_lt y hsq
    have := DataPlace.index3 (n := n) (i := y / n ^ 2) (j := y % n ^ 2 / n) (k := y % n ^ 2 % n)
      (Nat.div_lt_of_lt_mul (by omega)) (Nat.div_lt_of_lt_mul hmod) (Nat.mod_lt _ hn)
    rwa [Nat.div_add_mod' (y % n ^ 2), Nat.div_add_mod', show 16 + n + n ^ 2 + y = m by omega] at this

theorem mem_needed_succ (hn : 0 < n) {p q : Place} (hp : DataPlace n p k) :
    q ∈ needed n naddrDirect (k + 1) ↔ q ∈ newPlaces p ∨ q ∈ needed n naddrDirect k := by
  have hp' : DataPlace n p ((fun _ => k) 0) := hp
  have hset := @mem_within_succ n (fun _ => k) 0 p hn hp' ((0, q.1), q.2)
  have hcnt : Function.update (fun _ => k) 0 (k + 1) 0 = k + 1 := Function.update_self ..
  rw [mem_within, hcnt] at hset
  simp only [true_and] at hset
  exact hset

theorem placesOf_succ (n k : Nat) : placesOf n (k + 1) = placesOf n k ++ newPlaces (placeOf n k) := by
  simp [placesOf, List.range_succ]

theorem placesOf_length_mono (n : Nat) {k k' : Nat} (h : k ≤ k') :
    (placesOf n k).length ≤ (placesOf n k').length := by
  induction h with
  | refl => exact Nat.le_refl _
  | step _ ih =>
    rw [placesOf_succ, List.length_append]
    exact Nat.le_trans ih (Nat.le_add_right ..)

theorem mem_placesOf (hn : 0 < n) (hk : k ≤ maxBlocks n) {q : Place} :
    q ∈ placesOf n k ↔ q ∈ needed n naddrDirect k := by
  induction k with
  | zero => exact ⟨fun h => absurd h List.not_mem_nil, fun h => absurd h.2 (Nat.not_lt_zero _)⟩
  | succ k ih =>
    rw [mem_needed_succ hn (placeOf_data hn hk), ← ih (Nat.le_of_succ_le hk), placesOf_succ,
      List.mem_append]
    exact or_comm

theorem placesOf_nodup (hn : 0 < n) (hk : k ≤ maxBlocks n) : (placesOf n k).Nodup := by
  induction k with
  | zero => exact List.nodup_nil
  | succ k ih =>
    have hk' := Nat.le_of_succ_le hk
    have hp : DataPlace n (placeOf n k) ((fun _ => k) 0) := placeOf_data hn hk
    rw [placesOf_succ]
    refine List.nodup_append'.mpr ⟨ih hk', newPlaces_nodup _, fun q hq hnew => ?_⟩
    exact @newPlaces_fresh n q (fun _ => k) 0 _ hp hnew ((mem_placesOf hn hk').mp hq)

theorem ceil_zero {a : Nat} (ha : 0 < a) : ceil 0 a = 0 := Nat.div_eq_of_lt (by omega)

theorem ceil_succ (x : Nat) {a : Nat} (ha : 0 < a) :
    ceil (x + 1) a = ceil x a + if x % a = 0 then 1 else 0 := by
  have hx := Nat.div_add_mod x a
  have hlt := Nat.mod_lt x ha
  have hsucc : ceil (x + 1) a = x / a + 1 := by
    rw [ceil, show x + 1 + a - 1 = x + a by omega, Nat.add_div_right _ ha]
  rw [hsucc, ceil]
  split
  · have : x + a - 1 = a * (x / a) + (a - 1) := by omega
    rw [this, Nat.mul_add_div ha, Nat.div_eq_of_lt (a := a - 1) (by omega)]
  · have : x + a - 1 = a * (x / a + 1) + (x % a - 1) := by
      rw [Nat.mul_add_one]
      omega
    rw [this, Nat.mul_add_div ha, Nat.div_eq_of_lt (a := x % a - 1) (by omega)]

theorem newPlaces_length1 (r i : Nat) :
    (newPlaces (r, [i])).length = 1 + if i = 0 then 1 else 0 := by
  by_cases hi : i = 0 <;> simp [newPlaces, hi]

theorem newPlaces_length2 (r i j : Nat) : (newPlaces (r, [i, j])).length =
    1 + (if j = 0 then 1 else 0) + if j = 0 ∧ i = 0 then 1 else 0 := by
  by_cases hi : i = 0 <;> by_cases hj : j = 0 <;> simp [newPlaces, hi, hj]

theorem newPlaces_length3 (r i j k : Nat) : (newPlaces (r, [i, j, k])).length =
    1 + (if k = 0 then 1 else 0) + (if k = 0 ∧ j = 0 then 1 else 0) +
      if k = 0 ∧ j = 0 ∧ i = 0 then 1 else 0 := by
  by_cases hi : i = 0 <;> by_cases hj : j = 0 <;> by_cases hk : k = 0 <;>
    simp [newPlaces, hi, hj, hk]

theorem indexCount_direct (hk : k ≤ 16) : indexCount n k = 0 := if_pos hk

theorem indexCount_index1 {x : Nat} (h0 : 0 < x) (hx : x ≤ n) : indexCount n (16 + x) = 1 := by
  have h1 : ¬ 16 + x ≤ 16 := by omega
  rw [indexCount, if_neg h1, Nat.add_sub_cancel_left, if_pos hx]

theorem indexCount_index2 {x : Nat} (h0 : 0 < x) (hx : x ≤ n ^ 2) :
    indexCount n (16 + n + x) = 2 + ceil x n := by
  have h1 : ¬ 16 + n + x ≤ 16 := by omega
  have h2 : ¬ 16 + n + x - 16 ≤ n := by omega
  rw [indexCount, if_neg h1, if_neg h2, show 16 + n + x - 16 - n = x by omega, if_pos hx]

theorem indexCount_index3 {y : Nat} (h0 : 0 < y) :
    indexCount n (16 + n + n ^ 2 + y) = 3 + n + ceil y (n ^ 2) + ceil y n := by
  have h1 : ¬ 16 + n + n ^ 2 + y ≤ 16 := by omega
  have h2 : ¬ 16 + n + n ^ 2 + y - 16 ≤ n := by omega
  have h3 : ¬ 16 + n + n ^ 2 + y - 16 - n ≤ n ^ 2 := by omega
  rw [indexCount, if_neg h1, if_neg h2, if_neg h3,
    show 16 + n + n ^ 2 + y - 16 - n - n ^ 2 = y by omega]

theorem digits_zero_iff (x : Nat) : x % n = 0 ∧ x / n = 0 ↔ x = 0 := by
  have h := Nat.div_add_mod x n
  constructor
  · rintro ⟨h1, h2⟩
    rw [h1, h2, Nat.mul_zero] at h
    exact h.symm
  · rintro rfl
    exact ⟨Nat.zero_mod n, Nat.zero_div n⟩

/-- What one more data block needs. -/
theorem newPlaces_placeOf_length (hn : 0 < n) (k : Nat) :
    (newPlaces (placeOf n k)).length + indexCount n k = 1 + indexCount n (k + 1) := by
  have hsq : 0 < n ^ 2 := Nat.pow_pos hn
  simp only [placeOf]
  split
  · rename_i h0
    rw [indexCount_direct (Nat.le_of_lt h0), indexCount_direct (Nat.succ_le_of_lt h0)]
    rfl
  split
  · rename_i h0 h1
    obtain ⟨x, rfl⟩ := Nat.exists_eq_add_of_le (Nat.not_lt.mp h0)
    rw [Nat.add_sub_cancel_left] at h1 ⊢
    rw [newPlaces_length1, Nat.add_assoc 16, indexCount_index1 (Nat.succ_pos x) h1]
    rcases Nat.eq_zero_or_pos x with rfl | hx
    · rfl
    · rw [indexCount_index1 hx (Nat.le_of_lt h1), if_neg (Nat.ne_of_gt hx)]
  split
  · rename_i h0 h1 h2
    obtain ⟨x, rfl⟩ : ∃ x, k = 16 + n + x := ⟨k - 16 - n, by omega⟩
    rw [show 16 + n + x - 16 - n = x by omega] at h2 ⊢
    rw [newPlaces_length2, Nat.add_assoc (16 + n), indexCount_index2 (Nat.succ_pos x) h2,
      ceil_succ x hn]
    simp only [digits_zero_iff x]
    rcases Nat.eq_zero_or_pos x with rfl | hx
    · rw [ceil_zero hn, Nat.add_zero, indexCount_index1 hn (Nat.le_refl n)]
      simp
    · rw [indexCount_index2 hx (Nat.le_of_lt h2), if_neg (Nat.ne_of_gt hx)]
      omega
  · rename_i h0 h1 h2
    obtain ⟨y, rfl⟩ : ∃ y, k = 16 + n + n ^ 2 + y := ⟨k - 16 - n - n ^ 2, by omega⟩
    rw [show 16 + n + n ^ 2 + y - 16 - n - n ^ 2 = y by omega]
    have hc : y % n ^ 2 % n = 0 ↔ y % n = 0 := by
      rw [Nat.mod_mod_of_dvd y (Dvd.intro_left n (Nat.pow_two n).symm)]
    have hb : y % n = 0 ∧ y % n ^ 2 / n = 0 ↔ y % n ^ 2 = 0 := by
      rw [← hc, digits_zero_iff]
    have ha : y % n = 0 ∧ y % n ^ 2 / n = 0 ∧ y / n ^ 2 = 0 ↔ y = 0 := by
      rw [← and_assoc, hb, digits_zero_iff]
    rw [newPlaces_length3, Nat.add_assoc (16 + n + n ^ 2), indexCount_index3 (Nat.succ_pos y),
      ceil_succ y hn, ceil_succ y hsq]
    simp only [hc, hb, ha]
    rcases Nat.eq_zero_or_pos y with rfl | hy
    · rw [ceil_zero hn, ceil_zero hsq, Nat.add_zero, indexCount_index2 hsq (Nat.le_refl _), ceil,
        show n ^ 2 + n - 1 = n * n + (n - 1) by rw [Nat.pow_two]; omega, Nat.mul_add_div hn,
        Nat.div_eq_of_lt (a := n - 1) (by omega)]
      simp
      omega
    · rw [indexCount_index3 hy, if_neg (Nat.ne_of_gt hy)]
      omega

/-- A file has `k` data blocks and so many index blocks. -/
theorem placesOf_length (hn : 0 < n) (k : Nat) : (placesOf n k).length = k + indexCount n k := by
  induction k with
  | zero => rfl
  | succ k ih =>
    have := newPlaces_placeOf_length hn k
    rw [placesOf_succ, List.length_append, ih]
    omega

end Ufs370
