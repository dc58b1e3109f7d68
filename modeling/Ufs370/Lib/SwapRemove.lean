import Mathlib.Data.List.Induction
import Mathlib.Data.List.Perm.Basic

/-! Tables from which an entry is removed by moving the last one into its place. -/

namespace Lib

variable {α : Type} {l : List α} {a : α} {j k : Nat}

/-- The table without entry `k`. -/
def swapRemove (l : List α) (k : Nat) : List α :=
  match l.getLast? with
  | some a => (l.set k a).dropLast
  | none => []

theorem swapRemove_concat (l : List α) (a : α) (k : Nat) :
    swapRemove (l ++ [a]) k = l.set k a := by
  rw [swapRemove, List.getLast?_concat]
  simp only [List.set_append]
  split
  · exact List.dropLast_concat
  · rename_i hk
    rw [List.set_eq_of_length_le (Nat.not_lt.mp hk)]
    cases k - l.length with
    | zero => exact List.dropLast_concat
    | succ i => exact List.dropLast_concat

theorem length_swapRemove (l : List α) (k : Nat) : (swapRemove l k).length = l.length - 1 := by
  induction l using List.reverseRecOn with
  | nil => rfl
  | append_singleton l a _ => rw [swapRemove_concat, List.length_set, List.length_append]; rfl

theorem getElem?_swapRemove (l : List α) (k j : Nat) : (swapRemove l k)[j]? =
    if j < l.length - 1 then if j = k then l[l.length - 1]? else l[j]? else none := by
  induction l using List.reverseRecOn with
  | nil => rfl
  | append_singleton l a _ =>
    rw [swapRemove_concat, List.getElem?_set, List.length_append, List.length_singleton,
      Nat.add_sub_cancel]
    by_cases hj : j < l.length
    · by_cases hk : k = j
      · subst hk
        simp [hj]
      · rw [if_neg hk, if_pos hj, if_neg (Ne.symm hk), List.getElem?_append_left hj]
    · rw [if_neg hj, List.getElem?_eq_none (Nat.not_lt.mp hj)]
      split
      · rw [if_neg (by omega)]
      · rfl

/-- Only the order differs from that of a removal that closes the gap. -/
theorem swapRemove_perm (hk : k < l.length) : (swapRemove l k).Perm (l.eraseIdx k) := by
  induction l using List.reverseRecOn with
  | nil => exact absurd hk (Nat.not_lt_zero k)
  | append_singleton l a _ =>
    rw [swapRemove_concat]
    rcases Nat.lt_or_ge k l.length with hlt | hge
    · rw [List.eraseIdx_append_of_lt_length hlt]
      exact (List.set_perm_cons_eraseIdx hlt a).trans (List.perm_append_singleton ..).symm
    · rw [List.length_append, List.length_singleton] at hk
      obtain rfl : k = l.length := by omega
      rw [List.set_eq_of_length_le (Nat.le_refl _), List.eraseIdx_append_of_length_le (Nat.le_refl _),
        Nat.sub_self]
      simp

/-- The entries before a removed one stay where they are. -/
theorem take_swapRemove (hj : j ≤ k) (hk : k < l.length) : (swapRemove l k).take j = l.take j := by
  refine List.ext_getElem? fun i => ?_
  rw [List.getElem?_take, List.getElem?_take, getElem?_swapRemove]
  by_cases hi : i < j
  · have h1 : i < l.length - 1 := by omega
    have h2 : i ≠ k := by omega
    simp [hi, h1, h2]
  · simp [hi]

end Lib
