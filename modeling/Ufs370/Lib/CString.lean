import Mathlib.Data.List.TakeWhile

/-! Strings that a zero byte ends, in buffers of bytes. -/

namespace Lib.CString

/-- The bytes of a string and the zeros that follow it. -/
def chars (s : List UInt8) (i : Nat) : UInt8 := s.getD i 0

/-- The string in a buffer, or its first `n` bytes. -/
def read : Nat → (Nat → UInt8) → List UInt8
  | 0, _ => []
  | n + 1, f => if f 0 = 0 then [] else f 0 :: read n fun i => f (i + 1)

/-- `strncmp(a, b, n) == 0` -/
def strncmpEq : Nat → (Nat → UInt8) → (Nat → UInt8) → Bool
  | 0, _, _ => true
  | n + 1, a, b =>
    if a 0 ≠ b 0 then false
    else if a 0 = 0 then true
    else strncmpEq n (fun i => a (i + 1)) fun i => b (i + 1)

variable {n m : Nat} {a b : Nat → UInt8}

theorem strncmpEq_iff : strncmpEq n a b = true ↔ read n a = read n b := by
  induction n generalizing a b with
  | zero => simp [strncmpEq, read]
  | succ n ih =>
    simp only [strncmpEq, read]
    by_cases hab : a 0 = b 0
    · by_cases hb : b 0 = 0 <;> simp [hab, hb, ih]
    · by_cases ha : a 0 = 0 <;> by_cases hb : b 0 = 0 <;> simp_all

theorem read_congr (h : ∀ i, i < n → a i = b i) : read n a = read n b := by
  induction n generalizing a b with
  | zero => rfl
  | succ n ih =>
    rw [read, read, h 0 (Nat.succ_pos n), ih fun i hi => h (i + 1) (Nat.succ_lt_succ hi)]

/-- What follows the end of a string does not show. -/
theorem read_congr_end (h : ∀ i, i ≤ m → a i = b i) (hend : b m = 0) : read n a = read n b := by
  induction n generalizing m a b with
  | zero => rfl
  | succ n ih =>
    rw [read, read, h 0 (Nat.zero_le m)]
    cases m with
    | zero => rw [if_pos hend, if_pos hend]
    | succ m => rw [ih (fun i hi => h (i + 1) (Nat.succ_le_succ hi)) hend]

theorem read_chars (n : Nat) (s : List UInt8) : read n (chars s) = (s.takeWhile (· ≠ 0)).take n := by
  induction n generalizing s with
  | zero => rfl
  | succ n ih =>
    cases s with
    | nil => rfl
    | cons c s =>
      have hshift : (fun i => chars (c :: s) (i + 1)) = chars s := rfl
      rw [read, hshift, ih]
      by_cases hc : c = 0 <;> simp [chars, hc]

theorem length_read (n : Nat) (f : Nat → UInt8) : (read n f).length ≤ n := by
  induction n generalizing f with
  | zero => exact Nat.le_refl 0
  | succ n ih =>
    rw [read]
    split
    · exact Nat.zero_le _
    · exact Nat.succ_le_succ (ih _)

theorem ne_zero_of_mem_read {f : Nat → UInt8} {c : UInt8} (h : c ∈ read n f) : c ≠ 0 := by
  induction n generalizing f with
  | zero => exact absurd h List.not_mem_nil
  | succ n ih =>
    rw [read] at h
    split at h
    · exact absurd h List.not_mem_nil
    · rcases List.mem_cons.mp h with rfl | h
      · assumption
      · exact ih h

/-- A string that is read again is the same. -/
theorem read_chars_read (n : Nat) (f : Nat → UInt8) : read n (chars (read n f)) = read n f := by
  rw [read_chars, List.takeWhile_eq_self_iff.mpr, List.take_of_length_le (length_read n f)]
  exact fun c hc => decide_eq_true (ne_zero_of_mem_read hc)

end Lib.CString
