import Mathlib.Data.List.Basic

/-! Texts in lines of bounded length, each with what ends it. -/

namespace Lib.Lines

variable {α : Type} (p : α → Bool)

/-- The first line of a text, or the first `n` elements of a longer one. -/
def line : Nat → List α → List α
  | 0, _ => []
  | _ + 1, [] => []
  | n + 1, x :: xs => if p x then [x] else x :: line n xs

/-- The number of elements that a reader of the line asks for. -/
def reach : Nat → List α → Nat
  | 0, _ => 0
  | n + 1, [] => n + 1
  | n + 1, x :: xs => if p x then 1 else reach n xs + 1

variable {p} {n : Nat} {xs : List α} {x : α}

theorem take_reach (n : Nat) (xs : List α) : xs.take (reach p n xs) = line p n xs := by
  induction n generalizing xs with
  | zero => rfl
  | succ n ih =>
    cases xs with
    | nil => rfl
    | cons x xs =>
      by_cases hx : p x
      · simp [reach, line, hx]
      · simp [reach, line, hx, ih]

theorem reach_le (n : Nat) (xs : List α) : reach p n xs ≤ n := by
  induction n generalizing xs with
  | zero => exact Nat.le_refl 0
  | succ n ih =>
    cases xs with
    | nil => exact Nat.le_refl _
    | cons x xs =>
      rw [reach]
      split
      · exact Nat.succ_le_succ (Nat.zero_le n)
      · exact Nat.succ_le_succ (ih xs)

theorem reach_take (n : Nat) (xs : List α) : reach p n (xs.take (reach p n xs)) = reach p n xs := by
  induction n generalizing xs with
  | zero => rfl
  | succ n ih =>
    cases xs with
    | nil => rfl
    | cons x xs =>
      by_cases hx : p x
      · simp [reach, hx]
      · simp [reach, hx, ih]

theorem line_ne_nil (hxs : xs ≠ []) : line p (n + 1) xs ≠ [] := by
  cases xs with
  | nil => exact absurd rfl hxs
  | cons x xs =>
    rw [line]
    split <;> exact List.cons_ne_nil _ _

theorem line_append (n : Nat) (xs : List α) : line p n xs ++ xs.drop (line p n xs).length = xs := by
  rw [← take_reach, List.length_take]
  rcases Nat.le_total (reach p n xs) xs.length with h | h
  · rw [Nat.min_eq_left h, List.take_append_drop]
  · rw [Nat.min_eq_right h, List.take_of_length_le h, List.drop_length, List.append_nil]

theorem line_length_le (n : Nat) (xs : List α) : (line p n xs).length ≤ xs.length := by
  have := congrArg List.length (line_append (p := p) n xs)
  rw [List.length_append] at this
  omega

variable (p) in
/-- A text in lines of at most `n + 1` elements. -/
def lines (n : Nat) (xs : List α) : List (List α) :=
  if xs = [] then [] else line p (n + 1) xs :: lines n (xs.drop (line p (n + 1) xs).length)
termination_by xs.length
decreasing_by
  rename_i hxs
  have hpos := List.length_pos_iff.mpr (line_ne_nil (p := p) (n := n) hxs)
  have hle := line_length_le (p := p) (n + 1) xs
  rw [List.length_drop]
  omega

theorem lines_nil : lines p n [] = [] := by rw [lines, if_pos rfl]

theorem lines_of_ne_nil (hxs : xs ≠ []) :
    lines p n xs = line p (n + 1) xs :: lines p n (xs.drop (line p (n + 1) xs).length) := by
  rw [lines, if_neg hxs]

/-- The lines strung together are the text. -/
theorem flatten_lines (n : Nat) (xs : List α) : (lines p n xs).flatten = xs := by
  induction xs using lines.induct p n with
  | case1 => rw [lines_nil, List.flatten_nil]
  | case2 xs hxs ih => rw [lines_of_ne_nil hxs, List.flatten_cons, ih, line_append]

/-- No line goes on behind an element that ends one. -/
theorem line_shape (n : Nat) (xs : List α) :
    (line p n xs).length ≤ n ∧ ∀ x ∈ (line p n xs).dropLast, p x = false := by
  induction n generalizing xs with
  | zero => simp [line]
  | succ n ih =>
    cases xs with
    | nil => simp [line]
    | cons x xs =>
      by_cases hx : p x
      · simp [line, hx]
      · obtain ⟨hlen, hin⟩ := ih xs
        simp only [line, hx, Bool.false_eq_true, if_false, List.length_cons]
        refine ⟨Nat.succ_le_succ hlen, fun y hy => ?_⟩
        rcases hl : line p n xs with _ | ⟨z, zs⟩
        · rw [hl] at hy
          exact absurd hy List.not_mem_nil
        · rw [hl, List.dropLast_cons_cons] at hy
          rcases List.mem_cons.mp hy with rfl | hy
          · exact Bool.eq_false_iff.mpr hx
          · exact hin y (hl ▸ hy)

theorem lines_shape (n : Nat) (xs : List α) :
    ∀ l ∈ lines p n xs, l ≠ [] ∧ l.length ≤ n + 1 ∧ ∀ x ∈ l.dropLast, p x = false := by
  induction xs using lines.induct p n with
  | case1 =>
    rw [lines_nil]
    exact fun l hl => absurd hl List.not_mem_nil
  | case2 xs hxs ih =>
    rw [lines_of_ne_nil hxs]
    intro l hl
    rcases List.mem_cons.mp hl with rfl | hl
    · exact ⟨line_ne_nil hxs, line_shape (n + 1) xs⟩
    · exact ih l hl

end Lib.Lines
