import Mathlib.Data.List.Basic

/-! A sequence with one position in it, at which it is read and overwritten. -/

namespace Lib

variable {α : Type}

/-- `ys` over `xs` from position `p` on, past the end if it has to be. -/
def overwrite (xs : List α) (p : Nat) (ys : List α) : List α :=
  xs.take p ++ ys ++ xs.drop (p + ys.length)

/-- `ys` over the values of `f` from position `p` on. -/
def splice (f : Nat → α) (p : Nat) (ys : List α) (k : Nat) : α :=
  if p ≤ k then (ys[k - p]?).getD (f k) else f k

/-- A sequence and a position in it. -/
structure Cursor (α : Type) where
  data : List α
  pos : Nat

namespace Cursor

/-- Up to `n` elements from the position on. -/
def get (c : Cursor α) (n : Nat) : List α × Cursor α :=
  let ys := (c.data.drop c.pos).take n
  (ys, { c with pos := c.pos + ys.length })

def put (c : Cursor α) (ys : List α) : Cursor α := ⟨overwrite c.data c.pos ys, c.pos + ys.length⟩

end Cursor

section Splice

variable {f : Nat → α} {xs ys zs : List α} {p k n : Nat}

@[simp] theorem splice_nil (f : Nat → α) (p : Nat) : splice f p [] = f := by
  funext k
  simp [splice]

theorem splice_inside (hlo : p ≤ k) (hhi : k < p + ys.length) :
    splice f p ys k = ys.get ⟨k - p, by omega⟩ := by
  rw [splice, if_pos hlo, List.getElem?_eq_getElem (by omega), Option.getD_some, List.get_eq_getElem]

theorem splice_outside (h : k < p ∨ p + ys.length ≤ k) : splice f p ys k = f k := by
  rw [splice]
  split
  · rw [List.getElem?_eq_none (by omega), Option.getD_none]
  · rfl

/-- Two pieces one after the other are one piece. -/
theorem splice_append : splice (splice f p ys) (p + ys.length) zs = splice f p (ys ++ zs) := by
  funext k
  by_cases hlo : p ≤ k
  · by_cases hmid : k < p + ys.length
    · rw [splice_outside (.inl hmid), splice_inside hlo hmid,
        splice_inside hlo (by rw [List.length_append]; omega)]
      simp only [List.get_eq_getElem]
      rw [List.getElem_append_left]
    · by_cases hhi : k < p + ys.length + zs.length
      · rw [splice_inside (Nat.not_lt.mp hmid) hhi,
          splice_inside hlo (by rw [List.length_append]; omega)]
        simp only [List.get_eq_getElem]
        rw [List.getElem_append_right (by omega)]
        simp only [Nat.sub_sub]
      · rw [splice_outside (.inr (Nat.not_lt.mp hhi)), splice_outside (.inr (Nat.not_lt.mp hmid)),
          splice_outside (.inr (by rw [List.length_append]; omega))]
  · rw [splice_outside (.inl (by omega)), splice_outside (.inl (Nat.not_le.mp hlo)),
      splice_outside (.inl (Nat.not_le.mp hlo))]

theorem overwrite_end (xs ys : List α) : overwrite xs xs.length ys = xs ++ ys := by
  simp [overwrite]

/-- The values of `f` with a piece over them, in a list. -/
theorem overwrite_map (hp : p ≤ n) : overwrite ((List.range n).map f) p ys =
    (List.range (max n (p + ys.length))).map (splice f p ys) := by
  have htake : (((List.range n).map f).take p).length = p := by simp [hp]
  refine List.ext_getElem (by simp [overwrite]; omega) fun k hk hk' => ?_
  simp only [List.length_map, List.length_range] at hk'
  simp only [overwrite, List.append_assoc, List.getElem_map, List.getElem_range]
  by_cases hlo : p ≤ k
  · rw [List.getElem_append_right (by omega)]
    by_cases hhi : k < p + ys.length
    · rw [List.getElem_append_left (by omega), splice_inside hlo hhi]
      simp only [htake, List.get_eq_getElem]
    · rw [List.getElem_append_right (by omega), splice_outside (.inr (Nat.not_lt.mp hhi)),
        List.getElem_drop, List.getElem_map, List.getElem_range]
      congr 1
      omega
  · rw [List.getElem_append_left (by omega), List.getElem_take, List.getElem_map, List.getElem_range,
      splice_outside (.inl (Nat.not_le.mp hlo))]

end Splice

namespace Cursor

variable {c : Cursor α}

@[simp] theorem get_data (c : Cursor α) (n : Nat) : (c.get n).2.data = c.data := rfl

@[simp] theorem get_zero (c : Cursor α) : c.get 0 = ([], c) := by simp [get]

theorem get_succ {n : Nat} (h : c.pos < c.data.length) : c.get (n + 1) =
    (c.data[c.pos] :: (get ⟨c.data, c.pos + 1⟩ n).1, (get ⟨c.data, c.pos + 1⟩ n).2) := by
  simp only [get, List.drop_eq_getElem_cons h, List.take_succ_cons, List.length_cons, Nat.add_assoc,
    Nat.add_comm 1]

theorem get_end {n : Nat} (h : c.data.length ≤ c.pos) : c.get n = ([], c) := by
  simp [get, List.drop_eq_nil_of_le h]

theorem get_pos_le {n : Nat} (h : c.pos ≤ c.data.length) : (c.get n).2.pos ≤ c.data.length := by
  simp only [get, List.length_take, List.length_drop]
  omega

end Cursor

end Lib
