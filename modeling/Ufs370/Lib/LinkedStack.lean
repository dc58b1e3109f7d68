import Mathlib.Logic.Function.Basic
import Mathlib.Data.List.Basic

/-! A stack cached in an array of `cap` cells.  A push onto a full array saves the
array in the pushed cell itself, which becomes the only entry; taking the only entry
brings back what was saved in it. -/

namespace Lib.LinkedStack

/-- What is saved in a cell: a count and the array. -/
abbrev Saved := Nat → Nat × (Nat → Nat)

/-- The array `f` with `n` entries stands for the stack `l`, its top first. -/
inductive Holds (cap : Nat) (saved : Saved) : Nat → (Nat → Nat) → List Nat → Prop
  | nil {f} : Holds cap saved 0 f []
  | link {f l} : 0 < cap → Holds cap saved (saved (f 0)).1 (saved (f 0)).2 l →
      Holds cap saved 1 f (f 0 :: l)
  | entry {n f l} : 0 < n → n < cap → Holds cap saved n f l → Holds cap saved (n + 1) f (f n :: l)

variable {cap n m : Nat} {saved saved' : Saved} {f g : Nat → Nat} {l l' : List Nat} {b : Nat}

theorem Holds.count_le (h : Holds cap saved n f l) : n ≤ cap := by
  cases h with
  | nil => exact Nat.zero_le _
  | link hcap _ => exact hcap
  | entry _ hn _ => exact hn

theorem Holds.eq_nil (h : Holds cap saved 0 f l) : l = [] := by
  cases h
  rfl

theorem Holds.count_pos (h : Holds cap saved n f (b :: l)) : 0 < n := by
  cases h <;> exact Nat.succ_pos _

/-- One array stands for one stack. -/
theorem Holds.unique (h : Holds cap saved n f l) (h' : Holds cap saved n f l') : l = l' := by
  induction h generalizing l' with
  | nil => exact h'.eq_nil.symm
  | link _ _ ih =>
    cases h' with
    | link _ h' => rw [ih h']
    | entry hn _ _ => exact absurd hn (Nat.lt_irrefl 0)
  | entry hn _ _ ih =>
    cases h' with
    | link _ _ => exact absurd hn (Nat.lt_irrefl 0)
    | entry _ _ h' => rw [ih h']

/-- Only the entries in use and the cells of the stack matter. -/
theorem Holds.congr (h : Holds cap saved n f l) (hf : ∀ i, i < n → g i = f i)
    (hs : ∀ b ∈ l, saved' b = saved b) : Holds cap saved' n g l := by
  induction h generalizing g with
  | nil => exact .nil
  | @link f l hcap h ih =>
    have h0 : g 0 = f 0 := hf 0 (Nat.succ_pos 0)
    have hsaved : saved' (g 0) = saved (f 0) := by rw [h0, hs _ (List.mem_cons_self ..)]
    rw [← h0]
    refine .link hcap ?_
    rw [hsaved]
    exact ih (fun i _ => rfl) fun b hb => hs b (List.mem_cons_of_mem _ hb)
  | @entry n f l hn hcap h ih =>
    rw [← hf n (Nat.lt_succ_self n)]
    exact .entry hn hcap
      (ih (fun i hi => hf i (Nat.lt_succ_of_lt hi)) fun b hb => hs b (List.mem_cons_of_mem _ hb))

theorem Holds.top (h : Holds cap saved n f (b :: l)) : f (n - 1) = b := by
  cases h <;> rfl

theorem Holds.pop (h : Holds cap saved n f (b :: l)) (hn : 1 < n) : Holds cap saved (n - 1) f l := by
  cases h with
  | link _ _ => exact absurd hn (Nat.lt_irrefl 1)
  | entry _ _ h => exact h

theorem Holds.pop_last (h : Holds cap saved 1 f (b :: l)) :
    Holds cap saved (saved b).1 (saved b).2 l := by
  cases h with
  | link _ h => exact h
  | entry hn _ _ => exact absurd hn (Nat.lt_irrefl 0)

theorem Holds.push (h : Holds cap saved n f l) (hn : 0 < n) (hcap : n < cap) (b : Nat) :
    Holds cap saved (n + 1) (Function.update f n b) (b :: l) := by
  have hb : Function.update f n b n = b := Function.update_self ..
  have : Holds cap saved n (Function.update f n b) l :=
    h.congr (fun i hi => Function.update_of_ne (Nat.ne_of_lt hi) _ _) fun _ _ => rfl
  simpa only [hb] using Holds.entry hn hcap this

/-- A cell pushed onto the empty stack must hold an empty array already. -/
theorem Holds.push_first (hcap : 0 < cap) (hb : (saved b).1 = 0) :
    Holds cap saved 1 (Function.update f 0 b) [b] := by
  have h0 : Function.update f 0 b 0 = b := Function.update_self ..
  have : Holds cap saved (saved (Function.update f 0 b 0)).1
      (saved (Function.update f 0 b 0)).2 [] := by
    rw [h0, hb]
    exact .nil
  simpa only [h0] using Holds.link hcap this

theorem Holds.spill (h : Holds cap saved n f l) (hcap : 0 < cap) (hb : g 0 = b)
    (hcount : (saved' b).1 = n) (harray : ∀ i, i < n → (saved' b).2 i = f i)
    (hs : ∀ c ∈ l, saved' c = saved c) : Holds cap saved' 1 g (b :: l) := by
  subst hb
  refine .link hcap ?_
  rw [hcount]
  exact h.congr harray hs

end Lib.LinkedStack
