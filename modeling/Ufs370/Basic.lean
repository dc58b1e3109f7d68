import Ufs370.Lib.Prog
import Mathlib.Logic.Function.Basic

namespace Ufs370

open Lib

/-- The `INT32` codes the functions hand around: `ok` is 0, then the errnos, the
`UFS_ITERATOR_*` codes, the code of a failed BDAM request and the pager's -1. -/
inductive Rc
  | ok
  | eperm | enoent | eio | e2big | enomem | eacces | ebusy | eexist | enotdir | eisdir
  | einval | enfile | efbig | enospc | erofs | enotempty
  | iteratorBreak | iteratorEnd | iteratorError
  | decb | nopage
  deriving DecidableEq, Repr

/-- A block or block buffer.  Only the bytes below the block size mean anything. -/
abbrev Block := Nat → UInt8

def zeroBlock : Block := fun _ => 0

/-- How a request fares: it works, it fails, or it takes effect and still reports failure. -/
inductive Fault
  | none | fail | late
  deriving DecidableEq, Repr

/-- Blocks behind a read and a write function.  `faults` is what the next requests
meet; past its end every request works. -/
structure Store where
  blocks : Nat → Block
  faults : List Fault

namespace Store

def takeFault : Prog Store Fault :=
  ⟨fun s => match s.faults with
    | [] => (.none, s)
    | f :: fs => (f, { s with faults := fs })⟩

/-- A request for storage rather than for a block. -/
def alloc : Prog Store Bool := do
  return (← takeFault) = .none

def read (block : Nat) : Prog Store (Except Rc Block) := do
  let f ← takeFault
  let s ← Prog.get
  return if f = .none then .ok (s.blocks block) else .error .decb

def write (buf : Block) (block : Nat) : Prog Store Rc := do
  let f ← takeFault
  if f ≠ .fail then
    Prog.modify fun s => { s with blocks := Function.update s.blocks block buf }
  return if f = .none then .ok else .decb

@[simp] theorem takeFault_blocks (s : Store) : (takeFault.run s).2.blocks = s.blocks := by
  simp only [takeFault]
  split <;> rfl

@[simp] theorem alloc_blocks (s : Store) : (alloc.run s).2.blocks = s.blocks := by
  simp [alloc]

/-- Every outcome of a read. -/
theorem read_cases (block : Nat) (s : Store) :
    ((read block).run s).2.blocks = s.blocks ∧
      ((read block).run s).1 = .ok (s.blocks block) ∨
    ((read block).run s).2.blocks = s.blocks ∧ ((read block).run s).1 = .error .decb := by
  by_cases hf : (takeFault.run s).1 = .none
  · left; simp [read, hf]
  · right; simp [read, hf]

/-- Every outcome of a write. -/
theorem write_cases (buf : Block) (block : Nat) (s : Store) :
    ((write buf block).run s).1 = .ok ∧
      ((write buf block).run s).2.blocks = Function.update s.blocks block buf ∨
    ((write buf block).run s).1 = .decb ∧ (((write buf block).run s).2.blocks = s.blocks ∨
      ((write buf block).run s).2.blocks = Function.update s.blocks block buf) := by
  cases hf : (takeFault.run s).1 with
  | none => left; simp [write, hf]
  | fail => right; simp [write, hf]
  | late => right; simp [write, hf]

section NoFault

variable {s : Store} (hs : s.faults = [])
include hs

theorem takeFault_nil : takeFault.run s = (.none, s) := by simp [takeFault, hs]

theorem alloc_nil : alloc.run s = (true, s) := by simp [alloc, takeFault_nil hs]

theorem read_nil (block : Nat) : (read block).run s = (.ok (s.blocks block), s) := by
  simp [read, takeFault_nil hs]

theorem write_nil (buf : Block) (block : Nat) :
    (write buf block).run s = (.ok, { s with blocks := Function.update s.blocks block buf }) := by
  simp [write, takeFault_nil hs]

end NoFault

end Store

/-- `n` as it is kept in a `UINT32`. -/
def u32 (n : Nat) : Nat := n % 4294967296

/-- Subtraction of `UINT32`s. -/
def u32sub (a b : Nat) : Nat := if b ≤ a then a - b else a + 4294967296 - b

theorem u32_of_lt {n : Nat} (h : n < 4294967296) : u32 n = n := Nat.mod_eq_of_lt h

theorem u32_lt (n : Nat) : u32 n < 4294967296 := Nat.mod_lt _ (by decide)

theorem u32sub_of_le {a b : Nat} (h : b ≤ a) : u32sub a b = a - b := if_pos h

end Ufs370
