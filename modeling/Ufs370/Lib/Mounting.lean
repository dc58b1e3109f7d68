import Mathlib.Data.PEquiv
import Mathlib.Logic.Function.Basic

/-! Trees whose roots are mounted on directories of each other. -/

namespace Lib.Mounting

variable {π κ ν : Type}

section Table

variable [DecidableEq π] [DecidableEq κ] {t : π ≃. κ} {p : π} {k : κ}

/-- The table with `k` mounted on `p`, if neither has a mount. -/
def attach (t : π ≃. κ) (p : π) (k : κ) : π ≃. κ :=
  if h : t p = none ∧ t.symm k = none then
    { toFun := Function.update t p (some k)
      invFun := Function.update t.symm k (some p)
      inv := fun q j => by
        by_cases hq : q = p <;> by_cases hj : j = k
        · simp [hq, hj]
        · subst hq
          have hother : t.symm j ≠ some q := fun heq => by simp [t.eq_some_iff.mp heq] at h
          simp [hj, Ne.symm hj, hother]
        · subst hj
          have hother : t q ≠ some j := fun heq => by simp [t.eq_some_iff.mpr heq] at h
          simp [hq, Ne.symm hq, hother]
        · simp only [Function.update_of_ne hq, Function.update_of_ne hj]
          exact t.eq_some_iff }
  else t

/-- The table without the mount on `p`. -/
def detach (t : π ≃. κ) (p : π) : π ≃. κ where
  toFun := Function.update t p none
  invFun k := if t.symm k = some p then none else t.symm k
  inv q k := by
    by_cases hq : q = p
    · subst hq
      by_cases hk : t.symm k = some q <;> simp [hk]
    · rw [Function.update_of_ne hq, ← t.eq_some_iff]
      by_cases hk : t.symm k = some p
      · simp [hk, Ne.symm hq]
      · rw [if_neg hk]

theorem attach_apply (hp : t p = none) (hk : t.symm k = none) : ⇑(attach t p k) = Function.update t p (some k) := by
  rw [attach, dif_pos ⟨hp, hk⟩]
  rfl

theorem attach_symm (hp : t p = none) (hk : t.symm k = none) :
    ⇑(attach t p k).symm = Function.update t.symm k (some p) := by
  rw [attach, dif_pos ⟨hp, hk⟩]
  rfl

theorem attach_busy (h : ¬ (t p = none ∧ t.symm k = none)) : attach t p k = t := dif_neg h

omit [DecidableEq κ] in
theorem detach_apply : ⇑(detach t p) = Function.update t p none := rfl

theorem detach_symm (h : t p = some k) : ⇑(detach t p).symm = Function.update t.symm k none := by
  funext j
  change (if t.symm j = some p then none else t.symm j) = _
  by_cases hj : j = k
  · rw [hj, Function.update_self, if_pos (t.eq_some_iff.mpr h)]
  · rw [Function.update_of_ne hj, if_neg fun heq => hj (Option.some.inj ((t.eq_some_iff.mp heq).symm.trans h))]

omit [DecidableEq κ] in
theorem detach_free (h : t p = none) : detach t p = t :=
  PEquiv.ext fun q => by
    rw [detach_apply, ← h, Function.update_eq_self]

/-- What is mounted comes off again. -/
theorem detach_attach (hp : t p = none) (hk : t.symm k = none) : detach (attach t p k) p = t :=
  PEquiv.ext fun q => by
    rw [detach_apply, attach_apply hp hk, Function.update_idem, ← hp, Function.update_eq_self]

end Table

/-- Directory trees: which nodes there are, which of them one may look into, and what is in them. -/
structure Forest (π κ ν : Type) where
  root : κ → π
  present : π → Bool
  passes : π → Bool
  child : π → ν → Option π

namespace Forest

variable (F : Forest π κ ν) (t : π → Option κ)

/-- The directory to look into, where a walk is at `p`. -/
def enter (p : π) : Option π :=
  if F.passes p then
    match t p with
    | none => some p
    | some k => if F.passes (F.root k) then some (F.root k) else none
  else none

/-- The root of what is mounted on `p`; else `p` itself. -/
def follow (p : π) : Option π :=
  match t p with
  | none => if F.present p then some p else none
  | some k => if F.present (F.root k) then some (F.root k) else none

/-- Where some names lead from `p`. -/
def descend : List ν → π → Option π
  | [], p => some p
  | n :: ns, p => (F.enter t p).bind fun q => (F.child q n).bind (descend ns)

/-- The nodes that a walk may come to from a node or a root, whatever is mounted. -/
inductive Rooted (p₀ : π) : π → Prop
  | start : Rooted p₀ p₀
  | root (k : κ) : Rooted p₀ (F.root k)
  | child {p n c} : Rooted p₀ p → F.child p n = some c → Rooted p₀ c

end Forest

end Lib.Mounting
