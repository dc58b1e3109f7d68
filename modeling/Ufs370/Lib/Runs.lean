import Ufs370.Lib.Prog

/-! Runs of a machine whose operations are programs.  `ok` says which operation
may come next in which state, and the history lists the newest event first. -/

namespace Lib

variable {σ ι ρ : Type}

/-- The states a run can reach from `s₀`, with the operations done and what they returned. -/
inductive Run (step : ι → Prog σ ρ) (ok : σ → ι → Prop) (s₀ : σ) : List (ι × ρ) → σ → Prop
  | nil : Run step ok s₀ [] s₀
  | cons {hist s} (i : ι) : Run step ok s₀ hist s → ok s i →
      Run step ok s₀ ((i, ((step i).run s).1) :: hist) ((step i).run s).2

variable {step : ι → Prog σ ρ} {ok : σ → ι → Prop} {s₀ : σ}

/-- The invariant rule: what holds at first and survives each allowed step holds throughout. -/
theorem Run.invariant {I : σ → Prop} (h₀ : I s₀)
    (hstep : ∀ s i, I s → ok s i → I ((step i).run s).2) {hist s} (h : Run step ok s₀ hist s) : I s := by
  induction h with
  | nil => exact h₀
  | cons i _ hok ih => exact hstep _ i ih hok

/-- The invariant rule for properties of a state and the history that led to it. -/
theorem Run.invariant_hist {I : List (ι × ρ) → σ → Prop} (h₀ : I [] s₀)
    (hstep : ∀ hist s i, I hist s → ok s i → I ((i, ((step i).run s).1) :: hist) ((step i).run s).2)
    {hist s} (h : Run step ok s₀ hist s) : I hist s := by
  induction h with
  | nil => exact h₀
  | cons i _ hok ih => exact hstep _ _ i ih hok

theorem Run.mono {ok' : σ → ι → Prop} (hmono : ∀ s i, ok s i → ok' s i) {hist s}
    (h : Run step ok s₀ hist s) : Run step ok' s₀ hist s := by
  induction h with
  | nil => exact .nil
  | cons i _ hok ih => exact .cons i ih (hmono _ i hok)

/-- The operations of a list one after the other, with what they return. -/
def Prog.each (step : ι → Prog σ ρ) : List ι → Prog σ (List ρ)
  | [] => return []
  | i :: is => do
    let r ← step i
    let rs ← Prog.each step is
    return r :: rs

/-- Each operation of a list comes in a state in which it may. -/
def Along (step : ι → Prog σ ρ) (ok : σ → ι → Prop) : σ → List ι → Prop
  | _, [] => True
  | s, i :: is => ok s i ∧ Along step ok ((step i).run s).2 is

theorem Along.of_forall (h : ∀ s i, ok s i) (is : List ι) (s : σ) : Along step ok s is := by
  induction is generalizing s with
  | nil => trivial
  | cons i is ih => exact ⟨h s i, ih _⟩

variable {σ' : Type} {step' : ι → Prog σ' ρ} {is : List ι}

theorem Prog.each_cons (i : ι) (is : List ι) (s : σ) : (Prog.each step (i :: is)).run s =
    (((step i).run s).1 :: ((Prog.each step is).run ((step i).run s).2).1,
      ((Prog.each step is).run ((step i).run s).2).2) := rfl

/-- The invariant rule for lists of operations. -/
theorem Along.invariant {I : σ → Prop} (hstep : ∀ s i, I s → ok s i → I ((step i).run s).2)
    (h : Along step ok s₀ is) (h₀ : I s₀) : I ((Prog.each step is).run s₀).2 := by
  induction is generalizing s₀ with
  | nil => exact h₀
  | cons i is ih => exact ih h.2 (hstep s₀ i h₀ h.1)

/-- The simulation rule: where each allowed step is a step of the other machine with the same answer,
so is each list of steps. -/
theorem Along.simulates {R : σ → σ' → Prop}
    (hstep : ∀ s s' i, R s s' → ok s i →
      ((step i).run s).1 = ((step' i).run s').1 ∧ R ((step i).run s).2 ((step' i).run s').2)
    (h : Along step ok s₀ is) {s₀' : σ'} (h₀ : R s₀ s₀') :
    ((Prog.each step is).run s₀).1 = ((Prog.each step' is).run s₀').1 ∧
      R ((Prog.each step is).run s₀).2 ((Prog.each step' is).run s₀').2 := by
  induction is generalizing s₀ s₀' with
  | nil => exact ⟨rfl, h₀⟩
  | cons i is ih =>
    obtain ⟨hanswer, hnext⟩ := hstep s₀ s₀' i h₀ h.1
    obtain ⟨hrest, hend⟩ := ih h.2 hnext
    simp only [Prog.each_cons, hanswer, hrest]
    exact ⟨trivial, hend⟩

end Lib
