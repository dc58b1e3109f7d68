import Ufs370.Lib.Runs
import Mathlib.Data.Set.Defs
import Mathlib.Logic.Function.Basic

/-! A machine whose state shows many parts, where each operation changes one of them. -/

namespace Lib

variable {σ α ι κ ρ : Type} [DecidableEq κ]

/-- A program on part `k`. -/
def onPart (k : κ) (x : Prog α ρ) : Prog (κ → α) ρ :=
  ⟨fun f => ((x.run (f k)).1, Function.update f k (x.run (f k)).2)⟩

variable {step : ι → Prog σ ρ} {ok : σ → ι → Prop}

/-- On `s` an operation answered as on its own part alone, kept what all parts have in common,
and let the other parts of `K` be. -/
structure OnePart (C : σ → Prop) (R : κ → σ → α → Prop) (K : Set κ) (k : κ) (x : Prog σ ρ) (y : Prog α ρ)
    (s : σ) (a : α) : Prop where
  answer : (x.run s).1 = (y.run a).1
  common : C (x.run s).2
  own : R k (x.run s).2 (y.run a).2
  other : ∀ j ∈ K, j ≠ k → ∀ b, R j s b → R j (x.run s).2 b

omit [DecidableEq κ] in
/-- An operation that leaves behind what another does, with another answer. -/
theorem OnePart.congr {C : σ → Prop} {R : κ → σ → α → Prop} {K : Set κ} {k : κ} {x x' : Prog σ ρ} {y y' : Prog α ρ}
    {s : σ} {a : α} (h : OnePart C R K k x y s a) (hx : (x'.run s).2 = (x.run s).2) (hy : (y'.run a).2 = (y.run a).2)
    (hanswer : (x'.run s).1 = (y'.run a).1) : OnePart C R K k x' y' s a where
  answer := hanswer
  common := hx ▸ h.common
  own := by
    rw [hx, hy]
    exact h.own
  other j hj hne b hb := by
    rw [hx]
    exact h.other j hj hne b hb

/-- The simulation rule for parts: if each allowed operation is one on its part, a list of them is the list of
the operations on the parts. -/
theorem Along.simulates_parts {C : σ → Prop} {R : κ → σ → α → Prop} {K : Set κ} {is : List ι}
    (part : ι → κ) (step' : ι → Prog α ρ)
    (hpart : ∀ s i, ok s i → part i ∈ K)
    (hstep : ∀ s i a, C s → R (part i) s a → ok s i → OnePart C R K (part i) (step i) (step' i) s a)
    {s₀ : σ} {f₀ : κ → α} (h : Along step ok s₀ is) (hC : C s₀) (hR : ∀ k ∈ K, R k s₀ (f₀ k)) :
    ((Prog.each step is).run s₀).1 = ((Prog.each (fun i => onPart (part i) (step' i)) is).run f₀).1 ∧
      C ((Prog.each step is).run s₀).2 ∧
      ∀ k ∈ K, R k ((Prog.each step is).run s₀).2
        (((Prog.each (fun i => onPart (part i) (step' i)) is).run f₀).2 k) := by
  refine h.simulates (R := fun s (f : κ → α) => C s ∧ ∀ k ∈ K, R k s (f k)) ?_ ⟨hC, hR⟩
  rintro s f i ⟨hC, hR⟩ hok
  have hmem := hpart s i hok
  have hone := hstep s i (f (part i)) hC (hR _ hmem) hok
  refine ⟨hone.answer, hone.common, fun k hk => ?_⟩
  by_cases hkey : k = part i
  · subst hkey
    simp only [onPart, Function.update_self]
    exact hone.own
  · simp only [onPart, Function.update_of_ne hkey]
    exact hone.other k hk hkey _ (hR k hk)

end Lib
