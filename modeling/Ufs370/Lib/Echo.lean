import Ufs370.Lib.Prog

/-! Programs that only look: what they return when some requests fail, against what they return
when none does. -/

namespace Lib.Prog

variable {σ τ φ α β : Type}

/-- The states of `x` are those of `st`, told apart by the requests that will fail.  Where `x` ends other
than `y` does at `w`, one failed, and the result is a bad one. -/
structure Echo (st : φ → σ) (calm : φ → Prop) (w : τ) (bad : α → Prop) (x : Prog σ α) (y : Prog τ α) : Prop where
  stays : ∀ f, ∃ f', (x.run (st f)).2 = st f' ∧ (calm f → calm f')
  result : ∀ f, (x.run (st f)).1 = (y.run w).1 ∨ ¬ calm f ∧ bad (x.run (st f)).1
  same : φ → (y.run w).2 = w

namespace Echo

variable {st : φ → σ} {calm : φ → Prop} {w : τ} {bad : α → Prop} {bad' : β → Prop} {x x' : Prog σ α} {y y' : Prog τ α}
  {f : α → Prog σ β} {g : α → Prog τ β}

theorem pure (a : α) : Echo st calm w bad (Pure.pure a) (Pure.pure a) where
  stays i := ⟨i, rfl, id⟩
  result _ := .inl rfl
  same _ := rfl

theorem get {f : σ → Prog σ β} {g : τ → Prog τ β} (h : ∀ i, Echo st calm w bad' (f (st i)) (g w)) :
    Echo st calm w bad' (Prog.get >>= f) (Prog.get >>= g) where
  stays i := (h i).stays i
  result i := (h i).result i
  same i := (h i).same i

/-- A bad result of the first part makes the whole result bad. -/
theorem bind (hx : Echo st calm w bad x y) (hf : ∀ a, Echo st calm w bad' (f a) (g a))
    (hbad : ∀ a, bad a → ∀ i, bad' ((f a).run (st i)).1) : Echo st calm w bad' (x >>= f) (y >>= g) where
  stays i := by
    obtain ⟨j, hj, hcalm⟩ := hx.stays i
    obtain ⟨k, hk, hcalm'⟩ := (hf (x.run (st i)).1).stays j
    exact ⟨k, by rw [run_bind, hj, hk], hcalm' ∘ hcalm⟩
  result i := by
    obtain ⟨j, hj, hcalm⟩ := hx.stays i
    rw [run_bind, run_bind, hj, hx.same i]
    rcases hx.result i with h | ⟨hi, h⟩
    · rw [← h]
      exact ((hf _).result j).imp_right fun ⟨hj, h⟩ => ⟨hj ∘ hcalm, h⟩
    · exact .inr ⟨hi, hbad _ h j⟩
  same i := by rw [run_bind, hx.same i, (hf _).same i]

theorem ite {c : Prop} [Decidable c] (hx : c → Echo st calm w bad x y) (hy : ¬ c → Echo st calm w bad x' y') :
    Echo st calm w bad (if c then x else x') (if c then y else y') := by
  split
  · exact hx ‹_›
  · exact hy ‹_›

end Echo

end Lib.Prog
