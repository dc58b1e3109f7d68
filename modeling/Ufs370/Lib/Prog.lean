import Mathlib.Data.Set.Basic

/-! State-passing programs.  A program always returns, and an error exit hands
its state on just as a normal exit does. -/

namespace Lib

structure Prog (σ α : Type) where
  run : σ → α × σ

namespace Prog

variable {σ α β : Type}

instance : Monad (Prog σ) where
  pure a := ⟨fun s => (a, s)⟩
  bind x f := ⟨fun s => (f (x.run s).1).run (x.run s).2⟩

@[reducible] def get : Prog σ σ := ⟨fun s => (s, s)⟩

@[reducible] def modify (f : σ → σ) : Prog σ Unit := ⟨fun s => ((), f s)⟩

@[simp] theorem run_pure (a : α) (s : σ) : (pure a : Prog σ α).run s = (a, s) := rfl

@[simp] theorem run_bind (x : Prog σ α) (f : α → Prog σ β) (s : σ) :
    (x >>= f).run s = (f (x.run s).1).run (x.run s).2 := rfl

@[simp] theorem run_get (s : σ) : (get : Prog σ σ).run s = (s, s) := rfl

@[simp] theorem run_modify (f : σ → σ) (s : σ) : (modify f).run s = ((), f s) := rfl

@[simp] theorem run_ite (c : Prop) [Decidable c] (x y : Prog σ α) (s : σ) :
    (if c then x else y).run s = if c then x.run s else y.run s := by split <;> rfl

/-- A program on one part of a larger state. -/
@[reducible] def lift {τ : Type} (view : τ → σ) (put : σ → τ → τ) (x : Prog σ α) : Prog τ α :=
  ⟨fun t => ((x.run (view t)).1, put (x.run (view t)).2 t)⟩

@[simp] theorem run_lift {τ : Type} (view : τ → σ) (put : σ → τ → τ) (x : Prog σ α) (t : τ) :
    (lift view put x).run t = ((x.run (view t)).1, put (x.run (view t)).2 t) := rfl

/-- `x` never leaves the states in `I`. -/
def Keeps (I : σ → Prop) (x : Prog σ α) : Prop := ∀ s, I s → I (x.run s).2

theorem Keeps.pure (I : σ → Prop) (a : α) : Keeps I (Pure.pure a) := fun _ h => h

theorem Keeps.bind {I : σ → Prop} {x : Prog σ α} {f : α → Prog σ β}
    (hx : Keeps I x) (hf : ∀ a, Keeps I (f a)) : Keeps I (x >>= f) :=
  fun s hs => hf _ _ (hx s hs)

/-- `x` goes on as if `g` had not changed the state, and leaves that change alone. -/
def Blind (g : σ → σ) (x : Prog σ α) : Prop := ∀ s, x.run (g s) = ((x.run s).1, g (x.run s).2)

namespace Blind

variable {g : σ → σ} {x y : Prog σ α}

theorem pure (a : α) : Blind g (Pure.pure a) := fun _ => rfl

theorem bind {f : α → Prog σ β} (hx : Blind g x) (hf : ∀ a, Blind g (f a)) : Blind g (x >>= f) := fun s => by
  rw [run_bind, run_bind, hx s, hf]

/-- What is read of the state is the same. -/
theorem get {f : σ → Prog σ β} (hf : ∀ s, f (g s) = f s) (h : ∀ s, Blind g (f s)) : Blind g (Prog.get >>= f) := fun s => by
  change (f (g s)).run (g s) = _
  rw [hf, h s s]
  rfl

theorem ite {c : Prop} [Decidable c] (hx : Blind g x) (hy : Blind g y) : Blind g (if c then x else y) := by
  split
  · exact hx
  · exact hy

end Blind

end Prog

end Lib
