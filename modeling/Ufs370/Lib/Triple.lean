import Ufs370.Lib.Prog
import Mathlib.Order.Defs.Unbundled

/-! Rules for programs: pre- and postconditions, and the relations that every run goes along. -/

namespace Lib.Prog

variable {σ τ α β : Type}

/-- From a state in `P` the program ends as `Q` says of its result and state. -/
structure Triple (P : σ → Prop) (x : Prog σ α) (Q : α → σ → Prop) : Prop where
  run : ∀ s, P s → Q (x.run s).1 (x.run s).2

namespace Triple

variable {P : σ → Prop} {Q : α → σ → Prop} {R : β → σ → Prop} {x y : Prog σ α} {f : α → Prog σ β}

theorem pure {a : α} (h : ∀ s, P s → Q a s) : Triple P (Pure.pure a) Q := ⟨h⟩

theorem bind (hx : Triple P x Q) (hf : ∀ a, Triple (Q a) (f a) R) : Triple P (x >>= f) R :=
  ⟨fun s hs => (hf _).run _ (hx.run s hs)⟩

/-- What the rest of a program may know of the state it reads. -/
theorem get {f : σ → Prog σ β} (hf : ∀ s, P s → Triple (fun s' => s' = s) (f s) R) :
    Triple P (Prog.get >>= f) R :=
  ⟨fun s hs => (hf s hs).run s rfl⟩

theorem modify {g : σ → σ} {Q : Unit → σ → Prop} (h : ∀ s, P s → Q () (g s)) : Triple P (Prog.modify g) Q :=
  ⟨h⟩

theorem ite {c : Prop} [Decidable c] (hx : c → Triple P x Q) (hy : ¬ c → Triple P y Q) :
    Triple P (if c then x else y) Q := by
  split
  · exact hx ‹_›
  · exact hy ‹_›

theorem pre {P' : σ → Prop} (h : Triple P x Q) (hP : ∀ s, P' s → P s) : Triple P' x Q :=
  ⟨fun s hs => h.run s (hP s hs)⟩

theorem post {Q' : α → σ → Prop} (h : Triple P x Q) (hQ : ∀ a s, Q a s → Q' a s) : Triple P x Q' :=
  ⟨fun s hs => hQ _ _ (h.run s hs)⟩

/-- A triple may be shown one state at a time. -/
theorem at_state (h : ∀ s, P s → Triple (fun s' => s' = s) x Q) : Triple P x Q :=
  ⟨fun s hs => (h s hs).run s rfl⟩

end Triple

/-- Every run of `x` goes along `R`. -/
structure Moves (R : σ → σ → Prop) (x : Prog σ α) : Prop where
  run : ∀ s, R s (x.run s).2

namespace Moves

variable {R : σ → σ → Prop} {x y : Prog σ α} {f : α → Prog σ β}

theorem pure [Std.Refl R] (a : α) : Moves R (Pure.pure a) := ⟨fun s => Std.Refl.refl s⟩

theorem get [Std.Refl R] : Moves R Prog.get := ⟨fun s => Std.Refl.refl s⟩

theorem bind [IsTrans σ R] (hx : Moves R x) (hf : ∀ a, Moves R (f a)) : Moves R (x >>= f) :=
  ⟨fun s => IsTrans.trans s _ _ (hx.run s) ((hf _).run _)⟩

theorem modify {g : σ → σ} (h : ∀ s, R s (g s)) : Moves R (Prog.modify g) := ⟨h⟩

theorem ite {c : Prop} [Decidable c] (hx : Moves R x) (hy : Moves R y) : Moves R (if c then x else y) := by
  split
  exacts [hx, hy]

theorem mono {R' : σ → σ → Prop} (h : Moves R x) (hR : ∀ s s', R s s' → R' s s') : Moves R' x :=
  ⟨fun s => hR _ _ (h.run s)⟩

end Moves

end Lib.Prog
