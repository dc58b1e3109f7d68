import Mathlib.Algebra.Order.BigOperators.Group.List
import Mathlib.Algebra.Order.Ring.Nat
import Mathlib.Data.List.Basic

/-! A text as the components between its separators, in the way of `strtok`. -/

namespace Lib.Components

variable {α : Type} [DecidableEq α] {sep : α}

/-- The parts of a text between separators, without the empty ones. -/
def comps (sep : α) (t : List α) : List (List α) := (t.splitOn sep).filter (· ≠ [])

/-- The text with a separator before each component. -/
def path (sep : α) (cs : List (List α)) : List α := cs.flatMap (sep :: ·)

/-- A component: not empty and without a separator. -/
structure IsComp (sep : α) (c : List α) : Prop where
  ne_nil : c ≠ []
  not_mem : sep ∉ c

@[simp] theorem comps_nil : comps sep [] = [] := rfl

theorem comps_append_cons (a b : List α) : comps sep (a ++ sep :: b) = comps sep a ++ comps sep b := by
  rw [comps, List.splitOn_append_cons_self, List.filter_append, comps, comps]

@[simp] theorem comps_cons_sep (t : List α) : comps sep (sep :: t) = comps sep t :=
  comps_append_cons [] t

@[simp] theorem comps_concat_sep (t : List α) : comps sep (t ++ [sep]) = comps sep t := by
  rw [comps_append_cons, comps_nil, List.append_nil]

theorem IsComp.comps {c : List α} (h : IsComp sep c) : comps sep c = [c] := by
  rw [Components.comps, List.splitOn_eq_singleton h.not_mem, List.filter_cons_of_pos (by simpa using h.ne_nil),
    List.filter_nil]

theorem not_mem_splitOn {t c : List α} (h : c ∈ t.splitOn sep) : sep ∉ c := by
  induction t generalizing c with
  | nil =>
    rw [List.mem_singleton.mp h]
    exact List.not_mem_nil
  | cons a t ih =>
    rw [List.splitOn_cons_eq_if_modifyHead] at h
    by_cases ha : a = sep
    · rw [if_pos (by simpa using ha)] at h
      rcases List.mem_cons.mp h with rfl | h
      exacts [List.not_mem_nil, ih h]
    · rw [if_neg (by simpa using ha)] at h
      obtain ⟨d, ds, hd⟩ := List.exists_cons_of_ne_nil (List.splitOn_ne_nil sep t)
      rw [hd, List.modifyHead_cons] at h
      rcases List.mem_cons.mp h with rfl | h
      · rw [List.mem_cons, not_or]
        exact ⟨Ne.symm ha, ih (hd ▸ List.mem_cons_self)⟩
      · exact ih (hd ▸ List.mem_cons_of_mem d h)

theorem isComp_of_mem {t c : List α} (h : c ∈ comps sep t) : IsComp sep c :=
  ⟨by simpa using (List.mem_filter.mp h).2, not_mem_splitOn (List.mem_filter.mp h).1⟩

/-- A text is made of its components. -/
theorem comps_path {cs : List (List α)} (h : ∀ c ∈ cs, IsComp sep c) : comps sep (path sep cs) = cs := by
  induction cs with
  | nil => rfl
  | cons c cs ih =>
    have hc := h c List.mem_cons_self
    have ih := ih fun c hc => h c (List.mem_cons_of_mem _ hc)
    cases cs with
    | nil => rw [path, List.flatMap_singleton, comps_cons_sep, hc.comps]
    | cons d cs =>
      rw [path, List.flatMap_cons, List.flatMap_cons, List.cons_append, comps_cons_sep, List.cons_append,
        comps_append_cons, hc.comps]
      rw [path, List.flatMap_cons, List.cons_append, comps_cons_sep] at ih
      rw [ih]
      rfl

theorem sum_splitOn (sep : α) (t : List α) : ((t.splitOn sep).map fun c => c.length + 1).sum = t.length + 1 := by
  induction t with
  | nil => rfl
  | cons a t ih =>
    rw [List.splitOn_cons_eq_if_modifyHead]
    split
    · rw [List.map_cons, List.sum_cons, ih]
      simp [Nat.add_comm]
    · obtain ⟨c, cs, hc⟩ := List.exists_cons_of_ne_nil (List.splitOn_ne_nil sep t)
      rw [hc, List.map_cons, List.sum_cons] at ih
      rw [hc, List.modifyHead_cons, List.map_cons, List.sum_cons, List.length_cons, List.length_cons]
      omega

/-- The components of a text make no longer text. -/
theorem length_path_comps (t : List α) : (path sep (comps sep t)).length ≤ t.length + 1 := by
  have hsub : (comps sep t).Sublist (t.splitOn sep) := List.filter_sublist
  rw [path, List.length_flatMap, ← sum_splitOn sep t]
  exact (hsub.map _).sum_le_sum fun _ _ => Nat.zero_le _

theorem mem_splitOn {t c : List α} {a : α} (h : c ∈ t.splitOn sep) (ha : a ∈ c) : a ∈ t := by
  induction t generalizing c with
  | nil =>
    rw [List.mem_singleton.mp h] at ha
    exact ha
  | cons b t ih =>
    rw [List.splitOn_cons_eq_if_modifyHead] at h
    split at h
    · rcases List.mem_cons.mp h with rfl | h
      · exact absurd ha List.not_mem_nil
      · exact List.mem_cons_of_mem _ (ih h ha)
    · obtain ⟨d, ds, hd⟩ := List.exists_cons_of_ne_nil (List.splitOn_ne_nil sep t)
      rw [hd, List.modifyHead_cons] at h
      rcases List.mem_cons.mp h with rfl | h
      · rcases List.mem_cons.mp ha with rfl | ha
        · exact List.mem_cons_self
        · exact List.mem_cons_of_mem _ (ih (hd ▸ List.mem_cons_self) ha)
      · exact List.mem_cons_of_mem _ (ih (hd ▸ List.mem_cons_of_mem d h) ha)

/-- The bytes of the components are those of the text. -/
theorem mem_of_mem_comps {t c : List α} {a : α} (h : c ∈ comps sep t) (ha : a ∈ c) : a ∈ t :=
  mem_splitOn (List.mem_filter.mp h).1 ha

end Lib.Components
