import Mathlib.Data.List.Basic
import Mathlib.Logic.Function.Basic

/-! A write-back cache over a store.  A line holds the value of one key and may be
newer than the store; `view` is what a reader sees through the cache. -/

namespace Lib.WriteBack

structure Line (κ β : Type) where
  key : κ
  val : β
  dirty : Bool

variable {κ β : Type}

def view [DecidableEq κ] (lines : List (Line κ β)) (store : κ → β) (k : κ) : β :=
  match lines.find? (fun l => decide (l.key = k)) with
  | some l => l.val
  | none => store k

/-- Each valid key has one line, a clean line of a valid key agrees with the store,
and a line of no valid key holds nothing to save. -/
structure Coherent (valid : κ → Prop) (lines : List (Line κ β)) (store : κ → β) : Prop where
  unique : ∀ i j (hi : i < lines.length) (hj : j < lines.length),
    lines[i].key = lines[j].key → valid lines[i].key → i = j
  clean : ∀ l ∈ lines, l.dirty = false → valid l.key → store l.key = l.val
  idle : ∀ l ∈ lines, ¬ valid l.key → l.dirty = false

variable {valid : κ → Prop} {lines : List (Line κ β)} {store : κ → β}

theorem Coherent.nil : Coherent valid ([] : List (Line κ β)) store :=
  ⟨fun i _ hi => absurd hi (Nat.not_lt_zero i), by simp, by simp⟩

variable [DecidableEq κ]

theorem view_of_absent {k : κ} (h : ∀ l ∈ lines, l.key ≠ k) : view lines store k = store k := by
  have hnone : lines.find? (fun l => decide (l.key = k)) = none := by
    simpa [List.find?_eq_none] using h
  simp [view, hnone]

theorem Coherent.view_getElem (h : Coherent valid lines store) {i : Nat} (hi : i < lines.length)
    (hv : valid lines[i].key) : view lines store lines[i].key = lines[i].val := by
  unfold view
  cases hf : lines.find? (fun l => decide (l.key = lines[i].key)) with
  | none =>
    have := List.find?_eq_none.mp hf lines[i] (List.getElem_mem hi)
    simp at this
  | some l =>
    have hkey : l.key = lines[i].key := by simpa using List.find?_some hf
    obtain ⟨j, hj, rfl⟩ := List.getElem_of_mem (List.mem_of_find?_eq_some hf)
    have hij := h.unique j i hj hi hkey (hkey ▸ hv)
    subst hij
    rfl

/-- The view decides a key by its line when it has one and by the store otherwise. -/
theorem Coherent.view_eq (h : Coherent valid lines store) {k : κ} (hk : valid k) {x : β}
    (hline : ∀ i (hi : i < lines.length), lines[i].key = k → lines[i].val = x)
    (hstore : (∀ l ∈ lines, l.key ≠ k) → store k = x) : view lines store k = x := by
  by_cases hex : ∃ i, ∃ hi : i < lines.length, lines[i].key = k
  · obtain ⟨i, hi, hkey⟩ := hex
    subst hkey
    rw [h.view_getElem hi hk, hline i hi rfl]
  · have habs : ∀ l ∈ lines, l.key ≠ k := by
      intro l hl hlk
      obtain ⟨i, hi, rfl⟩ := List.getElem_of_mem hl
      exact hex ⟨i, hi, hlk⟩
    rw [view_of_absent habs, hstore habs]

/-- Where no line is dirty the store holds what a reader sees. -/
theorem Coherent.store_eq_view (h : Coherent valid lines store)
    (hclean : ∀ l ∈ lines, l.dirty = false) {k : κ} (hk : valid k) :
    store k = view lines store k := by
  refine (h.view_eq hk (fun i hi hkey => ?_) fun _ => rfl).symm
  have := h.clean lines[i] (List.getElem_mem hi) (hclean _ (List.getElem_mem hi)) (hkey ▸ hk)
  rw [← this, hkey]

/-- A line that is added for no valid key yet changes nothing. -/
theorem Coherent.append (h : Coherent valid lines store) {l : Line κ β} (hl : ¬ valid l.key)
    (hd : l.dirty = false) : Coherent valid (lines ++ [l]) store ∧
      ∀ k, valid k → view (lines ++ [l]) store k = view lines store k := by
  have hco : Coherent valid (lines ++ [l]) store := by
    refine ⟨fun i j hi hj hkey hv => ?_, fun m hm hmd hv => ?_, fun m hm hv => ?_⟩
    · simp only [List.length_append, List.length_singleton] at hi hj
      have hlt : ∀ n (hn : n < (lines ++ [l]).length), valid (lines ++ [l])[n].key →
          n < lines.length := by
        intro n hn hvn
        by_contra hge
        simp only [List.length_append, List.length_singleton] at hn
        have : n = lines.length := by omega
        subst this
        simp at hvn
        exact hl hvn
      have hil := hlt i (by simpa using hi) hv
      have hjl := hlt j (by simpa using hj) (hkey ▸ hv)
      rw [List.getElem_append_left hil] at hkey hv
      rw [List.getElem_append_left hjl] at hkey
      exact h.unique i j hil hjl hkey hv
    · rcases List.mem_append.mp hm with hm | hm
      · exact h.clean m hm hmd hv
      · rw [List.mem_singleton.mp hm] at hv
        exact absurd hv hl
    · rcases List.mem_append.mp hm with hm | hm
      · exact h.idle m hm hv
      · rw [List.mem_singleton.mp hm]
        exact hd
  refine ⟨hco, fun k hk => ?_⟩
  refine hco.view_eq hk (fun i hi hkey => ?_) fun habs => ?_
  · have hil : i < lines.length := by
      by_contra hge
      simp only [List.length_append, List.length_singleton] at hi
      have : i = lines.length := by omega
      subst this
      simp at hkey
      exact hl (hkey ▸ hk)
    rw [List.getElem_append_left hil] at hkey ⊢
    subst hkey
    exact (h.view_getElem hil hk).symm
  · exact (view_of_absent fun m hm => habs m (List.mem_append_left _ hm)).symm

section Set

variable {i : Nat} (hi : i < lines.length)
include hi

omit [DecidableEq κ] hi in
/-- What replaces line `i` keeps the keys apart if its key is new or unchanged. -/
theorem Coherent.set (h : Coherent valid lines store) {l : Line κ β} {store' : κ → β}
    (hkey : ∀ j (hj : j < lines.length), j ≠ i → valid l.key → lines[j].key ≠ l.key)
    (hframe : ∀ j (hj : j < lines.length), j ≠ i → lines[j].dirty = false →
      valid lines[j].key → store' lines[j].key = store lines[j].key)
    (hclean : l.dirty = false → valid l.key → store' l.key = l.val)
    (hidle : ¬ valid l.key → l.dirty = false) : Coherent valid (lines.set i l) store' := by
  refine ⟨fun a b ha hb hab hv => ?_, fun m hm hmd hv => ?_, fun m hm hv => ?_⟩
  · simp only [List.length_set] at ha hb
    simp only [List.getElem_set] at hab hv
    by_cases hia : i = a <;> by_cases hib : i = b
    · omega
    · rw [if_pos hia] at hab hv
      rw [if_neg hib] at hab
      exact absurd hab.symm (hkey b hb (Ne.symm hib) hv)
    · rw [if_neg hia] at hab hv
      rw [if_pos hib] at hab
      exact absurd hab (hkey a ha (Ne.symm hia) (hab ▸ hv))
    · rw [if_neg hia] at hab hv
      rw [if_neg hib] at hab
      exact h.unique a b ha hb hab hv
  · obtain ⟨a, ha, rfl⟩ := List.getElem_of_mem hm
    simp only [List.length_set] at ha
    simp only [List.getElem_set] at hmd hv ⊢
    by_cases hia : i = a
    · simp only [hia, if_true] at hmd hv ⊢
      exact hclean hmd hv
    · simp only [hia, if_false] at hmd hv ⊢
      rw [hframe a ha (Ne.symm hia) hmd hv]
      exact h.clean _ (List.getElem_mem ha) hmd hv
  · obtain ⟨a, ha, rfl⟩ := List.getElem_of_mem hm
    simp only [List.length_set] at ha
    simp only [List.getElem_set] at hv ⊢
    by_cases hia : i = a
    · simp only [hia, if_true] at hv ⊢
      exact hidle hv
    · simp only [hia, if_false] at hv ⊢
      exact h.idle _ (List.getElem_mem ha) hv

/-- The view after line `i` was replaced, key by key. -/
theorem Coherent.view_set (h : Coherent valid lines store) {l : Line κ β} {store' : κ → β}
    (h' : Coherent valid (lines.set i l) store') {k : κ} (hk : valid k) {x : β}
    (hat : l.key = k → l.val = x)
    (helse : l.key ≠ k → lines[i].key ≠ k → (∀ m ∈ lines, m.key ≠ k) → store' k = x)
    (hold : l.key ≠ k → lines[i].key = k → store' k = x)
    (hline : ∀ j (hj : j < lines.length), j ≠ i → lines[j].key = k → view lines store k = x) :
    view (lines.set i l) store' k = x := by
  refine h'.view_eq hk (fun j hj hkey => ?_) fun habs => ?_
  · simp only [List.length_set] at hj
    simp only [List.getElem_set] at hkey ⊢
    by_cases hij : i = j
    · simp only [hij, if_true] at hkey ⊢
      exact hat hkey
    · simp only [hij, if_false] at hkey ⊢
      rw [← hline j hj (Ne.symm hij) hkey]
      subst hkey
      exact (h.view_getElem hj hk).symm
  · have hlk : l.key ≠ k := by
      refine habs l ?_
      exact List.mem_iff_getElem.mpr ⟨i, by simpa using hi, by simp⟩
    by_cases hik : lines[i].key = k
    · exact hold hlk hik
    · refine helse hlk hik fun m hm hmk => ?_
      obtain ⟨j, hj, rfl⟩ := List.getElem_of_mem hm
      have hij : i ≠ j := fun hij => hik (by simpa [hij] using hmk)
      refine habs lines[j] ?_ hmk
      exact List.mem_iff_getElem.mpr ⟨j, by simpa using hj, by simp [hij]⟩

/-- A hit overwrites its line and nothing else. -/
theorem Coherent.write_hit (h : Coherent valid lines store) (hv : valid lines[i].key) (x : β) :
    Coherent valid (lines.set i ⟨lines[i].key, x, true⟩) store ∧
      ∀ k, valid k → view (lines.set i ⟨lines[i].key, x, true⟩) store k =
        Function.update (view lines store) lines[i].key x k := by
  have hco : Coherent valid (lines.set i ⟨lines[i].key, x, true⟩) store := by
    refine h.set (fun j hj hji hvj heq => hji ?_) (fun _ _ _ _ _ => rfl)
      (fun hf => by simp at hf) (fun hn => absurd hv hn)
    exact h.unique j i hj hi heq (heq ▸ hv)
  refine ⟨hco, fun k hk => ?_⟩
  refine h.view_set hi hco hk (fun heq => ?_) (fun hne _ habs => ?_) (fun hne heq => absurd heq hne)
    (fun j hj hji heq => ?_)
  · simp only at heq
    subst heq
    simp
  · rw [Function.update_of_ne (Ne.symm hne), view_of_absent habs]
  · rw [Function.update_of_ne]
    intro hk'
    exact hji (h.unique j i hj hi (heq.trans hk') (heq ▸ hk))

/-- Saving line `i` leaves every reader's view as it was. -/
theorem Coherent.save (h : Coherent valid lines store) :
    Coherent valid (lines.set i ⟨lines[i].key, lines[i].val, false⟩)
        (Function.update store lines[i].key lines[i].val) ∧
      ∀ k, valid k → view (lines.set i ⟨lines[i].key, lines[i].val, false⟩)
        (Function.update store lines[i].key lines[i].val) k = view lines store k := by
  have hco : Coherent valid (lines.set i ⟨lines[i].key, lines[i].val, false⟩)
      (Function.update store lines[i].key lines[i].val) := by
    refine h.set (fun j hj hji hvj heq => hji ?_) (fun j hj hji _ hvj => ?_)
      (fun _ _ => by simp) (fun _ => rfl)
    · exact h.unique j i hj hi heq (heq ▸ hvj)
    · exact Function.update_of_ne (fun heq => hji (h.unique j i hj hi heq hvj)) _ _
  refine ⟨hco, fun k hk => ?_⟩
  refine h.view_set hi hco hk (fun heq => ?_) (fun hne _ habs => ?_) (fun hne heq => absurd heq hne)
    (fun _ _ _ _ => rfl)
  · simp only at heq
    subst heq
    exact (h.view_getElem hi hk).symm
  · rw [Function.update_of_ne (Ne.symm hne), view_of_absent habs]

/-- A save that failed may have reached the store or not; the dirty line still shows its value. -/
theorem Coherent.save_failed (h : Coherent valid lines store) (hd : lines[i].dirty = true)
    (x : β) : Coherent valid lines (Function.update store lines[i].key x) ∧
      ∀ k, valid k →
        view lines (Function.update store lines[i].key x) k = view lines store k := by
  have hvi : valid lines[i].key := by
    by_contra hn
    have := h.idle _ (List.getElem_mem hi) hn
    simp [this] at hd
  have hco : Coherent valid lines (Function.update store lines[i].key x) := by
    refine ⟨h.unique, fun m hm hmd hv => ?_, h.idle⟩
    obtain ⟨j, hj, rfl⟩ := List.getElem_of_mem hm
    rw [Function.update_of_ne]
    · exact h.clean _ hm hmd hv
    · intro heq
      have := h.unique j i hj hi heq hv
      subst this
      simp [hd] at hmd
  refine ⟨hco, fun k hk => hco.view_eq hk (fun j hj hkey => ?_) fun habs => ?_⟩
  · subst hkey
    exact (h.view_getElem hj hk).symm
  · rw [view_of_absent habs, Function.update_of_ne]
    exact fun heq => habs _ (List.getElem_mem hi) heq.symm

/-- A clean line may be given over to an uncached key with that key's stored value. -/
theorem Coherent.retarget (h : Coherent valid lines store) (hd : lines[i].dirty = false) {k : κ}
    (habs : ∀ l ∈ lines, l.key ≠ k) :
    Coherent valid (lines.set i ⟨k, store k, false⟩) store ∧
      ∀ k', valid k' → view (lines.set i ⟨k, store k, false⟩) store k' = view lines store k' := by
  have hco : Coherent valid (lines.set i ⟨k, store k, false⟩) store :=
    h.set (fun j hj _ _ => habs _ (List.getElem_mem hj)) (fun _ _ _ _ _ => rfl)
      (fun _ _ => rfl) (fun _ => rfl)
  refine ⟨hco, fun k' hk' => ?_⟩
  refine h.view_set hi hco hk' (fun heq => ?_) (fun _ _ habs' => (view_of_absent habs').symm)
    (fun _ heq => ?_) (fun _ _ _ _ => rfl)
  · simp only at heq
    subst heq
    exact (view_of_absent habs).symm
  · subst heq
    rw [h.view_getElem hi hk']
    exact h.clean _ (List.getElem_mem hi) hd hk'

end Set

/-- The store may be written directly where no line holds the key. -/
theorem Coherent.write_through (h : Coherent valid lines store) {k : κ}
    (habs : ∀ l ∈ lines, l.key ≠ k) (x : β) :
    Coherent valid lines (Function.update store k x) ∧
      ∀ k', valid k' → view lines (Function.update store k x) k' =
        Function.update (view lines store) k x k' := by
  have hco : Coherent valid lines (Function.update store k x) := by
    refine ⟨h.unique, fun m hm hmd hv => ?_, h.idle⟩
    rw [Function.update_of_ne (habs m hm)]
    exact h.clean m hm hmd hv
  refine ⟨hco, fun k' hk' => hco.view_eq hk' (fun j hj hkey => ?_) fun habs' => ?_⟩
  · subst hkey
    rw [Function.update_of_ne (habs _ (List.getElem_mem hj)), h.view_getElem hj hk']
  · by_cases hkk : k' = k
    · subst hkk
      simp
    · rw [Function.update_of_ne hkk, Function.update_of_ne hkk, view_of_absent habs']

end Lib.WriteBack
