import Mathlib.Data.Set.Function
import Mathlib.Data.Set.Insert
import Mathlib.Data.List.Induction

/-! Trees of links in a store.  A path is a root and the links to follow from it, and
the nodes on the paths of `D` are all distinct and apart from a reserve `U`. -/

namespace Lib.IndexForest

variable {ρ ι ν : Type}

abbrev Path (ρ ι : Type) := ρ × List ι

structure Forest (ρ ι ν : Type) where
  root : ρ → ν
  link : ν → ι → ν

namespace Forest

def node (F : Forest ρ ι ν) (p : Path ρ ι) : ν := p.2.foldl F.link (F.root p.1)

@[simp] theorem node_nil (F : Forest ρ ι ν) (r : ρ) : F.node (r, []) = F.root r := rfl

@[simp] theorem node_snoc (F : Forest ρ ι ν) (r : ρ) (is : List ι) (i : ι) :
    F.node (r, is ++ [i]) = F.link (F.node (r, is)) i := by
  simp [node]

end Forest

def Closed (D : Set (Path ρ ι)) : Prop := ∀ r is i, (r, is ++ [i]) ∈ D → (r, is) ∈ D

/-- `F'` has all the links of `F` that the paths of `D` follow. -/
structure Agree (D : Set (Path ρ ι)) (F F' : Forest ρ ι ν) : Prop where
  root : ∀ r, (r, []) ∈ D → F'.root r = F.root r
  link : ∀ r is i, (r, is ++ [i]) ∈ D → F'.link (F.node (r, is)) i = F.link (F.node (r, is)) i

variable {D D' : Set (Path ρ ι)} {U U' all : Set ν} {F F' : Forest ρ ι ν} {q : Path ρ ι} {b : ν}

theorem Agree.mono (h : Agree D F F') (hD : D' ⊆ D) : Agree D' F F' :=
  ⟨fun r hr => h.root r (hD hr), fun r is i hi => h.link r is i (hD hi)⟩

theorem Agree.node (h : Agree D F F') (hD : Closed D) {p : Path ρ ι} (hp : p ∈ D) :
    F'.node p = F.node p := by
  obtain ⟨r, is⟩ := p
  induction is using List.reverseRecOn with
  | nil => exact h.root r hp
  | append_singleton is i ih =>
    rw [Forest.node_snoc, Forest.node_snoc, ih (hD r is i hp), h.link r is i hp]

theorem Closed.insert_root (hD : Closed D) (r : ρ) : Closed (insert (r, []) D) := by
  rintro r' is i (h | h)
  · exact absurd (congrArg Prod.snd h) (by simp)
  · exact Set.mem_insert_of_mem _ (hD r' is i h)

theorem Closed.insert_child (hD : Closed D) {r : ρ} {is : List ι} (hp : (r, is) ∈ D) (i : ι) :
    Closed (insert (r, is ++ [i]) D) := by
  rintro r' is' i' (h | h)
  · obtain ⟨hr, his⟩ := Prod.mk.inj h
    rw [hr, (List.append_inj' his rfl).1]
    exact Set.mem_insert_of_mem _ hp
  · exact Set.mem_insert_of_mem _ (hD r' is' i' h)

/-- The store `all` is shared out between the paths of `D`, no two with the same node,
and the reserve. -/
structure Partition (F : Forest ρ ι ν) (D : Set (Path ρ ι)) (U all : Set ν) : Prop where
  closed : Closed D
  inj : Set.InjOn F.node D
  apart : ∀ p ∈ D, F.node p ∉ U
  cover : F.node '' D ∪ U = all

namespace Partition

theorem mem_all (h : Partition F D U all) {p : Path ρ ι} (hp : p ∈ D) : F.node p ∈ all :=
  h.cover ▸ Set.mem_union_left _ ⟨p, hp, rfl⟩

theorem reserve_subset (h : Partition F D U all) (hb : b ∈ U) : b ∈ all :=
  h.cover ▸ Set.mem_union_right _ hb

/-- Changes that no path notices. -/
theorem agree (h : Partition F D U all) (hF : Agree D F F') : Partition F' D U all where
  closed := h.closed
  inj := fun p hp q hq hpq => h.inj hp hq (by rwa [hF.node h.closed hp, hF.node h.closed hq] at hpq)
  apart := fun p hp => hF.node h.closed hp ▸ h.apart p hp
  cover := by
    rw [← h.cover]
    congr 1
    exact Set.image_congr fun p hp => hF.node h.closed hp

/-- A link to a node of the reserve makes one more path. -/
theorem attach (h : Partition F D U all) (hF : Agree D F F') (hq : q ∉ D)
    (hclosed : Closed (insert q D)) (hb : b ∈ U) (hnode : F'.node q = b) :
    Partition F' (insert q D) (U \ {b}) all where
  closed := hclosed
  inj := by
    have h' := h.agree hF
    refine (Set.injOn_insert hq).mpr ⟨h'.inj, ?_⟩
    rintro ⟨p, hp, hpq⟩
    exact h'.apart p hp (by rwa [hpq, hnode])
  apart := by
    have h' := h.agree hF
    rintro p (rfl | hp) ⟨hU, hne⟩
    · exact hne hnode
    · exact h'.apart p hp hU
  cover := by
    have h' := h.agree hF
    rw [← h'.cover, Set.image_insert_eq, hnode]
    ext c
    by_cases hc : c = b
    · subst hc
      simp [hb]
    · simp [hc]

/-- The nodes on paths that are given up go to the reserve. -/
theorem detach (h : Partition F D U all) (hsub : D' ⊆ D) (hclosed : Closed D') (hF : Agree D' F F')
    (hU : U' = U ∪ F.node '' (D \ D')) : Partition F' D' U' all where
  closed := hclosed
  inj := by
    intro p hp q hq hpq
    rw [hF.node hclosed hp, hF.node hclosed hq] at hpq
    exact h.inj (hsub hp) (hsub hq) hpq
  apart := by
    intro p hp hmem
    rw [hF.node hclosed hp, hU] at hmem
    rcases hmem with hmem | ⟨q, ⟨hq, hq'⟩, hqp⟩
    · exact h.apart p (hsub hp) hmem
    · exact hq' (h.inj hq (hsub hp) hqp ▸ hp)
  cover := by
    have himage : F'.node '' D' = F.node '' D' := Set.image_congr fun p hp => hF.node hclosed hp
    rw [himage, hU, ← h.cover, ← Set.union_sdiff_cancel hsub, Set.image_union]
    simp only [Set.union_sdiff_cancel hsub]
    ext c
    simp only [Set.mem_union]
    tauto

end Partition

end Lib.IndexForest
