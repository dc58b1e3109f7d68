import Ufs370.Dirents
import Ufs370.Lib.Namespace
import Ufs370.Lib.SwapRemove

/-! Directories as the names that they give to inodes. -/

namespace Ufs370

open Lib Lib.Namespace

/-- No two entries have one name. -/
def Apart (es : List Dirent) : Prop := (es.map Dirent.name).Nodup

/-- What each directory has under each name. -/
def VDisk.names (v : VDisk) : Entries Nat (List UInt8) := fun d n c => Dirent.mk c n ∈ v.dirents d

section Apart

variable {es : List Dirent} {x y : Dirent} {k : Nat}

theorem Apart.eq (h : Apart es) (hx : x ∈ es) (hy : y ∈ es) (hname : y.name = x.name) : y = x :=
  List.inj_on_of_nodup_map h hy hx hname

theorem Apart.nodup (h : Apart es) : es.Nodup := List.Nodup.of_map _ h

theorem Apart.mem_eraseIdx (h : Apart es) (hk : k < es.length) :
    x ∈ es.eraseIdx k ↔ x ∈ es ∧ x.name ≠ es[k].name := by
  rw [List.mem_eraseIdx_iff_getElem]
  constructor
  · rintro ⟨i, hi, hne, rfl⟩
    refine ⟨List.getElem_mem hi, fun hname => hne ?_⟩
    exact (List.Nodup.getElem_inj_iff h.nodup).mp (h.eq (List.getElem_mem hk) (List.getElem_mem hi) hname)
  · rintro ⟨hx, hname⟩
    obtain ⟨i, hi, rfl⟩ := List.getElem_of_mem hx
    refine ⟨i, hi, ?_, rfl⟩
    rintro rfl
    exact hname rfl

theorem Apart.mem_swapRemove (h : Apart es) (hk : k < es.length) :
    x ∈ swapRemove es k ↔ x ∈ es ∧ x.name ≠ es[k].name := by
  rw [(swapRemove_perm hk).mem_iff, h.mem_eraseIdx hk]

theorem Apart.swapRemove (h : Apart es) (hk : k < es.length) : Apart (swapRemove es k) :=
  (((swapRemove_perm hk).map _).nodup_iff).mpr (h.sublist ((List.eraseIdx_sublist ..).map _))

theorem Apart.concat (h : Apart es) (hnew : ∀ y ∈ es, y.name ≠ x.name) : Apart (es ++ [x]) := by
  rw [Apart, List.map_append, List.map_singleton, List.nodup_append]
  refine ⟨h, List.nodup_singleton _, fun n hn m hm => ?_⟩
  obtain ⟨y, hy, rfl⟩ := List.mem_map.mp hn
  rw [List.mem_singleton.mp hm]
  exact hnew y hy

theorem Apart.set (h : Apart es) (hk : k < es.length) (hname : x.name = es[k].name) : Apart (es.set k x) := by
  have hsame : (es.set k x).map Dirent.name = es.map Dirent.name := by
    rw [List.map_set, hname, ← List.getElem_map Dirent.name (h := by rwa [List.length_map]), List.set_getElem_self]
  rwa [Apart, hsame]

theorem Apart.mem_set (h : Apart es) (hk : k < es.length) (hname : x.name = es[k].name) :
    y ∈ es.set k x ↔ (y ∈ es ∧ y.name ≠ x.name) ∨ y = x := by
  rw [(List.set_perm_cons_eraseIdx hk x).mem_iff, List.mem_cons, h.mem_eraseIdx hk, hname, or_comm]

/-- Two lists of entries with the same entries are permutations. -/
theorem Apart.perm {es' : List Dirent} (h : Apart es) (h' : Apart es') (hmem : ∀ x, x ∈ es' ↔ x ∈ es) : es'.Perm es :=
  (List.perm_ext_iff_of_nodup h'.nodup h.nodup).mpr hmem

end Apart

end Ufs370
