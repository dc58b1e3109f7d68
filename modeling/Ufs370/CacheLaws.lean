import Ufs370.SizeChange

/-! What taking and releasing references to an inode does to the cache. -/

namespace Ufs370

open Lib Lib.IndexForest Lib.IndexLayout

/-- A handle that stays in the cache when one reference goes. -/
def Minode.Stays (m : Minode) : Prop :=
  m.dinode.isdir ∧ m.dinode.nlink ≠ 0 ∨ m.usecount - 1 ≠ 0

namespace VDisk

/-- The handle of an inode, or the one that it gets from the disk. -/
def loaded (v : VDisk) (i : Nat) : Minode := (v.minode? i).getD ⟨i, false, 0, none, v.slot i⟩

/-- No inode has two handles. -/
def OneHandle (v : VDisk) : Prop := (v.minodes.map Minode.inodeNumber).Nodup

end VDisk

/-- From `v` to `v'` a reference to inode `i` was taken. -/
structure Taken (i : Nat) (v v' : VDisk) : Prop where
  same : v' = { v with minodes := v'.minodes }
  own : v'.minode? i = some { v.loaded i with usecount := u16 ((v.loaded i).usecount + 1) }
  other : ∀ j, j ≠ i → v'.minode? j = v.minode? j
  oneHandle : v.OneHandle → v'.OneHandle

/-- From `v` to `v'` a reference to inode `i` was released. -/
structure Released (i : Nat) (v v' : VDisk) : Prop where
  same : v' = { v with minodes := v'.minodes }
  stays : ∀ m, v.minode? i = some m → m.Stays →
    v'.minode? i = some { m with usecount := m.usecount - 1 }
  gone : v.OneHandle → ∀ m, v.minode? i = some m → ¬ m.Stays → v'.minode? i = none
  other : ∀ j, j ≠ i → v'.minode? j = v.minode? j
  oneHandle : v.OneHandle → v'.OneHandle

section Cache

variable {v v' : VDisk} {i j : Nat}

theorem minode?_append_same {m : Minode} (h : v.minode? i = none) (hm : m.inodeNumber = i) :
    ({ v with minodes := v.minodes ++ [m] } : VDisk).minode? i = some m := by
  simp only [VDisk.minode?] at h ⊢
  rw [List.find?_append, h, Option.none_or, List.find?_singleton, hm]
  simp

theorem minode?_append_other {m : Minode} (hm : m.inodeNumber ≠ j) :
    ({ v with minodes := v.minodes ++ [m] } : VDisk).minode? j = v.minode? j := by
  simp only [VDisk.minode?]
  rw [List.find?_append, List.find?_singleton]
  simp [hm]

theorem not_mem_numbers (h : v.minode? i = none) : i ∉ v.minodes.map Minode.inodeNumber := by
  rintro hmem
  obtain ⟨m, hm, hi⟩ := List.mem_map.mp hmem
  have := List.find?_eq_none.mp h m hm
  simp [hi] at this

theorem setMinode_oneHandle {g : Minode → Minode} (hg : ∀ m, (g m).inodeNumber = m.inodeNumber) :
    (v.setMinode i g).OneHandle ↔ v.OneHandle := by
  rw [VDisk.OneHandle, setMinode_numbers hg, VDisk.OneHandle]

theorem inodeUse_taken {m : Minode} (h : v.minode? i = some m) : Taken i v ((inodeUse i).run v).2 where
  same := rfl
  own := by
    have : (v.setMinode i fun m => { m with usecount := u16 (m.usecount + 1) }).minode? i =
        (v.minode? i).map fun m => { m with usecount := u16 (m.usecount + 1) } :=
      VDisk.minode?_setMinode_same fun _ hm => hm
    rw [h, Option.map_some] at this
    rw [VDisk.loaded, h]
    exact this
  other j hj := VDisk.minode?_setMinode_other (fun _ hm => hm) hj
  oneHandle := (setMinode_oneHandle (g := fun m => { m with usecount := u16 (m.usecount + 1) })
    fun _ => rfl).mpr

theorem inodeLoad_live (g : Geometry v) (hv : v.Live) (hi : InodeNumber v i) :
    (inodeLoad i).run v = (.ok ⟨i, false, 0, none, v.slot i⟩, v) := by
  rw [slot_eq g.table hi]
  simp only [inodeLoad, Prog.run_bind, inquire_location g.table hi, ne_eq, not_true_eq_false, if_false,
    readBuf_live hv, Prog.run_pure]

/-- A reference to an inode that was not in the cache. -/
theorem taken_load (h : v.minode? i = none) :
    Taken i v ((inodeUse i).run { v with minodes := v.minodes ++ [⟨i, false, 0, none, v.slot i⟩] }).2 := by
  have hput := minode?_append_same (m := ⟨i, false, 0, none, v.slot i⟩) h rfl
  have taken := inodeUse_taken hput
  refine ⟨rfl, ?_, fun j hj => ?_, fun hone => taken.oneHandle ?_⟩
  · rw [taken.own, VDisk.loaded, hput, VDisk.loaded, h]
    rfl
  · rw [taken.other j hj, minode?_append_other (Ne.symm hj)]
  · simp only [VDisk.OneHandle, List.map_append, List.map_cons, List.map_nil]
    exact List.nodup_append'.mpr ⟨hone, List.nodup_singleton i, fun j hj hj' => by
      rw [List.mem_singleton.mp hj'] at hj
      exact not_mem_numbers h hj⟩

/-- A reference to an inode with a slot is there for the taking. -/
theorem inodeGet_live (g : Geometry v) (hv : v.Live) (hi : InodeNumber v i) :
    ∃ v', (inodeGet i).run v = (some i, v') ∧ Taken i v v' := by
  simp only [inodeGet, Prog.run_bind]
  cases h : v.minode? i with
  | some m => exact ⟨_, rfl, inodeUse_taken h⟩
  | none =>
    simp only [VDisk.onStore, Store.alloc_nil hv.faults, if_true, Prog.run_bind,
      inodeLoad_live g hv hi]
    exact ⟨_, rfl, taken_load h⟩

theorem find?_eraseP_other {ms : List Minode} (hj : j ≠ i) :
    (ms.eraseP fun m => decide (m.inodeNumber = i)).find? (fun m => decide (m.inodeNumber = j)) =
      ms.find? fun m => decide (m.inodeNumber = j) := by
  induction ms with
  | nil => rfl
  | cons m ms ih =>
    by_cases hm : m.inodeNumber = i
    · have hmj : ¬ m.inodeNumber = j := fun h => hj (h.symm.trans hm)
      simp [hm, Ne.symm hj]
    · by_cases hmj : m.inodeNumber = j
      · simp [hmj, hj]
      · simp [hm, hmj, ih]

theorem find?_eraseP_same {ms : List Minode} (h : (ms.map Minode.inodeNumber).Nodup) :
    (ms.eraseP fun m => decide (m.inodeNumber = i)).find? (fun m => decide (m.inodeNumber = i)) =
      none := by
  induction ms with
  | nil => rfl
  | cons m ms ih =>
    obtain ⟨hm, hms⟩ := List.nodup_cons.mp h
    by_cases hi : m.inodeNumber = i
    · rw [List.eraseP_cons_of_pos (by simpa using hi)]
      refine List.find?_eq_none.mpr fun m' hm' => ?_
      have : m'.inodeNumber ≠ i := fun h' => hm (hi ▸ h' ▸ List.mem_map_of_mem hm')
      simpa using this
    · rw [List.eraseP_cons_of_neg (by simpa using hi), List.find?_cons_of_neg (by simpa using hi)]
      exact ih hms

theorem released_stays {m : Minode} (h : v.minode? i = some m) (hstays : m.Stays) :
    Released i v (v.setMinode i fun m => { m with usecount := m.usecount - 1 }) where
  same := rfl
  stays m' hm' _ := by
    rw [VDisk.minode?_setMinode_same (g := fun m => { m with usecount := m.usecount - 1 })
      fun _ hm => hm, hm', Option.map_some]
  gone _ m' hm' hgone := by
    rw [h] at hm'
    exact absurd hstays (Option.some.inj hm' ▸ hgone)
  other j hj := VDisk.minode?_setMinode_other (fun _ hm => hm) hj
  oneHandle := (setMinode_oneHandle (g := fun m => { m with usecount := m.usecount - 1 })
    fun _ => rfl).mpr

theorem released_gone {m : Minode} (h : v.minode? i = some m) (hgone : ¬ m.Stays) :
    Released i v (let w := v.setMinode i fun m => { m with usecount := m.usecount - 1 }
      { w with minodes := w.minodes.eraseP fun m => decide (m.inodeNumber = i) }) := by
  have hone : v.OneHandle → (v.setMinode i fun m => { m with usecount := m.usecount - 1 }).OneHandle :=
    (setMinode_oneHandle (g := fun m => { m with usecount := m.usecount - 1 }) fun _ => rfl).mpr
  refine ⟨rfl, fun m' hm' hstays => ?_, fun hv m' _ _ => ?_, fun j hj => ?_, fun hv => ?_⟩
  · rw [h] at hm'
    exact absurd (Option.some.inj hm' ▸ hstays) hgone
  · exact find?_eraseP_same (hone hv)
  · exact (find?_eraseP_other hj).trans (VDisk.minode?_setMinode_other (fun _ hm => hm) hj)
  · exact (hone hv).sublist ((List.eraseP_sublist ..).map _)

theorem inodeRel_run (hcached : v.Cached i) : ∃ v', (inodeRel i).run v = ((), v') ∧ Released i v v' := by
  have hderef := VDisk.deref_setMinode (g := fun m => { m with usecount := m.usecount - 1 })
    (fun _ hm => hm) hcached
  have h := hcached.deref
  simp only [inodeRel, modifyMinode, Prog.run_bind, hderef, Prog.run_ite, Prog.run_pure]
  by_cases hdir : (v.deref i).dinode.isdir ∧ (v.deref i).dinode.nlink ≠ 0
  · exact ⟨_, by rw [if_pos hdir], released_stays h (.inl hdir)⟩
  by_cases huse : (v.deref i).usecount - 1 = 0
  · refine ⟨_, by rw [if_neg hdir, if_pos huse], released_gone h ?_⟩
    rintro (h | h)
    exacts [hdir h, h huse]
  · exact ⟨_, by rw [if_neg hdir, if_neg huse], released_stays h (.inr huse)⟩

end Cache

section Inodes

variable {v v' : VDisk} {i : Nat}

theorem VDisk.inode_loaded (v : VDisk) (i : Nat) : (v.loaded i).dinode = v.inode i := by
  simp only [VDisk.loaded, VDisk.inode]
  cases v.minode? i <;> rfl

theorem Taken.inode (h : Taken i v v') : v'.inode = v.inode := by
  funext j
  by_cases hj : j = i
  · rw [hj, VDisk.inode_some h.own, VDisk.inode_loaded]
  · have hslot : v'.slot j = v.slot j := by rw [h.same]; rfl
    simp only [VDisk.inode, h.other j hj, hslot]

theorem Taken.cached (h : Taken i v v') : v'.Cached i := by
  rw [VDisk.Cached, h.own]
  rfl

theorem Released.inode_other (h : Released i v v') {j : Nat} (hj : j ≠ i) : v'.inode j = v.inode j := by
  have hslot : v'.slot j = v.slot j := by rw [h.same]; rfl
  simp only [VDisk.inode, h.other j hj, hslot]

theorem Released.inode_stays (h : Released i v v') {m : Minode} (hm : v.minode? i = some m)
    (hstays : m.Stays) : v'.inode i = v.inode i := by
  rw [VDisk.inode_some (h.stays m hm hstays), VDisk.inode_some hm]

end Inodes

section Transport

variable {v v' : VDisk} {D : Set BlockPath} {hand free : List Nat} {all : Set Nat}

/-- A change of handles that keeps the address lists in use. -/
theorem Owned.setMinodes (h : Owned v D hand free all) (hsame : v' = { v with minodes := v'.minodes })
    (haddr : ∀ p ∈ D, (v'.inode p.1.1).addr = (v.inode p.1.1).addr) :
    Owned v' D hand free all ∧ ∀ p ∈ D, v'.forest.node p = v.forest.node p := by
  have hword : v'.word = v.word := by rw [hsame]; rfl
  have hagree : Agree D v.forest v'.forest := by
    refine ⟨fun r hp => ?_, fun r is i _ => ?_⟩
    · change Dinode.addrAt _ _ = Dinode.addrAt _ _
      simp only [Dinode.addrAt, haddr _ hp]
    · change v'.word _ i = v.word _ i
      rw [hword]
  refine ⟨?_, fun p hp => hagree.node h.partition.closed hp⟩
  refine h.relist (h.geometry.congr (by rw [hsame]) ⟨_, _, _, _, by rw [hsame]⟩) ?_ ?_ (.refl _) hagree ?_
  · exact ⟨by rw [hsame]; exact h.live.faults, by rw [hsame]; exact h.live.writable⟩
  · exact h.list.congr (by rw [hsame]) (by rw [hsame])
  · intro b
    rw [hsame]
    rfl

end Transport

end Ufs370
