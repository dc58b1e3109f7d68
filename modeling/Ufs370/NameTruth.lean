import Ufs370.NameRuns

/-! What holds after each call that moves a name, and after each run of calls on names. -/

namespace Ufs370

open Lib Lib.IndexForest Lib.IndexLayout Lib.Namespace

/-! One move. -/

section Rename

variable {v w : VDisk} {inos free : List Nat} {dirs : Set Nat} {fuel a b d x : Nat} {fromName toName : List UInt8} {rc : Rc}

/-- A call that comes back ends in one of the ways. -/
theorem RenameReady.ends (h : RenameReady inos free dirs 6 a b v) (hfrom : slash ∉ fromName) (hto : slash ∉ toName)
    (hrun : (fileRename fuel a fromName b toName).run v = (some rc, w)) : RenameEnds inos dirs a fromName b toName v rc w := by
  obtain ⟨n, hn⟩ := fileRename_ends h hfrom hto
  obtain ⟨rc', w', hlong, -, hends⟩ := hn (max n fuel) (Nat.le_max_left ..)
  rw [fileRename_mono hrun (Nat.le_max_right n fuel)] at hlong
  obtain ⟨hrc, rfl⟩ := Prod.mk.inj hlong
  rwa [Option.some.inj hrc]

/-- The check of `ufs_file_rename` ends on each tree, and finds out whether `x` is above `d`. -/
theorem canDirmove_decides (h : v.Hierarchy inos dirs) (hw : WellFormed v inos free) (hc : v.Coherent) (hd : d ∈ dirs) (x : Nat) :
    ∃ n, ∀ fuel, n ≤ fuel → ∃ rc, (canDirmove fuel x d).run v = (some rc, v) ∧
      (rc = .einval ↔ Above [dot, dot] v.names x d) ∧ (rc = .ok ↔ ¬ Above [dot, dot] v.names x d) := by
  obtain ⟨n, hn⟩ := canDirmove_run h hw hc x hd
  refine ⟨n, fun fuel hfuel => ?_⟩
  obtain ⟨rc, hrun, hclimbed⟩ := hn fuel hfuel
  refine ⟨rc, hrun, ?_⟩
  by_cases habove : Above [dot, dot] v.names x d
  · rw [hclimbed.found habove]
    exact ⟨iff_of_true rfl habove, iff_of_false Rc.noConfusion (not_not.mpr habove)⟩
  · rw [hclimbed.clear habove]
    exact ⟨iff_of_false Rc.noConfusion habove, iff_of_true rfl habove⟩

theorem canDirmove_decides_tree : ∃ n, ∀ fuel, n ≤ fuel → ∃ rc, (canDirmove fuel 2 3).run treeDisk = (some rc, treeDisk) ∧
    (rc = .einval ↔ Above [dot, dot] treeDisk.names 2 3) ∧ (rc = .ok ↔ ¬ Above [dot, dot] treeDisk.names 2 3) :=
  canDirmove_decides treeDisk_hierarchy treeDisk_wellFormed treeDisk_coherent (.inr rfl) 2

theorem treeDisk_ready : RenameReady [2, 3, 4] [10, 11] {2, 3} 6 2 3 treeDisk where
  wellFormed := treeDisk_wellFormed
  coherent := treeDisk_coherent
  oneHandle := treeDisk_orderly.unmounted.oneHandle
  references i := by
    have := treeDisk_uses i
    omega
  unmounted := treeDisk_orderly.unmounted.mounted
  hierarchy := treeDisk_hierarchy
  source := .inl rfl
  usedSource := by decide
  target := .inr rfl
  usedTarget := by decide
  size := .inl (by decide)
  room := by decide

theorem treeDisk_above {x : Nat} : Above [dot, dot] treeDisk.names x 3 → x = 2 := fun habove => by
  obtain ⟨p, hp, hx⟩ := above_iff.mp habove
  obtain ⟨heq, -⟩ | ⟨-, rfl⟩ := treeDisk_three.mp hp
  · exact absurd heq (by decide)
  · rcases hx with rfl | hx
    · rfl
    · exact treeDisk_hierarchy.tree.above_root hx

theorem treeDisk_removable {name : List UInt8} (h : direntFilename name ≠ [dot]) (hup : direntFilename name ≠ [dot, dot]) :
    treeDisk.Removable 3 name := fun _ hy => by
  rcases treeDisk_three.mp hy with ⟨heq, -⟩ | ⟨heq, -⟩
  exacts [absurd heq h, absurd heq hup]

end Rename

/-! One removal. -/

section Remove

variable {v w : VDisk} {inos free : List Nat} {dirs : Set Nat} {d y : Nat} {name : List UInt8} {rc : Rc}

/-- A call of `ufs_file_deallocate` took away the name, and the tree and the counts of links are right without it. -/
structure NameGone (inos : List Nat) (dirs : Set Nat) (d : Nat) (name : List UInt8) (v w : VDisk) : Prop where
  lookup : ((fileLookupByName d name).run w).1 = .error .enoent
  names : ∀ i ∈ dirs \ v.bearers d name, ∀ n c, w.names i n c ↔ drop v.names d (direntFilename name) i n c
  hierarchy : w.Hierarchy inos (dirs \ v.bearers d name)
  linked : w.Linked inos (dirs \ v.bearers d name)
  files : FilesKept inos v w

end Remove

/-! Runs of calls. -/

section Runs

variable {v w : VDisk} {inos free : List Nat} {hist : List (NameOp × Option Rc)}

def treeCreate : NameOp := .create 2 [0x87] ⟨[], [], 0x81A4, 0, ⟨0, 0⟩, ⟨0, 0⟩, ⟨0, 0⟩⟩ ⟨0, 0⟩

def treeMade : VDisk := ((nameStep treeCreate).run treeDisk).2

/-- The disk after a file was made and removed. -/
def treeAfter : VDisk := ((nameStep (.remove 2 [0x87])).run treeMade).2

theorem treeDisk_run : ∃ hist, made hist = 1 ∧ Run nameStep NameCall treeDisk hist treeAfter := by
  have hcreate : NameCall treeDisk treeCreate := by
    refine ⟨.refl, by decide, .inr (by decide), by constructor <;> decide +kernel, .inl (by decide), ?_, by decide⟩
    rw [VDisk.EntryRoom]
    decide
  have hmade : Run nameStep NameCall treeDisk [(treeCreate, ((nameStep treeCreate).run treeDisk).1)] treeMade :=
    .cons treeCreate .nil hcreate
  have hremove : NameCall treeMade (.remove 2 [0x87]) := ⟨.refl, by decide, by decide +kernel⟩
  have hafter : Run nameStep NameCall treeDisk [(.remove 2 [0x87], ((nameStep (.remove 2 [0x87])).run treeMade).1),
      (treeCreate, ((nameStep treeCreate).run treeDisk).1)] treeAfter := .cons (.remove 2 [0x87]) hmade hremove
  refine ⟨_, ?_, hafter⟩
  have hok : ((nameStep treeCreate).run treeDisk).1 = some .ok := by decide +kernel
  rw [hok]
  rfl

theorem treeDisk_room (i : Nat) : treeDisk.uses i + 8 < 65536 := by
  have := treeDisk_uses i
  omega

end Runs

end Ufs370
