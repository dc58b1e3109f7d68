import Ufs370.EntryUpdates
import Ufs370.Lib.Runs
import Mathlib.Data.List.Find

/-! A directory over any run of calls that add entries to it and remove them. -/

namespace Ufs370

open Lib Lib.IndexForest Lib.IndexLayout

/-- One call on a directory. -/
inductive DirOp
  | add (ino : Nat) (name : List UInt8)
  | remove (name : List UInt8)

def dirStep (d : Nat) : DirOp → Prog VDisk Rc
  | .add ino name => directoryAddEntry d ino name
  | .remove name => directoryRemoveEntry d name

/-- A directory of whole entries, `.` and `..` first, each of which names an inode. -/
structure Directory (v : VDisk) (d : Nat) : Prop where
  isdir : (v.inode d).isdir = true
  whole : direntSize ∣ v.filesize d
  dots : ((v.dirents d).take 2).map Dirent.name = [[dot], [dot, dot]]
  valid : ∀ e ∈ v.dirents d, InodeNumber v e.inodeNumber

/-- The calls that are asked: neither `.` nor `..` goes, and the directory stays within its direct blocks and
those of one index block. -/
def DirOp.Asked (d : Nat) (v : VDisk) : DirOp → Prop
  | .add ino _ => InodeNumber v ino ∧ v.filesize d + direntSize ≤ (16 + v.nidx) * v.blksize
  | .remove name => direntFilename name ≠ [dot] ∧ direntFilename name ≠ [dot, dot]

/-- A call that is asked, with free blocks before it and after. -/
structure DirCall (d : Nat) (v : VDisk) (op : DirOp) : Prop where
  asked : op.Asked d v
  free : 0 < v.sb.totalFreeblock
  left : 0 < ((dirStep d op).run v).2.sb.totalFreeblock

/-- What a call and the code it returns do to the entries. -/
inductive DirEffect (d : Nat) (v v' : VDisk) : DirOp → Rc → Prop
  | added {ino : Nat} {name : List UInt8} :
      (v'.dirents d).Perm (⟨ino, direntFilename name⟩ :: v.dirents d) → DirEffect d v v' (.add ino name) .ok
  | removed {name : List UInt8} {before after : List Dirent} {e : Dirent} :
      v.dirents d = before ++ e :: after → e.name = direntFilename name → (∀ x ∈ before, x.name ≠ direntFilename name) →
      (v'.dirents d).Perm (before ++ after) → DirEffect d v v' (.remove name) .ok
  | absent {name : List UInt8} :
      (∀ x ∈ v.dirents d, x.name ≠ direntFilename name) → v' = v → DirEffect d v v' (.remove name) .enoent

/-- What holds of a directory after each call of a run. -/
structure DirRunning (inos : List Nat) (d : Nat) (v₀ v : VDisk) : Prop where
  wellFormed : ∃ free, WellFormed v inos free
  tended : Tended v
  used : 0 < v.uses d
  directory : Directory v d
  same : (v.dirents d).take 2 = (v₀.dirents d).take 2

section Runs

variable {v v₀ : VDisk} {inos free : List Nat} {d : Nat} {op : DirOp}

theorem lookupName_plain {name : List UInt8} (h : slash ∉ name) : lookupName name = direntFilename name :=
  if_neg fun hmem => h ((List.takeWhile_sublist _).subset hmem)

theorem Directory.entries (h : Directory v d) : ∃ n, v.filesize d = direntSize * (n + 2) := by
  obtain ⟨n, hn⟩ := h.whole
  have hlen := congrArg List.length h.dots
  rw [List.length_map, List.length_take, dirents_length hn] at hlen
  simp only [List.length_cons, List.length_nil] at hlen
  exact ⟨n - 2, by rw [hn, Nat.sub_add_cancel (by omega)]⟩

/-- The entry of a name that is neither `.` nor `..` comes after these. -/
theorem Directory.after_dots (h : Directory v d) {k : Nat} {hk : k < (v.dirents d).length}
    (hdot : (v.dirents d)[k].name ≠ [dot]) (hdots : (v.dirents d)[k].name ≠ [dot, dot]) : 2 ≤ k := by
  by_contra hlt
  have hget : ((((v.dirents d).take 2).map Dirent.name)[k]?) = some (v.dirents d)[k].name := by
    rw [List.getElem?_map, List.getElem?_take, if_pos (by omega), List.getElem?_eq_getElem hk, Option.map_some]
  rw [h.dots] at hget
  obtain rfl | rfl : k = 0 ∨ k = 1 := by omega
  · exact hdot (Option.some.inj hget).symm
  · exact hdots (Option.some.inj hget).symm

theorem held_dirStep (ht : Tended v) (d : Nat) (op : DirOp) : Held v [] ((dirStep d op).run v).2 := by
  cases op with
  | add ino name => exact (Held.directoryAddEntry ht.room (by decide) d ino name).run v (.refl ht.oneHandle)
  | remove name => exact (Held.directoryRemoveEntry ht.room (by decide) d name).run v (.refl ht.oneHandle)

/-- A directory whose entries are others, with the same first two. -/
theorem Directory.relisted {cnt : Nat → Nat} {all : Set Nat} {es : List Dirent} {l : UInt16} {free' : List Nat} {v' : VDisk}
    (h : Directory v d) (hnum : InodeNumber v d) (r : Relisted cnt all d es l v v' free')
    (hdots : es.take 2 = (v.dirents d).take 2) (hvalid : ∀ e ∈ es, InodeNumber v e.inodeNumber) : Directory v' d where
  isdir := (r.beside.isdir hnum).trans h.isdir
  whole := ⟨es.length, r.filesize⟩
  dots := by rw [r.dirents, hdots, h.dots]
  valid e he := (hvalid e (by rwa [r.dirents] at he)).congr r.beside.blksize r.beside.sb

theorem DirRunning.relisted {es : List Dirent} {l : UInt16} {free' : List Nat} {v' : VDisk} (h : DirRunning inos d v₀ v)
    (hw : WellFormed v inos free) (hd : d ∈ inos) (hsize : SizeOk v (direntSize * es.length))
    (r : Relisted (v.counts inos) {b | b ∈ v.allBlocks inos free} d es l v v' free') (ht : Tended v') (hheld : Held v [] v')
    (hdots : es.take 2 = (v.dirents d).take 2) (hvalid : ∀ e ∈ es, InodeNumber v e.inodeNumber) :
    DirRunning inos d v₀ v' where
  wellFormed := ⟨free', r.wellFormed hw hd hsize⟩
  tended := ht
  used := by
    rw [hheld.uses]
    exact h.used
  directory := h.directory.relisted (hw.number d hd) r hdots hvalid
  same := by rw [r.dirents, hdots, h.same]

theorem DirRunning.add {ino : Nat} {name : List UInt8} (h : DirRunning inos d v₀ v) (hd : d ∈ inos)
    (hop : DirCall d v (.add ino name)) : DirRunning inos d v₀ ((dirStep d (.add ino name)).run v).2 ∧
      DirEffect d v ((dirStep d (.add ino name)).run v).2 (.add ino name) ((dirStep d (.add ino name)).run v).1 := by
  obtain ⟨free, hw⟩ := h.wellFormed
  obtain ⟨n, hn⟩ := h.directory.entries
  have hs := hw.stored hd (cached_of_uses h.used)
  have g := hw.geometry
  have hleft := hop.left
  have hheld := held_dirStep h.tended d (.add ino name)
  obtain ⟨hnum, hroom⟩ := hop.asked
  have hsize : SizeOk v (direntSize * (n + 2 + 1)) := .inl (by rwa [hn] at hroom)
  have hlen : (v.dirents d ++ [Dirent.mk ino (direntFilename name)]).length = n + 2 + 1 := by
    rw [List.length_append, dirents_length hn, List.length_singleton]
  simp only [dirStep] at hleft hheld ⊢
  rcases directoryAddEntry_run hs h.tended (fun _ => h.used) hn (hsize.fileSize g) hnum (hnum.lt g) name with
    ⟨v', hrun, -, hfull, -⟩ | ⟨v', free', hrun, -, hadd, ht, -⟩
  · rw [hrun, hfull] at hleft
    exact absurd hleft (Nat.lt_irrefl 0)
  rw [hrun] at hheld ⊢
  refine ⟨h.relisted hw hd (by rwa [hlen]) hadd ht hheld ?_ ?_, .added ?_⟩
  · exact List.take_append_of_le_length (by rw [dirents_length hn]; exact Nat.le_add_left 2 n)
  · rintro e he
    rcases List.mem_append.mp he with he | he
    · exact h.directory.valid e he
    · rw [List.mem_singleton.mp he]
      exact hnum
  · rw [hadd.dirents]
    exact List.perm_append_singleton ..

theorem DirRunning.remove {name : List UInt8} (h : DirRunning inos d v₀ v) (hd : d ∈ inos)
    (hop : DirCall d v (.remove name)) : DirRunning inos d v₀ ((dirStep d (.remove name)).run v).2 ∧
      DirEffect d v ((dirStep d (.remove name)).run v).2 (.remove name) ((dirStep d (.remove name)).run v).1 := by
  obtain ⟨free, hw⟩ := h.wellFormed
  obtain ⟨n, hn⟩ := h.directory.entries
  have hs := hw.stored hd (cached_of_uses h.used)
  have hheld := held_dirStep h.tended d (.remove name)
  obtain ⟨hdot, hdots⟩ := hop.asked
  have hfree : free ≠ [] := fun hnil => by
    have htotal := hw.list.total
    rw [hnil, List.length_nil] at htotal
    exact absurd (htotal ▸ hop.free) (Nat.lt_irrefl 0)
  have hrun := directoryRemoveEntry_run hs h.tended h.used hn hfree h.directory.valid name
  simp only [dirStep] at hheld ⊢
  cases hfind : (v.dirents d).findIdx? fun e => decide (e.name = direntFilename name) with
  | none =>
    rw [hfind] at hrun
    rw [hrun]
    refine ⟨h, .absent (fun x hx hname => ?_) rfl⟩
    exact Bool.false_ne_true ((List.findIdx?_eq_none_iff.mp hfind x hx).symm.trans (decide_eq_true hname))
  | some k =>
    rw [hfind] at hrun
    obtain ⟨v', free', hrun, hremoved, ht, -⟩ := hrun
    obtain ⟨hk, hname, hbefore⟩ := List.findIdx?_eq_some_iff_getElem.mp hfind
    rw [decide_eq_true_eq] at hname
    rw [← hname] at hdot hdots
    have hafter := h.directory.after_dots hdot hdots
    have hperm := swapRemove_perm hk
    have hsplit : (v.dirents d).eraseIdx k = (v.dirents d).take k ++ (v.dirents d).drop (k + 1) :=
      List.eraseIdx_eq_take_drop_succ ..
    rw [hrun] at hheld ⊢
    have hlist : v.dirents d = (v.dirents d).take k ++ (v.dirents d)[k] :: (v.dirents d).drop (k + 1) := by
      rw [← List.drop_eq_getElem_cons hk, List.take_append_drop]
    refine ⟨h.relisted hw hd ?_ hremoved ht hheld (take_swapRemove hafter hk) fun e he => ?_,
      .removed hlist hname (fun x hx hname => ?_) ?_⟩
    · refine (hw.size d hd).mono ?_
      change _ ≤ v.filesize d
      rw [hn, length_swapRemove, dirents_length hn]
      exact Nat.mul_le_mul_left _ (Nat.sub_le ..)
    · exact h.directory.valid e (List.eraseIdx_subset (hperm.subset he))
    · obtain ⟨j, hj, rfl⟩ := List.getElem_of_mem hx
      rw [List.length_take] at hj
      rw [List.getElem_take] at hname
      exact of_decide_eq_false ((Bool.not_eq_true _).mp (hbefore j (by omega))) hname
    · rw [hremoved.dirents, ← hsplit]
      exact hperm

/-- A directory as a multiset of entries, which starts with those of `v₀` for `.` and `..`. -/
structure EntryMultiset (d : Nat) (v₀ v : VDisk) : Prop where
  filesize : v.filesize d = direntSize * (v.dirents d).length
  dots : ((v.dirents d).take 2).map Dirent.name = [[dot], [dot, dot]] ∧ (v.dirents d).take 2 = (v₀.dirents d).take 2
  lookup : ∀ name, slash ∉ name → (fileLookupByName d name).run v =
    ((match (v.dirents d).find? fun e => decide (e.name = direntFilename name) with
      | some e => .ok e.inodeNumber
      | none => .error .enoent), v)
  effect : ∀ op, DirCall d v op → DirEffect d v ((dirStep d op).run v).2 op ((dirStep d op).run v).1

theorem Directory.lookup {cnt : Nat → Nat} {all : Set Nat} (h : Directory v d) (hs : Stored cnt all d v free)
    {name : List UInt8} (hplain : slash ∉ name) : (fileLookupByName d name).run v =
      ((match (v.dirents d).find? fun e => decide (e.name = direntFilename name) with
        | some e => .ok e.inodeNumber
        | none => .error .enoent), v) := by
  obtain ⟨n, hn⟩ := h.entries
  have hsame : ((v.dirents d).find? fun e => decide (1 ≤ e.inodeNumber ∧ e.name = direntFilename (lookupName name))) =
      (v.dirents d).find? fun e => decide (e.name = direntFilename name) := by
    refine List.find?_congr fun e he => ?_
    rw [lookupName_plain hplain, direntFilename_idem]
    exact decide_eq_decide.mpr (and_iff_right (h.valid e he).pos)
  have hrun := fileLookupByName_run hs hn h.isdir name
  rw [hsame] at hrun
  exact hrun

/-- The entries of a directory over any run of calls. -/
theorem directory_multiset {hist : List (DirOp × Rc)} (hw : WellFormed v₀ inos free) (ht : Tended v₀) (hd : d ∈ inos)
    (huse : 0 < v₀.uses d) (hdir : Directory v₀ d) (hrun : Run (dirStep d) (DirCall d) v₀ hist v) :
    EntryMultiset d v₀ v := by
  have h : DirRunning inos d v₀ v := hrun.invariant (I := DirRunning inos d v₀) ⟨⟨free, hw⟩, ht, huse, hdir, rfl⟩
    fun s op hs hop => by
      cases op with
      | add ino name => exact (hs.add hd hop).1
      | remove name => exact (hs.remove hd hop).1
  obtain ⟨free', hw'⟩ := h.wellFormed
  obtain ⟨n, hn⟩ := h.directory.entries
  refine ⟨?_, ⟨h.directory.dots, h.same⟩, fun name hplain =>
    h.directory.lookup (hw'.stored hd (cached_of_uses h.used)) hplain, fun op hop => ?_⟩
  · rw [dirents_length hn, hn]
  · cases op with
    | add ino name => exact (h.add hd hop).2
    | remove name => exact (h.remove hd hop).2

end Runs

section Dots

/-- A disk with a directory of two entries. -/
def dotsDisk : VDisk := { pairDisk with
  sb := { pairSuper with volumeSize := 16 }
  io := ⟨Function.update (fun _ => zeroBlock) 12 ([[dot], [dot, dot]].zipIdx.foldl
    (fun buf e => Entry.setName (Entry.setInodeNumber buf e.2 2) e.2 e.1) zeroBlock), []⟩
  minodes := [⟨2, false, 1, none, { Dinode.zero with mode := 0x41ED, nlink := 2, filesize := 128, addr := fun _ => 12 }⟩] }

theorem dotsDisk_wellFormed : WellFormed dotsDisk [2] [10, 11] where
  geometry := by constructor <;> decide
  live := ⟨rfl, rfl⟩
  distinct := by decide
  number := by
    intro i hi
    obtain rfl := List.mem_singleton.mp hi
    constructor <;> decide
  size := by
    intro i hi
    obtain rfl := List.mem_singleton.mp hi
    exact .inl (by decide)
  list := {
    volume := by decide
    holds := by
      have hsaved : (dotsDisk.saved 11).1 = 0 := Bytes.word_zero 0
      refine .entry (by decide) (by decide) (.link (by decide) ?_)
      change LinkedStack.Holds _ _ (dotsDisk.saved 11).1 _ _
      rw [hsaved]
      exact .nil
    nodup := by decide
    sane := by decide
    total := rfl }
  blocks := by decide
  sane := by decide

theorem dotsDisk_minode {i : Nat} (hi : i ≠ 2) : dotsDisk.minode? i = none := by
  rw [VDisk.minode?]
  refine List.find?_eq_none.mpr fun m hm => ?_
  obtain rfl := List.mem_singleton.mp hm
  simpa using Ne.symm hi

theorem dotsDisk_tended : Tended dotsDisk where
  oneHandle := by
    rw [VDisk.OneHandle]
    decide
  room i := by
    by_cases hi : i = 2
    · subst hi
      decide
    · rw [uses_none (dotsDisk_minode hi)]
      decide
  idle i _ huses := by
    by_cases hi : i = 2
    · subst hi
      exact absurd huses (by decide)
    · exact (VDisk.inode_none (dotsDisk_minode hi)).symm

theorem dotsDisk_directory : Directory dotsDisk 2 where
  isdir := by decide
  whole := by decide
  dots := by decide +kernel
  valid e he := by
    have hall : (dotsDisk.dirents 2).all (fun e => e.inodeNumber = 2) = true := by decide +kernel
    rw [of_decide_eq_true (List.all_eq_true.mp hall e he)]
    constructor <;> decide

/-- An entry that comes and goes. -/
theorem directory_multiset_dots : EntryMultiset 2 dotsDisk
    ((dirStep 2 (.remove [0xC1])).run ((dirStep 2 (.add 2 [0xC1])).run dotsDisk).2).2 := by
  have add : DirCall 2 dotsDisk (.add 2 [0xC1]) :=
    ⟨⟨by constructor <;> decide, by decide⟩, by decide, by decide +kernel⟩
  have remove : DirCall 2 ((dirStep 2 (.add 2 [0xC1])).run dotsDisk).2 (.remove [0xC1]) :=
    ⟨⟨by decide, by decide⟩, by decide +kernel, by decide +kernel⟩
  exact directory_multiset dotsDisk_wellFormed dotsDisk_tended (List.mem_singleton_self 2) (by decide) dotsDisk_directory
    (.cons (DirOp.remove [0xC1]) (.cons (DirOp.add 2 [0xC1]) .nil add) remove)

end Dots

end Ufs370
