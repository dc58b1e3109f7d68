import Ufs370.Visits
import Ufs370.MountTruth

/-! A directory handle lists what the lookups find. -/

namespace Ufs370

open Lib

/-- The number and the text of an entry, as the lister reads them: a text of 60 bytes has no end. -/
def Entry.raw (buf : Block) (i : Nat) : Nat × List UInt8 :=
  (Entry.inodeNumber buf i, CString.read (nameMax + 1) (Entry.name buf i))

namespace VDisk

/-- The entries that an iteration over a directory comes to. -/
def rawEntries (v : VDisk) (d : Dinode) : List (Nat × List UInt8) :=
  (v.visited d).flatMap fun visit => (List.range (visit.2 / direntSize)).map (Entry.raw (v.io.blocks visit.1))

/-- The lister takes an entry: its text ends and has no blank, its number is not too high and its inode can be had. -/
def Listable (v : VDisk) (e : Nat × List UInt8) : Prop :=
  ¬ (nameMax < e.2.length ∨ Fstab.blank ∈ e.2 ∨ maxInode v.blksize v.sb.datablockStartSector < e.1) ∧
    (v.seen e.1).isSome = true

instance (v : VDisk) (e : Nat × List UInt8) : Decidable (v.Listable e) := inferInstanceAs (Decidable (_ ∧ _))

/-- The record of an entry that is listed. -/
def record (v : VDisk) (mounted : List UInt8 → Minode → Option (List UInt8)) (e : Nat × List UInt8) : Option Dlist :=
  if v.Listable e then
    (v.seen e.1).map fun x => .of e.1 e.2 x.1 (mounted e.2 ⟨e.1, false, 0, x.2, x.1⟩)
  else none

end VDisk

section Scan

variable {v w : VDisk} {d : Dinode} {ino : Nat} {mounted : List UInt8 → Minode → Option (List UInt8)}

/-- What is mounted on an entry is told by its inode alone. -/
def OfInode (mounted : List UInt8 → Minode → Option (List UInt8)) : Prop :=
  ∀ name m m', m.inodeNumber = m'.inodeNumber → m.mountedVdisk = m'.mountedVdisk → m.dinode = m'.dinode →
    mounted name m = mounted name m'

theorem VDisk.Later.sb (h : v.Later w) : w.blksize = v.blksize ∧ w.sb = v.sb := by
  rw [h.same]
  exact ⟨rfl, rfl⟩

theorem VDisk.Later.blocks (h : v.Later w) : w.io.blocks = v.io.blocks := by
  rw [h.same]
  rfl

theorem VDisk.Later.record (h : v.Later w) : w.record mounted = v.record mounted := by
  funext e
  have hlistable : w.Listable e ↔ v.Listable e := by
    rw [VDisk.Listable, VDisk.Listable, h.seen, h.sb.1, h.sb.2]
  simp only [VDisk.record, hlistable, h.seen]

theorem VDisk.Later.calmLike (h : v.Later w) (hcalm : v.io.faults = []) : v.CalmLike w := by
  have hsame := h.same
  rw [h.calm hcalm] at hsame
  exact hsame

/-- One entry. -/
theorem listScan_step (hof : OfInode mounted) (hcalm : v.io.faults = []) (h : v.Settled) (buf : Block) (left i : Nat)
    (dlist : List Dlist) : ∃ w, v.Later w ∧ (listScan (fun _ => true) mounted buf (left + 1) i dlist).run v =
      (listScan (fun _ => true) mounted buf left (i + 1) (dlist ++ (v.record mounted (Entry.raw buf i)).toList)).run w := by
  by_cases hskip : nameMax < (Entry.raw buf i).2.length ∨ Fstab.blank ∈ (Entry.raw buf i).2 ∨
      maxInode v.blksize v.sb.datablockStartSector < (Entry.raw buf i).1
  · have hrecord : v.record mounted (Entry.raw buf i) = none := if_neg fun h => h.1 hskip
    refine ⟨v, .refl h, ?_⟩
    rw [hrecord, Option.toList_none, List.append_nil]
    simp only [Entry.raw] at hskip
    simp only [listScan, Prog.run_bind, hskip, if_true]
  obtain ⟨hlater, ⟨hget, hseen, hcached⟩ | ⟨hget, hseen⟩⟩ := inodeGet_later (i := Entry.inodeNumber buf i) h
  swap
  · have hrecord : v.record mounted (Entry.raw buf i) = none := by
      refine if_neg fun h => ?_
      have hsome : (v.seen (Entry.inodeNumber buf i)).isSome = true := h.2
      rw [hseen hcalm] at hsome
      exact Bool.false_ne_true hsome
    refine ⟨_, hlater, ?_⟩
    rw [hrecord, Option.toList_none, List.append_nil]
    simp only [Entry.raw] at hskip
    simp only [listScan, Prog.run_bind, hskip, if_false, hget]
  obtain ⟨m, hm⟩ := Option.isSome_iff_exists.mp hcached
  have hnumber := VDisk.minode?_number hm
  have hseen' : v.seen (Entry.inodeNumber buf i) = some (m.dinode, m.mountedVdisk) := by
    rw [← hlater.seen, seen_some hm]
  have hrecord : v.record mounted (Entry.raw buf i) =
      some (.of (Entry.raw buf i).1 (Entry.raw buf i).2 m.dinode (mounted (Entry.raw buf i).2 m)) := by
    rw [VDisk.record, if_pos ⟨hskip, hseen⟩]
    change (v.seen (Entry.inodeNumber buf i)).map _ = _
    rw [hseen', Option.map_some]
    exact congrArg (fun x => some (Dlist.of _ _ _ x)) (hof _ _ _ hnumber.symm rfl rfl)
  have halloc : (VDisk.onStore Store.alloc).run ((inodeGet (Entry.inodeNumber buf i)).run v).2 =
      (true, ((inodeGet (Entry.inodeNumber buf i)).run v).2) := by
    simp [VDisk.onStore, Store.alloc_nil (hlater.calm hcalm)]
  refine ⟨_, hlater.trans (inodeRel_later (i := Entry.inodeNumber buf i) hlater.settled), ?_⟩
  rw [hrecord, Option.toList_some]
  simp only [Entry.raw] at hskip ⊢
  simp only [listScan, Prog.run_bind, hskip, if_false, hget, Bool.not_true, Bool.false_eq_true, halloc, if_true,
    VDisk.deref_some hm]

theorem listScan_run (hof : OfInode mounted) (hcalm : v.io.faults = []) (h : v.Settled) (buf : Block) (left i : Nat)
    (dlist : List Dlist) : ∃ w, v.Later w ∧ (listScan (fun _ => true) mounted buf left i dlist).run v =
      ((.ok, dlist ++ ((List.range' i left).map (Entry.raw buf)).filterMap (v.record mounted)), w) := by
  induction left generalizing v i dlist with
  | zero => exact ⟨v, .refl h, by rw [List.range'_zero, List.map_nil, List.filterMap_nil, List.append_nil]; rfl⟩
  | succ left ih =>
    obtain ⟨w, hlater, hstep⟩ := listScan_step hof hcalm h buf left i dlist
    obtain ⟨w', hlater', hrun⟩ := ih (hlater.calm hcalm) hlater.settled (i + 1) (dlist ++ (v.record mounted (Entry.raw buf i)).toList)
    refine ⟨w', hlater.trans hlater', ?_⟩
    rw [hstep, hrun, hlater.record, List.range'_succ, List.map_cons, List.append_assoc]
    cases hrecord : v.record mounted (Entry.raw buf i) with
    | none => rw [List.filterMap_cons_none hrecord, Option.toList_none, List.nil_append]
    | some l => rw [List.filterMap_cons_some hrecord, Option.toList_some, List.singleton_append]

/-- A listing of some blocks. -/
theorem visitAll_list (hof : OfInode mounted) (hcalm : v.io.faults = []) (h : v.Settled) (visits : List (Nat × Nat))
    (dlist : List Dlist) : ∃ w, v.Later w ∧
      (visitAll (directoryListSubr (fun _ => true) mounted) visits dlist).run v =
        ((.ok, dlist ++ (visits.flatMap fun visit => (List.range (visit.2 / direntSize)).map
          (Entry.raw (v.io.blocks visit.1))).filterMap (v.record mounted)), w) := by
  induction visits generalizing v dlist with
  | nil => exact ⟨v, .refl h, by rw [List.flatMap_nil, List.filterMap_nil, List.append_nil]; rfl⟩
  | cons visit visits ih =>
    obtain ⟨w, hlater, hscan⟩ := listScan_run hof hcalm h (v.io.blocks visit.1) (visit.2 / direntSize) 0 dlist
    obtain ⟨w', hlater', hrun⟩ := ih (hlater.calm hcalm) hlater.settled
      (dlist ++ ((List.range' 0 (visit.2 / direntSize)).map (Entry.raw (v.io.blocks visit.1))).filterMap (v.record mounted))
    refine ⟨w', hlater.trans hlater', ?_⟩
    simp only [visitAll, directoryListSubr, Prog.run_bind, readBuf_calm hcalm, hscan, ne_eq, not_true_eq_false, if_false,
      hrun]
    rw [hlater.blocks, hlater.record, List.flatMap_cons, List.filterMap_append, List.append_assoc, List.range_eq_range']

/-- The listing of a directory that is in the cache to stay. -/
theorem foreach_list (hof : OfInode mounted) (hcalm : v.io.faults = []) (h : v.Settled) (hfirm : v.Firm ino)
    (hdin : v.din ino = d) : ∃ rc w, v.Later w ∧
      (datablockForeach (directoryListSubr (fun _ => true) mounted) ino []).run v =
        ((rc, (v.rawEntries d).filterMap (v.record mounted)), w) := by
  have hsteady : Steady (directoryListSubr (fun _ => true) mounted) v.Later := by
    intro w hw ctx blk sz _
    have hfaults := hw.calm hcalm
    obtain ⟨w', hlater, hrun⟩ := listScan_run hof hfaults hw.settled (w.io.blocks blk) (sz / direntSize) 0 ctx
    simp only [directoryListSubr, Prog.run_bind, readBuf_calm hfaults, hrun]
    exact hw.trans hlater
  have hdin' (w : VDisk) (hw : v.Later w) : w.din ino = d := by
    obtain ⟨m, hm, _⟩ := id hfirm
    obtain ⟨m', hm', _⟩ := hw.firm ino hfirm
    have hseen := (seen_some hm').symm.trans ((congrFun hw.seen ino).trans (seen_some hm))
    rw [← hdin, VDisk.din, VDisk.din, VDisk.deref_some hm, VDisk.deref_some hm']
    exact (Prod.ext_iff.mp (Option.some.inj hseen)).1
  obtain ⟨w, hlater, hrun⟩ := visitAll_list hof hcalm h (v.visited d) []
  have hforeach := datablockForeach_visited hsteady (fun w hw => hw.calmLike hcalm) hdin' [] (.refl h)
  rw [hrun] at hforeach
  exact ⟨_, w, hlater, hforeach⟩

end Scan

/-! The records of a directory, and how they are read. -/

theorem nameLe_total (a b : List UInt8) : (nameLe a b || nameLe b a) = true := by
  induction a generalizing b with
  | nil => rfl
  | cons x a ih =>
    cases b with
    | nil => rfl
    | cons y b =>
      simp only [nameLe, Bool.or_eq_true, Bool.and_eq_true, decide_eq_true_eq]
      by_cases hlt : x < y
      · exact .inl (.inl hlt)
      by_cases heq : x = y
      · subst heq
        rcases Bool.or_eq_true_iff.mp (ih b) with h | h
        · exact .inl (.inr ⟨rfl, h⟩)
        · exact .inr (.inr ⟨rfl, h⟩)
      · exact .inr (.inl (UInt8.lt_of_le_of_ne (UInt8.not_lt.mp hlt) (Ne.symm heq)))

theorem nameLe_trans (a b c : List UInt8) (hab : nameLe a b = true) (hbc : nameLe b c = true) : nameLe a c = true := by
  induction a generalizing b c with
  | nil => rfl
  | cons x a ih =>
    cases b with
    | nil => exact absurd hab Bool.false_ne_true
    | cons y b =>
      cases c with
      | nil => exact absurd hbc Bool.false_ne_true
      | cons z c =>
        simp only [nameLe, Bool.or_eq_true, Bool.and_eq_true, decide_eq_true_eq] at hab hbc ⊢
        rcases hab with hxy | ⟨rfl, hab⟩
        · rcases hbc with hyz | ⟨rfl, -⟩
          · exact .inl (UInt8.lt_trans hxy hyz)
          · exact .inl hxy
        · rcases hbc with hyz | ⟨rfl, hbc⟩
          · exact .inl hyz
          · exact .inr ⟨rfl, ih b c hab hbc⟩

/-- What `ufs_dirread` returns until it returns `NULL`. -/
inductive Reads : Ddesc → List Dlist → Prop
  | done {ddesc : Ddesc} : (dirread ddesc).1 = none → Reads ddesc []
  | next {ddesc : Ddesc} {l : Dlist} {recs : List Dlist} : (dirread ddesc).1 = some l → Reads (dirread ddesc).2 recs →
      Reads ddesc (l :: recs)

theorem reads_iff {ddesc : Ddesc} {recs : List Dlist} : Reads ddesc recs ↔ recs = ddesc.dlist.drop ddesc.recno := by
  constructor
  · intro h
    induction h with
    | @done ddesc hnone => exact (List.drop_eq_nil_of_le (List.getElem?_eq_none_iff.mp hnone)).symm
    | @next ddesc l recs hsome _ ih =>
      obtain ⟨hlt, hget⟩ := List.getElem?_eq_some_iff.mp hsome
      rw [List.drop_eq_getElem_cons hlt, hget, ih]
      rfl
  · intro h
    induction recs generalizing ddesc with
    | nil => exact .done (List.getElem?_eq_none_iff.mpr (List.drop_eq_nil_iff.mp h.symm))
    | cons l recs ih =>
      have hlt : ddesc.recno < ddesc.dlist.length := by
        by_contra hge
        rw [List.drop_eq_nil_of_le (Nat.not_lt.mp hge)] at h
        exact absurd h (List.cons_ne_nil _ _)
      rw [List.drop_eq_getElem_cons hlt] at h
      obtain ⟨rfl, hrest⟩ := List.cons.inj h
      exact .next (List.getElem?_eq_getElem hlt) (ih hrest)

namespace Ufs

variable (s : Ufs) (p : Minptr)

/-- The name that the record of an entry of directory `p` has. -/
def shown (e : Nat × List UInt8) : List UInt8 :=
  match s.seen ⟨p.vdisk, e.1⟩ with
  | none => e.2
  | some x => (s.mountedName p e.2 ⟨e.1, false, 0, x.2, x.1⟩).elim e.2 (Dlist.mountName e.2)

/-- The records of directory `p` in the order of its entries. -/
def records (d : Dinode) : List Dlist :=
  ((s.vdisk p.vdisk).rawEntries d).filterMap ((s.vdisk p.vdisk).record (s.mountedName p))

/-- Each entry that a lookup finds comes once, with its inode number, and the names ascend. -/
structure ListsAll (d : Dinode) (recs : List Dlist) : Prop where
  found : ∀ name ino, (s.vdisk p.vdisk).entry d name = .ok ino →
    (recs.countP fun l => decide (l.inodeNumber = ino ∧ l.name = s.shown p (ino, lookupName name))) = 1
  sorted : recs.Pairwise fun l l' => nameLe l.name l'.name = true

/-- An entry that the lister takes is there once.  If it does not take it, just one that it takes comes out the same. -/
def EntryListed (d : Dinode) (e : Nat × List UInt8) : Prop :=
  let v := s.vdisk p.vdisk
  if v.Listable e then (v.rawEntries d).count e = 1
  else ((v.rawEntries d).countP fun e' => decide (v.Listable e' ∧ e'.1 = e.1 ∧ s.shown p e' = s.shown p e)) = 1

end Ufs

section Records

variable {s s' : Ufs} {p : Minptr} {d : Dinode}

theorem takeWhile_shown (s : Ufs) (p : Minptr) {e : Nat × List UInt8} (h : Fstab.blank ∉ e.2) :
    (s.shown p e).takeWhile (· ≠ Fstab.blank) = e.2 := by
  have hall : ∀ c ∈ e.2, decide (c ≠ Fstab.blank) = true := fun c hc => decide_eq_true fun heq => h (heq ▸ hc)
  have hplain : e.2.takeWhile (· ≠ Fstab.blank) = e.2 := List.takeWhile_eq_self_iff.mpr hall
  rw [Ufs.shown]
  cases s.seen ⟨p.vdisk, e.1⟩ with
  | none => exact hplain
  | some x =>
    simp only
    cases s.mountedName p e.2 ⟨e.1, false, 0, x.2, x.1⟩ with
    | none => exact hplain
    | some ddname =>
      rw [Option.elim_some, Dlist.mountName]
      split
      · rw [List.append_assoc, List.takeWhile_append_of_pos hall]
        exact List.append_nil _
      · exact hplain

theorem shown_inj {e e' : Nat × List UInt8} (h : Fstab.blank ∉ e.2) (h' : Fstab.blank ∉ e'.2) (hnum : e'.1 = e.1)
    (hshown : s.shown p e' = s.shown p e) : e' = e := by
  refine Prod.ext hnum ?_
  rw [← takeWhile_shown s p h', ← takeWhile_shown s p h, hshown]

theorem record_none {e : Nat × List UInt8} {v : VDisk} {mounted : List UInt8 → Minode → Option (List UInt8)}
    (h : ¬ v.Listable e) : v.record mounted e = none := if_neg h

theorem record_some {e : Nat × List UInt8} (h : (s.vdisk p.vdisk).Listable e) :
    ∃ l, (s.vdisk p.vdisk).record (s.mountedName p) e = some l ∧ l.inodeNumber = e.1 ∧ l.name = s.shown p e := by
  obtain ⟨x, hx⟩ := Option.isSome_iff_exists.mp h.2
  have hseen : s.seen ⟨p.vdisk, e.1⟩ = some x := hx
  refine ⟨_, by rw [VDisk.record, if_pos h, hx, Option.map_some], rfl, ?_⟩
  rw [Ufs.shown, hseen]
  rfl

/-- How many records show an entry. -/
theorem countP_records (e : Nat × List UInt8) :
    (s.records p d).countP (fun l => decide (l.inodeNumber = e.1 ∧ l.name = s.shown p e)) =
      ((s.vdisk p.vdisk).rawEntries d).countP fun e' =>
        decide ((s.vdisk p.vdisk).Listable e' ∧ e'.1 = e.1 ∧ s.shown p e' = s.shown p e) := by
  rw [Ufs.records, List.countP_filterMap]
  refine List.countP_congr fun e' _ => ?_
  by_cases hlist : (s.vdisk p.vdisk).Listable e'
  · obtain ⟨l, hl, hnum, hname⟩ := record_some hlist
    simp only [hl, Option.map_some, Option.getD_some, hnum, hname, hlist, true_and]
  · simp only [record_none hlist, Option.map_none, Option.getD_none, hlist, false_and, decide_false]

/-- A sorted listing of the records is complete exactly if each entry that can be found is listed. -/
theorem listsAll_iff {recs : List Dlist} (hrecs : recs = (s.records p d).mergeSort fun a b => nameLe a.name b.name) :
    s.ListsAll p d recs ↔ ∀ name ino, (s.vdisk p.vdisk).entry d name = .ok ino →
      s.EntryListed p d (ino, lookupName name) := by
  have hperm : recs.Perm (s.records p d) := hrecs ▸ List.mergeSort_perm _ _
  have hsorted : recs.Pairwise fun l l' => nameLe l.name l'.name = true := by
    rw [hrecs]
    exact List.pairwise_mergeSort (fun a b c => nameLe_trans a.name b.name c.name)
      (fun a b => nameLe_total a.name b.name) _
  have hcount (e : Nat × List UInt8) : (recs.countP fun l => decide (l.inodeNumber = e.1 ∧ l.name = s.shown p e)) = 1 ↔
      s.EntryListed p d e := by
    rw [hperm.countP_eq, countP_records, Ufs.EntryListed]
    by_cases hlist : (s.vdisk p.vdisk).Listable e
    · have hsame : ((s.vdisk p.vdisk).rawEntries d).countP (fun e' =>
          decide ((s.vdisk p.vdisk).Listable e' ∧ e'.1 = e.1 ∧ s.shown p e' = s.shown p e)) =
          ((s.vdisk p.vdisk).rawEntries d).count e := by
        refine List.countP_congr fun e' _ => ?_
        rw [decide_eq_true_eq, beq_iff_eq]
        constructor
        · rintro ⟨hlist', hnum, hshown⟩
          exact shown_inj (fun h => hlist.1 (.inr (.inl h))) (fun h => hlist'.1 (.inr (.inl h))) hnum hshown
        · rintro rfl
          exact ⟨hlist, rfl, rfl⟩
      simp only [hlist, if_true, hsame]
    · simp only [hlist, if_false]
  exact ⟨fun h name ino hentry => (hcount _).mp (h.found name ino hentry),
    fun h => ⟨fun name ino hentry => (hcount _).mpr (h name ino hentry), hsorted⟩⟩

end Records

/-! The calls. -/

section Calls

variable {s s' : Ufs} {p : Minptr} {d : Dinode} (patmat : List UInt8 → List UInt8 → Bool)

theorem Ufs.Later.mountedName (h : s.Later s') : s'.mountedName = s.mountedName := by
  have hddname : s'.ddname = s.ddname := by rw [h.same]
  have hpoint : s'.mountpoint = s.mountpoint := by rw [h.same]
  funext self name m
  simp only [Ufs.mountedName, Ufs.inodeMountedVdisk, minode_mountedVdisk, h.sameMounts.mountedOn, hddname, hpoint]

theorem mountedName_ofInode (s : Ufs) (self : Minptr) : OfInode (s.mountedName self) := by
  intro name m m' hnum hmounted hdinode
  simp only [Ufs.mountedName, hnum, hmounted, hdinode]

theorem VDisk.Later.rawEntries {v w : VDisk} (h : v.Later w) : w.rawEntries = v.rawEntries := by
  funext d
  have hcalm : w.calm d = v.calm d := by
    rw [h.same]
    rfl
  rw [VDisk.rawEntries, VDisk.rawEntries, VDisk.visited, VDisk.visited, hcalm, h.blocks]

theorem Ufs.Later.records (h : s.Later s') : s'.records p d = s.records p d := by
  rw [Ufs.records, Ufs.records, h.mountedName, (h.vdisk p.vdisk).rawEntries, (h.vdisk p.vdisk).record]

theorem listDir_run (h : s.Settled) (hcalm : s.Calm) (hfirm : s.Firm p) (hread : s.authRead p = true)
    (fullpath : List UInt8) : ∃ ddesc s', (listDir patmat p fullpath []).run s = (some ddesc, s') ∧ ddesc.recno = 0 ∧
      ddesc.dlist = (s.records p (s.dinode p)).mergeSort fun a b => nameLe a.name b.name := by
  have halloc : (onDisk p.vdisk (VDisk.onStore Store.alloc)).run s = (true, s.setVdisk p.vdisk (s.vdisk p.vdisk)) := by
    rw [onDisk_alloc, hcalm p.vdisk]
    congr 1
    rw [List.tail_nil, VDisk.withFaults, ← hcalm p.vdisk]
  obtain ⟨rc, w, -, hlist⟩ := foreach_list (mountedName_ofInode s p) (hcalm p.vdisk) (h.vdisk p.vdisk) hfirm
    (show (s.vdisk p.vdisk).din p.ino = s.dinode p from rfl)
  have hvdisk : (s.setVdisk p.vdisk (s.vdisk p.vdisk)).vdisk p.vdisk = s.vdisk p.vdisk := setVdisk_same ..
  refine ⟨⟨p, 0, (s.records p (s.dinode p)).mergeSort fun a b => nameLe a.name b.name, fullpath⟩,
    (s.setVdisk p.vdisk (s.vdisk p.vdisk)).setVdisk p.vdisk w, ?_, rfl, rfl⟩
  simp only [listDir, Prog.run_bind, hread, Bool.not_true, Bool.false_eq_true, if_false, halloc, if_true, decide_true,
    Bool.true_or]
  simp only [onDisk, hvdisk, hlist]
  rfl

theorem listDir_refused (hread : s.authRead p = false) (fullpath : List UInt8) :
    ((listDir patmat p fullpath []).run s).1 = none := by
  simp only [listDir, Prog.run_bind, hread, Bool.not_false, if_true]
  rfl

/-- The directory that is listed, which is in the cache. -/
theorem diropenMount_later (h : s.Settled) (hcached : s.Cached p) : ∃ x s', (diropenMount p).run s = (x, s') ∧ s.Later s' ∧
    ((∃ q, x = some q ∧ s.follow p = some q ∧ s'.Cached q) ∨ x = none ∧ (s.Calm → s.follow p = none)) := by
  have hseen := seen_cached hcached
  simp only [diropenMount, Prog.run_bind, Prog.get]
  cases hmounted : (s.minode p).mountedVdisk with
  | none =>
    refine ⟨some p, s, rfl, .refl h, .inl ⟨p, rfl, ?_, hcached⟩⟩
    simp only [Ufs.follow, hseen, hmounted]
  | some vdisk =>
    have hrel : s.Later (p.rel.run s).2 := rel_later h
    obtain ⟨x, s₂, hget, hlater, hx⟩ := getMinode_later (hrel.settled h) vdisk rootInode
    rw [hrel.seen] at hx
    simp only [Prog.run_bind, hget]
    have hlater := hrel.trans hlater
    rcases hx with ⟨rfl, hsome, hcached₂⟩ | ⟨rfl, hnone⟩
    · refine ⟨_, _, rfl, hlater.trans (use_later (hlater.settled h)), .inl ⟨_, rfl, ?_, use_cached hcached₂⟩⟩
      simp only [Ufs.follow, hseen, hmounted, hsome, if_true]
    · refine ⟨none, s₂, rfl, hlater, .inr ⟨rfl, fun hcalm => ?_⟩⟩
      simp only [Ufs.follow, hseen, hmounted, hnone (hrel.calm hcalm)]
      rfl

theorem follow_reached {q : Minptr} (hp : s.Reached p) (h : s.follow p = some q) : s.Reached q := by
  rw [Ufs.follow] at h
  cases hseen : s.seen p with
  | none =>
    rw [hseen] at h
    cases h
  | some x =>
    obtain ⟨d, _ | vdisk⟩ := x
    · rw [hseen] at h
      exact Option.some.inj h ▸ hp
    · rw [hseen] at h
      simp only at h
      split at h
      · exact Option.some.inj h ▸ .mount hp hseen
      · cases h

end Calls

/-- `ufs_diropen` of a directory that the user may read lists it all, and of a path to no directory it returns `NULL`. -/
structure ListsRight (patmat : List UInt8 → List UInt8 → Bool) (path : List UInt8) (s : Ufs) : Prop where
  listed : ∀ p d mounted, s.directory (diropenPath s.cwd path) = some p → s.seen p = some (d, mounted) →
    d.isdir = true → inodeAuth s.acee d ufsaccRead = true → ∃ ddesc recs,
      ((diropen lookupMinode patmat path []).run s).1 = some ddesc ∧ Reads ddesc recs ∧ s.ListsAll p d recs
  refused : (∀ p d mounted, s.directory (diropenPath s.cwd path) = some p → s.seen p = some (d, mounted) →
    d.isdir = false) → ((diropen lookupMinode patmat path []).run s).1 = none

/-- Each entry of the directory that can be found is listed; what is no directory may not be read. -/
def ListFree (path : List UInt8) (s : Ufs) : Prop :=
  ∀ p d mounted, s.directory (diropenPath s.cwd path) = some p → s.seen p = some (d, mounted) →
    inodeAuth s.acee d ufsaccRead = true → d.isdir = true ∧
      ∀ name ino, (s.vdisk p.vdisk).entry d name = .ok ino → s.EntryListed p d (ino, lookupName name)

section Diropen

variable {s s' : Ufs} {p : Minptr} {d : Dinode} (patmat : List UInt8 → List UInt8 → Bool)

theorem listDir_readable (hcalm : s.Calm) (hread : s.authRead p = true) (fullpath : List UInt8) :
    ((listDir patmat p fullpath []).run s).1 ≠ none := by
  have halloc : (onDisk p.vdisk (VDisk.onStore Store.alloc)).run s = (true, s.setVdisk p.vdisk (s.vdisk p.vdisk)) := by
    rw [onDisk_alloc, hcalm p.vdisk]
    congr 1
    rw [List.tail_nil, VDisk.withFaults, ← hcalm p.vdisk]
  simp only [listDir, Prog.run_bind, hread, Bool.not_true, Bool.false_eq_true, if_false, halloc, if_true]
  exact Option.some_ne_none _

/-- A call comes to the directory, and then to the listing of it. -/
theorem diropen_run (h : s.Settled) (hcalm : s.Calm) (path : List UInt8) :
    match s.directory (diropenPath s.cwd path) with
    | none => ((diropen lookupMinode patmat path []).run s).1 = none
    | some p => s.Reached p ∧ ∃ s' fullpath, s.Later s' ∧ s'.Cached p ∧
        ((diropen lookupMinode patmat path []).run s).1 = ((listDir patmat p fullpath []).run s').1 := by
  obtain ⟨rc, out, s₁, hwalk, hlater, hend⟩ := lookupMinode_later h (diropenPath s.cwd path) true
  rw [Ufs.directory]
  simp only [diropenPath] at hwalk hend ⊢
  simp only [diropen, Prog.run_bind, Prog.get, hwalk]
  rcases hend with ⟨q, rfl, htarget, hreached, hcached, hlast, -⟩ | ⟨hrc, hnone⟩
  swap
  · simp only [hrc, if_false, hnone hcalm, Option.bind_none]
    rfl
  simp only [if_true] at hlast
  obtain ⟨x, s₂, hmount, hlater₂, hx⟩ := diropenMount_later (hlater.settled h) hcached
  rw [hlater.follow] at hx
  simp only [if_true, hlast, htarget, Option.bind_some, Prog.run_bind, hmount]
  rcases hx with ⟨p, rfl, hfollow, hcached₂⟩ | ⟨rfl, hnone⟩
  · rw [hfollow]
    exact ⟨follow_reached hreached hfollow, s₂, out.fullpath, hlater.trans hlater₂, hcached₂, rfl⟩
  · rw [hnone (hlater.calm hcalm)]
    rfl

/-- A listing is right exactly if the lister takes what the lookups find, and is given no file to read. -/
theorem listsRight_iff (h : s.Settled) (hcalm : s.Calm) (path : List UInt8) :
    ListsRight patmat path s ↔ ListFree path s := by
  have hrun := diropen_run patmat h hcalm path
  cases hp : s.directory (diropenPath s.cwd path) with
  | none =>
    rw [hp] at hrun
    refine iff_of_true ⟨fun p d mounted hdir => ?_, fun _ => hrun⟩ fun p d mounted hdir => ?_ <;>
    exact absurd (hp.symm.trans hdir) (Option.some_ne_none p).symm
  | some p =>
    rw [hp] at hrun
    obtain ⟨hreached, s', fullpath, hlater, hcached, hrun⟩ := hrun
    have hseen := seen_cached hcached
    rw [hlater.seen] at hseen
    have hauth : s'.authRead p = inodeAuth s.acee (s'.dinode p) ufsaccRead := by
      have hacee : s'.acee = s.acee := by rw [hlater.same]
      rw [Ufs.authRead, hacee]
    have hcalm' := hlater.calm hcalm
    have huniq {p' : Minptr} {d : Dinode} {mounted : Option Nat} (hdir : s.directory (diropenPath s.cwd path) = some p')
        (hd : s.seen p' = some (d, mounted)) : p' = p ∧ d = s'.dinode p := by
      obtain rfl := Option.some.inj (hdir.symm.trans hp)
      exact ⟨rfl, (Prod.ext_iff.mp (Option.some.inj (hd.symm.trans hseen))).1⟩
    by_cases hread : s'.authRead p = true
    swap
    · have hnone := listDir_refused patmat (Bool.not_eq_true _ ▸ hread) fullpath
      rw [hauth] at hread
      refine iff_of_true ⟨fun p' d mounted hdir hd _ hauth' => ?_, fun _ => hrun.trans hnone⟩
        fun p' d mounted hdir hd hauth' => ?_ <;>
      · obtain ⟨rfl, rfl⟩ := huniq hdir hd
        exact absurd hauth' hread
    have hlisted (hfirm : s'.Firm p) := listDir_run patmat (hlater.settled h) hcalm' hfirm hread fullpath
    rw [hauth] at hread
    by_cases hisdir : (s'.dinode p).isdir = true
    swap
    · have hsome := listDir_readable patmat hcalm' (hauth ▸ hread) fullpath
      refine iff_of_false (fun hright => hsome (hrun.symm.trans (hright.refused fun p' d mounted hdir hd => ?_)))
        fun hfree => hisdir (hfree p _ _ hp hseen hread).1
      obtain ⟨rfl, rfl⟩ := huniq hdir hd
      exact Bool.not_eq_true _ ▸ hisdir
    obtain ⟨ddesc, s'', hlist, hrecno, hdlist⟩ :=
      hlisted (firm_of_reached (hlater.settled h) (hlater.reached.mpr hreached) hcached hisdir)
    rw [hlist] at hrun
    rw [hlater.records] at hdlist
    have hrecs {recs : List Dlist} (hreads : Reads ddesc recs) :
        recs = (s.records p (s'.dinode p)).mergeSort fun a b => nameLe a.name b.name := by
      rw [reads_iff.mp hreads, hrecno, List.drop_zero, hdlist]
    constructor
    · intro hright p' d mounted hdir hd _
      obtain ⟨rfl, rfl⟩ := huniq hdir hd
      obtain ⟨ddesc', recs, hsome, hreads, hall⟩ := hright.listed p' _ _ hdir hd hisdir hread
      obtain rfl := Option.some.inj (hrun.symm.trans hsome)
      exact ⟨hisdir, (listsAll_iff (hrecs hreads)).mp hall⟩
    · intro hfree
      refine ⟨fun p' d mounted hdir hd _ _ => ?_, fun hnot => ?_⟩
      · obtain ⟨rfl, rfl⟩ := huniq hdir hd
        refine ⟨ddesc, ddesc.dlist, hrun, reads_iff.mpr ?_, (listsAll_iff hdlist).mpr (hfree p' _ _ hdir hd hread).2⟩
        rw [hrecno, List.drop_zero]
      · exact absurd (hnot p _ _ hp hseen) (by rw [hisdir]; exact Bool.noConfusion)

end Diropen

/-- The root of a new system. -/
theorem listsRight_root : ListsRight (fun _ _ => false) [slash] rootUfs := by
  have hdir : rootUfs.directory (diropenPath rootUfs.cwd [slash]) = some ⟨0, 2⟩ := by decide +kernel
  refine (listsRight_iff _ rootUfs_settled (fun _ => rfl) [slash]).mpr fun p d mounted hp hseen _ => ?_
  obtain rfl := Option.some.inj (hdir.symm.trans hp)
  obtain ⟨hd, _⟩ := Prod.ext_iff.mp (Option.some.inj hseen)
  change { Dinode.zero with mode := 0x41ED, nlink := 2 } = d at hd
  subst hd
  refine ⟨by decide, fun name ino hentry => ?_⟩
  rw [entry_empty (by decide) rfl] at hentry
  cases hentry

/-- A system with one disk and an open file in its root directory, whose name is `A B`. -/
def blankRoot : Ufs := { bareRoot with
  vdisk := fun _ => { pairDisk with
    io := ⟨fun _ => [(2, [dot]), (2, [dot, dot]), (3, [0xC1, Fstab.blank, 0xC2])].zipIdx.foldl
      (fun buf e => Entry.setName (Entry.setInodeNumber buf e.2 e.1.1) e.2 e.1.2) zeroBlock, []⟩
    minodes := [
      ⟨2, false, 1, some 0, { Dinode.zero with mode := 0x41ED, nlink := 2, filesize := 192, addr := fun _ => 11 }⟩,
      ⟨3, false, 1, none, { Dinode.zero with mode := 0x81A4, nlink := 1 }⟩] } }

/-- The records of a handle are those that the listing comes to. -/
theorem listDir_perm {s : Ufs} {p : Minptr} {patmat : List UInt8 → List UInt8 → Bool} {fullpath : List UInt8}
    {ddesc : Ddesc} (h : ((listDir patmat p fullpath []).run s).1 = some ddesc) : ddesc.recno = 0 ∧ ddesc.dlist.Perm
      ((onDisk p.vdisk (datablockForeach (directoryListSubr (fun _ => true) (s.mountedName p)) p.ino [])).run
        ((onDisk p.vdisk (VDisk.onStore Store.alloc)).run s).2).1.2 := by
  simp only [listDir, Prog.run_bind] at h
  by_cases hread : s.authRead p = true
  swap
  · simp only [hread, Bool.not_false, if_true] at h
    cases h
  simp only [hread, Bool.not_true, Bool.false_eq_true, if_false, Prog.run_bind, Prog.run_ite, decide_true, Bool.true_or] at h
  split at h
  · obtain rfl := Option.some.inj h
    exact ⟨rfl, List.mergeSort_perm _ _⟩
  · cases h

/-- A lookup of `A B` finds the file, and a listing of the root directory does not show it. -/
theorem not_listsRight : ¬ ListsRight (fun _ _ => false) [slash] blankRoot := by
  intro h
  have hdir : blankRoot.directory (diropenPath blankRoot.cwd [slash]) = some ⟨0, 2⟩ := by decide +kernel
  obtain ⟨ddesc, recs, hsome, hreads, hall⟩ := h.listed _ _ _ hdir rfl (by decide) (by decide)
  have hcount := hall.found [0xC1, Fstab.blank, 0xC2] 3 (by decide +kernel)
  simp only [diropen, Prog.run_bind, Prog.get] at hsome
  generalize hwalk : (lookupMinode _ true true).run blankRoot = r at hsome
  have hfound : (if r.1.1 = .ok then r.1.2.last.or r.1.2.dir else none) = some ⟨0, 2⟩ := by
    rw [← hwalk]
    decide +kernel
  rw [hfound] at hsome
  simp only [Prog.run_bind] at hsome
  generalize hmount : (diropenMount ⟨0, 2⟩).run r.2 = m at hsome
  have hroot : m.1 = some ⟨0, 2⟩ := by
    rw [← hmount, ← hwalk]
    decide +kernel
  rw [hroot] at hsome
  obtain ⟨hrecno, hperm⟩ := listDir_perm hsome
  rw [reads_iff.mp hreads, hrecno, List.drop_zero, hperm.countP_eq] at hcount
  refine absurd ((List.countP_eq_zero.mpr fun l hl hboth => ?_).symm.trans hcount) (by decide)
  have hnone : (((onDisk 0 (datablockForeach (directoryListSubr (fun _ => true) (m.2.mountedName ⟨0, 2⟩)) 2 [])).run
      ((onDisk 0 (VDisk.onStore Store.alloc)).run m.2).2).1.2.all fun l => l.inodeNumber ≠ 3) = true := by
    rw [← hmount, ← hwalk]
    decide +kernel
  exact of_decide_eq_true (List.all_eq_true.mp hnone l hl) (of_decide_eq_true hboth).1

end Ufs370
