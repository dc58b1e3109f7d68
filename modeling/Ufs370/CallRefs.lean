import Ufs370.Dirlist
import Ufs370.LookupRefs
import Ufs370.RefLaws

/-! The references that the calls take, against those that handles and tables store. -/

namespace Ufs370

open Lib

/-- The inodes of all disks are counted as `r` says, with one more reference for each of `held`; all
else is as in `s₀`, and so are the mounts on the inodes that `r` counts. -/
structure Holding (s₀ : Ufs) (r : Minptr → Nat) (held : List Minptr) (s : Ufs) : Prop where
  same : s = { s₀ with vdisk := s.vdisk }
  oneHandle : s.OneHandle
  uses : ∀ p, s.uses p = r p + held.count p
  mounted : ∀ p, 0 < r p → (s.minode p).mountedVdisk = (s₀.minode p).mountedVdisk

/-- The counts leave room for the references of one call. -/
def Room (r : Minptr → Nat) : Prop := ∀ p, r p + 12 < 65536

theorem mountedVdisk_eq (s : Ufs) (p : Minptr) :
    (s.minode p).mountedVdisk = (s.minode? p).bind Minode.mountedVdisk := by
  rw [Ufs.minode, VDisk.deref, Ufs.minode?]
  cases (s.vdisk p.vdisk).minode? p.ino <;> rfl

namespace Holding

variable {α : Type} {s₀ s s' : Ufs} {r : Minptr → Nat} {held held' : List Minptr} {p : Minptr} {i ino : Nat}

theorem perm (h : Holding s₀ r held s) (hp : held.Perm held') : Holding s₀ r held' s where
  same := h.same
  oneHandle := h.oneHandle
  uses p := by rw [h.uses, hp.count_eq]
  mounted := h.mounted

theorem count_le (held : List Minptr) (p : Minptr) (hlen : held.length ≤ 8) : held.count p ≤ 8 :=
  List.count_le_length.trans hlen

/-- A step that changes the handle of one inode. -/
theorem update {x : Option Minode} (h : Holding s₀ r held s) (hkept : Kept s s')
    (hminode : s'.minode? = Function.update s.minode? p x)
    (huses : x.elim 0 Minode.usecount = r p + held'.count p) (hheld : ∀ q, q ≠ p → held'.count q = held.count q)
    (hmounted : 0 < r p → x.bind Minode.mountedVdisk = (s.minode? p).bind Minode.mountedVdisk) :
    Holding s₀ r held' s' where
  same := by rw [hkept.same, h.same]
  oneHandle := hkept.oneHandle h.oneHandle
  uses q := by
    rw [uses_update hminode]
    by_cases hq : q = p
    · rw [hq, Function.update_self, huses]
    · rw [Function.update_of_ne hq, h.uses, hheld q hq]
  mounted q hpos := by
    rw [← h.mounted q hpos, mountedVdisk_eq, mountedVdisk_eq, hminode]
    by_cases hq : q = p
    · rw [hq, Function.update_self, hmounted (hq ▸ hpos)]
    · rw [Function.update_of_ne hq]

theorem count_cons (held : List Minptr) {p q : Minptr} (hq : q ≠ p) : (p :: held).count q = held.count q :=
  List.count_cons_of_ne (Ne.symm hq)

theorem u16_count (hroom : Room r) (hlen : held.length ≤ 8) (h : Holding s₀ r held s) (p : Minptr) :
    u16 (s.uses p + 1) = r p + (p :: held).count p := by
  have := hroom p
  have := count_le held p hlen
  rw [h.uses, u16, List.count_cons_self, Nat.mod_eq_of_lt (by omega), Nat.add_assoc]

theorem use (hroom : Room r) (hlen : held.length ≤ 8) (hpos : 0 < r p + held.count p) :
    Prog.Triple (Holding s₀ r held) p.use fun _ => Holding s₀ r (p :: held) where
  run s h := by
    obtain ⟨s', hrun, hkept, hminode⟩ := use_run s p
    rw [hrun]
    cases hp : s.minode? p with
    | none =>
      rw [← h.uses, uses_eq, hp] at hpos
      exact absurd hpos (Nat.lt_irrefl 0)
    | some m =>
      refine h.update hkept hminode ?_ (fun q => count_cons held) fun _ => by rw [hp]; rfl
      rw [← h.u16_count hroom hlen, uses_eq, hp]
      rfl

/-- A reference that is asked for comes or it does not. -/
theorem get (hroom : Room r) (hlen : held.length ≤ 8) :
    Prog.Triple (Holding s₀ r held) (getMinode i ino) fun x => Holding s₀ r (x.toList ++ held) where
  run s h := by
    obtain ⟨x, s', hrun, hkept, ⟨rfl, -, hminode⟩ | ⟨rfl, hminode⟩⟩ := getMinode_run s i ino
    · rw [hrun]
      exact h.update (p := ⟨i, ino⟩) hkept (hminode.trans (Function.update_eq_self ..).symm)
        (by rw [← uses_eq, h.uses]; rfl) (fun _ _ => rfl) fun _ => rfl
    · rw [hrun]
      refine h.update hkept hminode ?_ (fun q => count_cons held) fun _ => ?_
      · have hcount := h.u16_count hroom hlen ⟨i, ino⟩
        rw [← uses_loaded] at hcount
        exact hcount
      · rw [Ufs.loaded, VDisk.loaded, Ufs.minode?]
        cases (s.vdisk i).minode? ino <;> rfl

theorem rel : Prog.Triple (Holding s₀ r (p :: held)) p.rel fun _ => Holding s₀ r held where
  run s h := by
    obtain ⟨s', hrun, hkept, hminode⟩ := rel_run s p h.oneHandle
    have huses := h.uses p
    rw [List.count_cons_self] at huses
    rw [hrun]
    cases hp : s.minode? p with
    | none =>
      rw [uses_eq, hp, Option.elim_none] at huses
      omega
    | some m =>
      rw [uses_eq, hp, Option.elim_some] at huses
      refine h.update hkept hminode ?_ (fun q hq => (count_cons held hq).symm) fun hpos => ?_
      · rw [hp, Option.bind_some, released_usecount, huses]
        omega
      · have hstays : m.Stays := .inr (by omega)
        rw [hp, Option.bind_some, Minode.released, if_pos hstays]
        rfl

theorem relOpt {x : Option Minptr} :
    Prog.Triple (Holding s₀ r (x.toList ++ held)) (relOpt x) fun _ => Holding s₀ r held := by
  cases x with
  | none => exact .pure fun _ => id
  | some p => exact rel

/-- What keeps the references on one disk keeps those of all. -/
theorem onDisk {x : Prog VDisk α} (h : Holding s₀ r held s) (hx : Held (s.vdisk i) [] (x.run (s.vdisk i)).2) :
    Holding s₀ r held ((onDisk i x).run s).2 where
  same := by
    rw [h.same]
    rfl
  oneHandle j := by
    by_cases hj : j = i
    · subst hj
      simp only [Ufs370.onDisk, Prog.run_lift, Ufs.setVdisk, Function.update_self]
      exact hx.oneHandle
    · simp only [Ufs370.onDisk, Prog.run_lift, Ufs.setVdisk, Function.update_of_ne hj]
      exact h.oneHandle j
  uses p := by
    rw [← h.uses]
    by_cases hj : p.vdisk = i
    · subst hj
      simp only [Ufs.uses, Ufs370.onDisk, Prog.run_lift, Ufs.setVdisk, Function.update_self]
      exact hx.uses p.ino
    · simp only [Ufs.uses, Ufs370.onDisk, Prog.run_lift, Ufs.setVdisk, Function.update_of_ne hj]
  mounted p hpos := by
    have huses : 0 < s.uses p := by
      rw [h.uses]
      omega
    rw [← h.mounted p hpos, mountedVdisk_eq, mountedVdisk_eq]
    by_cases hj : p.vdisk = i
    · subst hj
      simp only [Ufs.minode?, Ufs370.onDisk, Prog.run_lift, Ufs.setVdisk, Function.update_self]
      exact hx.mounted p.ino huses
    · simp only [Ufs.minode?, Ufs370.onDisk, Prog.run_lift, Ufs.setVdisk, Function.update_of_ne hj]

theorem keeps {x : Prog VDisk α} (hx : KeepsHandles x) :
    Prog.Triple (Holding s₀ r held) (Ufs370.onDisk i x) fun _ => Holding s₀ r held :=
  ⟨fun _ h => h.onDisk ((Held.refl (h.oneHandle i)).keeps hx)⟩

theorem vdisk_room (hroom : Room r) (hlen : held.length ≤ 8) (h : Holding s₀ r held s) (i : Nat) :
    (s.vdisk i).Room := fun ino => by
  have huses := h.uses ⟨i, ino⟩
  have := hroom ⟨i, ino⟩
  have := count_le held ⟨i, ino⟩ hlen
  change s.uses ⟨i, ino⟩ + 4 < 65536
  omega

end Holding

/-- A walker that keeps the promise of the header: one counted reference for each pointer that it
returns.  It changes no mount on an inode that is in use and nothing outside the caches. -/
structure CountedWalker (walk : Walker) : Prop where
  same : ∀ path dir last s, ((walk path dir last).run s).2 = { s with vdisk := ((walk path dir last).run s).2.vdisk }
  oneHandle : ∀ path dir last s, s.OneHandle → ((walk path dir last).run s).2.OneHandle
  counted : ∀ path dir last s, s.OneHandle → (∀ p, s.uses p + 4 < 65536) →
    let r := (walk path dir last).run s
    Counted s.uses r.2.uses r.1.2.dir r.1.2.last
  mounted : ∀ path dir last s p, s.OneHandle → 0 < s.uses p →
    (((walk path dir last).run s).2.minode p).mountedVdisk = (s.minode p).mountedVdisk

section Calls

variable {walk : Walker} {s₀ s : Ufs} {r : Minptr → Nat} {held : List Minptr}

/-- The references of what a walk returned, and others. -/
abbrev HoldingFound (s₀ : Ufs) (r : Minptr → Nat) (out : Found) (held : List Minptr) : Ufs → Prop :=
  Holding s₀ r (out.dir.toList ++ (out.last.toList ++ held))

theorem CountedWalker.triple (hwalk : CountedWalker walk) (hroom : Room r) (hlen : held.length ≤ 8) (path : List UInt8) (dir last : Bool) :
    Prog.Triple (Holding s₀ r held) (walk path dir last) fun x => HoldingFound s₀ r x.2 held where
  run s h := by
    have huses (p : Minptr) : s.uses p + 4 < 65536 := by
      have := hroom p
      have := Holding.count_le held p hlen
      rw [h.uses]
      omega
    refine ⟨?_, hwalk.oneHandle _ _ _ _ h.oneHandle, fun p => ?_, fun p hpos => ?_⟩
    · rw [hwalk.same, h.same]
    · have hcount {x : Option Minptr} : x.toList.count p = if x = some p then 1 else 0 := by
        cases x with
        | none => rfl
        | some q => simp [List.count_singleton]
      rw [hwalk.counted path dir last s h.oneHandle huses p, h.uses, List.count_append, List.count_append,
        hcount, hcount]
      omega
    · rw [← h.mounted p hpos]
      refine hwalk.mounted path dir last s p h.oneHandle ?_
      rw [h.uses]
      omega

theorem Found.rel_holding (out : Found) :
    Prog.Triple (HoldingFound s₀ r out held) out.rel fun _ => Holding s₀ r held :=
  .bind Holding.relOpt fun _ => Holding.relOpt

/-- The exits that release what the walk returned. -/
theorem Found.rel_return {α : Type} (out : Found) (a : α) :
    Prog.Triple (HoldingFound s₀ r out held) (do out.rel; return a) fun _ => Holding s₀ r held :=
  .bind out.rel_holding fun _ => .pure fun _ => id

theorem enterMount_holding (hroom : Room r) (hlen : held.length ≤ 8) (minode : Minptr) :
    Prog.Triple (Holding s₀ r (minode :: held)) (enterMount minode) fun x => Holding s₀ r (x.toList ++ held) := by
  refine Prog.Triple.get fun s hs => ?_
  split
  · exact .pure fun w hw => hw ▸ hs
  · exact .pre (.bind Holding.rel fun _ => Holding.get hroom hlen) fun w hw => hw ▸ hs

/-- The pointer that a call picks, and those that it leaves to release. -/
theorem Found.pick_holding (out : Found) (h : HoldingFound s₀ r out held s) :
    HoldingFound s₀ r out.pick.2 (out.pick.1.toList ++ held) s := by
  refine h.perm ?_
  obtain ⟨dir, last, fullpath⟩ := out
  cases last with
  | none => exact (List.perm_append_comm_assoc ..)
  | some minode => exact .refl _

theorem toList_length (x : Option Minptr) : x.toList.length ≤ 1 := by
  cases x <;> simp

theorem Found.length_le (out : Found) (held : List Minptr) :
    (out.dir.toList ++ (out.last.toList ++ held)).length ≤ held.length + 2 := by
  have := toList_length out.dir
  have := toList_length out.last
  rw [List.length_append, List.length_append]
  omega

/-- One of the other references comes to the front. -/
theorem HoldingFound.front {out : Found} {p : Minptr} (h : HoldingFound s₀ r out (p :: held) s) :
    Holding s₀ r (p :: (out.dir.toList ++ (out.last.toList ++ held))) s :=
  h.perm ((List.perm_middle.append_left _).trans List.perm_middle)

theorem HoldingFound.back {out : Found} {p : Minptr}
    (h : Holding s₀ r (p :: (out.dir.toList ++ (out.last.toList ++ held))) s) : HoldingFound s₀ r out (p :: held) s :=
  h.perm ((List.perm_middle.append_left _).trans List.perm_middle).symm

/-- The exits that also release the minode. -/
theorem Found.rel_rel {α : Type} (out : Found) (p : Minptr) (a : α) :
    Prog.Triple (HoldingFound s₀ r out (p :: held)) (do p.rel; out.rel; return a) fun _ => Holding s₀ r held :=
  .bind (Holding.rel.pre fun _ h => h.front) fun _ => out.rel_return a

/-- The switch to a mounted disk, with what the walk left to release. -/
theorem enterMount_found (hroom : Room r) (hlen : held.length ≤ 6) (out : Found) (minode : Minptr) :
    Prog.Triple (HoldingFound s₀ r out (minode :: held)) (enterMount minode)
      fun x => HoldingFound s₀ r out (x.toList ++ held) := by
  have hlength := out.length_le held
  refine ((enterMount_holding hroom (by omega) minode).pre fun _ h => h.front).post fun x s h => ?_
  cases x with
  | none => exact h
  | some p => exact HoldingFound.back h

/-- At its end `ufs_chgdir` holds one reference, to the current directory. -/
def ChgdirHolding (s₀ : Ufs) (r : Minptr → Nat) (s : Ufs) : Prop :=
  ∃ cwd : Cwd, cwd.rootDir = s₀.cwd.rootDir ∧ Holding { s₀ with cwd } r cwd.curDir.toList s

theorem enterDir_holding (out : Found) (minode : Minptr) (fullpath : List UInt8) :
    Prog.Triple (HoldingFound s₀ r out (minode :: s₀.cwd.curDir.toList)) (do enterDir minode fullpath; out.rel; return Rc.ok)
      fun _ => ChgdirHolding s₀ r := by
  have hrel : Prog.Triple (HoldingFound s₀ r out (minode :: s₀.cwd.curDir.toList)) (enterDir minode fullpath)
      fun _ => HoldingFound { s₀ with cwd := { s₀.cwd with curDir := some minode, path := fullpath.take pathMax } } r
        out [minode] := by
    refine Prog.Triple.get fun s hs => ?_
    have hcwd : s.cwd = s₀.cwd := by rw [hs.same]
    rw [hcwd]
    have hperm : (out.dir.toList ++ (out.last.toList ++ minode :: s₀.cwd.curDir.toList)).Perm
        (s₀.cwd.curDir.toList ++ (out.dir.toList ++ (out.last.toList ++ [minode]))) :=
      List.perm_iff_count.mpr fun p => by
        simp only [List.count_append, List.count_cons, List.count_nil]
        ring
    refine (Prog.Triple.bind (Holding.relOpt.pre fun w hw => (hw ▸ hs).perm hperm) fun _ => ?_)
    refine .modify fun w hw => ⟨?_, hw.oneHandle, hw.uses, hw.mounted⟩
    rw [hw.same]
  refine .bind hrel fun _ => (out.rel_return Rc.ok).post fun _ s h => ⟨{ s₀.cwd with curDir := some minode, path := fullpath.take pathMax }, rfl, h⟩

theorem chgdir_holding (hwalk : CountedWalker walk) (hroom : Room r) (path : List UInt8) :
    Prog.Triple (Holding s₀ r s₀.cwd.curDir.toList) (chgdir walk path) fun _ => ChgdirHolding s₀ r := by
  have hcur : s₀.cwd.curDir.toList.length ≤ 6 := (toList_length _).trans (by decide)
  have hsame {s : Ufs} (h : Holding s₀ r s₀.cwd.curDir.toList s) : ChgdirHolding s₀ r s := ⟨s₀.cwd, rfl, h⟩
  refine .bind (hwalk.triple hroom (by omega) path true true) fun x => ?_
  obtain ⟨rc, out⟩ := x
  refine .ite (fun _ => (out.rel_return rc).post fun _ _ => hsame) fun _ => ?_
  refine .pre (P := fun s => HoldingFound s₀ r out.pick.2 (out.pick.1.toList ++ s₀.cwd.curDir.toList) s) ?_
    fun s h => out.pick_holding h
  generalize out.pick = x
  obtain ⟨_ | minode, out⟩ := x
  · exact (out.rel_return _).post fun _ _ => hsame
  · refine Prog.Triple.get fun s hs => ?_
    refine .ite (fun _ => ?_) fun _ => ?_
    · exact ((out.rel_rel minode _).pre fun w hw => hw ▸ hs).post fun _ _ => hsame
    · refine .bind ((enterMount_found hroom hcur out minode).pre fun w hw => hw ▸ hs) fun x => ?_
      cases x with
      | none => exact (out.rel_return _).post fun _ _ => hsame
      | some minode => exact enterDir_holding out minode out.fullpath

/-- A file or directory that is made without one of the exits that spoil the counts. -/
theorem fileAllocate_holding (hroom : Room r) (hlen : held.length ≤ 8) (h : Holding s₀ r held s) {i parentDir : Nat}
    {srcname : List UInt8} {attr : Attr} {now : Timev} (hspared : AllocSpared (s.vdisk i) parentDir srcname attr now) :
    Holding s₀ r held ((onDisk i (fileAllocate parentDir srcname attr now)).run s).2 :=
  h.onDisk (Held.fileAllocate (h.vdisk_room hroom hlen i) (h.oneHandle i) _ _ _ _ hspared)

theorem fileDeallocate_holding (hroom : Room r) (hlen : held.length ≤ 8) (i parentDir : Nat) (name : List UInt8) :
    Prog.Triple (Holding s₀ r held) (onDisk i (fileDeallocate parentDir name)) fun _ => Holding s₀ r held :=
  ⟨fun _ h => h.onDisk (Held.fileDeallocate (h.vdisk_room hroom hlen i) (h.oneHandle i) _ _)⟩

end Calls

/-- The part of `ufs_mkdir` that has the parent meets none of the exits that spoil the counts. -/
def MkdirInSpared (s : Ufs) (fullpath : List UInt8) (now : Timev) (minode : Minptr) : Prop :=
  s.readonly minode = false → s.authWrite minode = true →
    AllocSpared (s.vdisk minode.vdisk) minode.ino fullpath
      (newAttr s (UInt16.ofNat ifdir) [0xC1, 0xC4, 0xD4, 0xC9, 0xD5] now) now

def MkdirSpared (walk : Walker) (path : List UInt8) (now : Timev) (s : Ufs) : Prop :=
  let r := (walk path true true).run s
  r.1.1 = .enoent → r.1.2.fullpath = mkdirPath s.cwd path → ∀ minode, r.1.2.pick.1 = some minode →
    let r' := (enterMount minode).run r.2
    ∀ p, r'.1 = some p → MkdirInSpared r'.2 r.1.2.pick.2.fullpath now p

section Calls

variable {walk : Walker} {s₀ s : Ufs} {r : Minptr → Nat} {held : List Minptr}

theorem mkdirIn_holding (hroom : Room r) (hlen : held.length ≤ 7) {fullpath : List UInt8} {now : Timev}
    {minode : Minptr} (h : Holding s₀ r (minode :: held) s) (hspared : MkdirInSpared s fullpath now minode) :
    Holding s₀ r (((mkdirIn fullpath now minode).run s).1.2.toList ++ held) ((mkdirIn fullpath now minode).run s).2 := by
  simp only [mkdirIn, Prog.run_bind]
  by_cases hreadonly : s.readonly minode = true
  · simp only [hreadonly, if_true]
    exact h
  by_cases hwrite : s.authWrite minode = true
  · have hlen' : (minode :: held).length ≤ 8 := Nat.succ_le_succ hlen
    have h₁ := fileAllocate_holding hroom hlen' h (hspared (by simpa using hreadonly) hwrite)
    simp only [hreadonly, if_false, hwrite, Bool.not_true, Bool.false_eq_true, Prog.run_bind]
    generalize (onDisk minode.vdisk _).run s = x at h₁ ⊢
    obtain ⟨⟨rc, ino⟩, s₁⟩ := x
    by_cases hrc : rc = .ok
    · simp only [hrc, ne_eq, not_true_eq_false, if_false]
      refine Prog.Triple.run (Q := fun x : Rc × Option Minptr => Holding s₀ r (x.2.toList ++ held)) ?_ _ h₁
      refine .bind Holding.rel fun _ => .bind (Holding.get hroom (by omega)) fun x => ?_
      cases x <;> exact .pure fun _ => id
    · simp only [ne_eq, hrc, not_false_eq_true, if_true]
      exact h₁
  · simp only [hreadonly, hwrite, Bool.not_false, if_true]
    exact h

theorem mkdir_holding (hwalk : CountedWalker walk) (hroom : Room r) {path : List UInt8} {now : Timev}
    (h : Holding s₀ r [] s) (hspared : MkdirSpared walk path now s) :
    Holding s₀ r [] ((mkdir walk path now).run s).2 := by
  have h₁ := (hwalk.triple hroom (by simp) path true true).run s h
  rw [MkdirSpared] at hspared
  simp only [mkdir, Prog.run_bind]
  generalize (walk path true true).run s = x at hspared h₁ ⊢
  obtain ⟨⟨rc, out⟩, s₁⟩ := x
  by_cases hrc : rc = .enoent
  swap
  · simp only [ne_eq, hrc, not_false_eq_true, if_true]
    exact (out.rel_return _).run _ h₁
  by_cases hpath : out.fullpath = mkdirPath s.cwd path
  swap
  · simp only [hrc, hpath, ne_eq, not_true_eq_false, if_false, not_false_eq_true, if_true]
    exact (out.rel_return _).run _ h₁
  have hspared := hspared hrc hpath
  have h₂ := out.pick_holding h₁
  simp only [hrc, hpath, ne_eq, not_true_eq_false, if_false]
  generalize out.pick = y at hspared h₂ ⊢
  obtain ⟨_ | minode, out⟩ := y
  · exact (out.rel_return _).run _ h₂
  have hspared := hspared minode rfl
  have h₃ := (enterMount_found hroom (by simp) out minode).run _ h₂
  simp only [Prog.run_bind]
  generalize (enterMount minode).run s₁ = z at hspared h₃ ⊢
  obtain ⟨_ | p, s₂⟩ := z
  · exact (out.rel_return _).run _ h₃
  have h₄ := mkdirIn_holding hroom ((out.length_le []).trans (by simp)) (HoldingFound.front h₃) (hspared p rfl)
  simp only [Prog.run_bind]
  generalize (mkdirIn out.fullpath now p).run s₂ = w at h₄ ⊢
  obtain ⟨⟨rc, minode⟩, s₃⟩ := w
  exact (Prog.Triple.bind Holding.relOpt fun _ => out.rel_return rc).run _ h₄

/-- The removal of a directory, whatever comes of it. -/
theorem rmdir_holding (hwalk : CountedWalker walk) (hroom : Room r) (path : List UInt8) :
    Prog.Triple (Holding s₀ r []) (rmdir walk path) fun _ => Holding s₀ r [] := by
  refine .bind (hwalk.triple hroom (by simp) path true true) fun x => ?_
  obtain ⟨rc, out⟩ := x
  refine .ite (fun _ => out.rel_return _) fun _ => ?_
  obtain ⟨_ | dir, _ | last, fullpath⟩ := out
  · exact Found.rel_return _ _
  · exact Found.rel_return _ _
  · exact Found.rel_return _ _
  refine Prog.Triple.get fun s hs => .pre ?_ fun w hw => hw ▸ hs
  have hend (rc : Rc) : Prog.Triple (HoldingFound s₀ r ⟨some dir, some last, fullpath⟩ [])
      (do Found.rel ⟨some dir, some last, fullpath⟩; return rc) fun _ => Holding s₀ r [] := Found.rel_return _ rc
  refine .ite (fun _ => .bind (.pure fun _ => id) hend) fun _ => ?_
  refine .ite (fun _ => .bind (.pure fun _ => id) hend) fun _ => ?_
  refine .ite (fun _ => .bind (.pure fun _ => id) hend) fun _ => ?_
  refine .ite (fun _ => .bind (.pure fun _ => id) hend) fun _ => ?_
  exact .bind (fileDeallocate_holding hroom (by simp) ..) hend

theorem remove_holding (hwalk : CountedWalker walk) (hroom : Room r) (path : List UInt8) :
    Prog.Triple (Holding s₀ r []) (remove walk path) fun _ => Holding s₀ r [] := by
  refine .bind (hwalk.triple hroom (by simp) path true true) fun x => ?_
  obtain ⟨rc, out⟩ := x
  refine .ite (fun _ => out.rel_return _) fun _ => ?_
  obtain ⟨_ | dir, _ | last, fullpath⟩ := out
  · exact Found.rel_return _ _
  · exact Found.rel_return _ _
  · exact Found.rel_return _ _
  refine Prog.Triple.get fun s hs => .pre ?_ fun w hw => hw ▸ hs
  refine .ite (fun _ => Found.rel_return _ _) fun _ => .ite (fun _ => Found.rel_return _ _) fun _ => ?_
  refine .ite (fun _ => Found.rel_return _ _) fun _ => ?_
  refine .bind (Q := fun _ => Holding s₀ r [dir]) ?_ fun _ => ?_
  · exact Holding.rel.pre fun w hw => hw.perm (List.Perm.swap ..)
  · refine .bind (fileDeallocate_holding hroom (by simp) ..) fun rc => ?_
    exact .bind Holding.rel fun _ => .pure fun _ => id

end Calls

section File

/-- The handle in what `x` returns is one for `p`. -/
abbrev For {σ α : Type} (p : Minptr) (file : α → File) (x : Prog σ α) : Prop :=
  Prog.Triple (fun _ => True) x fun a _ => (file a).minode = p

variable {p : Minptr} {fp : File} (hfp : fp.minode = p)
include hfp

theorem fileSync_for : For p id (fileSync fp) := by
  have hblock : For p id (fileSyncBlock fp) := by
    have hend (blkno : Nat) : For p id (do
        if blkno = 0 then
          return { fp with blkno }
        let _ ← vdiskWrite fp.blkbuf blkno
        return { fp with blkno, dirty := false }) := .ite (fun _ => ⟨fun _ _ => hfp⟩) fun _ => ⟨fun _ _ => hfp⟩
    exact .ite (fun _ => .bind ⟨fun _ _ => trivial⟩ hend) fun _ => .bind ⟨fun _ _ => trivial⟩ hend
  have hend (fp : File) : Prog.Triple (fun _ => fp.minode = p) (do
      if ((← Prog.get).deref fp.minode.ino).dirty then
        let _ ← inodeWriteback fp.minode.ino
        modifyMinode fp.minode.ino fun m => { m with dirty := false }
        return fp
      else
        return fp) fun fp _ => fp.minode = p :=
    .get fun v h => .ite (fun _ => ⟨fun _ _ => h⟩) fun _ => ⟨fun _ _ => h⟩
  exact .ite (fun _ => .bind hblock hend) fun _ => .bind (.pure fun _ _ => hfp) hend

theorem seekResize_for (newpos : Nat) : For p Prod.snd (seekResize fp newpos) := by
  have hend (rc : Rc) : For p Prod.snd (do
      if rc ≠ .ok then
        return (rc, fp)
      let fp' ← fileSync fp
      if newpos < ((← Prog.get).din fp.minode.ino).filesize.toNat ∧ !fp'.mode.read then
        return (← datablockSizeChange newpos fp.minode.ino, fp')
      else
        return (.ok, fp')) := by
    refine .ite (fun _ => ⟨fun _ _ => hfp⟩) fun _ => .bind (fileSync_for hfp) fun fp' => ?_
    exact .get fun v h => .ite (fun _ => ⟨fun _ _ => h⟩) fun _ => ⟨fun _ _ => h⟩
  refine .get fun v _ => .ite (fun _ => .bind ⟨fun _ _ => trivial⟩ hend) fun _ => .bind ⟨fun _ _ => trivial⟩ hend

omit hfp in
theorem fileLoad_for (hfp : fp.minode = p) (newblk : Nat) : For p Prod.snd (fileLoad fp newblk) := by
  refine .bind (Q := fun _ _ => True) ⟨fun _ _ => trivial⟩ fun r => ?_
  cases r <;> exact .pure fun _ _ => hfp

theorem seekMove_for (newpos : Nat) : For p Prod.snd (seekMove fp newpos) := by
  have hend (x : Rc × File) : Prog.Triple (σ := VDisk) (fun _ => x.2.minode = p) (do
      if x.1 ≠ .ok then
        return (x.1, x.2)
      let filesize := ((← Prog.get).din fp.minode.ino).filesize.toNat
      return (Rc.ok, { x.2 with eof := decide (filesize ≤ x.2.filepos), err := false, error := .ok }))
      fun x _ => x.2.minode = p :=
    .ite (fun _ => ⟨fun _ h => h⟩) fun _ => .get fun v h => ⟨fun _ _ => h⟩
  refine .get fun v _ => .bind (Q := fun _ _ => True) ⟨fun _ _ => trivial⟩ fun newblk => ?_
  refine .ite (fun _ => .bind (.pure fun _ _ => hfp) hend) fun _ => .ite (fun _ => ?_) fun _ => ?_
  · have hmoved : ({ fp with filepos := newpos, blkpos := newpos % v.blksize } : File).minode = p := hfp
    exact .bind (fileLoad_for hmoved newblk) hend
  · exact .bind (.pure fun _ _ => hfp) hend

theorem fseek_for (offset : Int) (whence : Whence) : For p Prod.snd (fseek fp offset whence) := by
  refine .get fun v _ => ?_
  split
  · exact ⟨fun _ _ => hfp⟩
  · rename_i newpos _
    have hmove (fp : File) : Prog.Triple (fun _ => fp.minode = p) (do
        let x ← seekMove fp newpos
        return (x.1, if x.1 ≠ .ok then x.2.fail x.1 else x.2)) fun x _ => x.2.minode = p := by
      refine .at_state fun s h => .bind ((seekMove_for h newpos).pre fun _ _ => trivial) fun x => ⟨fun _ h => ?_⟩
      simp only [Prog.run_pure]
      split <;> exact h
    have hend (x : Rc × File) : Prog.Triple (fun _ => x.2.minode = p) (do
        if x.1 ≠ .ok then
          return (x.1, x.2.fail x.1)
        let y ← seekMove x.2 newpos
        return (y.1, if y.1 ≠ .ok then y.2.fail y.1 else y.2)) fun x _ => x.2.minode = p :=
      .ite (fun _ => ⟨fun _ h => h⟩) fun _ => hmove x.2
    exact .ite (fun _ => .bind ((seekResize_for hfp newpos).pre fun _ _ => trivial) hend)
      fun _ => .bind (.pure fun _ _ => hfp) hend

theorem openHandle_for (fm : Mode) (now : Timev) : For p id (openHandle fp fm now) := by
  have hend : For p id (do
      let x ← fseek { fp with mode := fm } 0 (if fm.append then .fin else .set)
      let _ ← inodeWriteback fp.minode.ino
      modifyMinode fp.minode.ino fun m => { m with dirty := false }
      return x.2) :=
    have hmode : ({ fp with mode := fm } : File).minode = p := hfp
    .bind (fseek_for hmode ..) fun x => ⟨fun _ h => h⟩
  refine .bind (Q := fun _ _ => True) ⟨fun _ _ => trivial⟩ fun _ => ?_
  exact .ite (fun _ => .bind ⟨fun _ _ => trivial⟩ fun _ => hend) fun _ => .bind ⟨fun _ _ => trivial⟩ fun _ => hend

end File

theorem Holding.keeps_for {s₀ : Ufs} {r : Minptr → Nat} {held : List Minptr} {i : Nat} {p : Minptr}
    {x : Prog VDisk File} (hx : KeepsHandles x) (hfor : For p id x) :
    Prog.Triple (Holding s₀ r held) (Ufs370.onDisk i x) fun fp s => fp.minode = p ∧ Holding s₀ r held s :=
  ⟨fun s h => ⟨hfor.run _ trivial, (Holding.keeps hx).run s h⟩⟩

/-- A new handle that has its own storage has its block buffer too. -/
def NewSpared (s : Ufs) (minode : Minptr) : Prop :=
  let faults := (s.vdisk minode.vdisk).io.faults
  faults.headD .none = .none → faults.tail.headD .none = .none

def OpenSpared (walk : Walker) (path : List UInt8) (fm : Mode) (s : Ufs) : Prop :=
  let r := (walk path true true).run s
  fm.read ∨ fm.write → r.1.1 = .ok → ∀ last, r.1.2.last = some last → openCheck r.2 fm last = .ok → NewSpared r.2 last

section Calls

variable {walk : Walker} {s₀ s : Ufs} {r : Minptr → Nat} {held : List Minptr}

@[simp] theorem setVdisk_same (s : Ufs) (i : Nat) (v : VDisk) : (s.setVdisk i v).vdisk i = v :=
  Function.update_self ..

theorem onDisk_alloc (s : Ufs) (i : Nat) : (onDisk i (VDisk.onStore Store.alloc)).run s =
    (decide ((s.vdisk i).io.faults.headD .none = .none),
      s.setVdisk i ((s.vdisk i).withFaults (s.vdisk i).io.faults.tail)) := by
  simp only [onDisk, VDisk.onStore, Prog.run_lift, Store.alloc_run]
  rfl

theorem fileNew_holding {minode : Minptr} (h : Holding s₀ r held s) (hspared : NewSpared s minode) :
    Holding s₀ r held ((fileNew minode).run s).2 ∧
      ∀ fp, ((fileNew minode).run s).1 = some fp → fp.minode = minode := by
  have hkeeps (s : Ufs) (h : Holding s₀ r held s) :=
    (Holding.keeps (i := minode.vdisk) (KeepsHandles.onStore Store.alloc)).run s h
  have h₁ := hkeeps s h
  have h₂ := hkeeps _ h₁
  rw [onDisk_alloc s] at h₁ h₂
  simp only [fileNew, diskGetBuf, Prog.run_bind, onDisk_alloc s]
  by_cases hhead : (s.vdisk minode.vdisk).io.faults.headD .none = .none
  · have htail : decide ((((s.setVdisk minode.vdisk ((s.vdisk minode.vdisk).withFaults
        (s.vdisk minode.vdisk).io.faults.tail)).vdisk minode.vdisk).io.faults.headD .none) = .none) = true := by
      rw [setVdisk_same]
      exact decide_eq_true (hspared hhead)
    rw [onDisk_alloc] at h₂
    simp only [hhead, decide_true, if_true, Prog.run_bind, onDisk_alloc, htail, Prog.run_pure]
    exact ⟨h₂, fun fp hfp => by rw [← Option.some.inj hfp]⟩
  · simp only [hhead, decide_false, Bool.false_eq_true, if_false, Prog.run_pure]
    exact ⟨h₁, fun fp hfp => by cases hfp⟩

/-- The exits that release `last` before `dir`. -/
theorem Found.last_dir {α : Type} (out : Found) (a : α) :
    Prog.Triple (HoldingFound s₀ r out held) (do relOpt out.last; relOpt out.dir; return a)
      fun _ => Holding s₀ r held :=
  .bind (Holding.relOpt.pre fun _ h => h.perm (List.perm_append_comm_assoc ..)) fun _ =>
    .bind Holding.relOpt fun _ => .pure fun _ => id

theorem openFile_holding (hwalk : CountedWalker walk) (hroom : Room r) {path : List UInt8} {fm : Mode} {now : Timev}
    (h : Holding s₀ r [] s) (hspared : OpenSpared walk path fm s) :
    let x := (openFile walk path fm now).run s
    Holding s₀ r (x.1.2.toList.map File.minode) x.2 := by
  have h₁ := (hwalk.triple hroom (by simp) path true true).run s h
  rw [OpenSpared] at hspared
  simp only [openFile]
  by_cases hfm : fm.read ∨ fm.write
  swap
  · simp only [not_or, Bool.not_eq_true] at hfm
    simp only [hfm.1, hfm.2, Bool.not_false, and_self, if_true]
    exact h
  have hmode : ¬ (fm.read.not = true ∧ fm.write.not = true) := by
    rintro ⟨hread, hwrite⟩
    simp_all
  simp only [hmode, if_false, Prog.run_bind]
  generalize (walk path true true).run s = x at hspared h₁ ⊢
  obtain ⟨⟨rc, out⟩, s₁⟩ := x
  have hspared := hspared hfm
  by_cases hrc : rc = .ok
  swap
  · simp only [hrc, ne_eq, not_false_eq_true, if_true]
    exact (out.last_dir (rc, (none : Option File))).run _ h₁
  obtain ⟨dir, _ | last, fullpath⟩ := out
  · simp only [hrc, ne_eq, not_true_eq_false, if_false]
    exact (Found.last_dir ⟨dir, none, fullpath⟩ (Rc.enoent, (none : Option File))).run _ h₁
  have hlast (rc : Rc) : Prog.Triple (HoldingFound s₀ r ⟨dir, some last, fullpath⟩ []) (do
      last.rel
      relOpt dir
      return (rc, (none : Option File))) fun _ => Holding s₀ r [] := Found.last_dir _ _
  simp only [hrc, ne_eq, not_true_eq_false, if_false, Prog.run_bind]
  by_cases hcheck : openCheck s₁ fm last = .ok
  swap
  · simp only [hcheck, not_false_eq_true, if_true]
    exact (hlast _).run _ h₁
  obtain ⟨h₂, hminode⟩ := fileNew_holding h₁ (hspared hrc last rfl hcheck)
  simp only [hcheck, not_true_eq_false, if_false, Prog.run_bind]
  generalize (fileNew last).run s₁ = y at h₂ hminode ⊢
  obtain ⟨_ | fp, s₂⟩ := y
  · exact (hlast _).run _ h₂
  have hopen : Prog.Triple (HoldingFound s₀ r ⟨dir, some last, fullpath⟩ []) (do
      let fp ← onDisk last.vdisk (openHandle fp fm now)
      relOpt dir
      return (Rc.ok, some fp)) fun x => Holding s₀ r (x.2.toList.map File.minode) := by
    refine .bind (Holding.keeps_for (.openHandle fp fm now) (openHandle_for (hminode fp rfl) fm now)) fun fp => ?_
    refine .at_state fun s ⟨hfp, h⟩ => .bind ?_ fun _ => .pure fun _ => id
    exact Holding.relOpt.pre fun w hw => by rw [hw, ← hfp] at *; exact h
  exact hopen.run _ h₂

end Calls

end Ufs370
