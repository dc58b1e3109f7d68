import Ufs370.CallRefs

/-! The references of directory handles, and those of the mount table. -/

namespace Ufs370

open Lib

/-- What takes no reference for good, as long as the counts leave room. -/
def Rests (v v' : VDisk) : Prop := v.OneHandle → v.Room → Held v [] v'

instance : Std.Refl Rests := ⟨fun _ hone _ => .refl hone⟩

namespace Rests

variable {v v' : VDisk}

theorem room (h : Held v [] v') (hroom : v.Room) : v'.Room := fun i => by
  rw [h.uses, List.count_nil]
  exact hroom i

theorem of_requests (h : Requests v v') : Rests v v' := fun hone _ => by
  obtain ⟨fs, rfl⟩ := h
  exact ⟨hone, fun _ => rfl, fun _ _ => rfl⟩

theorem of_triple {α : Type} {x : Prog VDisk α} (h : ∀ v₀ : VDisk, v₀.Room → Prog.Triple (Held v₀ []) x fun _ => Held v₀ []) :
    Prog.Moves Rests x := ⟨fun v hone hroom => (h v hroom).run v (.refl hone)⟩

end Rests

instance : IsTrans VDisk Rests where
  trans v v' v'' h h' hone hroom :=
    have h := h hone hroom
    have h' := h' h.oneHandle (Rests.room h hroom)
    { oneHandle := h'.oneHandle
      uses := fun i => by rw [h'.uses, h.uses]; rfl
      mounted := fun i hpos => by
        rw [h'.mounted i (by rwa [h.uses, List.count_nil]), h.mounted i hpos] }

theorem Holding.rests {α : Type} {s₀ : Ufs} {r : Minptr → Nat} {held : List Minptr} {i : Nat} {x : Prog VDisk α}
    (hroom : Room r) (hlen : held.length ≤ 8) (hx : Prog.Moves Rests x) :
    Prog.Triple (Holding s₀ r held) (Ufs370.onDisk i x) fun _ => Holding s₀ r held :=
  ⟨fun _ h => h.onDisk (hx.run _ (h.oneHandle i) (h.vdisk_room hroom hlen i))⟩

section List

variable (wanted : List UInt8 → Bool) (mounted : List UInt8 → Minode → Option (List UInt8))

theorem listScan_rests (buf : Block) (left i : Nat) (dlist : List Dlist) :
    Prog.Moves Rests (listScan wanted mounted buf left i dlist) := by
  refine Rests.of_triple fun v₀ hroom => ?_
  induction left generalizing i dlist with
  | zero => exact .pure fun _ => id
  | succ left ih =>
    refine Prog.Triple.get fun v hv => .pre ?_ fun w hw => hw ▸ hv
    refine .ite (fun _ => ih ..) fun _ => Held.get hroom (by simp) ((ih ..).pre fun _ h => h.1) ?_
    refine .ite (fun _ => .bind Held.rel fun _ => ih ..) fun _ => ?_
    refine .bind (Held.triple (.onStore _)) fun _ => .ite (fun _ => ?_) fun _ => .bind Held.rel fun _ => .pure fun _ => id
    exact Prog.Triple.get fun w hw => .bind (Held.rel.pre fun w' hw' => hw' ▸ hw) fun _ => ih ..

theorem directoryListSubr_rests (dlist : List Dlist) (blk sz : Nat) :
    Prog.Moves Rests (directoryListSubr wanted mounted dlist blk sz) := by
  refine .bind ((ReadsOnly.readBuf blk).requests.mono fun _ _ => Rests.of_requests) fun x => ?_
  cases x with
  | error rc => exact .pure _
  | ok buf => exact listScan_rests ..

end List

/-- The user may read a directory, and there is storage for its listing. -/
def Listed (s : Ufs) (minode : Minptr) : Prop :=
  s.authRead minode = true ∧ (s.vdisk minode.vdisk).io.faults.headD .none = .none

section Calls

variable {walk : Walker} {patmat : List UInt8 → List UInt8 → Bool} {s₀ s : Ufs} {r : Minptr → Nat} {held : List Minptr}

theorem listDir_holding (hroom : Room r) (hlen : held.length ≤ 8) (minode : Minptr) (fullpath pattern : List UInt8) :
    Prog.Triple (Holding s₀ r held) (listDir patmat minode fullpath pattern) fun _ => Holding s₀ r held := by
  refine Prog.Triple.get fun s hs => .pre ?_ fun w hw => hw ▸ hs
  refine .ite (fun _ => .pure fun _ => id) fun _ => .bind (Holding.keeps (.onStore _)) fun _ => ?_
  refine .ite (fun _ => .bind (Holding.rests hroom hlen ?_) fun _ => .pure fun _ => id) fun _ => .pure fun _ => id
  exact datablockForeach_moves (fun h => Rests.of_requests h) (directoryListSubr_rests _ _) ..

theorem listDir_listed {minode : Minptr} (h : Listed s minode) (fullpath pattern : List UInt8) :
    ((listDir patmat minode fullpath pattern).run s).1.map Ddesc.minode = some minode := by
  have hread : (!s.authRead minode) ≠ true := by simp [h.1]
  simp only [listDir, Prog.run_bind, if_neg hread, onDisk_alloc, decide_eq_true h.2, if_true]
  rfl

theorem listDir_not_listed {minode : Minptr} (h : ¬ Listed s minode) (fullpath pattern : List UInt8) :
    ((listDir patmat minode fullpath pattern).run s).1 = none := by
  simp only [listDir, Prog.run_bind, Prog.run_ite]
  by_cases hread : s.authRead minode = true
  · have halloc : ¬ (s.vdisk minode.vdisk).io.faults.headD .none = .none := fun halloc => h ⟨hread, halloc⟩
    simp only [hread, Bool.not_true, Bool.false_eq_true, if_false, onDisk_alloc, halloc, decide_false]
    rfl
  · simp only [hread, Bool.not_false, if_true]
    rfl

/-- A root that `ufs_diropen` takes in exchange for a directory has two references. -/
theorem diropenMount_holding (hroom : Room r) (hlen : held.length ≤ 7) {minode : Minptr}
    (h : Holding s₀ r (minode :: held) s) (hmounted : (s.minode minode).mountedVdisk ≠ none) :
    let x := (diropenMount minode).run s
    Holding s₀ r (x.1.toList ++ (x.1.toList ++ held)) x.2 := by
  simp only [diropenMount, Prog.run_bind]
  cases hm : (s.minode minode).mountedVdisk with
  | none => exact absurd hm hmounted
  | some vdisk =>
    refine Prog.Triple.run (Q := fun x : Option Minptr => Holding s₀ r (x.toList ++ (x.toList ++ held))) ?_ s h
    refine .bind Holding.rel fun _ => .bind (Holding.get hroom (by omega)) fun x => ?_
    cases x with
    | none => exact .pure fun _ => id
    | some p =>
      have hpos : 0 < r p + (p :: held).count p := by
        rw [List.count_cons_self]
        omega
      exact .bind (Holding.use hroom (Nat.succ_le_succ hlen) hpos) fun _ => .pure fun _ => id

end Calls

/-- Where a listing starts, if no path is given. -/
def diropenPath (cwd : Cwd) (path : List UInt8) : List UInt8 :=
  if path = [] then CString.read pathMax (CString.chars cwd.path) else path

/-- No directory handle is made, unless it is one for a root that is mounted on itself. -/
def DiropenSpared (walk : Walker) (path : List UInt8) (s : Ufs) : Prop :=
  let r := (walk (diropenPath s.cwd path) true true).run s
  r.1.1 = .ok → ∀ minode, r.1.2.pick.1 = some minode →
    let r' := (diropenMount minode).run r.2
    ((r.2.minode minode).mountedVdisk = none → ¬ Listed r.2 minode) ∧
      ((r.2.minode minode).mountedVdisk ≠ none → r'.1 = some minode ∧ Listed r'.2 minode)

section Calls

variable {walk : Walker} {patmat : List UInt8 → List UInt8 → Bool} {s₀ s : Ufs} {r : Minptr → Nat}

theorem Found.pick_fullpath (out : Found) : out.pick.2.fullpath = out.fullpath := by
  obtain ⟨dir, _ | last, fullpath⟩ := out <;> rfl

/-- What was picked is put back. -/
theorem Found.unpick_holding {held : List Minptr} (out : Found)
    (h : HoldingFound s₀ r out.pick.2 (out.pick.1.toList ++ held) s) : HoldingFound s₀ r out held s := by
  refine h.perm ?_
  obtain ⟨dir, last, fullpath⟩ := out
  cases last with
  | none => exact (List.perm_append_comm_assoc ..)
  | some minode => exact .refl _

theorem diropen_holding (hwalk : CountedWalker walk) (hroom : Room r) {path pattern : List UInt8}
    (h : Holding s₀ r [] s) (hspared : DiropenSpared walk path s) :
    let x := (diropen walk patmat path pattern).run s
    Holding s₀ r (x.1.toList.map Ddesc.minode) x.2 := by
  have h₁ := (hwalk.triple hroom (by simp) (diropenPath s.cwd path) true true).run s h
  simp only [DiropenSpared, diropenPath] at hspared h₁
  simp only [diropen, Prog.run_bind, Prog.get]
  generalize (walk _ true true).run s = x at hspared h₁ ⊢
  obtain ⟨⟨rc, out⟩, s₁⟩ := x
  by_cases hrc : rc = .ok
  swap
  · simp only [hrc, if_false]
    exact (out.last_dir (none : Option Ddesc)).run _ h₁
  have hspared := hspared hrc
  simp only [hrc, if_true, ← Found.pick_or]
  have h₂ := out.pick_holding h₁
  cases hpick : out.pick.1 with
  | none => exact (out.last_dir (none : Option Ddesc)).run _ h₁
  | some minode =>
    rw [hpick] at h₂
    obtain ⟨hplain, hmounted⟩ := hspared minode hpick
    have hlen : (out.pick.2.dir.toList ++ (out.pick.2.last.toList ++ [])).length ≤ 2 := out.pick.2.length_le []
    by_cases hm : (s₁.minode minode).mountedVdisk = none
    · have hmount : (diropenMount minode).run s₁ = (some minode, s₁) := by
        simp only [diropenMount, Prog.run_bind, Prog.get, hm]
        rfl
      have hlist : HoldingFound s₀ r out [] ((listDir patmat minode out.fullpath pattern).run s₁).2 :=
        (listDir_holding hroom ((out.length_le _).trans (by simp)) ..).run _ h₁
      simp only [Prog.run_bind, hmount, listDir_not_listed (hplain hm)]
      exact (out.last_dir (none : Option Ddesc)).run _ hlist
    · obtain ⟨hself, hlisted⟩ := hmounted hm
      have h₃ := diropenMount_holding hroom (hlen.trans (by decide)) h₂.front hm
      simp only [Prog.run_bind]
      generalize (diropenMount minode).run s₁ = y at hself hlisted h₃ ⊢
      obtain ⟨x, s₂⟩ := y
      subst hself
      have h₄ : HoldingFound s₀ r out [minode] s₂ := out.unpick_holding <| h₃.perm <| List.perm_iff_count.mpr fun p => by
        simp only [hpick, Option.toList_some, List.count_append, List.count_cons, List.count_nil]
        ring
      have hlist : HoldingFound s₀ r out [minode] ((listDir patmat minode out.fullpath pattern).run s₂).2 :=
        (listDir_holding hroom ((out.length_le _).trans (by simp)) ..).run _ h₄
      have hname : ((listDir patmat minode out.fullpath pattern).run s₂).1.map Ddesc.minode = some minode :=
        listDir_listed hlisted ..
      simp only [Prog.run_bind]
      generalize (listDir patmat minode out.fullpath pattern).run s₂ = z at hlist hname ⊢
      obtain ⟨ddesc, s₃⟩ := z
      have hheld : ddesc.toList.map Ddesc.minode = [minode] := by
        rw [← Option.toList_map, hname]
        rfl
      rw [← hheld] at hlist
      exact (out.last_dir ddesc).run _ hlist

theorem fclose_holding {fp : File} (h : Holding s₀ r [fp.minode] s) :
    Holding s₀ r [] ((fclose fp).run s).2 := by
  have hfree : Prog.Triple (Holding s₀ r [fp.minode]) (fclose fp) fun _ => Holding s₀ r [] := by
    refine .bind (Holding.keeps_for (.fileSync fp) (fileSync_for rfl)) fun fp' => ?_
    exact .at_state fun s ⟨hfp, h⟩ => Holding.rel.pre fun w hw => by
      rw [hw, hfp]
      exact h
  exact hfree.run s h

/-- Where a mount ends before it has its directory. -/
def MountSpared (walk : Walker) (ddname path : List UInt8) (s : Ufs) : Prop :=
  ∀ vdisk, s.findVdisk (fun n => s.ddname n = ddname) = some vdisk →
    let r := (checkRoot vdisk).run s
    r.1 = .ok → let r' := (walk path true true).run r.2
      r'.1.2.dir = none ∧ r'.1.2.last = none

theorem checkRoot_holding (hroom : Room r) (vdisk : Nat) :
    Prog.Triple (Holding s₀ r []) (checkRoot vdisk) fun _ => Holding s₀ r [] := by
  refine .bind (Holding.get hroom (by simp)) fun x => ?_
  cases x with
  | none => exact .pure fun _ => id
  | some minode => exact Prog.Triple.get fun s hs => .bind (Holding.rel.pre fun w hw => hw ▸ hs) fun _ => .pure fun _ => id

theorem mount_holding (hwalk : CountedWalker walk) (hroom : Room r) {ddname path : List UInt8}
    (h : Holding s₀ r [] s) (hspared : MountSpared walk ddname path s) :
    Holding s₀ r [] ((mount walk ddname path).run s).2 := by
  simp only [mount, Prog.run_bind, Prog.get]
  cases hfind : s.findVdisk fun n => s.ddname n = ddname with
  | none => exact h
  | some vdisk =>
    have hspared := hspared vdisk hfind
    have h₁ := (checkRoot_holding hroom vdisk).run s h
    simp only [Prog.run_bind]
    generalize (checkRoot vdisk).run s = x at hspared h₁ ⊢
    obtain ⟨rc, s₁⟩ := x
    by_cases hrc : rc = .ok
    swap
    · simp only [ne_eq, hrc, not_false_eq_true, if_true]
      exact h₁
    obtain ⟨hdir, hlast⟩ := hspared hrc
    have h₂ := (hwalk.triple hroom (by simp) path true true).run _ h₁
    simp only [hrc, ne_eq, not_true_eq_false, if_false, mountVdisk, Prog.run_bind]
    generalize (walk path true true).run s₁ = y at hdir hlast h₂ ⊢
    obtain ⟨⟨rc, ⟨dir, last, fullpath⟩⟩, s₂⟩ := y
    obtain rfl : dir = none := hdir
    obtain rfl : last = none := hlast
    by_cases hrc : rc = .ok
    · simp only [hrc, not_true_eq_false, if_false]
      exact h₂
    · simp only [hrc, not_false_eq_true, if_true]
      exact h₂

end Calls

end Ufs370
