import Ufs370.HandleLaws
import Ufs370.Lookup
import Ufs370.Lib.Echo

/-! The tree of directories as the lookups see it, whatever is in the caches. -/

namespace Ufs370

open Lib

/-- A disk on which no request fails and one handle is open, for `d`. -/
def VDisk.calm (v : VDisk) (d : Dinode) : VDisk :=
  { v.withFaults [] with minodes := [⟨0, false, 1, none, d⟩] }

/-- The inode number that a directory has under a name. -/
def VDisk.entry (v : VDisk) (d : Dinode) (name : List UInt8) : Except Rc Nat :=
  ((fileLookupByName 0 name).run (v.calm d)).1

/-- A code that neither goes on with an iteration nor says that it has found something. -/
def Rc.Broken (rc : Rc) : Prop := rc ≠ .ok ∧ rc ≠ .iteratorBreak

section Echo

variable {α : Type} (v : VDisk) (d : Dinode)

/-- A program on a disk that reads one inode at most, against the same on the calm disk. -/
abbrev Echoes (bad : α → Prop) (x y : Prog VDisk α) : Prop :=
  Prog.Echo v.withFaults (· = []) (v.calm d) bad x y

theorem alloc_echoes : Echoes v d (· = false) (VDisk.onStore Store.alloc) (VDisk.onStore Store.alloc) where
  stays fs := by
    refine ⟨fs.tail, ?_, fun h => by rw [h, List.tail_nil]⟩
    cases fs <;> rfl
  result fs := by
    cases fs with
    | nil => exact .inl rfl
    | cons f fs => cases f
                   · exact .inl rfl
                   · exact .inr ⟨by simp, rfl⟩
                   · exact .inr ⟨by simp, rfl⟩
  same _ := rfl

theorem vdiskRead_echoes (block : Nat) :
    Echoes v d (fun r => ∃ rc, r = .error rc) (vdiskRead block) (vdiskRead block) where
  stays fs := by
    refine ⟨fs.tail, ?_, fun h => by rw [h, List.tail_nil]⟩
    cases fs <;> rfl
  result fs := by
    cases fs with
    | nil => exact .inl rfl
    | cons f fs => cases f
                   · exact .inl rfl
                   · exact .inr ⟨by simp, _, rfl⟩
                   · exact .inr ⟨by simp, _, rfl⟩
  same _ := rfl

theorem readBuf_echoes (block : Nat) :
    Echoes v d (fun r => ∃ rc : Rc, r = .error rc ∧ rc.Broken) (readBuf block) (readBuf block) := by
  refine .bind (alloc_echoes v d) (fun a => .ite (fun _ => ?_) fun _ => .pure _) ?_
  · refine .bind (vdiskRead_echoes v d block) (fun r => ?_) ?_
    · cases r <;> exact .pure _
    · rintro _ ⟨rc, rfl⟩ fs
      exact ⟨_, rfl, by decide, by decide⟩
  · rintro _ rfl fs
    exact ⟨_, rfl, by decide, by decide⟩

theorem datablockLink_echoes (listblk n : Nat) :
    Echoes v d (· = 0) (datablockLink listblk n) (datablockLink listblk n) := by
  refine .get fun fs => .ite (fun _ => .pure _) fun _ => .bind (readBuf_echoes v d listblk) (fun r => ?_) ?_
  · cases r with
    | error rc => exact .pure _
    | ok list => exact .get fun fs => .pure _
  · rintro _ ⟨rc, rfl, _⟩ fs
    rfl

section Foreach

/-- Block 0, which stands for every failure, is never a data block. -/
theorem broken_of_zero {κ : Type} {v : VDisk} (hsane : 0 < v.sb.datablockStartSector) (fs : List Fault) {sz : Nat} {ctx : κ}
    (f : VDisk → Prog VDisk (Rc × Nat × κ)) :
    ((do
      let v ← Prog.get
      if !datablockNumberSanity v 0 then
        return (.eio, sz, ctx)
      f v : Prog VDisk (Rc × Nat × κ)).run (v.withFaults fs)).1.1.Broken := by
  have hzero : datablockNumberSanity (v.withFaults fs) 0 = false := decide_eq_false fun h => by
    have := h.1
    change v.sb.datablockStartSector ≤ 0 at this
    omega
  simp only [Prog.run_bind, Prog.get, hzero, Bool.not_false, if_true]
  exact ⟨Rc.noConfusion, Rc.noConfusion⟩

variable {v d}

abbrev LoopBroken {κ : Type} (r : Rc × Nat × κ) : Prop := r.1.Broken

/-- The loops hand such a code on. -/
theorem run_broken {β : Type} {rc : Rc} (hrc : rc.Broken) {x y : Prog VDisk β} : (if rc ≠ .ok then x else y) = x :=
  if_pos hrc.1

variable {κ : Type} {func : κ → Nat → Nat → Prog VDisk (Rc × κ)} {ino : Nat}
  (hfunc : ∀ ctx blk sz, Echoes v d (fun r => r.1.Broken) (func ctx blk sz) (func ctx blk sz))
  (hsane : 0 < v.sb.datablockStartSector) (hdin : v.din ino = d)
include hfunc hsane

theorem blockLoop_echoes {x y : Nat → Prog VDisk Nat} (hentry : ∀ k, Echoes v d (· = 0) (x k) (y k))
    (left k filesize : Nat) (ctx : κ) :
    Echoes v d LoopBroken (blockLoop func x left k filesize ctx) (blockLoop func y left k filesize ctx) := by
  induction left generalizing k filesize ctx with
  | zero => exact .pure _
  | succ left ih =>
    refine .bind (hentry k) (fun blk => .get fun fs => .ite (fun _ => .pure _) fun _ => ?_) ?_
    · refine .bind (hfunc ..) (fun r => .ite (fun _ => .pure _) fun _ => .ite (fun _ => .pure _) fun _ => ih ..) ?_
      rintro ⟨rc, ctx⟩ hrc fs
      simp only [ne_eq, hrc.1, not_false_eq_true, if_true]
      exact hrc
    · rintro _ rfl fs
      exact broken_of_zero hsane fs _

omit hfunc in
theorem listLoop_echoes {inner : Nat → Nat → κ → Prog VDisk (Rc × Nat × κ)}
    (hinner : ∀ blk sz ctx, Echoes v d LoopBroken (inner blk sz ctx) (inner blk sz ctx)) (listblk left j filesize : Nat)
    (ctx : κ) : Echoes v d LoopBroken (listLoop inner listblk left j filesize ctx)
      (listLoop inner listblk left j filesize ctx) := by
  induction left generalizing j filesize ctx with
  | zero => exact .pure _
  | succ left ih =>
    refine .bind (datablockLink_echoes v d listblk j) (fun blk => .get fun fs => .ite (fun _ => .pure _) fun _ => ?_) ?_
    · refine .bind (hinner ..) (fun r => .ite (fun _ => .pure _) fun _ => ih ..) fun ⟨rc, sz, ctx⟩ hr fs => ?_
      simp only [run_broken (show rc.Broken from hr)]
      exact hr
    · rintro _ rfl fs
      exact broken_of_zero hsane fs _

theorem datablockLoop1_echoes (listblk filesize : Nat) (ctx : κ) :
    Echoes v d LoopBroken (datablockLoop1 func listblk filesize ctx) (datablockLoop1 func listblk filesize ctx) :=
  .get fun _ => blockLoop_echoes hfunc hsane (datablockLink_echoes v d listblk) ..

theorem datablockLoop2_echoes (listblk filesize : Nat) (ctx : κ) :
    Echoes v d LoopBroken (datablockLoop2 func listblk filesize ctx) (datablockLoop2 func listblk filesize ctx) :=
  .get fun _ => listLoop_echoes hsane (datablockLoop1_echoes hfunc hsane) ..

include hdin

omit hfunc hsane in
theorem foreachIndex_echoes {loop : Nat → Nat → κ → Prog VDisk (Rc × Nat × κ)}
    (hloop : ∀ blk sz ctx, Echoes v d LoopBroken (loop blk sz ctx) (loop blk sz ctx)) (slot filesize : Nat) (ctx : κ) :
    Echoes v d LoopBroken (foreachIndex loop ino slot filesize ctx) (foreachIndex loop 0 slot filesize ctx) := by
  refine .get fun fs => ?_
  have hslot : ((v.withFaults fs).din ino).addrAt slot = ((v.calm d).din 0).addrAt slot := by
    change (v.din ino).addrAt slot = d.addrAt slot
    rw [hdin]
  simp only [hslot]
  exact .ite (fun _ => .pure _) fun _ => hloop ..

/-- An iteration over an inode, against the one over its dinode alone. -/
theorem datablockForeach_echoes (ctx : κ) : Echoes v d (fun r => r.1.Broken) (datablockForeach func ino ctx)
    (datablockForeach func 0 ctx) := by
  refine .get fun fs => ?_
  have hsize : ((v.withFaults fs).din ino).filesize = ((v.calm d).din 0).filesize := by
    change (v.din ino).filesize = d.filesize
    rw [hdin]
  simp only [hsize]
  have hentry (k : Nat) : Echoes v d (· = 0) (do return ((← Prog.get).din ino).addrAt k)
      (do return ((← Prog.get).din 0).addrAt k) := by
    refine .get fun fs => ?_
    have hslot : ((v.withFaults fs).din ino).addrAt k = ((v.calm d).din 0).addrAt k := by
      change (v.din ino).addrAt k = d.addrAt k
      rw [hdin]
    rw [hslot]
    exact .pure _
  refine .ite (fun _ => .pure _) fun _ => .bind (blockLoop_echoes hfunc hsane hentry ..) (fun r => ?_)
    fun r hr fs => by rw [run_broken hr]; exact hr
  refine .ite (fun _ => .pure _) fun _ => .bind (foreachIndex_echoes hdin (datablockLoop1_echoes hfunc hsane) ..)
    (fun r => ?_) fun r hr fs => by rw [run_broken hr]; exact hr
  refine .ite (fun _ => .pure _) fun _ => .bind (foreachIndex_echoes hdin (datablockLoop2_echoes hfunc hsane) ..)
    (fun r => ?_) fun r hr fs => by rw [run_broken hr]; exact hr
  refine .ite (fun _ => .pure _) fun _ => .bind (foreachIndex_echoes hdin (fun blk sz ctx => ?_) ..)
    (fun r => .ite (fun _ => .pure _) fun _ => .pure _) fun r hr fs => by rw [run_broken hr]; exact hr
  exact .get fun _ => listLoop_echoes hsane (datablockLoop2_echoes hfunc hsane) ..

end Foreach

section Lookup

variable {v d} (hsane : 0 < v.sb.datablockStartSector) {ino : Nat} (hdin : v.din ino = d)
include hsane hdin

omit hsane hdin in
theorem lookupSubr_echoes (v : VDisk) (d : Dinode) (p : LookupArg) (blk sz : Nat) :
    Echoes v d (fun r => r.1.Broken) (lookupSubr p blk sz) (lookupSubr p blk sz) := by
  refine .bind (readBuf_echoes v d blk) (fun r => ?_) ?_
  · cases r with
    | error rc => exact .pure _
    | ok buf =>
      dsimp only
      cases lookupScan p.name buf (sz / direntSize) 0 <;> exact .pure _
  · rintro _ ⟨rc, rfl, hrc⟩ fs
    exact hrc

theorem fileLookupByName_echoes (name : List UInt8) :
    Echoes v d (fun r => ∃ rc, r = .error rc) (fileLookupByName ino name) (fileLookupByName 0 name) := by
  refine .get fun fs => ?_
  have hdir : ((v.withFaults fs).din ino).isdir = ((v.calm d).din 0).isdir := by
    change (v.din ino).isdir = d.isdir
    rw [hdin]
  rw [hdir]
  refine .ite (fun _ => .pure _) fun _ => .bind (datablockForeach_echoes (lookupSubr_echoes v d) hsane hdin _)
    (fun r => .ite (fun _ => .pure _) fun _ => .pure _) ?_
  rintro ⟨rc, arg⟩ hrc fs
  simp only [ne_eq, hrc.2, not_false_eq_true, if_true]
  exact ⟨_, rfl⟩

end Lookup

end Echo

/-- What a search in a directory comes to. -/
theorem fileLookupByName_entry {v : VDisk} (hsane : 0 < v.sb.datablockStartSector) (ino : Nat) (name : List UInt8) :
    ∃ r fs, (fileLookupByName ino name).run v = (r, v.withFaults fs) ∧ (v.io.faults = [] → fs = []) ∧
      (r = v.entry (v.din ino) name ∨ v.io.faults ≠ [] ∧ ∃ rc, r = .error rc) := by
  have hecho := fileLookupByName_echoes hsane (rfl : v.din ino = v.din ino) name
  obtain ⟨fs, hstate, hcalm⟩ := hecho.stays v.io.faults
  exact ⟨_, fs, Prod.ext rfl hstate, hcalm, hecho.result v.io.faults⟩

/-- A handle that stays in the cache without references. -/
def Minode.Firm (m : Minode) : Prop := m.dinode.isdir = true ∧ m.dinode.nlink ≠ 0

instance (m : Minode) : Decidable m.Firm := inferInstanceAs (Decidable (_ ∧ _))

namespace VDisk

/-- An inode whose slot is on the disk. -/
def Located (v : VDisk) (i : Nat) : Prop := (inodeInquireDiskLocation v i).1 = .ok

instance (v : VDisk) (i : Nat) : Decidable (v.Located i) := inferInstanceAs (Decidable (_ = _))

/-- The dinode of an inode and the disk that is mounted on it, as a lookup finds them. -/
def seen (v : VDisk) (i : Nat) : Option (Dinode × Option Nat) :=
  match v.minode? i with
  | some m => some (m.dinode, m.mountedVdisk)
  | none => if v.Located i then some (v.slot i, none) else none

/-- A handle that may go equals its slot, and nothing is mounted on it. -/
structure Settled (v : VDisk) : Prop where
  oneHandle : v.OneHandle
  pinned : ∀ i m, v.minode? i = some m → m.mountedVdisk ≠ none → m.Firm
  saved : ∀ i m, v.minode? i = some m → ¬ m.Firm → v.Located i ∧ m.dinode = v.slot i

/-- An inode that stays in the cache. -/
def Firm (v : VDisk) (i : Nat) : Prop := ∃ m, v.minode? i = some m ∧ m.Firm

/-- From `v` to `v'` some handles were taken and some released. -/
structure Later (v v' : VDisk) : Prop where
  same : v' = { v.withFaults v'.io.faults with minodes := v'.minodes }
  calm : v.io.faults = [] → v'.io.faults = []
  seen : v'.seen = v.seen
  firm : ∀ i, v.Firm i → v'.Firm i
  settled : v'.Settled

end VDisk

section Later

variable {v v' v'' : VDisk} {i : Nat}

theorem seen_some {m : Minode} (h : v.minode? i = some m) : v.seen i = some (m.dinode, m.mountedVdisk) := by
  rw [VDisk.seen, h]

theorem VDisk.Firm.cached (h : v.Firm i) : v.Cached i := by
  obtain ⟨m, hm, _⟩ := h
  rw [VDisk.Cached, hm]
  rfl

namespace VDisk.Later

theorem refl (h : v.Settled) : Later v v := ⟨rfl, id, rfl, fun _ => id, h⟩

theorem trans (h : Later v v') (h' : Later v' v'') : Later v v'' where
  same := by rw [h'.same, h.same]; rfl
  calm := h'.calm ∘ h.calm
  seen := h'.seen.trans h.seen
  firm i := h'.firm i ∘ h.firm i
  settled := h'.settled

theorem withFaults (h : v.Settled) {fs : List Fault} (hfs : v.io.faults = [] → fs = []) : Later v (v.withFaults fs) :=
  ⟨rfl, hfs, rfl, fun _ => id, ⟨h.oneHandle, h.pinned, h.saved⟩⟩

/-- A change of one handle, which may come or go. -/
theorem update (h : v.Settled) {x : Option Minode} (hsame : v' = { v with minodes := v'.minodes }) (hone : v'.OneHandle)
    (hown : v'.minode? i = x) (hother : ∀ j, j ≠ i → v'.minode? j = v.minode? j) (hseen : v'.seen i = v.seen i)
    (hfirm : ∀ m, v.minode? i = some m → m.Firm → x ≠ none)
    (hpinned : ∀ m, x = some m → m.mountedVdisk ≠ none → m.Firm)
    (hsaved : ∀ m, x = some m → ¬ m.Firm → v.Located i ∧ m.dinode = v.slot i) : Later v v' := by
  have hslot : v'.slot = v.slot := by rw [hsame]; rfl
  have hlocated : v'.Located = v.Located := by rw [hsame]; rfl
  have hsees : v'.seen = v.seen := funext fun j => by
    by_cases hj : j = i
    · rw [hj, hseen]
    · rw [VDisk.seen, VDisk.seen, hother j hj, hslot]
      simp only [hlocated]
  refine ⟨by rw [hsame]; rfl, fun hcalm => by rw [hsame]; exact hcalm, hsees, fun j ⟨m, hm, hf⟩ => ?_, hone, fun j m hm => ?_, fun j m hm => ?_⟩
  · by_cases hj : j = i
    · subst hj
      cases hx : x with
      | none => exact absurd hx (hfirm m hm hf)
      | some m' =>
        have heq := congrFun hsees j
        rw [seen_some (hown.trans hx), seen_some hm] at heq
        have hd : m'.dinode = m.dinode := (Prod.ext_iff.mp (Option.some.inj heq)).1
        exact ⟨m', hown.trans hx, by rwa [Minode.Firm, hd]⟩
    · exact ⟨m, (hother j hj).trans hm, hf⟩
  · by_cases hj : j = i
    · subst hj
      exact hpinned m (hown.symm.trans hm)
    · exact h.pinned j m ((hother j hj).symm.trans hm)
  · rw [hlocated, hslot]
    by_cases hj : j = i
    · subst hj
      exact hsaved m (hown.symm.trans hm)
    · exact h.saved j m ((hother j hj).symm.trans hm)

end VDisk.Later

theorem seen_loaded (h : v.Cached i ∨ v.Located i) : v.seen i = some ((v.loaded i).dinode, (v.loaded i).mountedVdisk) := by
  rw [VDisk.seen, VDisk.loaded]
  cases hm : v.minode? i with
  | some m => rfl
  | none =>
    have hlocated : v.Located i := h.resolve_left fun hc => by
      rw [VDisk.Cached, hm] at hc
      cases hc
    simp only [hlocated, if_true]
    rfl

/-- What holds of the handles holds of the one that an inode gets. -/
theorem loaded_settled (h : v.Settled) (hfound : v.Cached i ∨ v.Located i) :
    ((v.loaded i).mountedVdisk ≠ none → (v.loaded i).Firm) ∧
      (¬ (v.loaded i).Firm → v.Located i ∧ (v.loaded i).dinode = v.slot i) := by
  rw [VDisk.loaded]
  cases hm : v.minode? i with
  | some m => exact ⟨h.pinned i m hm, h.saved i m hm⟩
  | none =>
    have hlocated : v.Located i := hfound.resolve_left fun hc => by
      rw [VDisk.Cached, hm] at hc
      cases hc
    exact ⟨fun hmounted => absurd rfl hmounted, fun _ => ⟨hlocated, rfl⟩⟩

/-- A reference that was taken. -/
theorem Taken.later (h : v.Settled) (ht : Taken i v v') (hfound : v.Cached i ∨ v.Located i) : v.Later v' := by
  obtain ⟨hpinned, hsaved⟩ := loaded_settled h hfound
  refine .update h ht.same (ht.oneHandle h.oneHandle) ht.own ht.other ?_ (fun _ _ _ => Option.some_ne_none _) ?_ ?_
  · rw [seen_some ht.own, seen_loaded hfound]
  · rintro m ⟨⟩
    exact hpinned
  · rintro m ⟨⟩
    exact hsaved

/-- A reference that was released. -/
theorem Released.later (h : v.Settled) (hr : Released i v v') {m : Minode} (hm : v.minode? i = some m) : v.Later v' := by
  by_cases hstays : m.Stays
  · have hown := hr.stays m hm hstays
    refine .update h hr.same (hr.oneHandle h.oneHandle) hown hr.other ?_ (fun _ _ _ => Option.some_ne_none _) ?_ ?_
    · rw [seen_some hown, seen_some hm]
    · rintro _ ⟨⟩
      exact h.pinned i m hm
    · rintro _ ⟨⟩
      exact h.saved i m hm
  · have hfirm : ¬ m.Firm := fun hf => hstays (.inl hf)
    have hown := hr.gone h.oneHandle m hm hstays
    obtain ⟨hlocated, hslot⟩ := h.saved i m hm hfirm
    have hmounted : m.mountedVdisk = none := by
      by_contra hmounted
      exact hfirm (h.pinned i m hm hmounted)
    refine .update h hr.same (hr.oneHandle h.oneHandle) hown hr.other ?_ (fun m' hm' hf => ?_) (fun _ hm => ?_) fun _ hm => ?_
    · have hlocated' : v'.Located i := by
        rw [hr.same]
        exact hlocated
      have hslot' : v'.slot i = v.slot i := by
        rw [hr.same]
        rfl
      rw [seen_some hm, hmounted, hslot, VDisk.seen, hown, if_pos hlocated', hslot']
    · rw [hm] at hm'
      exact absurd (Option.some.inj hm' ▸ hf) hfirm
    · cases hm
    · cases hm

end Later

section Handles

variable {v : VDisk} {i : Nat}

theorem inodeUse_later (h : v.Settled) : v.Later ((inodeUse i).run v).2 := by
  cases hm : v.minode? i with
  | some m =>
    refine (inodeUse_taken hm).later h (.inl ?_)
    rw [VDisk.Cached, hm]
    rfl
  | none =>
    have habsent : ((inodeUse i).run v).2 = v := setMinode_absent hm
    rw [habsent]
    exact .refl h

theorem inodeRel_later (h : v.Settled) : v.Later ((inodeRel i).run v).2 := by
  cases hm : v.minode? i with
  | some m =>
    have hcached : v.Cached i := by
      rw [VDisk.Cached, hm]
      rfl
    obtain ⟨v', hrun, hr⟩ := inodeRel_run hcached
    rw [hrun]
    exact hr.later h hm
  | none =>
    rw [inodeRel_absent hm]
    exact .refl h

theorem readBuf_cases (v : VDisk) (b : Nat) : ∃ r fs, (readBuf b).run v = (r, v.withFaults fs) ∧
    (v.io.faults = [] → fs = []) ∧ (r = .ok (v.io.blocks b) ∨ v.io.faults ≠ [] ∧ ∃ rc, r = .error rc) := by
  have hecho := readBuf_echoes v .zero b
  obtain ⟨fs, hstate, hcalm⟩ := hecho.stays v.io.faults
  refine ⟨_, fs, Prod.ext rfl hstate, hcalm, (hecho.result v.io.faults).imp id fun ⟨hf, rc, hrc, _⟩ => ⟨hf, rc, hrc⟩⟩

theorem inodeLoad_cases (v : VDisk) (i : Nat) : ∃ r fs, (inodeLoad i).run v = (r, v.withFaults fs) ∧
    (v.io.faults = [] → fs = []) ∧ (r = .ok ⟨i, false, 0, none, v.slot i⟩ ∧ v.Located i ∨
      (∃ rc, r = .error rc) ∧ (v.io.faults = [] → ¬ v.Located i)) := by
  simp only [inodeLoad, Prog.run_bind, Prog.get, VDisk.slot, VDisk.Located]
  generalize inodeInquireDiskLocation v i = loc
  obtain ⟨rc, blk, ofs⟩ := loc
  by_cases hrc : rc = .ok
  · obtain ⟨r, fs, hrun, hcalm, rfl | ⟨hf, rc', rfl⟩⟩ := readBuf_cases v blk
    · simp only [hrc, ne_eq, not_true_eq_false, if_false, Prog.run_bind, hrun, if_true]
      exact ⟨_, fs, rfl, hcalm, .inl ⟨rfl, trivial⟩⟩
    · simp only [hrc, ne_eq, not_true_eq_false, if_false, Prog.run_bind, hrun, if_true]
      exact ⟨_, fs, rfl, hcalm, .inr ⟨⟨_, rfl⟩, fun h => absurd h hf⟩⟩
  · simp only [hrc, ne_eq, not_false_eq_true, if_true]
    exact ⟨_, v.io.faults, rfl, id, .inr ⟨⟨_, rfl⟩, fun _ => trivial⟩⟩

theorem seen_none (h : v.minode? i = none) (hlocated : ¬ v.Located i) : v.seen i = none := by
  rw [VDisk.seen, h]
  exact if_neg hlocated

/-- A reference is there if the inode is to be seen, unless a request fails. -/
theorem inodeGet_later (h : v.Settled) : v.Later ((inodeGet i).run v).2 ∧
    (((inodeGet i).run v).1 = some i ∧ (v.seen i).isSome ∧ ((inodeGet i).run v).2.Cached i ∨
      ((inodeGet i).run v).1 = none ∧ (v.io.faults = [] → v.seen i = none)) := by
  simp only [inodeGet, Prog.run_bind, Prog.get]
  cases hm : v.minode? i with
  | some m =>
    have ht := inodeUse_taken hm
    have hcached : v.Cached i := by
      rw [VDisk.Cached, hm]
      rfl
    refine ⟨ht.later h (.inl hcached), .inl ⟨rfl, ?_, ht.cached⟩⟩
    rw [seen_some hm]
    rfl
  | none =>
    obtain ⟨fs, hfs, hcalm⟩ := (alloc_echoes v .zero).stays v.io.faults
    have halloc := (alloc_echoes v .zero).result v.io.faults
    obtain ⟨b, hb, halloc⟩ : ∃ b, (VDisk.onStore Store.alloc).run v = (b, v.withFaults fs) ∧
        (b = true ∨ v.io.faults ≠ [] ∧ b = false) := ⟨_, Prod.ext rfl hfs, halloc⟩
    simp only [Prog.run_bind, hb]
    rcases halloc with rfl | ⟨hf, rfl⟩
    · obtain ⟨r, fs', hrun, hcalm', ⟨rfl, hlocated⟩ | ⟨⟨rc, rfl⟩, hnot⟩⟩ := inodeLoad_cases (v.withFaults fs) i
      · simp only [if_true, Prog.run_bind, hrun]
        have ht : Taken i (v.withFaults fs') ((inodeUse i).run { v.withFaults fs' with
            minodes := v.minodes ++ [⟨i, false, 0, none, v.slot i⟩] }).2 := taken_load hm
        have hwith : v.Later (v.withFaults fs') := .withFaults h (hcalm' ∘ hcalm)
        refine ⟨hwith.trans (ht.later hwith.settled (.inr hlocated)), .inl ⟨rfl, ?_, ht.cached⟩⟩
        rw [seen_loaded (v := v) (.inr hlocated)]
        rfl
      · simp only [if_true, Prog.run_bind, hrun]
        exact ⟨.withFaults h (hcalm' ∘ hcalm), .inr ⟨rfl, fun hnil => seen_none hm (hnot (hcalm hnil))⟩⟩
    · simp only [Bool.false_eq_true, if_false]
      exact ⟨.withFaults h hcalm, .inr ⟨rfl, fun hnil => absurd hnil hf⟩⟩

end Handles

end Ufs370
