import Ufs370.CacheLaws
import Ufs370.Sys
import Ufs370.Lib.Triple

/-! The inode caches of all disks as one map from pointers to handles. -/

namespace Ufs370

open Lib

namespace VDisk

def withFaults (v : VDisk) (fs : List Fault) : VDisk := { v with io := { v.io with faults := fs } }

end VDisk

/-- `x` does no more to a disk than make requests of it. -/
structure ReadsOnly {α : Type} (x : Prog VDisk α) : Prop where
  run : ∀ v, ∃ fs, (x.run v).2 = v.withFaults fs

namespace ReadsOnly

variable {α β : Type}

theorem pure (a : α) : ReadsOnly (Pure.pure a) := ⟨fun v => ⟨v.io.faults, rfl⟩⟩

theorem get : ReadsOnly Prog.get := ⟨fun v => ⟨v.io.faults, rfl⟩⟩

theorem bind {x : Prog VDisk α} {f : α → Prog VDisk β} (hx : ReadsOnly x) (hf : ∀ a, ReadsOnly (f a)) :
    ReadsOnly (x >>= f) where
  run v := by
    obtain ⟨fs, hfs⟩ := hx.run v
    obtain ⟨fs', hfs'⟩ := (hf (x.run v).1).run (x.run v).2
    refine ⟨fs', ?_⟩
    rw [Prog.run_bind, hfs', hfs]
    rfl

theorem ite {c : Prop} [Decidable c] {x y : Prog VDisk α} (hx : ReadsOnly x) (hy : ReadsOnly y) :
    ReadsOnly (if c then x else y) := by
  split
  exacts [hx, hy]

theorem onStore {x : Prog Store α} (hx : ∀ s, (x.run s).2.blocks = s.blocks) :
    ReadsOnly (VDisk.onStore x) where
  run v := by
    refine ⟨(x.run v.io).2.faults, ?_⟩
    have hblocks := hx v.io
    simp only [VDisk.onStore, Prog.run_lift, VDisk.withFaults, ← hblocks]

theorem alloc : ReadsOnly (VDisk.onStore Store.alloc) := .onStore Store.alloc_blocks

theorem vdiskRead (block : Nat) : ReadsOnly (vdiskRead block) := .onStore fun s => by
  rcases Store.read_cases block s with h | h
  exacts [h.1, h.1]

theorem readBuf (block : Nat) : ReadsOnly (readBuf block) := by
  refine .bind .alloc fun ok => ?_
  cases ok with
  | false => exact .pure _
  | true => exact .bind (.vdiskRead _) fun r => by cases r <;> exact .pure _

theorem inodeLoad (ino : Nat) : ReadsOnly (inodeLoad ino) := by
  refine .bind .get fun v => ?_
  dsimp only
  split
  · exact .pure _
  · exact .bind (.readBuf _) fun r => by cases r <;> exact .pure _

theorem datablockLink (listblk n : Nat) : ReadsOnly (datablockLink listblk n) := by
  refine .bind .get fun v => .ite (.pure _) (.bind (.readBuf _) fun r => ?_)
  cases r with
  | error rc => exact .pure _
  | ok list => exact .bind .get fun v => .pure _

end ReadsOnly

/-- From `v` to `v'` requests were made. -/
def Requests (v v' : VDisk) : Prop := ∃ fs, v' = v.withFaults fs

instance : Std.Refl Requests := ⟨fun v => ⟨v.io.faults, rfl⟩⟩

instance : IsTrans VDisk Requests where
  trans v w u := by
    rintro ⟨fs, rfl⟩ ⟨fs', rfl⟩
    exact ⟨fs', rfl⟩

theorem ReadsOnly.requests {α : Type} {x : Prog VDisk α} (h : ReadsOnly x) : Prog.Moves Requests x := ⟨h.run⟩

section Foreach

variable {R : VDisk → VDisk → Prop} [Std.Refl R] [IsTrans VDisk R]
variable (hreads : ∀ {v v' : VDisk}, Requests v v' → R v v')
variable {κ : Type} {func : κ → Nat → Nat → Prog VDisk (Rc × κ)}
variable (hfunc : ∀ ctx blk sz, Prog.Moves R (func ctx blk sz))

include hfunc

theorem blockLoop_moves {entry : Nat → Prog VDisk Nat} (hentry : ∀ i, Prog.Moves R (entry i))
    (left k filesize : Nat) (ctx : κ) : Prog.Moves R (blockLoop func entry left k filesize ctx) := by
  induction left generalizing k filesize ctx with
  | zero => exact .pure _
  | succ left ih =>
    refine .bind (hentry k) fun blk => .bind .get fun v => .ite (.pure _) (.bind (hfunc ..) fun r => ?_)
    exact .ite (.pure _) (.ite (.pure _) (ih ..))

omit hfunc in
theorem listLoop_moves (hlink : ∀ blk i, Prog.Moves R (datablockLink blk i))
    {inner : Nat → Nat → κ → Prog VDisk (Rc × Nat × κ)}
    (hinner : ∀ blk filesize ctx, Prog.Moves R (inner blk filesize ctx)) (listblk left j filesize : Nat) (ctx : κ) :
    Prog.Moves R (listLoop inner listblk left j filesize ctx) := by
  induction left generalizing j filesize ctx with
  | zero => exact .pure _
  | succ left ih =>
    refine .bind (hlink ..) fun blk => .bind .get fun v => .ite (.pure _) ?_
    exact .bind (hinner ..) fun r => .ite (.pure _) (ih ..)

omit hfunc in
theorem foreachIndex_moves {loop : Nat → Nat → κ → Prog VDisk (Rc × Nat × κ)}
    (hloop : ∀ blk filesize ctx, Prog.Moves R (loop blk filesize ctx)) (ino slot filesize : Nat) (ctx : κ) :
    Prog.Moves R (foreachIndex loop ino slot filesize ctx) :=
  .bind .get fun _ => .ite (.pure _) (hloop ..)

include hreads

theorem datablockLoop1_moves (listblk filesize : Nat) (ctx : κ) :
    Prog.Moves R (datablockLoop1 func listblk filesize ctx) :=
  .bind .get fun _ => blockLoop_moves hfunc
    (fun i => (ReadsOnly.datablockLink listblk i).requests.mono fun _ _ => hreads) ..

theorem datablockLoop2_moves (listblk filesize : Nat) (ctx : κ) :
    Prog.Moves R (datablockLoop2 func listblk filesize ctx) :=
  .bind .get fun _ => listLoop_moves
    (fun blk i => (ReadsOnly.datablockLink blk i).requests.mono fun _ _ => hreads)
    (datablockLoop1_moves hreads hfunc) ..

/-- An iteration goes along a relation where its function does. -/
theorem datablockForeach_moves (ino : Nat) (ctx : κ) : Prog.Moves R (datablockForeach func ino ctx) := by
  refine .bind .get fun v => .ite (.pure _) ?_
  refine .bind (blockLoop_moves hfunc (fun i => .bind .get fun v => .pure _) ..) fun r => .ite (.pure _) ?_
  refine .bind (foreachIndex_moves (datablockLoop1_moves hreads hfunc) ..) fun r => .ite (.pure _) ?_
  refine .bind (foreachIndex_moves (datablockLoop2_moves hreads hfunc) ..) fun r => .ite (.pure _) ?_
  refine .bind (foreachIndex_moves (fun blk filesize ctx => .bind .get fun _ =>
    listLoop_moves (fun blk i => (ReadsOnly.datablockLink blk i).requests.mono fun _ _ => hreads)
      (datablockLoop2_moves hreads hfunc) ..) ..) fun r => .ite (.pure _) (.pure _)

end Foreach

namespace ReadsOnly

theorem lookupSubr (p : LookupArg) (blk sz : Nat) : ReadsOnly (lookupSubr p blk sz) := by
  refine .bind (.readBuf _) fun r => ?_
  cases r with
  | error rc => exact .pure _
  | ok buf =>
    dsimp only
    split <;> exact .pure _

theorem fileLookupByName (parentDir : Nat) (name : List UInt8) : ReadsOnly (fileLookupByName parentDir name) := by
  refine .bind .get fun v => .ite (.pure _) (.bind
    ⟨(datablockForeach_moves id (fun ctx blk sz => (lookupSubr ctx blk sz).requests) ..).run⟩ fun r => ?_)
  exact .ite (.pure _) (.pure _)

end ReadsOnly

section Get

variable {v : VDisk} {i : Nat}

theorem readBuf_ok {b : Nat} {buf : Block} (h : ((readBuf b).run v).1 = .ok buf) : buf = v.io.blocks b := by
  obtain ⟨fs, hfs⟩ := ReadsOnly.alloc.run v
  have hread : ∀ w : VDisk, ∀ c, ((vdiskRead b).run w).1 = .ok c → c = w.io.blocks b := fun w c hc => by
    rcases Store.read_cases b w.io with hr | hr
    · exact (Except.ok.inj (hr.2.symm.trans hc)).symm
    · cases hr.2.symm.trans hc
  simp only [readBuf, diskGetBuf, Prog.run_bind, hfs] at h
  split at h
  · simp only [Prog.run_bind] at h
    split at h
    · cases h
    · rename_i c hc
      rw [← Except.ok.inj h]
      exact hread (v.withFaults fs) c hc
  · cases h

theorem inodeLoad_ok {m : Minode} (h : ((inodeLoad i).run v).1 = .ok m) :
    m = ⟨i, false, 0, none, v.slot i⟩ := by
  simp only [inodeLoad, Prog.run_bind] at h
  rw [VDisk.slot]
  generalize inodeInquireDiskLocation v i = loc at h ⊢
  obtain ⟨rc, blk, ofs⟩ := loc
  by_cases hrc : rc = .ok
  · simp only [hrc, ne_eq, not_true_eq_false, if_false, Prog.run_bind, if_true] at h ⊢
    split at h
    · cases h
    · rename_i buf hbuf
      rw [← readBuf_ok hbuf]
      exact (Except.ok.inj h).symm
  · simp only [hrc, ne_eq, not_false_eq_true, if_true] at h
    cases h

/-- A reference to an inode comes from the cache or from the disk, or there is none. -/
theorem inodeGet_cases (v : VDisk) (i : Nat) : ∃ fs,
    (inodeGet i).run v = (none, v.withFaults fs) ∧ v.minode? i = none ∨
    ∃ v', (inodeGet i).run v = (some i, v') ∧ Taken i (v.withFaults fs) v' := by
  simp only [inodeGet, Prog.run_bind]
  cases h : v.minode? i with
  | some m => exact ⟨v.io.faults, .inr ⟨_, rfl, inodeUse_taken h⟩⟩
  | none =>
    obtain ⟨fs, hfs⟩ := ReadsOnly.alloc.run v
    simp only [Prog.run_bind, hfs]
    split
    · obtain ⟨fs', hfs'⟩ := (ReadsOnly.inodeLoad i).run (v.withFaults fs)
      simp only [Prog.run_bind, hfs']
      refine ⟨fs', ?_⟩
      split
      · exact .inl ⟨rfl, trivial⟩
      · rename_i m hm
        have hslot := inodeLoad_ok hm
        subst hslot
        exact .inr ⟨_, rfl, taken_load (v := v.withFaults fs') h⟩
    · exact ⟨fs, .inl ⟨rfl, trivial⟩⟩

end Get

section Release

variable {v : VDisk} {i : Nat}

instance (m : Minode) : Decidable m.Stays := inferInstanceAs (Decidable (_ ∨ _))

theorem setMinode_absent {g : Minode → Minode} (h : v.minode? i = none) : v.setMinode i g = v := by
  have hmap : v.minodes.map (fun m => if m.inodeNumber = i then g m else m) = v.minodes := by
    conv_rhs => rw [← List.map_id v.minodes]
    refine List.map_congr_left fun m hm => if_neg fun hi => ?_
    have := List.find?_eq_none.mp h m hm
    simp [hi] at this
  rw [VDisk.setMinode, hmap]

/-- The release of an inode that is not in the cache. -/
theorem inodeRel_absent (h : v.minode? i = none) : (inodeRel i).run v = ((), v) := by
  have hderef : v.deref i = ⟨i, false, 0, none, .zero⟩ := by rw [VDisk.deref, h, Option.getD_none]
  have herase : v.minodes.eraseP (fun m => decide (m.inodeNumber = i)) = v.minodes :=
    List.eraseP_of_forall_not fun m hm => by simpa using List.find?_eq_none.mp h m hm
  have hzero : ¬ (Dinode.zero.isdir ∧ Dinode.zero.nlink ≠ 0) := by decide
  simp only [inodeRel, modifyMinode, Prog.run_bind, setMinode_absent h, hderef, if_neg hzero, if_true,
    herase]

end Release

namespace Minode

/-- A handle with one more reference. -/
def taken (m : Minode) : Minode := { m with usecount := u16 (m.usecount + 1) }

/-- A handle with one reference less, if it stays in the cache. -/
def released (m : Minode) : Option Minode :=
  if m.Stays then some { m with usecount := m.usecount - 1 } else none

end Minode

namespace Ufs

/-- The handle of an inode that is in the cache of its disk. -/
def minode? (s : Ufs) (p : Minptr) : Option Minode := (s.vdisk p.vdisk).minode? p.ino

/-- The handle of an inode, or the one that it gets from the disk. -/
def loaded (s : Ufs) (p : Minptr) : Minode := (s.vdisk p.vdisk).loaded p.ino

/-- No inode has two handles. -/
def OneHandle (s : Ufs) : Prop := ∀ i, (s.vdisk i).OneHandle

end Ufs

/-- From `s` to `s'` only the inode caches changed, and requests were made. -/
structure Kept (s s' : Ufs) : Prop where
  same : s' = { s with vdisk := s'.vdisk }
  vdisk : ∀ i, s'.vdisk i = { (s.vdisk i).withFaults (s'.vdisk i).io.faults with
    minodes := (s'.vdisk i).minodes }
  oneHandle : s.OneHandle → s'.OneHandle

namespace Kept

variable {s s' s'' : Ufs}

theorem refl (s : Ufs) : Kept s s := ⟨rfl, fun _ => rfl, id⟩

theorem trans (h : Kept s s') (h' : Kept s' s'') : Kept s s'' where
  same := by rw [h'.same, h.same]
  vdisk i := by rw [h'.vdisk i, h.vdisk i]; rfl
  oneHandle := h'.oneHandle ∘ h.oneHandle

/-- A change of one disk. -/
theorem setVdisk {i : Nat} {v : VDisk} (hv : v = { (s.vdisk i).withFaults v.io.faults with
    minodes := v.minodes }) (hone : (s.vdisk i).OneHandle → v.OneHandle) : Kept s (s.setVdisk i v) where
  same := rfl
  vdisk j := by
    by_cases hj : j = i
    · subst hj
      simp only [Ufs.setVdisk, Function.update_self]
      exact hv
    · simp only [Ufs.setVdisk, Function.update_of_ne hj]
      rfl
  oneHandle h j := by
    by_cases hj : j = i
    · subst hj
      simp only [Ufs.setVdisk, Function.update_self]
      exact hone (h j)
    · simp only [Ufs.setVdisk, Function.update_of_ne hj]
      exact h j

end Kept

section Handles

variable (s : Ufs) (i ino : Nat) (p : Minptr)

theorem minode?_setVdisk {v : VDisk} {x : Option Minode} (hown : v.minode? p.ino = x)
    (hother : ∀ j, j ≠ p.ino → v.minode? j = (s.vdisk p.vdisk).minode? j) :
    (s.setVdisk p.vdisk v).minode? = Function.update s.minode? p x := by
  funext q
  by_cases hq : q = p
  · subst hq
    simp only [Ufs.minode?, Ufs.setVdisk, Function.update_self, hown]
  · rw [Function.update_of_ne hq]
    by_cases hi : q.vdisk = p.vdisk
    · simp only [Ufs.minode?, Ufs.setVdisk, hi, Function.update_self]
      exact hother _ fun h => hq (by cases q; cases p; simp_all)
    · simp only [Ufs.minode?, Ufs.setVdisk, Function.update_of_ne hi]

theorem minode?_setVdisk_same {v : VDisk} (h : v.minode? = (s.vdisk i).minode?) :
    (s.setVdisk i v).minode? = s.minode? := by
  rw [minode?_setVdisk s ⟨i, 0⟩ (congrFun h 0) fun j _ => congrFun h j]
  exact Function.update_eq_self ..

/-- What `ufs_inode_get` does to the handles. -/
theorem getMinode_run : ∃ r s', (getMinode i ino).run s = (r, s') ∧ Kept s s' ∧
    (r = none ∧ s.minode? ⟨i, ino⟩ = none ∧ s'.minode? = s.minode? ∨
      r = some ⟨i, ino⟩ ∧
        s'.minode? = Function.update s.minode? ⟨i, ino⟩ (some (s.loaded ⟨i, ino⟩).taken)) := by
  obtain ⟨fs, ⟨hrun, hnone⟩ | ⟨v', hrun, htaken⟩⟩ := inodeGet_cases (s.vdisk i) ino
  · refine ⟨none, s.setVdisk i ((s.vdisk i).withFaults fs), ?_, .setVdisk rfl id, .inl ⟨rfl, hnone, ?_⟩⟩
    · simp only [getMinode, onDisk, Prog.run_bind, hrun, Option.map_none, Prog.run_pure]
    · exact minode?_setVdisk_same s i rfl
  · refine ⟨some ⟨i, ino⟩, s.setVdisk i v', ?_, .setVdisk ?_ htaken.oneHandle, .inr ⟨rfl, ?_⟩⟩
    · simp only [getMinode, onDisk, Prog.run_bind, hrun, Option.map_some, Prog.run_pure]
    · rw [htaken.same]
      rfl
    · exact minode?_setVdisk s ⟨i, ino⟩ htaken.own htaken.other

theorem use_run : ∃ s', p.use.run s = ((), s') ∧ Kept s s' ∧
    s'.minode? = Function.update s.minode? p ((s.minode? p).map Minode.taken) := by
  refine ⟨s.setVdisk p.vdisk ((inodeUse p.ino).run (s.vdisk p.vdisk)).2, rfl, .setVdisk rfl ?_, ?_⟩
  · exact (setMinode_oneHandle (g := Minode.taken) fun _ => rfl).mpr
  · exact minode?_setVdisk s p (VDisk.minode?_setMinode_same (g := Minode.taken) fun _ hm => hm)
      fun j hj => VDisk.minode?_setMinode_other (g := Minode.taken) (fun _ hm => hm) hj

/-- What `ufs_inode_rel` does to the handles. -/
theorem rel_run (hone : s.OneHandle) : ∃ s', p.rel.run s = ((), s') ∧ Kept s s' ∧
    s'.minode? = Function.update s.minode? p ((s.minode? p).bind Minode.released) := by
  cases h : s.minode? p with
  | none =>
    refine ⟨s, ?_, .refl s, ?_⟩
    · simp only [Minptr.rel, onDisk, Prog.run_lift, inodeRel_absent h, Ufs.setVdisk, Function.update_eq_self]
    · rw [Option.bind_none, ← h, Function.update_eq_self]
  | some m =>
    have hcached : (s.vdisk p.vdisk).Cached p.ino := by
      rw [VDisk.Cached, ← Ufs.minode?, h]
      rfl
    obtain ⟨v', hrun, hrel⟩ := inodeRel_run hcached
    refine ⟨s.setVdisk p.vdisk v', ?_, .setVdisk ?_ hrel.oneHandle, ?_⟩
    · simp only [Minptr.rel, onDisk, Prog.run_lift, hrun]
    · rw [hrel.same]
      rfl
    · refine minode?_setVdisk s p ?_ hrel.other
      by_cases hstays : m.Stays
      · rw [Option.bind_some, Minode.released, if_pos hstays]
        exact hrel.stays m h hstays
      · rw [Option.bind_some, Minode.released, if_neg hstays]
        exact hrel.gone (hone p.vdisk) m h hstays

theorem onDisk_readsOnly {α : Type} {x : Prog VDisk α} (hx : ReadsOnly x) : ∃ s',
    (onDisk i x).run s = ((x.run (s.vdisk i)).1, s') ∧ Kept s s' ∧ s'.minode? = s.minode? := by
  obtain ⟨fs, hfs⟩ := hx.run (s.vdisk i)
  refine ⟨s.setVdisk i ((s.vdisk i).withFaults fs), ?_, .setVdisk rfl id, ?_⟩
  · simp only [onDisk, Prog.run_lift, hfs]
  · exact minode?_setVdisk_same s i rfl

end Handles

section Uses

variable {s s' : Ufs} {p q : Minptr}

theorem uses_eq (s : Ufs) (p : Minptr) : s.uses p = (s.minode? p).elim 0 Minode.usecount := rfl

theorem uses_congr (h : s'.minode? = s.minode?) : s'.uses = s.uses := by
  funext p
  rw [uses_eq, h, uses_eq]

theorem uses_update {x : Option Minode} (h : s'.minode? = Function.update s.minode? p x) :
    s'.uses = Function.update s.uses p (x.elim 0 Minode.usecount) := by
  funext q
  rw [uses_eq, h]
  by_cases hq : q = p
  · rw [hq, Function.update_self, Function.update_self]
  · rw [Function.update_of_ne hq, Function.update_of_ne hq, uses_eq]

theorem uses_loaded (s : Ufs) (p : Minptr) : (s.loaded p).usecount = s.uses p := by
  rw [uses_eq, Ufs.minode?, Ufs.loaded, VDisk.loaded]
  cases (s.vdisk p.vdisk).minode? p.ino <;> rfl

theorem released_usecount (m : Minode) : m.released.elim 0 Minode.usecount = m.usecount - 1 := by
  rw [Minode.released]
  split
  · rfl
  · rename_i hstays
    rw [Minode.Stays, not_or, not_not] at hstays
    exact hstays.2.symm

theorem getMinode_uses (s : Ufs) (i ino : Nat) : ∃ r s', (getMinode i ino).run s = (r, s') ∧ Kept s s' ∧
    (r = none ∧ s'.uses = s.uses ∨
      r = some ⟨i, ino⟩ ∧ s'.uses = Function.update s.uses ⟨i, ino⟩ (u16 (s.uses ⟨i, ino⟩ + 1))) := by
  obtain ⟨r, s', hrun, hkept, ⟨hr, _, h⟩ | ⟨hr, h⟩⟩ := getMinode_run s i ino
  · exact ⟨r, s', hrun, hkept, .inl ⟨hr, uses_congr h⟩⟩
  · refine ⟨r, s', hrun, hkept, .inr ⟨hr, ?_⟩⟩
    rw [uses_update h, ← uses_loaded]
    rfl

theorem use_uses (s : Ufs) (p : Minptr) (h : 0 < s.uses p) : ∃ s', p.use.run s = ((), s') ∧ Kept s s' ∧
    s'.uses = Function.update s.uses p (u16 (s.uses p + 1)) := by
  obtain ⟨s', hrun, hkept, hminode⟩ := use_run s p
  refine ⟨s', hrun, hkept, ?_⟩
  rw [uses_update hminode]
  cases hp : s.minode? p with
  | none =>
    rw [uses_eq, hp] at h
    exact absurd h (Nat.lt_irrefl 0)
  | some m =>
    rw [uses_eq, hp]
    rfl

theorem rel_uses (s : Ufs) (p : Minptr) (hone : s.OneHandle) : ∃ s', p.rel.run s = ((), s') ∧ Kept s s' ∧
    s'.uses = Function.update s.uses p (s.uses p - 1) := by
  obtain ⟨s', hrun, hkept, hminode⟩ := rel_run s p hone
  refine ⟨s', hrun, hkept, ?_⟩
  rw [uses_update hminode]
  cases hp : s.minode? p with
  | none =>
    rw [uses_eq, hp]
    rfl
  | some m =>
    rw [uses_eq, hp]
    exact congrArg (Function.update s.uses p) (released_usecount m)

end Uses

end Ufs370
