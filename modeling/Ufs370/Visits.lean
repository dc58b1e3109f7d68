import Ufs370.Tree
import Ufs370.ForeachLaws

/-! The visits of an iteration over any inode, told by what it collects. -/

namespace Ufs370

open Lib

section Visits

variable {κ : Type} (func : κ → Nat → Nat → Prog VDisk (Rc × κ))

/-- `func` on the blocks of a list, until it returns a code. -/
def visitAll : List (Nat × Nat) → κ → Prog VDisk (Rc × κ)
  | [], ctx => return (.ok, ctx)
  | visit :: rest, ctx => do
    let (ret, ctx) ← func ctx visit.1 visit.2
    if ret ≠ .ok then
      return (ret, ctx)
    visitAll rest ctx

/-- The function that keeps a list of its visits. -/
def collect (seen : List (Nat × Nat)) (blk sz : Nat) : Prog VDisk (Rc × List (Nat × Nat)) :=
  return (.ok, seen ++ [(blk, sz)])

variable {func}

theorem visitAll_append (visits visits' : List (Nat × Nat)) (ctx : κ) (v : VDisk) :
    (visitAll func (visits ++ visits') ctx).run v =
      let r := (visitAll func visits ctx).run v
      if r.1.1 = .ok then (visitAll func visits' r.1.2).run r.2 else r := by
  induction visits generalizing ctx v with
  | nil => rfl
  | cons visit visits ih =>
    simp only [List.cons_append, visitAll, Prog.run_bind]
    by_cases hret : ((func ctx visit.1 visit.2).run v).1.1 = .ok
    · simp only [hret, ne_eq, not_true_eq_false, if_false]
      exact ih _ _
    · simp only [hret, ne_eq, not_false_eq_true, if_true, Prog.run_pure, if_false]

end Visits

namespace VDisk

/-- The visits of an iteration over an inode. -/
def visited (v : VDisk) (d : Dinode) : List (Nat × Nat) := ((datablockForeach collect 0 []).run (v.calm d)).1.2

/-- The code that it ends with, unless a visit ends it. -/
def visitCode (v : VDisk) (d : Dinode) : Rc := ((datablockForeach collect 0 []).run (v.calm d)).1.1

/-- The disk is as `v` but for its caches, and no request will fail. -/
def CalmLike (v w : VDisk) : Prop := w = { v.withFaults [] with minodes := w.minodes }

end VDisk

section Calm

variable {v w : VDisk}

theorem readBuf_calm (h : v.io.faults = []) (block : Nat) : (readBuf block).run v = (.ok (v.io.blocks block), v) := by
  simp [readBuf, diskGetBuf, vdiskRead, VDisk.onStore, Store.alloc_nil h, Store.read_nil h]

/-- Entry `n` of an index block. -/
def VDisk.linkAt (v : VDisk) (listblk n : Nat) : Nat :=
  let blk := Bytes.word (v.io.blocks listblk) n
  if datablockNumberSanity v listblk ∧ datablockNumberSanity v blk then blk else 0

theorem datablockLink_calm (h : v.io.faults = []) (listblk n : Nat) :
    (datablockLink listblk n).run v = (v.linkAt listblk n, v) := by
  simp only [datablockLink, VDisk.linkAt, Prog.run_bind]
  by_cases hsane : datablockNumberSanity v listblk = true
  · simp only [hsane, Bool.not_true, Bool.false_eq_true, if_false, Prog.run_bind, readBuf_calm h, true_and]
    rfl
  · simp only [hsane, Bool.not_false, if_true, false_and, Bool.false_eq_true, if_false]
    rfl

theorem VDisk.CalmLike.faults (h : v.CalmLike w) : w.io.faults = [] := by
  rw [h]
  rfl

theorem VDisk.CalmLike.linkAt (h : v.CalmLike w) : w.linkAt = v.linkAt := by
  rw [h]
  rfl

theorem VDisk.CalmLike.sanity (h : v.CalmLike w) (blk : Nat) : datablockNumberSanity w blk = datablockNumberSanity v blk := by
  rw [h]
  rfl

theorem VDisk.CalmLike.blksize (h : v.CalmLike w) : w.blksize = v.blksize := by
  rw [h]
  rfl

theorem calm_calmLike (v : VDisk) (d : Dinode) : v.CalmLike (v.calm d) := rfl

end Calm

section Follows

variable {κ α : Type}

/-- What ends an iteration, up to what is left of the size. -/
def stopped (r : (Rc × κ) × VDisk) (s : (Rc × Nat × κ) × VDisk) : Prop := s.1.1 = r.1.1 ∧ s.1.2.2 = r.1.2 ∧ s.2 = r.2

/-- From the disks `I`, `x` makes the visits that `y` collects, up to one that ends the iteration. -/
def Follows (func : κ → Nat → Nat → Prog VDisk (Rc × κ)) (v : VDisk) (d : Dinode) (I : VDisk → Prop)
    (x : κ → Prog VDisk (Rc × Nat × κ)) (y : List (Nat × Nat) → Prog VDisk (Rc × Nat × List (Nat × Nat))) : Prop :=
  ∃ visits rc left, (∀ seen, (y seen).run (v.calm d) = ((rc, left, seen ++ visits), v.calm d)) ∧
    ∀ ctx w, I w →
      let r := (visitAll func visits ctx).run w
      (r.1.1 = .ok → I r.2 ∧ (x ctx).run w = ((rc, left, r.1.2), r.2)) ∧ (r.1.1 ≠ .ok → stopped r ((x ctx).run w))

variable {func : κ → Nat → Nat → Prog VDisk (Rc × κ)} {v : VDisk} {d : Dinode} {ino : Nat} {I : VDisk → Prop}

theorem Follows.pure {x : κ → Prog VDisk (Rc × Nat × κ)} {y : List (Nat × Nat) → Prog VDisk (Rc × Nat × List (Nat × Nat))}
    (rc : Rc) (left : Nat) (hx : ∀ ctx w, I w → (x ctx).run w = ((rc, left, ctx), w))
    (hy : ∀ seen, (y seen).run (v.calm d) = ((rc, left, seen), v.calm d)) : Follows func v d I x y :=
  ⟨[], rc, left, fun seen => by rw [List.append_nil, hy], fun ctx w hw => ⟨fun _ => ⟨hw, hx ctx w hw⟩, fun h => absurd rfl h⟩⟩

/-- Visits and then others. -/
theorem Follows.chain {x x' : κ → Prog VDisk (Rc × Nat × κ)}
    {y y' : List (Nat × Nat) → Prog VDisk (Rc × Nat × List (Nat × Nat))}
    {f : Nat → κ → Prog VDisk (Rc × Nat × κ)} {g : Nat → List (Nat × Nat) → Prog VDisk (Rc × Nat × List (Nat × Nat))}
    (h : Follows func v d I x y) (hrest : ∀ left, Follows func v d I (f left) (g left))
    (hok : ∀ ctx w, I w → ((x ctx).run w).1.1 = .ok →
      (x' ctx).run w = (f ((x ctx).run w).1.2.1 ((x ctx).run w).1.2.2).run ((x ctx).run w).2)
    (hstop : ∀ ctx w, I w → ((x ctx).run w).1.1 ≠ .ok → (x' ctx).run w = (x ctx).run w)
    (hok' : ∀ seen, ((y seen).run (v.calm d)).1.1 = .ok → (y' seen).run (v.calm d) =
      (g ((y seen).run (v.calm d)).1.2.1 ((y seen).run (v.calm d)).1.2.2).run ((y seen).run (v.calm d)).2)
    (hstop' : ∀ seen, ((y seen).run (v.calm d)).1.1 ≠ .ok → (y' seen).run (v.calm d) = (y seen).run (v.calm d)) :
    Follows func v d I x' y' := by
  obtain ⟨visits, rc, left, hy, hx⟩ := h
  by_cases hrc : rc = .ok
  swap
  · -- the collected visits end the iteration
    refine ⟨visits, rc, left, fun seen => ?_, fun ctx w hw => ⟨fun hret => ?_, fun hret => ?_⟩⟩
    · rw [hstop' seen (by rw [hy]; exact hrc), hy]
    · obtain ⟨hw', hrun⟩ := (hx ctx w hw).1 hret
      exact ⟨hw', by rw [hstop ctx w hw (by rw [hrun]; exact hrc), hrun]⟩
    · have hend := (hx ctx w hw).2 hret
      rw [hstop ctx w hw (by rw [hend.1]; exact hret)]
      exact hend
  subst hrc
  obtain ⟨visits', rc', left', hy', hx'⟩ := hrest left
  refine ⟨visits ++ visits', rc', left', fun seen => ?_, fun ctx w hw => ?_⟩
  · rw [hok' seen (by rw [hy])]
    simp only [hy, hy', List.append_assoc]
  rw [visitAll_append]
  by_cases hret : ((visitAll func visits ctx).run w).1.1 = .ok
  · obtain ⟨hw', hrun⟩ := (hx ctx w hw).1 hret
    simp only [hret, if_true]
    rw [hok ctx w hw (by rw [hrun])]
    simp only [hrun]
    exact hx' _ _ hw'
  · simp only [hret, if_false]
    have hend := (hx ctx w hw).2 hret
    rw [hstop ctx w hw (by rw [hend.1]; exact hret)]
    exact ⟨False.elim, fun _ => hend⟩

theorem Follows.congr {x x' : κ → Prog VDisk (Rc × Nat × κ)}
    {y y' : List (Nat × Nat) → Prog VDisk (Rc × Nat × List (Nat × Nat))} (h : Follows func v d I x y)
    (hx : ∀ ctx w, I w → (x' ctx).run w = (x ctx).run w)
    (hy : ∀ seen, (y' seen).run (v.calm d) = (y seen).run (v.calm d)) : Follows func v d I x' y' := by
  obtain ⟨visits, rc, left, hy₀, hx₀⟩ := h
  refine ⟨visits, rc, left, fun seen => (hy seen).trans (hy₀ seen), fun ctx w hw => ?_⟩
  rw [hx ctx w hw]
  exact hx₀ ctx w hw

/-- A single visit. -/
theorem Follows.visit (hsteady : Steady func I) (blk sz left : Nat) :
    Follows func v d I (fun ctx => do let r ← func ctx blk sz; return (r.1, left, r.2))
      fun seen => return (.ok, left, seen ++ [(blk, sz)]) := by
  refine ⟨[(blk, sz)], .ok, left, fun _ => rfl, fun ctx w hw => ?_⟩
  simp only [visitAll, Prog.run_bind]
  by_cases hret : ((func ctx blk sz).run w).1.1 = .ok
  · simp only [hret, ne_eq, not_true_eq_false, if_false, Prog.run_pure]
    exact ⟨fun _ => ⟨hsteady w hw ctx blk sz hret, trivial⟩, False.elim⟩
  · simp only [hret, ne_eq, not_false_eq_true, if_true, Prog.run_pure]
    exact ⟨False.elim, fun _ => ⟨rfl, rfl, rfl⟩⟩

variable (hsteady : Steady func I) (hlike : ∀ w, I w → v.CalmLike w)
include hsteady hlike

theorem blockLoop_follows {x y : Nat → Prog VDisk Nat} {entry : Nat → Nat}
    (hx : ∀ k w, I w → (x k).run w = (entry k, w)) (hy : ∀ k, (y k).run (v.calm d) = (entry k, v.calm d))
    (left k filesize : Nat) :
    Follows func v d I (blockLoop func x left k filesize) (blockLoop collect y left k filesize) := by
  induction left generalizing k filesize with
  | zero => exact .pure .ok filesize (fun _ _ _ => rfl) fun _ => rfl
  | succ left ih =>
    have hlike' := calm_calmLike v d
    by_cases hsane : datablockNumberSanity v (entry k) = true
    swap
    · refine .pure .eio filesize (fun ctx w hw => ?_) fun seen => ?_
      · simp only [blockLoop, Prog.run_bind, hx k w hw, (hlike w hw).sanity, hsane, Bool.not_false, if_true]
        rfl
      · simp only [blockLoop, Prog.run_bind, hy k, hlike'.sanity, hsane, Bool.not_false, if_true]
        rfl
    by_cases hlast : filesize ≤ v.blksize
    · refine .chain (.visit hsteady (entry k) filesize filesize)
        (f := fun _ ctx => return (.iteratorEnd, filesize, ctx))
        (g := fun _ seen => return (.iteratorEnd, filesize, seen)) (fun _ => .pure _ _ (fun _ _ _ => rfl) fun _ => rfl)
        (fun ctx w hw hret => ?_) (fun ctx w hw hret => ?_) (fun seen _ => ?_) fun seen hret => absurd rfl hret
      · simp only [Prog.run_bind, Prog.run_pure] at hret
        simp only [blockLoop, Prog.run_bind, hx k w hw, (hlike w hw).sanity, hsane, (hlike w hw).blksize, hlast, hret,
          decide_true, Bool.not_true, Bool.false_eq_true, if_true, if_false, ne_eq, not_true_eq_false]
        rfl
      · simp only [Prog.run_bind, Prog.run_pure] at hret
        simp only [blockLoop, Prog.run_bind, hx k w hw, (hlike w hw).sanity, hsane, (hlike w hw).blksize, hlast, hret,
          decide_true, Bool.not_true, Bool.false_eq_true, if_true, if_false, ne_eq, not_false_eq_true]
      · simp only [blockLoop, Prog.run_bind, hy k, hlike'.sanity, hsane, hlike'.blksize, hlast, decide_true, Bool.not_true,
          Bool.false_eq_true, if_true, if_false, collect, Prog.run_pure, ne_eq, not_true_eq_false]
    · refine .chain (.visit hsteady (entry k) v.blksize filesize)
        (f := fun _ => blockLoop func x left (k + 1) (u32sub filesize v.blksize))
        (g := fun _ => blockLoop collect y left (k + 1) (u32sub filesize v.blksize)) (fun _ => ih _ _)
        (fun ctx w hw hret => ?_) (fun ctx w hw hret => ?_) (fun seen _ => ?_) fun seen hret => absurd rfl hret
      · simp only [Prog.run_bind, Prog.run_pure] at hret
        simp only [blockLoop, Prog.run_bind, hx k w hw, (hlike w hw).sanity, hsane, (hlike w hw).blksize, hlast, hret,
          decide_false, Bool.not_true, Bool.false_eq_true, if_false, ne_eq, not_true_eq_false, Prog.run_pure]
      · simp only [Prog.run_bind, Prog.run_pure] at hret
        simp only [blockLoop, Prog.run_bind, hx k w hw, (hlike w hw).sanity, hsane, (hlike w hw).blksize, hlast, hret,
          decide_false, Bool.not_true, Bool.false_eq_true, if_false, if_true, ne_eq, not_false_eq_true]
      · simp only [blockLoop, Prog.run_bind, hy k, hlike'.sanity, hsane, hlike'.blksize, hlast, decide_false, Bool.not_true,
          Bool.false_eq_true, if_false, collect, Prog.run_pure, ne_eq, not_true_eq_false]

omit hsteady in
theorem listLoop_follows {inner : Nat → Nat → κ → Prog VDisk (Rc × Nat × κ)}
    {inner' : Nat → Nat → List (Nat × Nat) → Prog VDisk (Rc × Nat × List (Nat × Nat))}
    (hinner : ∀ blk filesize, Follows func v d I (inner blk filesize) (inner' blk filesize))
    (listblk left j filesize : Nat) :
    Follows func v d I (listLoop inner listblk left j filesize) (listLoop inner' listblk left j filesize) := by
  induction left generalizing j filesize with
  | zero => exact .pure .ok filesize (fun _ _ _ => rfl) fun _ => rfl
  | succ left ih =>
    have hlike' := calm_calmLike v d
    have hx (w : VDisk) (hw : I w) : (datablockLink listblk j).run w = (v.linkAt listblk j, w) := by
      rw [datablockLink_calm (hlike w hw).faults, (hlike w hw).linkAt]
    have hy : (datablockLink listblk j).run (v.calm d) = (v.linkAt listblk j, v.calm d) := by
      rw [datablockLink_calm hlike'.faults, hlike'.linkAt]
    by_cases hsane : datablockNumberSanity v (v.linkAt listblk j) = true
    swap
    · refine .pure .eio filesize (fun ctx w hw => ?_) fun seen => ?_
      · simp only [listLoop, Prog.run_bind, hx w hw, (hlike w hw).sanity, hsane, Bool.not_false, if_true]
        rfl
      · simp only [listLoop, Prog.run_bind, hy, hlike'.sanity, hsane, Bool.not_false, if_true]
        rfl
    refine .chain (hinner (v.linkAt listblk j) filesize) (f := fun sz => listLoop inner listblk left (j + 1) sz)
      (g := fun sz => listLoop inner' listblk left (j + 1) sz) (fun sz => ih (j + 1) sz)
      (fun ctx w hw hret => ?_) (fun ctx w hw hret => ?_) (fun seen hret => ?_) fun seen hret => ?_
    · simp only [listLoop, Prog.run_bind, hx w hw, (hlike w hw).sanity, hsane, Bool.not_true, Bool.false_eq_true,
        if_false, hret, ne_eq, not_true_eq_false]
    · simp only [listLoop, Prog.run_bind, hx w hw, (hlike w hw).sanity, hsane, Bool.not_true, Bool.false_eq_true,
        if_false, hret, ne_eq, not_false_eq_true, if_true]
      rfl
    · simp only [listLoop, Prog.run_bind, hy, hlike'.sanity, hsane, Bool.not_true, Bool.false_eq_true,
        if_false, hret, ne_eq, not_true_eq_false]
    · simp only [listLoop, Prog.run_bind, hy, hlike'.sanity, hsane, Bool.not_true, Bool.false_eq_true,
        if_false, hret, ne_eq, not_false_eq_true, if_true]
      rfl

theorem datablockLoop1_follows (listblk filesize : Nat) :
    Follows func v d I (datablockLoop1 func listblk filesize) (datablockLoop1 collect listblk filesize) := by
  have hlike' := calm_calmLike v d
  have hx (k : Nat) (w : VDisk) (hw : I w) : (datablockLink listblk k).run w = (v.linkAt listblk k, w) := by
    rw [datablockLink_calm (hlike w hw).faults, (hlike w hw).linkAt]
  have hy (k : Nat) : (datablockLink listblk k).run (v.calm d) = (v.linkAt listblk k, v.calm d) := by
    rw [datablockLink_calm hlike'.faults, hlike'.linkAt]
  refine (blockLoop_follows hsteady hlike hx hy (v.blksize / 4) 0 filesize).congr (fun ctx w hw => ?_) fun seen => rfl
  rw [← (hlike w hw).blksize]
  rfl

theorem datablockLoop2_follows (listblk filesize : Nat) :
    Follows func v d I (datablockLoop2 func listblk filesize) (datablockLoop2 collect listblk filesize) := by
  refine (listLoop_follows hlike (datablockLoop1_follows hsteady hlike) listblk (v.blksize / 4) 0 filesize).congr
    (fun ctx w hw => ?_) fun seen => rfl
  rw [← (hlike w hw).blksize]
  rfl

omit hsteady in
theorem foreachIndex_follows (hdin : ∀ w, I w → w.din ino = d) {loop : Nat → Nat → κ → Prog VDisk (Rc × Nat × κ)}
    {loop' : Nat → Nat → List (Nat × Nat) → Prog VDisk (Rc × Nat × List (Nat × Nat))}
    (hloop : ∀ blk filesize, Follows func v d I (loop blk filesize) (loop' blk filesize)) (slot filesize : Nat) :
    Follows func v d I (foreachIndex loop ino slot filesize) (foreachIndex loop' 0 slot filesize) := by
  have hdin' : (v.calm d).din 0 = d := rfl
  by_cases hsane : datablockNumberSanity v (d.addrAt slot) = true
  · refine (hloop (d.addrAt slot) filesize).congr (fun ctx w hw => ?_) fun seen => ?_
    · simp only [foreachIndex, Prog.run_bind, hdin w hw, (hlike w hw).sanity, hsane, Bool.not_true, Bool.false_eq_true,
        if_false]
    · simp only [foreachIndex, Prog.run_bind, hdin', (calm_calmLike v d).sanity, hsane, Bool.not_true,
        Bool.false_eq_true, if_false]
  · refine .pure .eio filesize (fun ctx w hw => ?_) fun seen => ?_
    · simp only [foreachIndex, Prog.run_bind, hdin w hw, (hlike w hw).sanity, hsane, Bool.not_false, if_true]
      rfl
    · simp only [foreachIndex, Prog.run_bind, hdin', (calm_calmLike v d).sanity, hsane, Bool.not_false, if_true]
      rfl

omit hsteady hlike

/-- From the disks `I`, `x` makes the visits that `y` collects and ends with its code, unless a visit ends it. -/
def Iterates (func : κ → Nat → Nat → Prog VDisk (Rc × κ)) (v : VDisk) (d : Dinode) (I : VDisk → Prop)
    (x : κ → Prog VDisk (Rc × κ)) (y : List (Nat × Nat) → Prog VDisk (Rc × List (Nat × Nat))) : Prop :=
  ∃ visits rc, (∀ seen, (y seen).run (v.calm d) = ((rc, seen ++ visits), v.calm d)) ∧
    ∀ ctx w, I w →
      let r := (visitAll func visits ctx).run w
      (x ctx).run w = ((if r.1.1 = .ok then rc else r.1.1, r.1.2), r.2)

/-- What follows a loop in an iteration. -/
def thenIterate {α : Type} (x : α → Prog VDisk (Rc × Nat × α)) (f : Nat → α → Prog VDisk (Rc × α)) (ctx : α) :
    Prog VDisk (Rc × α) := do
  let r ← x ctx
  if r.1 ≠ .ok then
    return (r.1, r.2.2)
  f r.2.1 r.2.2

theorem thenIterate_ok {α : Type} {x : α → Prog VDisk (Rc × Nat × α)} {f : Nat → α → Prog VDisk (Rc × α)} {ctx ctx' : α}
    {left : Nat} {w w' : VDisk} (h : (x ctx).run w = ((.ok, left, ctx'), w')) :
    (thenIterate x f ctx).run w = (f left ctx').run w' := by
  simp only [thenIterate, Prog.run_bind, h, ne_eq, not_true_eq_false, if_false]

theorem thenIterate_stop {α : Type} {x : α → Prog VDisk (Rc × Nat × α)} {f : Nat → α → Prog VDisk (Rc × α)} {ctx : α}
    {w : VDisk} (h : ((x ctx).run w).1.1 ≠ .ok) :
    (thenIterate x f ctx).run w = ((((x ctx).run w).1.1, ((x ctx).run w).1.2.2), ((x ctx).run w).2) := by
  simp only [thenIterate, Prog.run_bind, h, ne_eq, not_false_eq_true, if_true]
  rfl

theorem Follows.iterates {x : κ → Prog VDisk (Rc × Nat × κ)}
    {y : List (Nat × Nat) → Prog VDisk (Rc × Nat × List (Nat × Nat))} {f : Nat → κ → Prog VDisk (Rc × κ)}
    {g : Nat → List (Nat × Nat) → Prog VDisk (Rc × List (Nat × Nat))}
    (h : Follows func v d I x y) (hrest : ∀ left, Iterates func v d I (f left) (g left)) :
    Iterates func v d I (thenIterate x f) (thenIterate y g) := by
  obtain ⟨visits, rc, left, hy, hx⟩ := h
  by_cases hrc : rc = .ok
  swap
  · refine ⟨visits, rc, fun seen => ?_, fun ctx w hw => ?_⟩
    · rw [thenIterate_stop (by rw [hy]; exact hrc), hy]
    by_cases hret : ((visitAll func visits ctx).run w).1.1 = .ok
    · obtain ⟨-, hrun⟩ := (hx ctx w hw).1 hret
      rw [thenIterate_stop (by rw [hrun]; exact hrc), hrun]
      simp only [hret, if_true]
    · obtain ⟨hend, hctx, hstate⟩ := (hx ctx w hw).2 hret
      rw [thenIterate_stop (by rw [hend]; exact hret), hend, hctx, hstate]
      simp only [hret, if_false]
  subst hrc
  obtain ⟨visits', rc', hy', hx'⟩ := hrest left
  refine ⟨visits ++ visits', rc', fun seen => ?_, fun ctx w hw => ?_⟩
  · rw [thenIterate_ok (hy seen), hy', List.append_assoc]
  rw [visitAll_append]
  by_cases hret : ((visitAll func visits ctx).run w).1.1 = .ok
  · obtain ⟨hw', hrun⟩ := (hx ctx w hw).1 hret
    simp only [hret, if_true]
    rw [thenIterate_ok hrun]
    exact hx' _ _ hw'
  · obtain ⟨hend, hctx, hstate⟩ := (hx ctx w hw).2 hret
    rw [thenIterate_stop (by rw [hend]; exact hret), hend, hctx, hstate]
    simp only [hret, if_false]

theorem datablockForeach_stages {w : VDisk} {α : Type} (f : α → Nat → Nat → Prog VDisk (Rc × α)) (ctx : α)
    (hpos : (w.din ino).filesize.toNat ≠ 0) : (datablockForeach f ino ctx).run w =
      (thenIterate (blockLoop f (fun i => do return ((← Prog.get).din ino).addrAt i) naddrDirect 0
          (w.din ino).filesize.toNat) (fun left => thenIterate (foreachIndex (datablockLoop1 f) ino naddrIndex1 left)
        fun left => thenIterate (foreachIndex (datablockLoop2 f) ino naddrIndex2 left)
        fun left => thenIterate (foreachIndex (fun blk filesize ctx => do
            listLoop (datablockLoop2 f) blk ((← Prog.get).blksize / 4) 0 filesize ctx) ino naddrIndex3 left)
        fun _ ctx => return (.efbig, ctx)) ctx).run w := by
  simp only [datablockForeach, Prog.run_bind, hpos, if_false]
  rfl

theorem datablockForeach_iterates (hsteady : Steady func I) (hlike : ∀ w, I w → v.CalmLike w)
    (hdin : ∀ w, I w → w.din ino = d) :
    Iterates func v d I (datablockForeach func ino) (datablockForeach collect 0) := by
  have hdin' : (v.calm d).din 0 = d := rfl
  by_cases hzero : d.filesize.toNat = 0
  · refine ⟨[], .iteratorEnd, fun seen => ?_, fun ctx w hw => ?_⟩
    · simp only [datablockForeach, Prog.run_bind, hdin', hzero, if_true, List.append_nil]
      rfl
    · simp only [datablockForeach, Prog.run_bind, hdin w hw, hzero, if_true, visitAll]
      rfl
  have hloop3 (blk filesize : Nat) : Follows func v d I
      (fun ctx => do listLoop (datablockLoop2 func) blk ((← Prog.get).blksize / 4) 0 filesize ctx)
      (fun ctx => do listLoop (datablockLoop2 collect) blk ((← Prog.get).blksize / 4) 0 filesize ctx) := by
    refine (listLoop_follows hlike (datablockLoop2_follows hsteady hlike) blk (v.blksize / 4) 0 filesize).congr
      (fun ctx w hw => ?_) fun seen => rfl
    rw [← (hlike w hw).blksize]
    rfl
  have hend : Iterates func v d I (fun ctx => return (.efbig, ctx)) fun seen => return (.efbig, seen) :=
    ⟨[], .efbig, fun seen => by rw [List.append_nil]; rfl, fun _ _ _ => rfl⟩
  have hdirect : Follows func v d I
      (blockLoop func (fun i => do return ((← Prog.get).din ino).addrAt i) naddrDirect 0 d.filesize.toNat)
      (blockLoop collect (fun i => do return ((← Prog.get).din 0).addrAt i) naddrDirect 0 d.filesize.toNat) :=
    blockLoop_follows hsteady hlike (fun k w hw => by simp only [Prog.run_bind, hdin w hw]; rfl) (fun k => rfl) ..
  obtain ⟨visits, rc, hy, hx⟩ := hdirect.iterates fun left =>
    (foreachIndex_follows hlike hdin (datablockLoop1_follows hsteady hlike) naddrIndex1 left).iterates fun left =>
    (foreachIndex_follows hlike hdin (datablockLoop2_follows hsteady hlike) naddrIndex2 left).iterates fun left =>
    (foreachIndex_follows hlike hdin hloop3 naddrIndex3 left).iterates fun _ => hend
  refine ⟨visits, rc, fun seen => ?_, fun ctx w hw => ?_⟩
  · rw [datablockForeach_stages _ _ (by rw [hdin']; exact hzero), hdin']
    exact hy seen
  · rw [datablockForeach_stages _ _ (by rw [hdin w hw]; exact hzero), hdin w hw]
    exact hx ctx w hw

/-- An iteration on a disk without failing requests, by the visits that it makes. -/
theorem datablockForeach_visited (hsteady : Steady func I) (hlike : ∀ w, I w → v.CalmLike w)
    (hdin : ∀ w, I w → w.din ino = d) (ctx : κ) {w : VDisk} (hw : I w) :
    let r := (visitAll func (v.visited d) ctx).run w
    (datablockForeach func ino ctx).run w = ((if r.1.1 = .ok then v.visitCode d else r.1.1, r.1.2), r.2) := by
  obtain ⟨visits, rc, hy, hx⟩ := datablockForeach_iterates hsteady hlike hdin
  have hvisits : v.visited d = visits := by rw [VDisk.visited, hy, List.nil_append]
  have hcode : v.visitCode d = rc := by rw [VDisk.visitCode, hy]
  rw [hvisits, hcode]
  exact hx ctx w hw

end Follows

end Ufs370
