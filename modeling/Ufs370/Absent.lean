import Ufs370.Descent
import Ufs370.LookupRefs

/-! Where a walk of `ufs_lookup_minode` finds no inode under a name. -/

namespace Ufs370

open Lib

/-- The directory in which a walk down some names finds no inode, and the names that are left after that one. -/
def Ufs.stop (s : Ufs) : List (List UInt8) → Minptr → Option (Minptr × List (List UInt8))
  | [], _ => none
  | name :: next, p => (s.enter p).bind fun q =>
    match s.child q name with
    | none => some (q, next)
    | some c => s.stop next c

/-- The disk that is mounted on a directory has its root. -/
def Ufs.Rooted (s : Ufs) : Prop :=
  ∀ p d vdisk, s.Reached p → s.seen p = some (d, some vdisk) → (s.seen ⟨vdisk, rootInode⟩).isSome

section Walk

variable {s s' : Ufs} {p q : Minptr} {rc : Rc}

namespace Ufs.Later

theorem stop (h : s.Later s') : s'.stop = s.stop := by
  funext ns
  induction ns with
  | nil => rfl
  | cons name next ih =>
    funext p
    simp only [Ufs.stop, h.enter, h.child, ih]

theorem rooted (h : s.Later s') (hr : s.Rooted) : s'.Rooted := by
  intro p d vdisk hp hseen
  rw [h.seen] at hseen ⊢
  exact hr p d vdisk (h.reached.mp hp) hseen

end Ufs.Later

theorem searchDir_ne_enoent (h : s.Settled) (hcalm : s.Calm) (hrooted : s.Rooted) (hcached : s.Cached p) (hp : s.Reached p)
    (hrun : (searchDir p).run s = (.error rc, s')) : rc ≠ .enoent := by
  simp only [searchDir, Prog.run_bind, Prog.get] at hrun
  by_cases hcheck : checkDir s p = .ok
  swap
  · simp only [ne_eq, hcheck, not_false_eq_true, if_true] at hrun
    obtain rfl := Except.error.inj (Prod.ext_iff.mp hrun).1
    exact checkDir_ne s p
  simp only [hcheck, ne_eq, not_true_eq_false, if_false] at hrun
  cases hmounted : (s.minode p).mountedVdisk with
  | none =>
    simp only [hmounted] at hrun
    cases (Prod.ext_iff.mp hrun).1
  | some vdisk =>
    have hsome := hrooted p _ vdisk hp (by rw [seen_cached hcached, hmounted])
    have hrel : s.Later (p.rel.run s).2 := rel_later h
    obtain ⟨x, s₂, hget, -, ⟨rfl, -⟩ | ⟨rfl, hnone⟩⟩ := getMinode_later (hrel.settled h) vdisk rootInode
    · simp only [hmounted, Prog.run_bind, hget, Prog.run_ite] at hrun
      split at hrun
      · obtain rfl := Except.error.inj (Prod.ext_iff.mp hrun).1
        exact checkDir_ne _ _
      · cases (Prod.ext_iff.mp hrun).1
    · have hnone := hnone (hrel.calm hcalm)
      rw [hrel.seen] at hnone
      rw [hnone] at hsome
      cases hsome

theorem lookupChild_enoent (hdir : s.isdir p = true) {name : List UInt8}
    (hrun : (lookupChild p name).run s = (.error rc, s')) : rc = .enoent := by
  have hlookup : ((onDisk p.vdisk (fileLookupByName p.ino name)).run s).1 = .error rc ∨ rc = .enoent := by
    simp only [lookupChild, Prog.run_bind] at hrun
    split at hrun
    · rename_i hfound
      rw [hfound]
      exact .inl (congrArg Except.error (Except.error.inj (Prod.ext_iff.mp hrun).1))
    · simp only [Prog.run_bind] at hrun
      split at hrun
      · exact .inr (Except.error.inj (Prod.ext_iff.mp hrun).1).symm
      · cases (Prod.ext_iff.mp hrun).1
  refine hlookup.elim (fun hlookup => ?_) id
  have hdin : ((s.vdisk p.vdisk).din p.ino).isdir = true := hdir
  change ((fileLookupByName p.ino name).run (s.vdisk p.vdisk)).1 = _ at hlookup
  simp only [fileLookupByName, Prog.run_bind, hdin, Bool.not_true, Bool.false_eq_true, if_false, Prog.run_ite] at hlookup
  split at hlookup
  · exact (Except.error.inj hlookup).symm
  · cases hlookup

/-- The walk ends with `ENOENT` where it stops at a name that is not there, and only there. -/
theorem lookupMinodeLoop_stop (ns : List (List UInt8)) (out : Found) (h : s.Settled) (hcalm : s.Calm) (hrooted : s.Rooted)
    (hcached : s.Cached p) (hp : s.Reached p) : ∃ rc out' s', (lookupMinodeLoop true true ns p out).run s = ((rc, out'), s') ∧
    s.Later s' ∧ match s.stop ns p with
      | none => rc ≠ .enoent
      | some (q, rest) => rc = .enoent ∧ s.Reached q ∧ s'.Firm q ∧ out'.dir = some q ∧ out'.last = out.last ∧
        out'.fullpath ++ Components.path slash rest = out.fullpath ++ Components.path slash ns := by
  induction ns generalizing s p out with
  | nil => exact ⟨_, _, s, rfl, .refl h, Rc.noConfusion⟩
  | cons name next ih =>
    obtain ⟨r, s₁, hsearch, hlater₁, ⟨q, rfl, henter, hq, hfirm⟩ | ⟨⟨rc, rfl, hrc⟩, hnone⟩⟩ := searchDir_later h hcached hp
    swap
    · have hcode := searchDir_ne_enoent h hcalm hrooted hcached hp hsearch
      simp only [lookupMinodeLoop, Prog.run_bind, hsearch, Ufs.stop, hnone hcalm, Option.bind_none]
      exact ⟨rc, _, s₁, rfl, hlater₁, hcode⟩
    have h₁ := hlater₁.settled h
    have hstore : (storeDir true q { out with fullpath := out.fullpath ++ slash :: name }).run s₁ =
        (⟨some q, out.last, out.fullpath ++ slash :: name⟩, ((relOpt out.dir).run s₁).2) := rfl
    have hlater₂ := relOpt_later h₁ out.dir
    generalize ((relOpt out.dir).run s₁).2 = s₂ at hstore hlater₂
    have h₂ := hlater₂.settled h₁
    have h₁₂ := hlater₁.trans hlater₂
    have hfirm₂ := hlater₂.firm hfirm
    obtain ⟨r, s₃, hchild, hlater₃, ⟨c, rfl, hc, hreached, hcached'⟩ | ⟨⟨rc, rfl, hrc⟩, hnone⟩⟩ :=
      lookupChild_later h₂ hfirm₂ (h₁₂.reached.mpr hq) name
    swap
    · have hcode := lookupChild_enoent (by
        obtain ⟨m, hm, hdir, -⟩ := hfirm₂
        rw [Ufs.isdir, Ufs.dinode, minode_some hm]
        exact hdir) hchild
      have hnone := hnone (h₁₂.calm hcalm)
      rw [h₁₂.child] at hnone
      simp only [lookupMinodeLoop, Prog.run_bind, hsearch, hstore, hchild, Ufs.stop, henter, Option.bind_some, hnone]
      refine ⟨rc, _, s₃, rfl, h₁₂.trans hlater₃, hcode, hq, hlater₃.firm hfirm₂, rfl, rfl, ?_⟩
      simp [Components.path]
    have h₁₃ := h₁₂.trans hlater₃
    rw [h₁₂.child] at hc
    rw [h₁₂.reached] at hreached
    simp only [lookupMinodeLoop, Prog.run_bind, hsearch, hstore, hchild, Ufs.stop, henter, Option.bind_some, hc]
    by_cases hnext : next = []
    · subst hnext
      simp only [ne_eq, not_true_eq_false, if_false, if_true, Ufs.stop]
      exact ⟨_, _, s₃, rfl, h₁₃, Rc.noConfusion⟩
    · obtain ⟨rc, out', s', hrun, hlater, hend⟩ := ih ⟨some q, out.last, out.fullpath ++ slash :: name⟩ (h₁₃.settled h)
        (h₁₃.calm hcalm) (h₁₃.rooted hrooted) hcached' (h₁₃.reached.mpr hreached)
      simp only [ne_eq, hnext, not_false_eq_true, if_true]
      refine ⟨rc, out', s', hrun, h₁₃.trans hlater, ?_⟩
      rw [h₁₃.stop] at hend
      split at hend
      · exact hend
      · rw [h₁₃.reached] at hend
        obtain ⟨hrc, hreached', hfirm', hdir, hlast, hpath⟩ := hend
        refine ⟨hrc, hreached', hfirm', hdir, hlast, hpath.trans ?_⟩
        simp [Components.path]

/-- What a walk of `ufs_lookup_minode` comes to where it stops. -/
theorem lookupMinode_stop (h : s.Settled) (hcalm : s.Calm) (hrooted : s.Rooted) (path : List UInt8)
    (hslash : (tempPath s.cwd path).head? = some slash) : ∃ rc out s', (lookupMinode path true true).run s = ((rc, out), s') ∧
    s.Later s' ∧ match s.stop (names (tempPath s.cwd path)) s.fsroot with
      | none => rc ≠ .enoent
      | some (q, rest) => rc = .enoent ∧ s.Reached q ∧ s'.Firm q ∧ out.dir = some q ∧ out.last = none ∧
        out.fullpath ++ Components.path slash rest = Components.path slash (names (tempPath s.cwd path)) := by
  have huse : s.Later (s.fsroot.use.run s).2 := use_later h
  have hcached : (s.fsroot.use.run s).2.Cached s.fsroot := (huse.firm h.root).cached
  obtain ⟨rc, out, s', hrun, hlater, hend⟩ := lookupMinodeLoop_stop (names (tempPath s.cwd path)) ⟨some s.fsroot, none, []⟩
    (huse.settled h) (huse.calm hcalm) (huse.rooted hrooted) hcached (huse.reached.mpr .root)
  simp only [lookupMinode, Prog.run_bind, Prog.get, hslash, ne_eq, not_true_eq_false, if_false, if_true, hrun]
  refine ⟨_, _, s', rfl, huse.trans hlater, ?_⟩
  rw [huse.stop] at hend
  split at hend
  · exact hend
  · rw [huse.reached] at hend
    obtain ⟨rfl, hreached, hfirm, hdir, hlast, hpath⟩ := hend
    simp only [reduceCtorEq, false_and, if_false]
    exact ⟨trivial, hreached, hfirm, hdir, hlast, hpath⟩

end Walk

end Ufs370
