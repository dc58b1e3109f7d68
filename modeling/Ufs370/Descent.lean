import Ufs370.Tree

/-! The walk of `ufs_lookup_minode` down the tree that it sees. -/

namespace Ufs370

open Lib

namespace Ufs

variable (s : Ufs)

def seen (p : Minptr) : Option (Dinode × Option Nat) := (s.vdisk p.vdisk).seen p.ino

/-- A directory that the user may look into. -/
def passes (d : Dinode) : Bool := inodeAuth s.acee d ufsaccExec && d.isdir

/-- The directory to look into, where a walk is at `p`. -/
def enter (p : Minptr) : Option Minptr :=
  match s.seen p with
  | none => none
  | some (d, mounted) =>
    if s.passes d then
      match mounted with
      | none => some p
      | some vdisk =>
        match s.seen ⟨vdisk, rootInode⟩ with
        | none => none
        | some (d, _) => if s.passes d then some ⟨vdisk, rootInode⟩ else none
    else
      none

def child (p : Minptr) (name : List UInt8) : Option Minptr :=
  match s.seen p with
  | none => none
  | some (d, _) =>
    match (s.vdisk p.vdisk).entry d name with
    | .error _ => none
    | .ok ino => if (s.seen ⟨p.vdisk, ino⟩).isSome then some ⟨p.vdisk, ino⟩ else none

/-- Where some names lead from `p`. -/
def descend : List (List UInt8) → Minptr → Option Minptr
  | [], p => some p
  | name :: next, p => (s.enter p).bind fun q => (s.child q name).bind (descend next)

/-- What paths lead to from the root. -/
inductive Reached : Minptr → Prop
  | root : Reached s.fsroot
  | mount {p d vdisk} : Reached p → s.seen p = some (d, some vdisk) → Reached ⟨vdisk, rootInode⟩
  | child {p name c} : Reached p → s.child p name = some c → Reached c

/-- No request will fail on any disk. -/
def Calm : Prop := ∀ i, (s.vdisk i).io.faults = []

def Cached (p : Minptr) : Prop := (s.vdisk p.vdisk).Cached p.ino

def Firm (p : Minptr) : Prop := (s.vdisk p.vdisk).Firm p.ino

/-- The state between calls: a handle that may go equals its slot, the root is in the cache, and the
directories of the tree have links. -/
structure Settled : Prop where
  vdisk : ∀ i, (s.vdisk i).Settled
  sane : ∀ i, 0 < (s.vdisk i).sb.datablockStartSector
  root : s.Firm s.fsroot
  linked : ∀ p d mounted, s.Reached p → s.seen p = some (d, mounted) → d.isdir = true → d.nlink ≠ 0

/-- From `s` to `s'` some handles were taken and some released. -/
structure Later (s s' : Ufs) : Prop where
  same : s' = { s with vdisk := s'.vdisk }
  vdisk : ∀ i, (s.vdisk i).Later (s'.vdisk i)

end Ufs

section Later

variable {s s' s'' : Ufs} {p q : Minptr} {i : Nat}

namespace Ufs.Later

theorem refl (h : s.Settled) : s.Later s := ⟨rfl, fun i => .refl (h.vdisk i)⟩

theorem trans (h : s.Later s') (h' : s'.Later s'') : s.Later s'' where
  same := by rw [h'.same, h.same]
  vdisk i := (h.vdisk i).trans (h'.vdisk i)

theorem seen (h : s.Later s') : s'.seen = s.seen := funext fun p => congrFun (h.vdisk p.vdisk).seen p.ino

theorem entry (h : s.Later s') (i : Nat) : (s'.vdisk i).entry = (s.vdisk i).entry := by
  rw [(h.vdisk i).same]
  rfl

theorem passes (h : s.Later s') : s'.passes = s.passes := by
  rw [h.same]
  rfl

theorem enter (h : s.Later s') : s'.enter = s.enter := by
  funext p
  simp only [Ufs.enter, h.seen, h.passes]

theorem child (h : s.Later s') : s'.child = s.child := by
  funext p name
  simp only [Ufs.child, h.seen, h.entry]

theorem descend (h : s.Later s') : s'.descend = s.descend := by
  funext ns
  induction ns with
  | nil => rfl
  | cons name next ih =>
    funext p
    simp only [Ufs.descend, h.enter, h.child, ih]

theorem reached (h : s.Later s') : s'.Reached p ↔ s.Reached p := by
  have hroot : s'.fsroot = s.fsroot := by rw [h.same]
  constructor
  · intro hp
    induction hp with
    | root => exact hroot ▸ .root
    | mount _ hm ih => exact .mount ih (h.seen ▸ hm)
    | child _ hc ih => exact .child ih (h.child ▸ hc)
  · intro hp
    induction hp with
    | root => exact hroot ▸ .root
    | mount _ hm ih => exact .mount ih (h.seen.symm ▸ hm)
    | child _ hc ih => exact .child ih (h.child.symm ▸ hc)

theorem calm (h : s.Later s') (hcalm : s.Calm) : s'.Calm := fun i => (h.vdisk i).calm (hcalm i)

theorem firm (h : s.Later s') (hp : s.Firm p) : s'.Firm p := (h.vdisk p.vdisk).firm p.ino hp

theorem settled (h : s.Later s') (hs : s.Settled) : s'.Settled where
  vdisk i := (h.vdisk i).settled
  sane i := by
    rw [(h.vdisk i).same]
    exact hs.sane i
  root := by
    have hroot' : s'.fsroot = s.fsroot := by rw [h.same]
    rw [hroot']
    exact h.firm hs.root
  linked p d mounted hp hseen := hs.linked p d mounted (h.reached.mp hp) (h.seen ▸ hseen)

end Ufs.Later

theorem seen_cached (h : s.Cached p) : s.seen p = some (s.dinode p, (s.minode p).mountedVdisk) :=
  seen_some (VDisk.Cached.deref h)

/-- A directory of the tree that is in the cache stays there. -/
theorem firm_of_reached (h : s.Settled) (hp : s.Reached p) (hcached : s.Cached p) (hdir : s.isdir p = true) : s.Firm p :=
  ⟨_, VDisk.Cached.deref hcached, hdir, h.linked p _ _ hp (seen_cached hcached) hdir⟩

theorem checkDir_ok : checkDir s p = .ok ↔ s.passes (s.dinode p) = true := by
  rw [checkDir, Ufs.authExec, Ufs.isdir, Ufs.passes]
  by_cases hexec : inodeAuth s.acee (s.dinode p) ufsaccExec = true <;> by_cases hdir : (s.dinode p).isdir = true <;>
    simp [hexec, hdir]

end Later

section Walk

variable {s : Ufs} {p : Minptr}

theorem onDisk_later {α : Type} {i : Nat} {x : Prog VDisk α} (h : s.Settled)
    (hx : (s.vdisk i).Later (x.run (s.vdisk i)).2) : s.Later ((onDisk i x).run s).2 where
  same := rfl
  vdisk j := by
    by_cases hj : j = i
    · subst hj
      simp only [onDisk, Prog.run_lift, Ufs.setVdisk, Function.update_self]
      exact hx
    · simp only [onDisk, Prog.run_lift, Ufs.setVdisk, Function.update_of_ne hj]
      exact .refl (h.vdisk j)

theorem use_later (h : s.Settled) : s.Later (p.use.run s).2 := onDisk_later h (inodeUse_later (h.vdisk _))

theorem rel_later (h : s.Settled) : s.Later (p.rel.run s).2 := onDisk_later h (inodeRel_later (h.vdisk _))

theorem relOpt_later (h : s.Settled) (x : Option Minptr) : s.Later ((relOpt x).run s).2 := by
  cases x with
  | none => exact .refl h
  | some p => exact rel_later h

theorem getMinode_later (h : s.Settled) (i ino : Nat) : ∃ x s', (getMinode i ino).run s = (x, s') ∧ s.Later s' ∧
    (x = some ⟨i, ino⟩ ∧ (s.seen ⟨i, ino⟩).isSome ∧ s'.Cached ⟨i, ino⟩ ∨
      x = none ∧ (s.Calm → s.seen ⟨i, ino⟩ = none)) := by
  obtain ⟨hlater, hx⟩ := inodeGet_later (i := ino) (h.vdisk i)
  refine ⟨_, _, rfl, onDisk_later h hlater, ?_⟩
  rcases hx with ⟨hx, hseen, hcached⟩ | ⟨hx, hseen⟩
  · refine .inl ⟨?_, hseen, ?_⟩
    · simp only [onDisk, hx, Option.map_some]
    · change (Function.update s.vdisk i _ i).Cached ino
      rw [Function.update_self]
      exact hcached
  · refine .inr ⟨?_, fun hcalm => hseen (hcalm i)⟩
    simp only [onDisk, hx, Option.map_none]

/-- The directory that a walk looks into, which stays in the cache. -/
theorem searchDir_later (h : s.Settled) (hcached : s.Cached p) (hp : s.Reached p) : ∃ r s', (searchDir p).run s = (r, s') ∧
    s.Later s' ∧ ((∃ q, r = .ok q ∧ s.enter p = some q ∧ s.Reached q ∧ s'.Firm q) ∨
      (∃ rc, r = .error rc ∧ rc ≠ .ok) ∧ (s.Calm → s.enter p = none)) := by
  have hseen := seen_cached hcached
  simp only [searchDir, Prog.run_bind, Prog.get]
  by_cases hcheck : checkDir s p = .ok
  swap
  · have hpasses : ¬ s.passes (s.dinode p) = true := mt checkDir_ok.mpr hcheck
    refine ⟨.error (checkDir s p), s, ?_, .refl h, .inr ⟨⟨_, rfl, hcheck⟩, fun _ => ?_⟩⟩
    · simp only [ne_eq, hcheck, not_false_eq_true, if_true]
      rfl
    · simp only [Ufs.enter, hseen, hpasses, Bool.false_eq_true, if_false]
  have hpasses := checkDir_ok.mp hcheck
  have hfirm : s.Firm p := firm_of_reached h hp hcached (Bool.and_eq_true_iff.mp hpasses).2
  simp only [hcheck, ne_eq, not_true_eq_false, if_false]
  cases hmounted : (s.minode p).mountedVdisk with
  | none =>
    refine ⟨.ok p, s, rfl, .refl h, .inl ⟨p, rfl, ?_, hp, hfirm⟩⟩
    simp only [Ufs.enter, hseen, hpasses, if_true, hmounted]
  | some vdisk =>
    have hrel : s.Later (p.rel.run s).2 := rel_later h
    obtain ⟨x, s₂, hget, hlater, hx⟩ := getMinode_later (hrel.settled h) vdisk rootInode
    have hlater := hrel.trans hlater
    have hq : s.Reached ⟨vdisk, rootInode⟩ := .mount hp (by rw [hseen, hmounted])
    simp only [Prog.run_bind, hget]
    rcases hx with ⟨rfl, hsome, hcached'⟩ | ⟨rfl, hnone⟩
    · have hseen' := seen_cached hcached'
      rw [hlater.seen] at hseen'
      by_cases hcheck' : checkDir s₂ ⟨vdisk, rootInode⟩ = .ok
      · have hpasses' := checkDir_ok.mp hcheck'
        have hfirm' : s₂.Firm ⟨vdisk, rootInode⟩ := firm_of_reached (hlater.settled h) (hlater.reached.mpr hq) hcached'
          (Bool.and_eq_true_iff.mp hpasses').2
        rw [hlater.passes] at hpasses'
        refine ⟨.ok ⟨vdisk, rootInode⟩, s₂, ?_, hlater, .inl ⟨_, rfl, ?_, hq, hfirm'⟩⟩
        · simp only [Prog.run_bind, hcheck', not_true_eq_false, if_false]
          rfl
        · simp only [Ufs.enter, hseen, hpasses, if_true, hmounted, hseen', hpasses']
      · have hpasses' : ¬ s₂.passes (s₂.dinode ⟨vdisk, rootInode⟩) = true := mt checkDir_ok.mpr hcheck'
        rw [hlater.passes] at hpasses'
        refine ⟨.error (checkDir s₂ ⟨vdisk, rootInode⟩), s₂, ?_, hlater, .inr ⟨⟨_, rfl, hcheck'⟩, fun _ => ?_⟩⟩
        · simp only [Prog.run_bind, hcheck', not_false_eq_true, if_true]
          rfl
        · simp only [Ufs.enter, hseen, hpasses, if_true, hmounted, hseen', hpasses']
          simp
    · refine ⟨.error .enoent, s₂, rfl, hlater, .inr ⟨⟨_, rfl, by decide⟩, fun hcalm => ?_⟩⟩
      have hnone := hnone (hrel.calm hcalm)
      rw [hrel.seen] at hnone
      simp only [Ufs.enter, hseen, hpasses, if_true, hmounted, hnone]

theorem fileLookupByName_ne_ok {v v' : VDisk} {ino : Nat} {name : List UInt8} {rc : Rc}
    (h : (fileLookupByName ino name).run v = (.error rc, v')) : rc ≠ .ok := by
  rintro rfl
  have h := (Prod.ext_iff.mp h).1
  simp only [fileLookupByName, Prog.run_bind] at h
  by_cases hdir : (v.din ino).isdir = true
  · simp only [hdir, Bool.not_true, Bool.false_eq_true, if_false, Prog.run_bind, Prog.run_ite] at h
    split at h <;> cases h
  · simp only [hdir, Bool.not_false, if_true] at h
    cases h

/-- The inode under a name. -/
theorem lookupChild_later (h : s.Settled) (hfirm : s.Firm p) (hp : s.Reached p) (name : List UInt8) : ∃ r s',
    (lookupChild p name).run s = (r, s') ∧ s.Later s' ∧
      ((∃ q, r = .ok q ∧ s.child p name = some q ∧ s.Reached q ∧ s'.Cached q) ∨
        (∃ rc, r = .error rc ∧ rc ≠ .ok) ∧ (s.Calm → s.child p name = none)) := by
  have hseen := seen_cached (s := s) (p := p) hfirm.cached
  obtain ⟨r, fs, hrun, hcalm, hr⟩ := fileLookupByName_entry (h.sane p.vdisk) p.ino name
  change r = (s.vdisk p.vdisk).entry (s.dinode p) name ∨ _ at hr
  have hdisk : (onDisk p.vdisk (fileLookupByName p.ino name)).run s =
      (r, s.setVdisk p.vdisk ((s.vdisk p.vdisk).withFaults fs)) := by
    simp only [onDisk, hrun]
  have hlater : s.Later (s.setVdisk p.vdisk ((s.vdisk p.vdisk).withFaults fs)) := by
    have := onDisk_later (i := p.vdisk) (x := fileLookupByName p.ino name) h (by
      rw [hrun]
      exact .withFaults (h.vdisk p.vdisk) hcalm)
    rwa [hdisk] at this
  simp only [lookupChild, Prog.run_bind, hdisk]
  generalize s.setVdisk p.vdisk ((s.vdisk p.vdisk).withFaults fs) = s₁ at hlater
  cases r with
  | error rc =>
    refine ⟨.error rc, s₁, rfl, hlater, .inr ⟨⟨rc, rfl, fileLookupByName_ne_ok hrun⟩, fun hcalm => ?_⟩⟩
    have hentry := hr.resolve_right fun hr => hr.1 (hcalm p.vdisk)
    simp only [Ufs.child, hseen, ← hentry]
  | ok ino =>
    have hentry := hr.resolve_right fun hr => by
      obtain ⟨_, rc, hrc⟩ := hr
      cases hrc
    have hrel : s₁.Later (p.rel.run s₁).2 := rel_later (hlater.settled h)
    obtain ⟨x, s₂, hget, hlater₂, hx⟩ := getMinode_later (hrel.settled (hlater.settled h)) p.vdisk ino
    have hbefore := hlater.trans hrel
    simp only [Prog.run_bind, hget]
    rcases hx with ⟨rfl, hsome, hcached⟩ | ⟨rfl, hnone⟩
    · rw [hbefore.seen] at hsome
      have hchild : s.child p name = some ⟨p.vdisk, ino⟩ := by
        simp only [Ufs.child, hseen, ← hentry, hsome, if_true]
      exact ⟨_, s₂, rfl, hbefore.trans hlater₂, .inl ⟨_, rfl, hchild, .child hp hchild, hcached⟩⟩
    · refine ⟨_, s₂, rfl, hbefore.trans hlater₂, .inr ⟨⟨_, rfl, by decide⟩, fun hcalm => ?_⟩⟩
      have hnone := hnone (hbefore.calm hcalm)
      rw [hbefore.seen] at hnone
      simp only [Ufs.child, hseen, ← hentry, hnone]
      rfl

theorem storeDir_later (h : s.Settled) (dir : Bool) (p : Minptr) (out : Found) : ∃ out' s',
    (storeDir dir p out).run s = (out', s') ∧ s.Later s' ∧ out'.last = out.last ∧ out'.fullpath = out.fullpath := by
  cases dir with
  | false => exact ⟨out, s, rfl, .refl h, rfl, rfl⟩
  | true => exact ⟨_, _, rfl, relOpt_later h out.dir, rfl, rfl⟩

/-- Where the walk ends, and that only a request that fails may keep it from there. -/
theorem lookupMinodeLoop_later (dir : Bool) (ns : List (List UInt8)) (out : Found) (h : s.Settled) (hcached : s.Cached p)
    (hp : s.Reached p) : ∃ rc out' s', (lookupMinodeLoop dir true ns p out).run s = ((rc, out'), s') ∧ s.Later s' ∧
    ((∃ q, rc = .ok ∧ s.descend ns p = some q ∧ s.Reached q ∧ out'.fullpath = out.fullpath ++ Components.path slash ns ∧
        (ns = [] → out' = out ∧ q = p) ∧ (ns ≠ [] → out'.last = some q ∧ s'.Cached q)) ∨
      rc ≠ .ok ∧ (s.Calm → s.descend ns p = none)) := by
  induction ns generalizing s p out with
  | nil =>
    refine ⟨.ok, out, s, rfl, .refl h, .inl ⟨p, rfl, rfl, hp, ?_, fun _ => ⟨rfl, rfl⟩, fun hne => absurd rfl hne⟩⟩
    rw [Components.path, List.flatMap_nil, List.append_nil]
  | cons name next ih =>
    obtain ⟨r, s₁, hsearch, hlater₁, ⟨q, rfl, henter, hq, hfirm⟩ | ⟨⟨rc, rfl, hrc⟩, hnone⟩⟩ := searchDir_later h hcached hp
    swap
    · simp only [lookupMinodeLoop, Prog.run_bind, hsearch]
      exact ⟨rc, _, s₁, rfl, hlater₁, .inr ⟨hrc, fun hcalm => by rw [Ufs.descend, hnone hcalm, Option.bind_none]⟩⟩
    have h₁ := hlater₁.settled h
    obtain ⟨out₂, s₂, hstore, hlater₂, hlast, hfull⟩ := storeDir_later h₁ dir q { out with fullpath := out.fullpath ++ slash :: name }
    have h₂ := hlater₂.settled h₁
    have h₁₂ := hlater₁.trans hlater₂
    obtain ⟨r, s₃, hchild, hlater₃, ⟨c, rfl, hc, hreached, hcached'⟩ | ⟨⟨rc, rfl, hrc⟩, hnone⟩⟩ :=
      lookupChild_later h₂ (hlater₂.firm hfirm) (h₁₂.reached.mpr hq) name
    swap
    · simp only [lookupMinodeLoop, Prog.run_bind, hsearch, hstore, hchild]
      refine ⟨rc, out₂, s₃, rfl, h₁₂.trans hlater₃, .inr ⟨hrc, fun hcalm => ?_⟩⟩
      rw [Ufs.descend, henter, Option.bind_some, ← h₁₂.child, hnone (h₁₂.calm hcalm), Option.bind_none]
    have h₁₃ := h₁₂.trans hlater₃
    rw [h₁₂.child] at hc
    rw [h₁₂.reached] at hreached
    have hdescend : s.descend (name :: next) p = s.descend next c := by
      rw [Ufs.descend, henter, Option.bind_some, hc, Option.bind_some]
    rw [hdescend]
    by_cases hnext : next = []
    · subst hnext
      refine ⟨.ok, { out₂ with last := some c }, s₃, ?_, h₁₃, .inl ⟨c, rfl, rfl, hreached, ?_,
        fun hnil => absurd hnil (List.cons_ne_nil _ _), fun _ => ⟨rfl, hcached'⟩⟩⟩
      · simp only [lookupMinodeLoop, Prog.run_bind, hsearch, hstore, hchild, ne_eq, not_true_eq_false, if_false, if_true]
        rfl
      · rw [hfull]
        simp [Components.path]
    · obtain ⟨rc, out', s', hrun, hlater, hend⟩ := ih out₂ (h₁₃.settled h) hcached' (h₁₃.reached.mpr hreached)
      refine ⟨rc, out', s', ?_, h₁₃.trans hlater, ?_⟩
      · simp only [lookupMinodeLoop, Prog.run_bind, hsearch, hstore, hchild, ne_eq, hnext, not_false_eq_true, if_true]
        exact hrun
      · rw [h₁₃.descend] at hend
        rcases hend with ⟨q', rfl, hq', hreached', hpath, _, hlast'⟩ | ⟨hrc, hnone⟩
        · refine .inl ⟨q', rfl, hq', h₁₃.reached.mp hreached', ?_,
            fun hnil => absurd hnil (List.cons_ne_nil _ _), fun _ => hlast' hnext⟩
          rw [hpath, hfull]
          simp [Components.path]
        · exact .inr ⟨hrc, fun hcalm => hnone (h₁₃.calm hcalm)⟩

/-- Where a path leads, if it leads anywhere. -/
def Ufs.target (s : Ufs) (path : List UInt8) : Option Minptr :=
  let t := tempPath s.cwd path
  if t.head? = some slash then s.descend (names t) s.fsroot else none

theorem Ufs.Later.target {s' : Ufs} (h : s.Later s') : s'.target = s.target := by
  have hcwd : s'.cwd = s.cwd := by rw [h.same]
  have hroot : s'.fsroot = s.fsroot := by rw [h.same]
  funext path
  rw [Ufs.target, Ufs.target, h.descend, hcwd, hroot]

/-- What `ufs_lookup_minode` comes to: the inode that the path leads to, which for a path without names is
the root, the directory of the walk. -/
theorem lookupMinode_later (h : s.Settled) (path : List UInt8) (dir : Bool) : ∃ rc out s',
    (lookupMinode path dir true).run s = ((rc, out), s') ∧ s.Later s' ∧
    ((∃ q, rc = .ok ∧ s.target path = some q ∧ s.Reached q ∧ s'.Cached q ∧
        out.last.or (if dir then out.dir else some s.fsroot) = some q ∧
        out.fullpath = if names (tempPath s.cwd path) = [] then [slash]
          else Components.path slash (names (tempPath s.cwd path))) ∨
      rc ≠ .ok ∧ (s.Calm → s.target path = none)) := by
  rw [Ufs.target]
  simp only [lookupMinode, Prog.run_bind, Prog.get]
  by_cases hslash : (tempPath s.cwd path).head? = some slash
  swap
  · simp only [hslash, ne_eq, not_false_eq_true, if_true]
    exact ⟨_, _, _, rfl, .refl h, .inr ⟨by decide, fun _ => rfl⟩⟩
  have huse : s.Later (s.fsroot.use.run s).2 := use_later h
  have hset := huse.settled h
  have hcached : (s.fsroot.use.run s).2.Cached s.fsroot := (huse.firm h.root).cached
  obtain ⟨rc, out, s', hrun, hlater, hend⟩ := lookupMinodeLoop_later dir (names (tempPath s.cwd path))
    ⟨if dir then some s.fsroot else none, none, []⟩ hset hcached (huse.reached.mpr .root)
  simp only [hslash, ne_eq, not_true_eq_false, if_false, if_true, Prog.run_bind, hrun]
  refine ⟨_, _, _, rfl, huse.trans hlater, ?_⟩
  rw [huse.descend] at hend
  rcases hend with ⟨q, rfl, hq, hreached, hpath, hnil, hcons⟩ | ⟨hrc, hnone⟩
  swap
  · exact .inr ⟨hrc, fun hcalm => hnone (huse.calm hcalm)⟩
  rw [huse.reached] at hreached
  rw [List.nil_append] at hpath
  refine .inl ⟨q, rfl, hq, hreached, ?_⟩
  by_cases hns : names (tempPath s.cwd path) = []
  · obtain ⟨rfl, rfl⟩ := hnil hns
    have hfirm : s'.Cached s.fsroot := (hlater.firm (huse.firm h.root)).cached
    refine ⟨hfirm, ?_, ?_⟩
    · cases dir <;> rfl
    · simp only [hns, if_true, and_self]
  · obtain ⟨hlast, hcached'⟩ := hcons hns
    have hne : out.fullpath ≠ [] := by
      obtain ⟨name, next, hcons⟩ := List.exists_cons_of_ne_nil hns
      rw [hpath, hcons]
      exact List.cons_ne_nil _ _
    refine ⟨hcached', ?_, ?_⟩
    · simp only [hne, and_false, if_false, hlast, Option.some_or]
    · simp only [hne, and_false, if_false, hns]
      exact hpath

end Walk

section Text

variable {cwd : Cwd} {path : List UInt8}

theorem tempPath_ne_zero {c : UInt8} (h : c ∈ tempPath cwd path) : c ≠ 0 := by
  have hslash : slash ≠ 0 := by decide
  rw [tempPath] at h
  split at h
  · exact CString.ne_zero_of_mem_read h
  · rcases List.mem_append.mp h with h | h
    · split at h
      · exact CString.ne_zero_of_mem_read h
      · rcases List.mem_append.mp h with h | h
        · exact CString.ne_zero_of_mem_read h
        · rwa [List.mem_singleton.mp h]
    · exact CString.ne_zero_of_mem_read h

theorem length_path_names {t : List UInt8} (h : t.head? = some slash) :
    (Components.path slash (names t)).length ≤ t.length := by
  cases t with
  | nil => cases h
  | cons c t =>
    obtain rfl : c = slash := Option.some.inj h
    rw [names, Components.comps_cons_sep, List.length_cons]
    exact Components.length_path_comps t

/-- The full path of a walk fits the buffers for it. -/
theorem length_fullpath (h : (tempPath cwd path).head? = some slash) :
    (Components.path slash (names (tempPath cwd path))).length ≤ pathMax := by
  have hshort (hlen : (tempPath cwd path).length ≤ pathMax) := (length_path_names h).trans hlen
  rw [tempPath] at h hshort ⊢
  by_cases hfull : (CString.read pathMax (CString.chars path)).head? = some slash
  · simp only [hfull, if_true] at hshort ⊢
    exact hshort (CString.length_read _ _)
  · simp only [hfull, if_false] at h hshort ⊢
    have hlen := CString.length_read pathMax (CString.chars cwd.path)
    generalize CString.read pathMax (CString.chars cwd.path) = t at h hshort hlen ⊢
    by_cases hend : t.getLast? = some slash
    · simp only [hend, if_true] at hshort ⊢
      have := CString.length_read (pathMax - t.length) (CString.chars path)
      refine hshort ?_
      rw [List.length_append]
      omega
    · simp only [hend, if_false] at h hshort ⊢
      have := CString.length_read (pathMax - (t ++ [slash]).length) (CString.chars path)
      by_cases hfits : t.length < pathMax
      · refine hshort ?_
        rw [List.length_append, List.length_append, List.length_singleton] at *
        omega
      · have hnone : pathMax - (t ++ [slash]).length = 0 := by
          rw [List.length_append, List.length_singleton]
          omega
        rw [hnone, CString.read, List.append_nil, names, Components.comps_concat_sep]
        rw [hnone, CString.read, List.append_nil] at h
        refine (length_path_names ?_).trans hlen
        cases t with
        | nil => exact absurd (by decide) hfits
        | cons c t => exact h

end Text

end Ufs370
