import Ufs370.Descent
import Ufs370.Session
import Ufs370.Lib.Runs

/-! The current directory and its text. -/

namespace Ufs370

open Lib

namespace Ufs

variable (s : Ufs)

/-- The root of the disk that is mounted on an inode; else the inode itself. -/
def follow (p : Minptr) : Option Minptr :=
  match s.seen p with
  | none => none
  | some (_, none) => some p
  | some (_, some vdisk) => if (s.seen ⟨vdisk, rootInode⟩).isSome then some ⟨vdisk, rootInode⟩ else none

/-- The directory that a path leads to, with the mount on its end. -/
def directory (path : List UInt8) : Option Minptr := (s.target path).bind s.follow

/-- The state with no request failing from here on. -/
def calmed : Ufs := { s with vdisk := fun i => (s.vdisk i).withFaults [] }

theorem Later.follow {s s' : Ufs} (h : s.Later s') : s'.follow = s.follow := by
  funext p
  simp only [Ufs.follow, h.seen]

theorem Later.directory {s s' : Ufs} (h : s.Later s') : s'.directory = s.directory := by
  funext path
  rw [Ufs.directory, Ufs.directory, h.target, h.follow]

theorem calmed_later {s : Ufs} (h : s.Settled) : s.Later s.calmed :=
  ⟨rfl, fun i => .withFaults (h.vdisk i) fun _ => rfl⟩

end Ufs

/-- A walk to a directory, to the root of the disk that is mounted there. -/
def lookupDirectory (path : List UInt8) : Prog Ufs (Option Minptr) := do
  let (rc, out) ← lookupMinode path true true
  if rc ≠ .ok then
    return none
  match out.pick.1 with
  | none => return none
  | some minode => enterMount minode

/-- The walk along the text of the current directory comes to the current directory. -/
def CwdCoherent (s : Ufs) : Prop :=
  s.cwd.curDir ≠ none ∧ ((lookupDirectory s.cwd.path).run s.calmed).1 = s.cwd.curDir

section Chgdir

variable {s : Ufs} {p : Minptr}

theorem enterMount_later (h : s.Settled) (hcached : s.Cached p) : ∃ x s', (enterMount p).run s = (x, s') ∧ s.Later s' ∧
    ((∃ q, x = some q ∧ s.follow p = some q ∧ s'.Cached q) ∨ x = none ∧ (s.Calm → s.follow p = none)) := by
  have hseen := seen_cached hcached
  simp only [enterMount, Prog.run_bind, Prog.get]
  cases hmounted : (s.minode p).mountedVdisk with
  | none =>
    refine ⟨some p, s, rfl, .refl h, .inl ⟨p, rfl, ?_, hcached⟩⟩
    simp only [Ufs.follow, hseen, hmounted]
  | some vdisk =>
    have hrel : s.Later (p.rel.run s).2 := rel_later h
    obtain ⟨x, s₂, hget, hlater, hx⟩ := getMinode_later (hrel.settled h) vdisk rootInode
    rw [hrel.seen] at hx
    simp only [Prog.run_bind, hget]
    refine ⟨x, s₂, rfl, hrel.trans hlater, ?_⟩
    rcases hx with ⟨rfl, hsome, hcached'⟩ | ⟨rfl, hnone⟩
    · refine .inl ⟨_, rfl, ?_, hcached'⟩
      simp only [Ufs.follow, hseen, hmounted, hsome, if_true]
    · refine .inr ⟨rfl, fun hcalm => ?_⟩
      simp only [Ufs.follow, hseen, hmounted, hnone (hrel.calm hcalm)]
      rfl

theorem lookupDirectory_calm (h : s.Settled) (hcalm : s.Calm) (path : List UInt8) :
    ((lookupDirectory path).run s).1 = s.directory path := by
  obtain ⟨rc, out, s', hrun, hlater, ⟨q, rfl, htarget, _, hcached, hpick, _⟩ | ⟨hrc, hnone⟩⟩ :=
    lookupMinode_later h path true
  · rw [if_pos rfl, ← Found.pick_or] at hpick
    obtain ⟨x, s₂, henter, _, hx⟩ := enterMount_later (hlater.settled h) hcached
    rw [hlater.follow] at hx
    simp only [lookupDirectory, Prog.run_bind, hrun, ne_eq, not_true_eq_false, if_false, hpick, henter]
    rw [Ufs.directory, htarget, Option.bind_some]
    rcases hx with ⟨q', rfl, hq', -⟩ | ⟨rfl, hnone⟩
    · exact hq'.symm
    · exact (hnone (hlater.calm hcalm)).symm
  · simp only [lookupDirectory, Prog.run_bind, hrun, ne_eq, hrc, not_false_eq_true, if_true]
    rw [Ufs.directory, hnone hcalm]
    rfl

theorem cwdCoherent_iff (h : s.Settled) :
    CwdCoherent s ↔ s.cwd.curDir ≠ none ∧ s.directory s.cwd.path = s.cwd.curDir := by
  have hlater := Ufs.calmed_later h
  rw [CwdCoherent, lookupDirectory_calm (hlater.settled h) (fun _ => rfl), hlater.directory]

/-- The current directory has no part in what is in the caches. -/
theorem Ufs.Settled.setCwd (h : s.Settled) (cwd : Cwd) : ({ s with cwd } : Ufs).Settled where
  vdisk := h.vdisk
  sane := h.sane
  root := h.root
  linked p d mounted hp hseen := by
    have hreached : s.Reached p := by
      clear hseen
      induction hp with
      | root => exact .root
      | mount _ hm ih => exact .mount ih hm
      | child _ hc ih => exact .child ih hc
    exact h.linked p d mounted hreached hseen

theorem Ufs.Later.setCwd {s' : Ufs} (h : s.Later s') (cwd : Cwd) : ({ s with cwd } : Ufs).Later { s' with cwd } :=
  ⟨by rw [h.same], h.vdisk⟩

theorem directory_cwd (s : Ufs) (cwd : Cwd) (path : List UInt8) : ({ s with cwd } : Ufs).directory path =
    (if (tempPath cwd path).head? = some slash then s.descend (names (tempPath cwd path)) s.fsroot else none).bind
      s.follow := by
  have hdescend (ns : List (List UInt8)) : ({ s with cwd } : Ufs).descend ns = s.descend ns := by
    induction ns with
    | nil => rfl
    | cons name next ih =>
      funext p
      simp only [Ufs.descend, ih]
      rfl
  rw [Ufs.directory, Ufs.target, hdescend]
  rfl

/-- The text of a directory fits `cwd->path`. -/
theorem take_fullpath {q : Minptr} {path : List UInt8} (h : s.target path = some q) :
    (if names (tempPath s.cwd path) = [] then [slash] else Components.path slash (names (tempPath s.cwd path))).take
      pathMax =
    if names (tempPath s.cwd path) = [] then [slash] else Components.path slash (names (tempPath s.cwd path)) := by
  have hslash : (tempPath s.cwd path).head? = some slash := by
    rw [Ufs.target] at h
    by_contra hslash
    rw [if_neg hslash] at h
    cases h
  split
  · rfl
  · exact List.take_of_length_le (length_fullpath hslash)

/-- What `ufs_chgdir` does: it follows the path and keeps its text, or leaves all as it is. -/
theorem chgdir_later (h : s.Settled) (path : List UInt8) : ∃ rc s', (chgdir lookupMinode path).run s = (rc, s') ∧
    ∃ s₁, s.Later s₁ ∧ ((∃ q, rc = .ok ∧ s.directory path = some q ∧ s' = { s₁ with cwd := { s.cwd with
      curDir := some q
      path := if names (tempPath s.cwd path) = [] then [slash]
        else Components.path slash (names (tempPath s.cwd path)) } }) ∨ rc ≠ .ok ∧ s' = s₁) := by
  obtain ⟨rc, out, s₁, hrun, hlater, hend⟩ := lookupMinode_later h path true
  have hrel {s' : Ufs} (hs : s'.Settled) (x : Found) : s'.Later (x.rel.run s').2 :=
    (relOpt_later hs x.dir).trans (relOpt_later ((relOpt_later hs x.dir).settled hs) x.last)
  simp only [chgdir, Prog.run_bind, hrun]
  rcases hend with ⟨q, rfl, htarget, _, hcached, hpick, hpath⟩ | ⟨hrc, _⟩
  swap
  · simp only [ne_eq, hrc, not_false_eq_true, if_true]
    exact ⟨rc, _, rfl, _, hlater.trans (hrel (hlater.settled h) out), .inr ⟨hrc, rfl⟩⟩
  rw [if_pos rfl, ← Found.pick_or] at hpick
  simp only [ne_eq, not_true_eq_false, if_false]
  have hfullpath : out.pick.2.fullpath = out.fullpath := by
    obtain ⟨dir, _ | last, fullpath⟩ := out <;> rfl
  generalize out.pick = x at hpick hfullpath
  obtain ⟨minode, rest⟩ := x
  obtain rfl : minode = some q := hpick
  have hset := hlater.settled h
  by_cases hdir : s₁.isdir q = true
  swap
  · simp only [Prog.run_bind, Prog.get, hdir, Bool.not_false, if_true]
    have hq : s₁.Later (q.rel.run s₁).2 := rel_later hset
    exact ⟨_, _, rfl, _, (hlater.trans hq).trans (hrel (hq.settled hset) rest), .inr ⟨by decide, rfl⟩⟩
  obtain ⟨y, s₂, henter, hlater₂, hy⟩ := enterMount_later hset hcached
  have hset₂ := hlater₂.settled hset
  simp only [Prog.run_bind, Prog.get, hdir, Bool.not_true, Bool.false_eq_true, if_false, henter]
  rcases hy with ⟨p, rfl, hp, -⟩ | ⟨rfl, _⟩
  swap
  · exact ⟨_, _, rfl, _, (hlater.trans hlater₂).trans (hrel hset₂ rest), .inr ⟨by decide, rfl⟩⟩
  have hold : s₂.Later ((relOpt s₂.cwd.curDir).run s₂).2 := relOpt_later hset₂ _
  have hbefore := (hlater.trans hlater₂).trans hold
  have hset₃ := hold.settled hset₂
  simp only [enterDir, Prog.run_bind, Prog.get]
  generalize ((relOpt s₂.cwd.curDir).run s₂).2 = s₃ at hold hbefore hset₃
  have hcwd : s₃.cwd = s.cwd := by rw [hbefore.same]
  have hafter := hrel (hset₃.setCwd { s₃.cwd with curDir := some p, path := rest.fullpath.take pathMax }) rest
  have hback := hafter.setCwd s₃.cwd
  have hsame := hafter.same
  generalize (rest.rel.run _).2 = s₅ at hafter hback hsame
  refine ⟨_, s₅, rfl, { s₅ with cwd := s.cwd }, ?_, .inl ⟨p, rfl, ?_, ?_⟩⟩
  · refine hbefore.trans ?_
    rw [← hcwd]
    exact hback
  · rw [Ufs.directory, htarget, Option.bind_some, ← hlater.follow, hp]
  · have hcwd₅ : s₅.cwd = { s.cwd with
        curDir := some p
        path := if names (tempPath s.cwd path) = [] then [slash]
          else Components.path slash (names (tempPath s.cwd path)) } := by
      rw [hsame, hcwd, ← take_fullpath htarget, ← hpath, ← hfullpath]
    exact congrArg (fun cwd => ({ s₅ with cwd } : Ufs)) hcwd₅

theorem tempPath_slash (cwd : Cwd) {t : List UInt8} (hslash : t.head? = some slash) (hlen : t.length ≤ pathMax)
    (hzero : ∀ c ∈ t, c ≠ 0) : tempPath cwd t = t := by
  have hread : CString.read pathMax (CString.chars t) = t := by
    rw [CString.read_chars, List.takeWhile_eq_self_iff.mpr fun c hc => decide_eq_true (hzero c hc),
      List.take_of_length_le hlen]
  rw [tempPath, hread]
  exact if_pos hslash

/-- A text that a walk left behind leads where the walk led. -/
theorem tempPath_fullpath (cwd : Cwd) {path : List UInt8} (hslash : (tempPath s.cwd path).head? = some slash) :
    let t := if names (tempPath s.cwd path) = [] then [slash] else Components.path slash (names (tempPath s.cwd path))
    (tempPath cwd t).head? = some slash ∧ names (tempPath cwd t) = names (tempPath s.cwd path) := by
  by_cases hnil : names (tempPath s.cwd path) = []
  · simp only [hnil, if_true]
    have hzero : ∀ c ∈ [slash], c ≠ 0 := fun c hc => by
      rw [List.mem_singleton.mp hc]
      decide
    rw [tempPath_slash cwd rfl (by decide) hzero]
    exact ⟨rfl, by decide⟩
  · simp only [hnil, if_false]
    have hzero : ∀ c ∈ Components.path slash (names (tempPath s.cwd path)), c ≠ 0 := by
      intro c hc
      obtain ⟨name, hname, hc⟩ := List.mem_flatMap.mp hc
      rcases List.mem_cons.mp hc with rfl | hc
      · decide
      · exact tempPath_ne_zero (Components.mem_of_mem_comps hname hc)
    have hhead : (Components.path slash (names (tempPath s.cwd path))).head? = some slash := by
      obtain ⟨name, next, hcons⟩ := List.exists_cons_of_ne_nil hnil
      rw [hcons]
      rfl
    rw [tempPath_slash cwd hhead (length_fullpath hslash) hzero]
    exact ⟨hhead, Components.comps_path fun c hc => Components.isComp_of_mem hc⟩

/-- What one call keeps. -/
theorem chgdir_coherent (h : s.Settled) (hcoherent : CwdCoherent s) (path : List UInt8) :
    let r := (chgdir lookupMinode path).run s
    r.2.Settled ∧ CwdCoherent r.2 ∧ (r.1 ≠ .ok → r.2.cwd = s.cwd) := by
  obtain ⟨rc, s', hrun, s₁, hlater, ⟨q, rfl, hq, rfl⟩ | ⟨hrc, rfl⟩⟩ := chgdir_later h path
  · rw [hrun]
    have hset := (hlater.settled h).setCwd { s.cwd with
      curDir := some q
      path := if names (tempPath s.cwd path) = [] then [slash]
        else Components.path slash (names (tempPath s.cwd path)) }
    refine ⟨hset, (cwdCoherent_iff hset).mpr ⟨Option.some_ne_none q, ?_⟩, fun hrc => absurd rfl hrc⟩
    have hslash : (tempPath s.cwd path).head? = some slash := by
      rw [Ufs.directory, Ufs.target] at hq
      by_contra hslash
      rw [if_neg hslash] at hq
      cases hq
    have hroot : s₁.fsroot = s.fsroot := by rw [hlater.same]
    obtain ⟨hhead, hnames⟩ := tempPath_fullpath (s := s) { s.cwd with
      curDir := some q
      path := if names (tempPath s.cwd path) = [] then [slash]
        else Components.path slash (names (tempPath s.cwd path)) } hslash
    rw [directory_cwd, hlater.descend, hlater.follow, hroot]
    rw [if_pos hhead, hnames, ← hq, Ufs.directory, Ufs.target, if_pos hslash]
  · rw [hrun]
    have hcwd : s'.cwd = s.cwd := by rw [hlater.same]
    have hset := hlater.settled h
    refine ⟨hset, (cwdCoherent_iff hset).mpr ?_, fun _ => hcwd⟩
    rw [hlater.directory, hcwd]
    exact (cwdCoherent_iff h).mp hcoherent

/-- After each `ufs_chgdir` the text of the current directory leads to the current directory, and one that
fails changes neither. -/
theorem cwd_coherent {s₀ : Ufs} (h₀ : s₀.Settled) (hcoherent : CwdCoherent s₀) {hist : List (List UInt8 × Rc)} {s : Ufs}
    (hrun : Run (chgdir lookupMinode) (fun _ _ => True) s₀ hist s) :
    CwdCoherent s ∧ ∀ path, ((chgdir lookupMinode path).run s).1 ≠ .ok → ((chgdir lookupMinode path).run s).2.cwd = s.cwd := by
  have hkept : s.Settled ∧ CwdCoherent s := hrun.invariant (I := fun s => s.Settled ∧ CwdCoherent s) ⟨h₀, hcoherent⟩ fun s path hs _ =>
    have hnext := chgdir_coherent hs.1 hs.2 path
    ⟨hnext.1, hnext.2.1⟩
  exact ⟨hkept.2, fun path => (chgdir_coherent hkept.1 hkept.2 path).2.2⟩

end Chgdir

section Root

theorem entry_empty {v : VDisk} {d : Dinode} (hdir : d.isdir = true) (hsize : d.filesize = 0) (name : List UInt8) :
    v.entry d name = .error .enoent := by
  have hdin : (v.calm d).din 0 = d := rfl
  have hzero : d.filesize.toNat = 0 := by rw [hsize]; rfl
  simp only [VDisk.entry, fileLookupByName, Prog.run_bind, Prog.get, hdin, hdir, Bool.not_true, Bool.false_eq_true, if_false,
    datablockForeach, hzero, if_true]
  rfl

/-- A new system with one disk, whose root directory has no entries. -/
def rootUfs : Ufs := Session.rootSession.ufs

theorem rootUfs_minode {i ino : Nat} {m : Minode} (h : (rootUfs.vdisk i).minode? ino = some m) : m.Firm := by
  have hmem := List.mem_of_find?_eq_some h
  change m ∈ (if i = 0 then _ else _) at hmem
  split at hmem
  · rw [List.mem_singleton.mp hmem]
    decide
  · exact absurd hmem List.not_mem_nil

theorem rootUfs_reached {p : Minptr} (h : rootUfs.Reached p) : p = ⟨0, 2⟩ := by
  have hseen : rootUfs.seen ⟨0, 2⟩ = some ({ Dinode.zero with mode := 0x41ED, nlink := 2 }, some 0) := rfl
  induction h with
  | root => rfl
  | mount _ hm ih =>
    rw [ih, hseen] at hm
    obtain ⟨_, hvdisk⟩ := Prod.ext_iff.mp (Option.some.inj hm)
    rw [← Option.some.inj hvdisk]
    rfl
  | child _ hc ih =>
    rw [ih, Ufs.child, hseen] at hc
    simp only [entry_empty (d := { Dinode.zero with mode := 0x41ED, nlink := 2 }) (by decide) rfl] at hc
    cases hc

theorem rootUfs_settled : rootUfs.Settled where
  vdisk i := by
    refine ⟨?_, fun _ _ h _ => rootUfs_minode h, fun _ _ h hfirm => absurd (rootUfs_minode h) hfirm⟩
    change (List.map _ (if i = 0 then _ else _)).Nodup
    split <;> decide
  sane _ := by
    change 0 < pairSuper.datablockStartSector
    decide
  root := ⟨_, rfl, by decide, by decide⟩
  linked p d mounted hp hseen hdir := by
    rw [rootUfs_reached hp] at hseen
    obtain ⟨hd, _⟩ := Prod.ext_iff.mp (Option.some.inj hseen)
    change _ = d at hd
    rw [← hd]
    decide

/-- A step to the root of a new system. -/
theorem cwd_coherent_root : CwdCoherent ((chgdir lookupMinode [slash]).run rootUfs).2 ∧
    ∀ path, ((chgdir lookupMinode path).run ((chgdir lookupMinode [slash]).run rootUfs).2).1 ≠ .ok →
      ((chgdir lookupMinode path).run ((chgdir lookupMinode [slash]).run rootUfs).2).2.cwd =
        ((chgdir lookupMinode [slash]).run rootUfs).2.cwd := by
  have hcoherent : CwdCoherent rootUfs := (cwdCoherent_iff rootUfs_settled).mpr ⟨by decide, by decide +kernel⟩
  exact cwd_coherent rootUfs_settled hcoherent (.cons [slash] .nil trivial)

end Root

end Ufs370
