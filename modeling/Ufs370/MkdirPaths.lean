import Ufs370.Cwd
import Ufs370.Making

/-! `ufs_mkdir` on two spellings of one location. -/

namespace Ufs370

open Lib

namespace Ufs

variable (s : Ufs)

/-- The names of the location that a path stands for. -/
def location (path : List UInt8) : List (List UInt8) := names (tempPath s.cwd path)

/-- The full path that a walk to the location of a path comes to. -/
def fullPath (path : List UInt8) : List UInt8 := Components.path slash (s.location path)

/-- A path that `ufs_mkdir` takes: its text has no double slash and no slash at the end, and the current directory
that it is relative to is not the root. -/
def Canonical (path : List UInt8) : Prop := mkdirPath s.cwd path = s.fullPath path

/-- Every name of a path but the last leads to a directory, there is no inode under the last one, and `p` is the directory
that it would be in. -/
def Parent (path : List UInt8) (p : Minptr) : Prop := s.stop (s.location path) s.fsroot = some (p, [])

/-- A directory of the name `last` can be made in the parent of a path. -/
structure Vacant (path : List UInt8) (p : Minptr) (last : List UInt8) : Prop where
  parent : s.Parent path p
  name : (s.location path).getLast? = some last
  absent : ∀ e ∈ s.entries p, ¬ (1 ≤ e.inodeNumber ∧ e.name = direntFilename last)
  disk : (s.vdisk p.vdisk).readonly = false
  super : (s.vdisk p.vdisk).sb.readonly = false
  write : inodeAuth s.acee (s.inode p) ufsaccWrite = true
  inodes : (s.vdisk p.vdisk).InodeRoom
  blocks : (s.vdisk p.vdisk).EntryRoom p.ino (UInt16.ofNat ifdir ||| s.createPerm)

/-- Two paths that stand for one location. -/
structure SameLocation (path path' : List UInt8) : Prop where
  full : (tempPath s.cwd path).head? = some slash
  full' : (tempPath s.cwd path').head? = some slash
  names : s.location path' = s.location path

/-- What the text of a path and the directory must be like for `ufs_mkdir` to do what the location asks for. -/
structure Named (path : List UInt8) (p : Minptr) (last : List UInt8) : Prop where
  canonical : s.Canonical path
  top : s.follow p = some p
  name : direntFilename (afterSlash (direntFilename (s.fullPath path))) = direntFilename last
  nameless : ∀ e ∈ s.entries p, ¬ (1 ≤ e.inodeNumber ∧ e.name = [])

end Ufs

/-- `ufs_mkdir` has one result for two spellings of a location, and makes a directory of the last name where that is
possible. -/
structure MkdirRight (s : Ufs) (path path' : List UInt8) (now : Timev) : Prop where
  same : (mkdir lookupMinode path' now).run s = (mkdir lookupMinode path now).run s
  made : ∀ p last, s.Vacant path p last → ((mkdir lookupMinode path now).run s).1 = .ok ∧
    ∃ ino, ((mkdir lookupMinode path now).run s).2.entries p = s.entries p ++ [⟨ino, direntFilename last⟩]

section Text

variable {cwd : Cwd} {path : List UInt8}

/-- The full path of a walk is at most one longer than the text that it is compared with. -/
theorem length_fullPath_le (hslash : (tempPath cwd path).head? = some slash) :
    (Components.path slash (names (tempPath cwd path))).length ≤ (mkdirPath cwd path).length + 1 := by
  have hfull := length_fullpath hslash
  have htemp := length_path_names hslash
  have hpos : ∀ t : List UInt8, t.length ≤ (if t = [] then [slash] else t).length := fun t => by
    split
    · rename_i hnil
      rw [hnil]
      exact Nat.zero_le _
    · exact Nat.le_refl _
  have hzero : slash ≠ 0 := by decide
  have hsame : (CString.read pathMax (CString.chars path)).head? = some slash ↔ path.head? = some slash := by
    cases path with
    | nil => rfl
    | cons c path =>
      change (if c = 0 then [] else c :: CString.read _ _).head? = _ ↔ _
      split
      · rename_i hc
        rw [hc]
        exact iff_of_false (by simp) (by simpa using hzero.symm)
      · rfl
  rw [mkdirPath]
  refine Nat.le_trans ?_ (Nat.succ_le_succ (hpos _))
  by_cases habs : path.head? = some slash
  · rw [if_pos habs]
    rw [tempPath, if_pos (hsame.mpr habs)] at htemp ⊢
    omega
  · rw [if_neg habs]
    rw [tempPath, if_neg (mt hsame.mp habs)] at htemp hfull ⊢
    have htext : (CString.read (pathMax - 1) (CString.chars (CString.read pathMax (CString.chars cwd.path) ++ slash :: path))).length =
        min (pathMax - 1) ((CString.read pathMax (CString.chars cwd.path)).length + ((path.takeWhile (· ≠ 0)).length + 1)) := by
      rw [CString.read_chars, List.length_take, List.takeWhile_append_of_pos fun c hc =>
        decide_eq_true (CString.ne_zero_of_mem_read hc), List.takeWhile_cons_of_pos (by decide), List.length_append,
        List.length_cons]
    have hread (n : Nat) : (CString.read n (CString.chars path)).length = min n (path.takeWhile (· ≠ 0)).length := by
      rw [CString.read_chars, List.length_take]
    rw [htext]
    dsimp only at htemp hfull ⊢
    generalize CString.read pathMax (CString.chars cwd.path) = t at htemp hfull ⊢
    have hend : (if t.getLast? = some slash then t else t ++ [slash]).length ≤ t.length + 1 := by
      split
      · exact Nat.le_succ _
      · rw [List.length_append, List.length_singleton]
    generalize (if t.getLast? = some slash then t else t ++ [slash]) = t' at htemp hfull hend ⊢
    rw [List.length_append, hread] at htemp
    simp only [pathMax] at htemp hfull ⊢
    omega

end Text

section Walk

variable {s s' : Ufs} {path path' fullpath : List UInt8} {p : Minptr} {now : Timev}

theorem lookupMinode_congr (h : s.SameLocation path path') :
    (lookupMinode path' true true).run s = (lookupMinode path true true).run s := by
  have hnames : names (tempPath s.cwd path') = names (tempPath s.cwd path) := h.names
  simp only [lookupMinode, Prog.run_bind, Prog.get, h.full, h.full', ne_eq, not_true_eq_false, if_false, hnames]

theorem use_le (s : Ufs) (p q : Minptr) : (p.use.run s).2.uses q ≤ s.uses q + 1 := by
  obtain ⟨s₁, hrun, -, hminode⟩ := use_run s p
  rw [hrun, uses_update hminode]
  by_cases hq : q = p
  · rw [hq, Function.update_self, uses_eq]
    cases s.minode? p with
    | none => exact Nat.zero_le _
    | some m => exact Nat.mod_le ..
  · rw [Function.update_of_ne hq]
    exact Nat.le_succ _

theorem getMinode_le (s : Ufs) (i ino : Nat) (q : Minptr) : ((getMinode i ino).run s).2.uses q ≤ s.uses q + 1 := by
  obtain ⟨r, s₁, hrun, -, ⟨-, huses⟩ | ⟨-, huses⟩⟩ := getMinode_uses s i ino
  · rw [hrun, huses]
    exact Nat.le_succ _
  · rw [hrun, huses]
    by_cases hq : q = ⟨i, ino⟩
    · rw [hq, Function.update_self]
      exact Nat.mod_le ..
    · rw [Function.update_of_ne hq]
      exact Nat.le_succ _

theorem rel_le (hone : s.OneHandle) (p q : Minptr) : (p.rel.run s).2.uses q ≤ s.uses q := by
  obtain ⟨s₁, hrun, -, huses⟩ := rel_uses s p hone
  rw [hrun, huses, update_sub_one]
  exact Nat.sub_le ..

/-- A walk takes two references to an inode at most. -/
theorem lookupMinode_le (hone : s.OneHandle) (hslash : (tempPath s.cwd path).head? = some slash) (q : Minptr) :
    ((lookupMinode path true true).run s).2.uses q ≤ s.uses q + 2 := by
  have huse := use_le s s.fsroot
  have hone₁ : (s.fsroot.use.run s).2.OneHandle := by
    obtain ⟨s₁, hrun, hkept, -⟩ := use_run s s.fsroot
    rw [hrun]
    exact hkept.oneHandle hone
  have hshort : Short (fun q => s.uses q + 1) s.fsroot (some s.fsroot) (s.fsroot.use.run s).2.uses := by
    refine ⟨fun q => Nat.le_trans (huse q) (Nat.le_add_right ..), ?_⟩
    rw [if_pos rfl]
    exact Nat.lt_succ_of_le (huse _)
  obtain ⟨e, x, -, hend⟩ : EndsShort _ _ (lookupMinodeLoop true true (names (tempPath s.cwd path)) s.fsroot
    ⟨some s.fsroot, none, []⟩) _ := loop_short hone₁ (Nat.succ_pos _) hshort rfl
  simp only [lookupMinode, Prog.run_bind, Prog.get, hslash, ne_eq, not_true_eq_false, if_false, if_true, Prog.run_pure]
  refine Nat.le_trans (hend.le q) ?_
  split <;> omega

theorem enterMount_le (hone : s.OneHandle) (p q : Minptr) : ((enterMount p).run s).2.uses q ≤ s.uses q + 1 := by
  simp only [enterMount, Prog.run_bind, Prog.get]
  split
  · exact Nat.le_succ _
  · exact Nat.le_trans (getMinode_le _ _ _ q) (Nat.succ_le_succ (rel_le hone p q))

theorem Ufs.Settled.oneHandle (h : s.Settled) : s.OneHandle := fun i => (h.vdisk i).oneHandle

theorem Ufs.Makeable.rooted (h : s.Makeable) : s.Rooted := by
  intro p d vdisk hp hseen
  obtain ⟨d', mounted, hroot, -⟩ := h.root p d vdisk hp hseen
  rw [hroot]
  rfl

/-- The directory that a walk stops in. -/
theorem stop_enter {ns rest : List (List UInt8)} {q : Minptr} (h : s.stop ns q = some (p, rest)) : ∃ q', s.enter q' = some p := by
  induction ns generalizing q with
  | nil => cases h
  | cons name next ih =>
    rw [Ufs.stop, Option.bind_eq_some_iff] at h
    obtain ⟨r, henter, h⟩ := h
    cases hchild : s.child r name with
    | none =>
      rw [hchild] at h
      obtain ⟨rfl, -⟩ := Prod.ext_iff.mp (Option.some.inj h)
      exact ⟨q, henter⟩
    | some c =>
      rw [hchild] at h
      exact ih h

/-- A disk that is mounted on a directory into which a walk went over a mount is another one, or it is mounted on its own root. -/
theorem follow_enter {q r : Minptr} (henter : s.enter q = some p) (hfollow : s.follow p = some r) :
    r = p ∨ r.vdisk ≠ p.vdisk := by
  rw [Ufs.follow] at hfollow
  split at hfollow
  · cases hfollow
  · exact .inl (Option.some.inj hfollow).symm
  · rename_i d vdisk hseen
    split at hfollow
    swap
    · cases hfollow
    obtain rfl := Option.some.inj hfollow
    simp only [Ufs.enter] at henter
    split at henter
    · cases henter
    rename_i d' mounted hq
    split at henter
    swap
    · cases henter
    cases mounted with
    | none =>
      obtain rfl := Option.some.inj henter
      rw [hq] at hseen
      cases (Prod.ext_iff.mp (Option.some.inj hseen)).2
    | some vdisk' =>
      dsimp only at henter
      split at henter
      · cases henter
      split at henter
      · obtain rfl := Option.some.inj henter
        by_cases hsame : vdisk = vdisk'
        · exact .inl (by rw [hsame])
        · exact .inr hsame
      · cases henter

theorem stop_suffix {ns rest : List (List UInt8)} {q : Minptr} (h : s.stop ns q = some (p, rest)) : rest <:+ ns := by
  induction ns generalizing q with
  | nil => cases h
  | cons name next ih =>
    rw [Ufs.stop, Option.bind_eq_some_iff] at h
    obtain ⟨r, -, h⟩ := h
    cases hchild : s.child r name with
    | none =>
      rw [hchild] at h
      obtain ⟨-, rfl⟩ := Prod.ext_iff.mp (Option.some.inj h)
      exact List.suffix_cons ..
    | some c =>
      rw [hchild] at h
      exact (ih h).trans (List.suffix_cons ..)

/-- The text of the path is the full path of the walk where the walk stopped at the last name only. -/
theorem mkdirPath_iff {rest : List (List UInt8)} (hslash : (tempPath s.cwd path).head? = some slash)
    (hstop : s.stop (s.location path) s.fsroot = some (p, rest)) (hpath : fullpath ++ Components.path slash rest = s.fullPath path) :
    fullpath = mkdirPath s.cwd path ↔ rest = [] ∧ s.Canonical path := by
  cases rest with
  | nil =>
    rw [Components.path, List.flatMap_nil, List.append_nil] at hpath
    rw [hpath, eq_comm]
    exact (and_iff_right rfl).symm
  | cons name rest =>
    refine iff_of_false (fun heq => ?_) fun hnil => absurd hnil.1 (List.cons_ne_nil _ _)
    have hle := length_fullPath_le hslash
    change (s.fullPath path).length ≤ _ at hle
    have hname : 0 < name.length := List.length_pos_of_ne_nil
      (Components.isComp_of_mem ((stop_suffix hstop).subset (List.mem_cons_self ..))).ne_nil
    rw [← hpath, heq, Components.path, List.flatMap_cons, List.length_append, List.length_append, List.length_cons] at hle
    omega

theorem mkdir_enoent (h : s.Makeable) (hslash : (tempPath s.cwd path).head? = some slash) (hp : s.Parent path p)
    (hnot : ¬ s.Canonical path) : ((mkdir lookupMinode path now).run s).1 = .enoent := by
  obtain ⟨rc, out, s₁, hwalk, -, hend⟩ := lookupMinode_stop h.settled h.calm h.rooted path hslash
  have hstop : s.stop (names (tempPath s.cwd path)) s.fsroot = some (p, []) := hp
  simp only [hstop] at hend
  obtain ⟨rfl, -, -, -, -, hpath⟩ := hend
  have hne : out.fullpath ≠ mkdirPath s.cwd path := fun heq => hnot ((mkdirPath_iff hslash hp hpath).mp heq).2
  simp only [mkdir, Prog.run_bind, Prog.get, hwalk, ne_eq, not_true_eq_false, if_false, hne, not_false_eq_true, if_true]
  rfl

/-- Two paths for one location go one way, unless the walk stops at the last name and just one of them is taken. -/
theorem mkdir_congr (h : s.Makeable) (hsame : s.SameLocation path path')
    (hcanonical : ∀ p, s.Parent path p → (s.Canonical path ↔ s.Canonical path')) :
    (mkdir lookupMinode path' now).run s = (mkdir lookupMinode path now).run s := by
  obtain ⟨rc, out, s₁, hwalk, -, hend⟩ := lookupMinode_stop h.settled h.calm h.rooted path hsame.full
  have hwalk' := (lookupMinode_congr hsame).trans hwalk
  simp only [mkdir, Prog.run_bind, Prog.get, hwalk, hwalk']
  by_cases hrc : rc = .enoent
  swap
  · simp only [ne_eq, hrc, not_false_eq_true, if_true]
  have htext : out.fullpath = mkdirPath s.cwd path' ↔ out.fullpath = mkdirPath s.cwd path := by
    split at hend
    · exact absurd hrc hend
    rename_i q rest hstop
    replace hstop : s.stop (s.location path) s.fsroot = some (q, rest) := hstop
    obtain ⟨-, -, -, -, -, hpath⟩ := hend
    have hpath' : out.fullpath ++ Components.path slash rest = s.fullPath path' := by
      rw [Ufs.fullPath, hsame.names]
      exact hpath
    rw [mkdirPath_iff hsame.full' (hsame.names ▸ hstop) hpath', mkdirPath_iff hsame.full hstop hpath]
    refine and_congr_right fun hrest => (hcanonical q ?_).symm
    rw [Ufs.Parent, hstop, hrest]
  simp only [hrc, ne_eq, not_true_eq_false, if_false, htext]

/-- The directory on which a disk is mounted leads to the root of the disk. -/
theorem Ufs.Makeable.follow (h : s.Makeable) (hp : s.Reached p) {d : Dinode} {mounted : Option Nat}
    (hseen : s.seen p = some (d, mounted)) (hdir : d.isdir = true) : ∃ q, s.follow p = some q ∧ s.Reached q ∧
      ∃ d' mounted', s.seen q = some (d', mounted') ∧ d'.isdir = true := by
  cases mounted with
  | none => exact ⟨p, by rw [Ufs.follow, hseen], hp, d, none, hseen, hdir⟩
  | some vdisk =>
    obtain ⟨d', mounted', hroot, hdir'⟩ := h.root p d vdisk hp hseen
    refine ⟨⟨vdisk, rootInode⟩, ?_, .mount hp hseen, d', mounted', hroot, hdir'⟩
    simp only [Ufs.follow, hseen, hroot, Option.isSome_some, if_true]

/-- A path that is taken, where the walk stops at the last name. -/
theorem mkdir_parent (h : s.Makeable) (hslash : (tempPath s.cwd path).head? = some slash) (hp : s.Parent path p)
    (hcanonical : s.Canonical path) (now : Timev) : ∃ q s₂ rc s', s.follow p = some q ∧ s.Later s₂ ∧
      (mkdir lookupMinode path now).run s = (rc, s') ∧ MkdirInEnds s s₂ q (s.fullPath path) rc s' := by
  obtain ⟨rc, out, s₁, hwalk, hlater, hend⟩ := lookupMinode_stop h.settled h.calm h.rooted path hslash
  have hstop : s.stop (names (tempPath s.cwd path)) s.fsroot = some (p, []) := hp
  have hle := lookupMinode_le h.settled.oneHandle hslash
  simp only [hstop] at hend
  obtain ⟨rfl, hreached, hfirm, hdir, hlast, hpath⟩ := hend
  have htext : out.fullpath = mkdirPath s.cwd path := (mkdirPath_iff hslash hp hpath).mpr ⟨rfl, hcanonical⟩
  have hfull : out.fullpath = s.fullPath path := htext.trans hcanonical
  obtain ⟨dir, last, fullpath⟩ := out
  dsimp only at hdir hlast htext hfull
  subst hdir hlast hfull
  have hset₁ := hlater.settled h.settled
  have hseen : s.seen p = some (s₁.dinode p, (s₁.minode p).mountedVdisk) := by
    rw [← hlater.seen]
    exact seen_cached hfirm.cached
  have hisdir : (s₁.dinode p).isdir = true := by
    obtain ⟨m, hm, hdir, -⟩ := hfirm
    rw [Ufs.dinode, minode_some hm]
    exact hdir
  obtain ⟨q, hfollow, hq, d, mounted, hseen_q, hisdir_q⟩ := h.follow hreached hseen hisdir
  obtain ⟨x, s₂, henter, hlater₂, ⟨r, rfl, hr, hcached⟩ | ⟨rfl, hnone⟩⟩ := enterMount_later hset₁ hfirm.cached
  swap
  · have hnone := hnone (hlater.calm h.calm)
    rw [hlater.follow, hfollow] at hnone
    cases hnone
  rw [hlater.follow, hfollow] at hr
  obtain rfl := Option.some.inj hr
  have hroom (i : Minptr) : s₂.uses i + 4 < 65536 := by
    have h₁ := hle i
    have h₂ := enterMount_le hset₁.oneHandle p i
    have h₃ := h.room i
    rw [hwalk] at h₁
    rw [henter] at h₂
    dsimp only at h₁ h₂
    omega
  obtain ⟨rc, x, s₃, hrun, hends⟩ := mkdirIn_ends h (hlater.trans hlater₂) hroom hq hseen_q hisdir_q hcached (s.fullPath path) now
  refine ⟨q, s₂, rc, _, hfollow, hlater.trans hlater₂, ?_, hends⟩
  simp only [mkdir, Prog.run_bind, Prog.get, hwalk, ne_eq, not_true_eq_false, if_false, ← htext, Found.pick, henter, hrun]
  rfl

/-- For a full path the entry of an empty name is the one that is in the way. -/
theorem inTheWay_iff (hp : s.Parent path p) (e : Dirent) :
    InTheWay (s.fullPath path) e ↔ 1 ≤ e.inodeNumber ∧ e.name = [] := by
  have hname : direntFilename (lookupName (direntFilename (s.fullPath path))) = [] := by
    obtain ⟨name, rest, hcons⟩ := List.exists_cons_of_ne_nil (l := s.location path) fun hnil => by
      rw [Ufs.Parent, hnil] at hp
      cases hp
    have hslash : s.fullPath path = slash :: (name ++ Components.path slash rest) := by
      rw [Ufs.fullPath, hcons, Components.path, List.flatMap_cons]
      rfl
    rw [hslash]
    rfl
  rw [InTheWay, hname]

/-- What `ufs_mkdir` depends on but for the location: the spelling, a mount on a mounted root, the length of the full path
and entries with an empty name. -/
theorem mkdirRight_iff (h : s.Makeable) (hsame : s.SameLocation path path') (now : Timev) : MkdirRight s path path' now ↔
    ∀ p, s.Parent path p → (s.Canonical path ↔ s.Canonical path') ∧ ∀ last, s.Vacant path p last → s.Named path p last := by
  constructor
  · intro hright p hp
    have hp' : s.Parent path' p := by
      rw [Ufs.Parent, hsame.names]
      exact hp
    have hcodes (hnot : ¬ s.Canonical path) : ¬ s.Canonical path' := fun hcanonical => by
      obtain ⟨_, _, rc, s', -, -, hrun, hends⟩ := mkdir_parent h hsame.full' hp' hcanonical now
      have hcode : ((mkdir lookupMinode path now).run s).1 = .enoent := mkdir_enoent h hsame.full hp hnot
      rw [← hright.same, hrun] at hcode
      exact hends.ne hcode
    have hcodes' (hnot : ¬ s.Canonical path') : ¬ s.Canonical path := fun hcanonical => by
      obtain ⟨_, _, rc, s', -, -, hrun, hends⟩ := mkdir_parent h hsame.full hp hcanonical now
      have hcode : ((mkdir lookupMinode path' now).run s).1 = .enoent := mkdir_enoent h hsame.full' hp' hnot
      rw [hright.same, hrun] at hcode
      exact hends.ne hcode
    refine ⟨⟨not_imp_not.mp hcodes', not_imp_not.mp hcodes⟩, fun last hvacant => ?_⟩
    obtain ⟨hok, ino, hentries⟩ := hright.made p last hvacant
    have hcanonical : s.Canonical path := by
      by_contra hnot
      rw [mkdir_enoent h hsame.full hp hnot] at hok
      cases hok
    obtain ⟨q, s₂, rc, s', hfollow, hlater, hrun, hends⟩ := mkdir_parent h hsame.full hp hcanonical now
    rw [hrun] at hok hentries
    obtain ⟨habsent, ino', hmade⟩ := hends.made hok
    obtain ⟨q', henter⟩ := stop_enter hp
    -- on another disk the new entry would not be seen in `p`
    obtain rfl : q = p := (follow_enter henter hfollow).resolve_right fun hother => by
      have hsame : s'.entries p = s.entries p := by
        rw [Ufs.entries, hends.other p.vdisk hother.symm, (hlater.view h.calm p.vdisk).dirents]
        rfl
      have hlength := congrArg List.length (hentries.symm.trans hsame)
      rw [List.length_append, List.length_singleton] at hlength
      omega
    have hlast := List.append_cancel_left (hmade.symm.trans hentries)
    obtain ⟨-, hname⟩ := Dirent.mk.inj (List.singleton_inj.mp hlast)
    refine ⟨hcanonical, hfollow, hname, fun e he => ?_⟩
    rw [← inTheWay_iff hp]
    exact habsent e he
  · intro hfree
    refine ⟨mkdir_congr h hsame fun p hp => (hfree p hp).1, fun p last hvacant => ?_⟩
    have hp := hvacant.parent
    obtain ⟨hcanonical, htop, hname, hnameless⟩ := (hfree p hp).2 last hvacant
    obtain ⟨q, s₂, rc, s', hfollow, -, hrun, hends⟩ := mkdir_parent h hsame.full hp hcanonical now
    obtain rfl := Option.some.inj (htop.symm.trans hfollow)
    have hok := hends.makes hvacant.disk hvacant.super hvacant.write
      (fun e he => by rw [inTheWay_iff hp]; exact hnameless e he) hvacant.inodes hvacant.blocks
    obtain ⟨-, ino, hmade⟩ := hends.made hok
    rw [hrun, ← hname]
    exact ⟨hok, ino, hmade⟩

end Walk

section Open

/-- A directory that everybody may write. -/
def openDinode : Dinode := { Dinode.zero with mode := 0x41FF, nlink := 2 }

/-- A disk with two free blocks and nothing but a root directory. -/
def openDisk : VDisk := { pairDisk with
  sb := { pairSuper with totalFreeinode := 31, nfreeinode := 1, freeinode := fun _ => 3 }
  io := ⟨fun b => if b = 2 then openDinode.toBlock zeroBlock 1 else zeroBlock, []⟩
  minodes := [⟨2, false, 1, some 0, openDinode⟩] }

/-- A system with one disk, whose user is in the root directory. -/
def openRoot : Ufs := { bareRoot with vdisk := fun _ => openDisk }

theorem openDisk_minode {ino : Nat} {m : Minode} (h : openDisk.minode? ino = some m) :
    ino = 2 ∧ m = ⟨2, false, 1, some 0, openDinode⟩ := by
  have hmem := List.mem_singleton.mp (List.mem_of_find?_eq_some h)
  refine ⟨?_, hmem⟩
  have hnumber := List.find?_some h
  rw [hmem] at hnumber
  exact (of_decide_eq_true hnumber).symm

theorem openRoot_seen : openRoot.seen ⟨0, 2⟩ = some (openDinode, some 0) := rfl

theorem openRoot_reached {p : Minptr} (h : openRoot.Reached p) : p = ⟨0, 2⟩ := by
  induction h with
  | root => rfl
  | mount _ hm ih =>
    rw [ih, openRoot_seen] at hm
    obtain ⟨_, hvdisk⟩ := Prod.ext_iff.mp (Option.some.inj hm)
    rw [← Option.some.inj hvdisk]
    rfl
  | child _ hc ih =>
    rw [ih, Ufs.child, openRoot_seen] at hc
    simp only [entry_empty (d := openDinode) (by decide) rfl] at hc
    cases hc

theorem openDisk_slot : openDisk.slot 2 = openDinode := by
  have hloc : inodeInquireDiskLocation openDisk 2 = (.ok, 2, 1) := by decide +kernel
  have hblock : openDisk.io.blocks 2 = openDinode.toBlock zeroBlock 1 := by
    change (if (2 : Nat) = 2 then openDinode.toBlock zeroBlock 1 else zeroBlock) = _
    rw [if_pos rfl]
  rw [VDisk.slot, hloc]
  simp only [if_true, hblock, Dinode.ofBlock_toBlock]

theorem openDisk_wellFormed : WellFormed openDisk [2] [10, 11] where
  geometry := by constructor <;> decide
  live := ⟨rfl, rfl⟩
  distinct := by decide
  number := by
    intro i hi
    obtain rfl := List.mem_singleton.mp hi
    constructor <;> decide
  size := by
    intro i hi
    obtain rfl := List.mem_singleton.mp hi
    exact .inl (Nat.zero_le _)
  list := {
    volume := by decide
    holds := by
      have hsaved : (openDisk.saved 11).1 = 0 := Bytes.word_zero 0
      refine .entry (by decide) (by decide) (.link (by decide) ?_)
      change LinkedStack.Holds _ _ (openDisk.saved 11).1 _ _
      rw [hsaved]
      exact .nil
    nodup := by decide
    sane := by decide
    total := rfl }
  blocks := by decide
  sane := by decide

theorem openDisk_makes : Makes [2] openDisk [10, 11] where
  wellFormed := openDisk_wellFormed
  counted _ := {
    geometry := openDisk_wellFormed.geometry
    table := rfl
    live := ⟨rfl, rfl⟩
    writable := rfl
    total := by decide +kernel
    nodup := by decide
    cached := by decide +kernel }
  unused := by
    have hall : (openDisk.freeInodes.all fun i => i ∉ [2] ∧ openDisk.filesize i = 0) = true := by decide +kernel
    exact fun i hi => of_decide_eq_true (List.all_eq_true.mp hall i hi)
  synced ino _ := by
    rw [VDisk.InSlot]
    cases hm : openDisk.minode? ino with
    | none => exact (VDisk.inode_none hm).symm
    | some m =>
      obtain ⟨rfl, rfl⟩ := openDisk_minode hm
      rw [VDisk.inode_some hm, openDisk_slot]

theorem openRoot_makeable : openRoot.Makeable where
  settled := {
    vdisk := fun i => by
      refine ⟨by rw [VDisk.OneHandle]; change (List.map _ openDisk.minodes).Nodup; decide, fun _ m h _ => ?_, fun _ m h hfirm => ?_⟩
      · obtain ⟨-, rfl⟩ := openDisk_minode h
        decide
      · obtain ⟨-, rfl⟩ := openDisk_minode h
        exact absurd (by decide) hfirm
    sane := fun _ => by
      change 0 < pairSuper.datablockStartSector
      decide
    root := ⟨_, rfl, by decide, by decide⟩
    linked := fun p d mounted hp hseen _ => by
      rw [openRoot_reached hp, openRoot_seen] at hseen
      obtain ⟨hd, _⟩ := Prod.ext_iff.mp (Option.some.inj hseen)
      change openDinode = d at hd
      rw [← hd]
      decide }
  calm _ := rfl
  room p := by
    rw [uses_eq]
    cases hm : openRoot.minode? p with
    | none => decide
    | some m =>
      obtain ⟨-, rfl⟩ := openDisk_minode hm
      decide
  perm := by decide
  directory p d mounted hp hseen _ _ := by
    rw [openRoot_reached hp, openRoot_seen] at hseen
    obtain ⟨hd, _⟩ := Prod.ext_iff.mp (Option.some.inj hseen)
    change openDinode = d at hd
    rw [openRoot_reached hp, ← hd]
    exact ⟨[2], [10, 11], 0, openDisk_makes, by decide, by decide, .inl (by decide)⟩
  root p d vdisk hp hseen := by
    rw [openRoot_reached hp, openRoot_seen] at hseen
    obtain ⟨_, hvdisk⟩ := Prod.ext_iff.mp (Option.some.inj hseen)
    rw [← Option.some.inj hvdisk]
    exact ⟨openDinode, some 0, rfl, by decide⟩

/-- A directory is made under its full path. -/
theorem mkdirRight_root : ((mkdir lookupMinode [slash, 0xA7] ⟨0, 0⟩).run openRoot).1 = .ok ∧
    MkdirRight openRoot [slash, 0xA7] [slash, 0xA7] ⟨0, 0⟩ := by
  refine ⟨by decide +kernel, (mkdirRight_iff openRoot_makeable ⟨by decide, by decide, rfl⟩ ⟨0, 0⟩).mpr fun p hp =>
    ⟨Iff.rfl, fun last hvacant => ?_⟩⟩
  have hstop : openRoot.Parent [slash, 0xA7] ⟨0, 2⟩ := by
    rw [Ufs.Parent]
    decide +kernel
  obtain ⟨hp, -⟩ := Prod.ext_iff.mp (Option.some.inj (hstop.symm.trans hp))
  obtain rfl : (⟨0, 2⟩ : Minptr) = p := hp
  have hlast : (openRoot.location [slash, 0xA7]).getLast? = some [0xA7] := by decide
  obtain rfl := Option.some.inj (hlast.symm.trans hvacant.name)
  have hnone : openRoot.entries ⟨0, 2⟩ = [] := by decide +kernel
  refine ⟨by rw [Ufs.Canonical]; decide, by decide +kernel, by decide, fun e he => ?_⟩
  rw [hnone] at he
  exact absurd he List.not_mem_nil

/-- From the root directory the same name without a slash is refused. -/
theorem not_mkdirRight_root : openRoot.Makeable ∧ openRoot.SameLocation [slash, 0xA7] [0xA7] ∧
    ¬ MkdirRight openRoot [slash, 0xA7] [0xA7] ⟨0, 0⟩ := by
  refine ⟨openRoot_makeable, ⟨by decide, by decide, by decide⟩, fun hright => ?_⟩
  have hcodes : ((mkdir lookupMinode [0xA7] ⟨0, 0⟩).run openRoot).1 ≠
      ((mkdir lookupMinode [slash, 0xA7] ⟨0, 0⟩).run openRoot).1 := by decide +kernel
  exact hcodes (congrArg Prod.fst hright.same)

end Open

end Ufs370
