import Ufs370.BlockPartition
import Ufs370.HandleLaws
import Ufs370.Lookup

/-! The references that `ufs_lookup_minode` takes, against those it promises its caller. -/

namespace Ufs370

open Lib

/-- From use counts `u` one reference was taken to each of the pointers, if there. -/
def Counted (u u' : Minptr → Nat) (dir last : Option Minptr) : Prop :=
  ∀ p, u' p = u p + (if dir = some p then 1 else 0) + if last = some p then 1 else 0

/-- What the header promises of `ufs_lookup_minode`: one counted reference for each pointer that it
returns, and no other change of a use count. -/
def LookupContract (s : Ufs) (path : List UInt8) (dir last : Bool) : Prop :=
  let r := (lookupMinode path dir last).run s
  Counted s.uses r.2.uses r.1.2.dir r.1.2.last

/-- The directory has the name. -/
def Named (p : Minptr) (name : List UInt8) (s : Ufs) : Prop :=
  ((onDisk p.vdisk (fileLookupByName p.ino name)).run s).1.isOk

/-- On its way the walk comes to a directory that it may not search, or that does not have the name
it looks for.  It ends without either where the disk does not give it an inode. -/
def Refused : List (List UInt8) → Minptr → Ufs → Prop
  | [], _, _ => False
  | name :: next, dirMinode, s =>
    match (searchDir dirMinode).run s with
    | (.error rc, _) => rc ≠ .enoent
    | (.ok dirMinode, s) =>
      ¬ Named dirMinode name s ∨
        match (lookupChild dirMinode name).run s with
        | (.error _, _) => False
        | (.ok minode, s) => Refused next minode s

/-- The calls that end before the first name is looked up, if `dir` is wanted; else the calls for a
name in which the walk does not get stuck. -/
def Balanced (s : Ufs) (path : List UInt8) (dir : Bool) : Prop :=
  let temppath := tempPath s.cwd path
  temppath.head? ≠ some slash ∨
    if dir then names temppath = [] ∨ checkDir s s.fsroot ≠ .ok
    else names temppath ≠ [] ∧ ¬ Refused (names temppath) s.fsroot (s.fsroot.use.run s).2

section Step

variable {s : Ufs} {u : Minptr → Nat} {p : Minptr}

theorem checkDir_ne (s : Ufs) (p : Minptr) : checkDir s p ≠ .enoent := by
  rw [checkDir]
  split
  · decide
  · split <;> decide

theorem checkDir_congr {s' : Ufs} (hacee : s'.acee = s.acee) (h : s'.dinode p = s.dinode p) :
    checkDir s' p = checkDir s p := by
  have hexec : s'.authExec p = s.authExec p := by rw [Ufs.authExec, hacee, h, Ufs.authExec]
  have hdir : s'.isdir p = s.isdir p := by rw [Ufs.isdir, h, Ufs.isdir]
  rw [checkDir, hexec, hdir, checkDir]

/-- The counts of a walk that has one reference, to `p`. -/
def holding (u : Minptr → Nat) (p : Minptr) : Minptr → Nat := Function.update u p (u p + 1)

theorem holding_eq (u : Minptr → Nat) (p q : Minptr) :
    holding u p q = u q + (if (none : Option Minptr) = some q then 1 else 0) + if some p = some q then 1 else 0 := by
  by_cases hq : q = p
  · subst hq
    simp [holding]
  · simp [holding, hq, Ne.symm hq]

theorem not_counted_holding (u : Minptr → Nat) (p : Minptr) : ¬ Counted u (holding u p) none none := fun h => by
  have := h p
  rw [holding, Function.update_self] at this
  simp at this

variable (hfits : ∀ p, u p < 65535)
include hfits

theorem use_holding (hp : 0 < s.uses p) (h : s.uses = u) :
    ∃ s', p.use.run s = ((), s') ∧ Kept s s' ∧ s'.uses = holding u p := by
  obtain ⟨s', hrun, hkept, huses⟩ := use_uses s p hp
  refine ⟨s', hrun, hkept, ?_⟩
  rw [huses, h, u16, Nat.mod_eq_of_lt (Nat.succ_lt_succ (hfits p))]
  rfl

theorem getMinode_holding (h : s.uses = u) (i ino : Nat) :
    ∃ r s', (getMinode i ino).run s = (r, s') ∧ Kept s s' ∧
      (r = none ∧ s'.uses = u ∨ r = some ⟨i, ino⟩ ∧ s'.uses = holding u ⟨i, ino⟩) := by
  obtain ⟨r, s', hrun, hkept, ⟨hr, huses⟩ | ⟨hr, huses⟩⟩ := getMinode_uses s i ino
  · exact ⟨r, s', hrun, hkept, .inl ⟨hr, huses.trans h⟩⟩
  · refine ⟨r, s', hrun, hkept, .inr ⟨hr, ?_⟩⟩
    rw [huses, h, u16, Nat.mod_eq_of_lt (Nat.succ_lt_succ (hfits _))]
    rfl

omit hfits in
theorem rel_holding (hone : s.OneHandle) (h : s.uses = holding u p) :
    ∃ s', p.rel.run s = ((), s') ∧ Kept s s' ∧ s'.uses = u := by
  obtain ⟨s', hrun, hkept, huses⟩ := rel_uses s p hone
  refine ⟨s', hrun, hkept, ?_⟩
  rw [huses, h, holding, Function.update_self, Nat.add_sub_cancel, Function.update_idem,
    Function.update_eq_self]

/-- A walk that has one reference goes on with one; it is without one where the disk that is
mounted on a directory does not give it the root. -/
theorem searchDir_holding (hone : s.OneHandle) (h : s.uses = holding u p) :
    ∃ r s', (searchDir p).run s = (r, s') ∧ Kept s s' ∧
      (r = .error .enoent ∧ s'.uses = u ∨
        ∃ q, s'.uses = holding u q ∧ (r = .ok q ∨ ∃ rc, r = .error rc ∧ rc ≠ .enoent)) := by
  simp only [searchDir, Prog.run_bind]
  by_cases hcheck : checkDir s p = .ok
  · simp only [hcheck, ne_eq, not_true_eq_false, if_false]
    cases hm : (s.minode p).mountedVdisk with
    | none => exact ⟨_, s, rfl, .refl s, .inr ⟨p, h, .inl rfl⟩⟩
    | some i =>
      obtain ⟨s₁, hrel, hkept, huses⟩ := rel_holding hone h
      obtain ⟨r, s₂, hget, hkept', ⟨rfl, huses'⟩ | ⟨rfl, huses'⟩⟩ := getMinode_holding hfits huses i rootInode
      · simp only [Prog.run_bind, hrel, hget]
        exact ⟨_, s₂, rfl, hkept.trans hkept', .inl ⟨rfl, huses'⟩⟩
      · simp only [Prog.run_bind, hrel, hget]
        by_cases hroot : checkDir s₂ ⟨i, rootInode⟩ = .ok
        · simp only [hroot, not_true_eq_false, if_false]
          exact ⟨_, s₂, rfl, hkept.trans hkept', .inr ⟨_, huses', .inl rfl⟩⟩
        · simp only [hroot, not_false_eq_true, if_true]
          exact ⟨_, s₂, rfl, hkept.trans hkept', .inr ⟨_, huses', .inr ⟨_, rfl, checkDir_ne _ _⟩⟩⟩
  · simp only [hcheck, ne_eq, not_false_eq_true, if_true]
    exact ⟨_, s, rfl, .refl s, .inr ⟨p, h, .inr ⟨_, rfl, checkDir_ne _ _⟩⟩⟩

/-- Where the directory has the name, the reference to it becomes one to the inode. -/
theorem lookupChild_holding (hone : s.OneHandle) (h : s.uses = holding u p) (name : List UInt8) :
    ∃ r s', (lookupChild p name).run s = (r, s') ∧ Kept s s' ∧
      ((∃ rc, r = .error rc) ∧ (s'.uses = holding u p ∧ ¬ Named p name s ∨ s'.uses = u ∧ Named p name s) ∨
        Named p name s ∧ ∃ q, r = .ok q ∧ s'.uses = holding u q) := by
  obtain ⟨s₁, hlookup, hkept, hminode⟩ :=
    onDisk_readsOnly s p.vdisk (ReadsOnly.fileLookupByName p.ino name)
  have huses : s₁.uses = holding u p := (uses_congr hminode).trans h
  simp only [lookupChild, Named, Prog.run_bind, hlookup]
  cases hfound : ((fileLookupByName p.ino name).run (s.vdisk p.vdisk)).1 with
  | error rc => exact ⟨_, s₁, rfl, hkept, .inl ⟨⟨rc, rfl⟩, .inl ⟨huses, by simp [Except.isOk, Except.toBool]⟩⟩⟩
  | ok ino =>
    have hnamed : (Except.ok (ε := Rc) ino).isOk := rfl
    obtain ⟨s₂, hrel, hkept₂, huses₂⟩ := rel_holding (hkept.oneHandle hone) huses
    obtain ⟨r, s₃, hget, hkept₃, ⟨rfl, huses₃⟩ | ⟨rfl, huses₃⟩⟩ := getMinode_holding hfits huses₂ p.vdisk ino
    · simp only [Prog.run_bind, hrel, hget]
      exact ⟨_, s₃, rfl, (hkept.trans hkept₂).trans hkept₃, .inl ⟨⟨_, rfl⟩, .inr ⟨huses₃, hnamed⟩⟩⟩
    · simp only [Prog.run_bind, hrel, hget]
      exact ⟨_, s₃, rfl, (hkept.trans hkept₂).trans hkept₃, .inr ⟨hnamed, _, rfl, huses₃⟩⟩

/-- Without a `dir` to return, a walk that is not refused keeps a reference to `*last` only. -/
theorem loop_holding {last : Bool} {names : List (List UInt8)} {out : Found} (hnames : names ≠ [])
    (hone : s.OneHandle) (h : s.uses = holding u p) (hdir : out.dir = none) (hlast : out.last = none) :
    ∃ rc out' s', (lookupMinodeLoop false last names p out).run s = ((rc, out'), s') ∧ out'.dir = none ∧
      (Refused names p s ∧ out'.last = none ∧ (∃ q, s'.uses = holding u q) ∨
        ¬ Refused names p s ∧ Counted u s'.uses none out'.last) := by
  have hnone : ∀ {u' : Minptr → Nat}, u' = u → Counted u u' none none := fun h q => by simp [h]
  induction names generalizing s p out with
  | nil => exact absurd rfl hnames
  | cons name next ih =>
    obtain ⟨r, s₁, hsearch, hkept, ⟨rfl, huses⟩ | ⟨q, huses, rfl | ⟨rc, rfl, hrc⟩⟩⟩ :=
      searchDir_holding hfits hone h
    · simp only [lookupMinodeLoop, Refused, Prog.run_bind, hsearch]
      exact ⟨_, _, s₁, rfl, hdir, .inr ⟨not_not_intro rfl, hlast ▸ hnone huses⟩⟩
    · obtain ⟨r, s₂, hchild, hkept₂, hr⟩ := lookupChild_holding hfits (hkept.oneHandle hone) huses name
      simp only [lookupMinodeLoop, Refused, storeDir, Bool.false_eq_true, if_false, Prog.run_bind, hsearch,
        Prog.run_pure, hchild]
      rcases hr with ⟨⟨rc, rfl⟩, ⟨huses₂, hnamed⟩ | ⟨huses₂, hnamed⟩⟩ | ⟨hnamed, m, rfl, huses₂⟩
      · exact ⟨_, _, s₂, rfl, hdir, .inl ⟨.inl hnamed, hlast, q, huses₂⟩⟩
      · exact ⟨_, _, s₂, rfl, hdir, .inr ⟨by simp [hnamed], hlast ▸ hnone huses₂⟩⟩
      · have hone₂ := hkept₂.oneHandle (hkept.oneHandle hone)
        by_cases hnext : next = []
        · subst hnext
          have hnot : ¬ (¬ Named q name s₁ ∨ Refused [] m s₂) := by simp [hnamed, Refused]
          cases last with
          | true =>
            refine ⟨_, _, s₂, rfl, hdir, .inr ⟨hnot, fun p => ?_⟩⟩
            rw [huses₂]
            exact holding_eq u m p
          | false =>
            obtain ⟨s₃, hrel, _, huses₃⟩ := rel_holding hone₂ huses₂
            simp only [ne_eq, not_true_eq_false, if_false, Prog.run_bind, hrel, Bool.false_eq_true]
            exact ⟨_, _, s₃, rfl, hdir, .inr ⟨hnot, hlast ▸ hnone huses₃⟩⟩
        · simp only [ne_eq, hnext, not_false_eq_true, if_true, hnamed, not_true_eq_false, false_or]
          exact ih hnext hone₂ huses₂ hdir hlast
    · simp only [lookupMinodeLoop, Refused, Prog.run_bind, hsearch]
      exact ⟨_, _, s₁, rfl, hdir, .inl ⟨hrc, hlast, q, huses⟩⟩

end Step

section Dir

variable {u : Minptr → Nat} {root : Minptr}

/-- The counts of a walk that has at most one reference, to `x`, and that has given back more
references to `root` than it took. -/
structure Short (u : Minptr → Nat) (root : Minptr) (x : Option Minptr) (u' : Minptr → Nat) : Prop where
  le : ∀ p, u' p ≤ u p + if x = some p then 1 else 0
  root : u' root < u root + if x = some root then 1 else 0

theorem Short.not_counted {u' : Minptr → Nat} {x last : Option Minptr} {e : Minptr} (h : Short u root x u') :
    ¬ Counted u u' (some e) last := fun hc => by
  have hx : x = some e := by
    have hle := h.le e
    have he := hc e
    by_contra hx
    rw [if_neg hx] at hle
    rw [if_pos rfl] at he
    omega
  have hlt := h.root
  have hroot := hc root
  rw [hx] at hlt
  omega

theorem update_sub_one (u : Minptr → Nat) (p q : Minptr) :
    Function.update u p (u p - 1) q = u q - if some p = some q then 1 else 0 := by
  by_cases hq : p = q
  · subst hq
    rw [Function.update_self, if_pos rfl]
  · rw [Function.update_of_ne (Ne.symm hq), if_neg (by simpa using hq), Nat.sub_zero]

theorem update_succ_le (u : Minptr → Nat) (p q : Minptr) :
    Function.update u p (u16 (u p + 1)) q ≤ u q + if some p = some q then 1 else 0 := by
  by_cases hq : p = q
  · subst hq
    rw [Function.update_self, if_pos rfl]
    exact Nat.mod_le ..
  · rw [Function.update_of_ne (Ne.symm hq), if_neg (by simpa using hq), Nat.add_zero]

variable {s : Ufs} {x : Option Minptr}

theorem Short.rel {p : Minptr} (hone : s.OneHandle) (hpos : 0 < u root) (h : Short u root (some p) s.uses) :
    ∃ s', p.rel.run s = ((), s') ∧ Kept s s' ∧ Short u root none s'.uses := by
  obtain ⟨s', hrun, hkept, huses⟩ := rel_uses s p hone
  refine ⟨s', hrun, hkept, fun q => ?_, ?_⟩
  · have := h.le q
    rw [huses, update_sub_one]
    omega
  · have := h.root
    rw [huses, update_sub_one, if_neg (c := none = some root) (by simp)]
    omega

theorem Short.release (e : Minptr) (hone : s.OneHandle) (h : Short u root x s.uses) :
    ∃ s', e.rel.run s = ((), s') ∧ Kept s s' ∧ Short u root x s'.uses := by
  obtain ⟨s', hrun, hkept, huses⟩ := rel_uses s e hone
  have hle : ∀ q, s'.uses q ≤ s.uses q := fun q => by
    rw [huses, update_sub_one]
    exact Nat.sub_le ..
  exact ⟨s', hrun, hkept, fun q => (hle q).trans (h.le q), (hle root).trans_lt h.root⟩

theorem Short.get (h : Short u root none s.uses) (i ino : Nat) :
    ∃ r s', (getMinode i ino).run s = (r, s') ∧ Kept s s' ∧ (r = none ∨ r = some ⟨i, ino⟩) ∧
      Short u root r s'.uses := by
  obtain ⟨r, s', hrun, hkept, ⟨rfl, huses⟩ | ⟨rfl, huses⟩⟩ := getMinode_uses s i ino
  · exact ⟨none, s', hrun, hkept, .inl rfl, huses ▸ h⟩
  · have hle : ∀ q, s'.uses q ≤ s.uses q + if some (⟨i, ino⟩ : Minptr) = some q then 1 else 0 := fun q => by
      rw [huses]
      exact update_succ_le ..
    refine ⟨_, s', hrun, hkept, .inr rfl, fun q => ?_, ?_⟩
    · have := hle q
      have := h.le q
      rw [if_neg (by simp)] at this
      omega
    · have := hle root
      have := h.root
      rw [if_neg (by simp)] at this
      omega

theorem Short.searchDir {p : Minptr} (hone : s.OneHandle) (hpos : 0 < u root)
    (h : Short u root (some p) s.uses) :
    ∃ r s', (searchDir p).run s = (r, s') ∧ Kept s s' ∧
      ((∃ rc x, r = .error rc ∧ Short u root x s'.uses) ∨
        ∃ q, r = .ok q ∧ Short u root (some q) s'.uses) := by
  simp only [Ufs370.searchDir, Prog.run_bind]
  by_cases hcheck : checkDir s p = .ok
  · simp only [hcheck, ne_eq, not_true_eq_false, if_false]
    cases hm : (s.minode p).mountedVdisk with
    | none => exact ⟨_, s, rfl, .refl s, .inr ⟨p, rfl, h⟩⟩
    | some i =>
      obtain ⟨s₁, hrel, hkept, h₁⟩ := h.rel hone hpos
      obtain ⟨r, s₂, hget, hkept', rfl | rfl, h₂⟩ := h₁.get i rootInode
      · simp only [Prog.run_bind, hrel, hget]
        exact ⟨_, s₂, rfl, hkept.trans hkept', .inl ⟨_, _, rfl, h₂⟩⟩
      · simp only [Prog.run_bind, hrel, hget]
        by_cases hroot : checkDir s₂ ⟨i, rootInode⟩ = .ok
        · simp only [hroot, not_true_eq_false, if_false]
          exact ⟨_, s₂, rfl, hkept.trans hkept', .inr ⟨_, rfl, h₂⟩⟩
        · simp only [hroot, not_false_eq_true, if_true]
          exact ⟨_, s₂, rfl, hkept.trans hkept', .inl ⟨_, _, rfl, h₂⟩⟩
  · simp only [hcheck, ne_eq, not_false_eq_true, if_true]
    exact ⟨_, s, rfl, .refl s, .inl ⟨_, _, rfl, h⟩⟩

theorem Short.lookupChild {p : Minptr} (hone : s.OneHandle) (hpos : 0 < u root)
    (h : Short u root (some p) s.uses) (name : List UInt8) :
    ∃ r s', (lookupChild p name).run s = (r, s') ∧ Kept s s' ∧
      ((∃ rc x, r = .error rc ∧ Short u root x s'.uses) ∨
        ∃ q, r = .ok q ∧ Short u root (some q) s'.uses) := by
  obtain ⟨s₁, hlookup, hkept, hminode⟩ :=
    onDisk_readsOnly s p.vdisk (ReadsOnly.fileLookupByName p.ino name)
  have h₁ : Short u root (some p) s₁.uses := uses_congr hminode ▸ h
  simp only [Ufs370.lookupChild, Prog.run_bind, hlookup]
  cases ((fileLookupByName p.ino name).run (s.vdisk p.vdisk)).1 with
  | error rc => exact ⟨_, s₁, rfl, hkept, .inl ⟨rc, _, rfl, h₁⟩⟩
  | ok ino =>
    obtain ⟨s₂, hrel, hkept₂, h₂⟩ := h₁.rel (hkept.oneHandle hone) hpos
    obtain ⟨r, s₃, hget, hkept₃, rfl | rfl, h₃⟩ := h₂.get p.vdisk ino
    · simp only [Prog.run_bind, hrel, hget]
      exact ⟨_, s₃, rfl, (hkept.trans hkept₂).trans hkept₃, .inl ⟨_, _, rfl, h₃⟩⟩
    · simp only [Prog.run_bind, hrel, hget]
      exact ⟨_, s₃, rfl, (hkept.trans hkept₂).trans hkept₃, .inr ⟨_, rfl, h₃⟩⟩

/-- What is true at the end of a walk that has looked up a name with `dir` to return. -/
def EndsShort (u : Minptr → Nat) (root : Minptr) (x : Prog Ufs (Rc × Found)) (s : Ufs) : Prop :=
  ∃ e x', (x.run s).1.2.dir = some e ∧ Short u root x' (x.run s).2.uses

/-- One round of the loop, from where the directory has become `*dir`. -/
theorem round_short {last : Bool} {name : List UInt8} {next : List (List UInt8)} {p q : Minptr} {out out₂ : Found}
    {s₁ s₂ : Ufs} (hone : s₂.OneHandle) (hpos : 0 < u root) (hsearch : (searchDir p).run s = (.ok q, s₁))
    (hstore : (storeDir true q { out with fullpath := out.fullpath ++ slash :: name }).run s₁ = (out₂, s₂))
    (hdir : out₂.dir = some q) (h : Short u root (some q) s₂.uses)
    (hnext : ∀ {m : Minptr} {t : Ufs}, t.OneHandle → Short u root (some m) t.uses →
      EndsShort u root (lookupMinodeLoop true last next m out₂) t) :
    EndsShort u root (lookupMinodeLoop true last (name :: next) p out) s := by
  obtain ⟨r, s₃, hchild, hkept, ⟨rc, x, rfl, h₃⟩ | ⟨m, rfl, h₃⟩⟩ := h.lookupChild hone hpos name
  · simp only [EndsShort, lookupMinodeLoop, Prog.run_bind, hsearch, hstore, hchild]
    exact ⟨q, x, hdir, h₃⟩
  · have hone₃ := hkept.oneHandle hone
    have hloop := hnext hone₃ h₃
    simp only [EndsShort, lookupMinodeLoop, Prog.run_bind, hsearch, hstore, hchild] at hloop ⊢
    by_cases hnil : next = []
    · cases last with
      | true =>
        simp only [hnil, ne_eq, not_true_eq_false, if_false, if_true, Prog.run_pure]
        exact ⟨q, _, hdir, h₃⟩
      | false =>
        obtain ⟨s₄, hrel, _, h₄⟩ := h₃.rel hone₃ hpos
        simp only [hnil, ne_eq, not_true_eq_false, if_false, Bool.false_eq_true, Prog.run_bind, hrel,
          Prog.run_pure]
        exact ⟨q, _, hdir, h₄⟩
    · rwa [if_pos hnil]

theorem loop_short {last : Bool} {names : List (List UInt8)} {p e : Minptr} {out : Found} (hone : s.OneHandle)
    (hpos : 0 < u root) (h : Short u root (some p) s.uses) (hdir : out.dir = some e) :
    EndsShort u root (lookupMinodeLoop true last names p out) s := by
  induction names generalizing s p e out with
  | nil => exact ⟨e, _, hdir, h⟩
  | cons name next ih =>
    obtain ⟨r, s₁, hsearch, hkept, ⟨rc, x, rfl, h₁⟩ | ⟨q, rfl, h₁⟩⟩ := h.searchDir hone hpos
    · simp only [EndsShort, lookupMinodeLoop, Prog.run_bind, hsearch]
      exact ⟨e, x, hdir, h₁⟩
    · obtain ⟨s₂, hrel, hkept₂, h₂⟩ := h₁.release e (hkept.oneHandle hone)
      have hstore : (storeDir true q { out with fullpath := out.fullpath ++ slash :: name }).run s₁ =
          (⟨some q, out.last, out.fullpath ++ slash :: name⟩, s₂) := by
        simp only [storeDir, if_true, hdir, relOpt, Prog.run_bind, hrel]
        rfl
      exact round_short (hkept₂.oneHandle (hkept.oneHandle hone)) hpos hsearch hstore rfl h₂
        fun hone₃ h₃ => ih hone₃ h₃ rfl

variable {s₀ : Ufs} (hone : s₀.OneHandle) (hpos : 0 < s₀.uses s₀.fsroot)
  (hfits : ∀ p, s₀.uses p < 65535)

/-- The state in which the loop starts. -/
structure Started (s₀ s : Ufs) : Prop where
  kept : Kept s₀ s
  uses : s.uses = holding s₀.uses s₀.fsroot
  minode : s.minode? s₀.fsroot = (s₀.minode? s₀.fsroot).map Minode.taken

include hpos hfits in
theorem use_started : ∃ s, s₀.fsroot.use.run s₀ = ((), s) ∧ Started s₀ s := by
  obtain ⟨s, hrun, hkept, hminode⟩ := use_run s₀ s₀.fsroot
  obtain ⟨s', hrun', _, huses⟩ := use_holding hfits hpos rfl
  obtain rfl : s = s' := (Prod.mk.inj (hrun.symm.trans hrun')).2
  exact ⟨s, hrun, hkept, huses, by rw [hminode, Function.update_self]⟩

theorem minode_some {p : Minptr} {m : Minode} (h : s.minode? p = some m) : s.minode p = m :=
  VDisk.deref_some h

variable (hstart : Started s₀ s)
include hone hpos hfits hstart

/-- The root keeps its handle while the walk lets go of it. -/
theorem Started.released : ∃ s₁ m, s₀.fsroot.rel.run s = ((), s₁) ∧ Kept s s₁ ∧ s₁.uses = s₀.uses ∧
    s₀.minode? s₀.fsroot = some m ∧ s₁.minode? s₀.fsroot = some m := by
  obtain ⟨s₁, hrun, hkept, hminode⟩ := rel_run s s₀.fsroot (hstart.kept.oneHandle hone)
  obtain ⟨s₁', hrun', _, huses⟩ := rel_holding (hstart.kept.oneHandle hone) hstart.uses
  obtain rfl : s₁ = s₁' := (Prod.mk.inj (hrun.symm.trans hrun')).2
  have hroot := hpos
  have hfit := hfits s₀.fsroot
  rw [uses_eq] at hroot hfit
  cases hm : s₀.minode? s₀.fsroot with
  | none =>
    rw [hm] at hroot
    exact absurd hroot (Nat.lt_irrefl 0)
  | some m =>
    simp only [hm, Option.elim_some] at hroot hfit
    refine ⟨s₁, m, hrun, hkept, huses, rfl, ?_⟩
    have hcount : u16 (m.usecount + 1) - 1 = m.usecount := by
      rw [u16, Nat.mod_eq_of_lt (by omega)]
      omega
    have hstays : m.taken.Stays := .inr (by
      change u16 (m.usecount + 1) - 1 ≠ 0
      omega)
    rw [hminode, Function.update_self, hstart.minode, hm, Option.map_some, Option.bind_some, Minode.released,
      if_pos hstays]
    simp only [Minode.taken, hcount]

theorem Started.check : checkDir s s₀.fsroot = checkDir s₀ s₀.fsroot := by
  obtain ⟨_, m, _, _, _, hm, _⟩ := hstart.released hone hpos hfits
  refine checkDir_congr (by rw [hstart.kept.same]) ?_
  rw [Ufs.dinode, minode_some (m := m.taken) (by rw [hstart.minode, hm, Option.map_some]), Ufs.dinode,
    minode_some hm]
  rfl

/-- If the root may be searched, a failure to do so comes from the disk that is mounted on it, and
after the root has been released. -/
theorem Started.searchDir_error (hcheck : checkDir s₀ s₀.fsroot = .ok) {rc : Rc} {s' : Ufs}
    (h : (searchDir s₀.fsroot).run s = (.error rc, s')) : s'.uses s₀.fsroot = s₀.uses s₀.fsroot := by
  obtain ⟨s₁, m, hrel, hkept, huses, hm, hm₁⟩ := hstart.released hone hpos hfits
  have hdinode : s₀.dinode s₀.fsroot = m.dinode := by rw [Ufs.dinode, minode_some hm]
  have hcheck' := (hstart.check hone hpos hfits).trans hcheck
  simp only [searchDir, Prog.run_bind, hcheck', ne_eq, not_true_eq_false, if_false] at h
  cases hmount : (s.minode s₀.fsroot).mountedVdisk with
  | none =>
    rw [hmount] at h
    cases (Prod.mk.inj h).1
  | some i =>
    simp only [hmount, Prog.run_bind, hrel] at h
    obtain ⟨r, s₂, hget, hkept₂, ⟨rfl, _, hminode⟩ | ⟨rfl, hminode⟩⟩ := getMinode_run s₁ i rootInode
    · simp only [hget, Prog.run_pure] at h
      rw [← (Prod.mk.inj h).2, uses_congr hminode, huses]
    · simp only [hget, Prog.run_bind] at h
      by_cases hi : (⟨i, rootInode⟩ : Minptr) = s₀.fsroot
      · have hroot : s₂.dinode s₀.fsroot = m.dinode := by
          have hloaded : s₁.loaded s₀.fsroot = m := by
            have := hm₁
            rw [Ufs.minode?] at this
            rw [Ufs.loaded, VDisk.loaded, this, Option.getD_some]
          rw [Ufs.dinode, minode_some (m := m.taken) (by rw [hminode, hi, Function.update_self, hloaded])]
          rfl
        have hkept' := (hstart.kept.trans hkept).trans hkept₂
        have hsame := (checkDir_congr (by rw [hkept'.same]) (hroot.trans hdinode.symm)).trans hcheck
        simp only [hi, hsame, not_true_eq_false, if_false] at h
        cases (Prod.mk.inj h).1
      · have hs : s' = s₂ := by
          by_cases hroot : checkDir s₂ ⟨i, rootInode⟩ = .ok
          · simp only [hroot, not_true_eq_false, if_false] at h
            cases (Prod.mk.inj h).1
          · simp only [hroot, not_false_eq_true, if_true] at h
            exact (Prod.mk.inj h).2.symm
        rw [hs, uses_update hminode, Function.update_of_ne (Ne.symm hi), huses]

/-- With `dir` to return, a walk that looks up a name breaks the promise. -/
theorem Started.not_counted {last : Bool} {name : List UInt8} {next : List (List UInt8)} {out : Found}
    (hcheck : checkDir s₀ s₀.fsroot = .ok) (hdir : out.dir = some s₀.fsroot) :
    let r := (lookupMinodeLoop true last (name :: next) s₀.fsroot out).run s
    ¬ Counted s₀.uses r.2.uses r.1.2.dir r.1.2.last := by
  have hone' := hstart.kept.oneHandle hone
  obtain ⟨r, s₁, hsearch, hkept, hr⟩ := searchDir_holding hfits hone' hstart.uses
  cases r with
  | error rc =>
    have hroot := hstart.searchDir_error hone hpos hfits hcheck hsearch
    simp only [lookupMinodeLoop, Prog.run_bind, hsearch]
    intro hc
    have := hc s₀.fsroot
    rw [Prog.run_pure, hroot, hdir, if_pos rfl] at this
    omega
  | ok q =>
    have huses : s₁.uses = holding s₀.uses q := by
      rcases hr with ⟨h, _⟩ | ⟨q', huses, h | ⟨rc, h, _⟩⟩
      · cases h
      · rwa [Except.ok.inj h]
      · cases h
    obtain ⟨s₂, hrel, hkept₂, huses₂⟩ := rel_uses s₁ s₀.fsroot (hkept.oneHandle hone')
    have hshort : Short s₀.uses s₀.fsroot (some q) s₂.uses := by
      refine ⟨fun p => ?_, ?_⟩
      · rw [huses₂, update_sub_one, huses, holding_eq]
        simp
      · rw [huses₂, update_sub_one, huses, holding_eq, if_pos rfl]
        simp only [reduceCtorEq, if_false]
        omega
    have hstore : (storeDir true q { out with fullpath := out.fullpath ++ slash :: name }).run s₁ =
        (⟨some q, out.last, out.fullpath ++ slash :: name⟩, s₂) := by
      simp only [storeDir, if_true, hdir, relOpt, Prog.run_bind, hrel]
      rfl
    have hround : EndsShort s₀.uses s₀.fsroot (lookupMinodeLoop true last (name :: next) s₀.fsroot out) s :=
      round_short (hkept₂.oneHandle (hkept.oneHandle hone')) hpos hsearch hstore rfl hshort
        fun hone₃ h₃ => loop_short hone₃ hpos h₃ rfl
    obtain ⟨e, x, he, hend⟩ := hround
    dsimp only
    rw [he]
    exact hend.not_counted

end Dir

/-- Where `ufs_lookup_minode` keeps the promise of its header. -/
theorem lookupMinode_counted (s : Ufs) (path : List UInt8) (dir last : Bool) (hone : s.OneHandle)
    (hroot : 0 < s.uses s.fsroot) (hfits : ∀ p, s.uses p < 65535) :
    LookupContract s path dir last ↔ Balanced s path dir := by
  rw [LookupContract, Balanced]
  simp only [lookupMinode, Prog.run_bind]
  by_cases hfull : (tempPath s.cwd path).head? = some slash
  · obtain ⟨s₁, huse, hstart⟩ := use_started hroot hfits
    have hone₁ := hstart.kept.oneHandle hone
    simp only [hfull, ne_eq, not_true_eq_false, if_false, Prog.run_bind, huse, false_or, Prog.run_pure]
    have hout : ∀ r : Rc × Found,
        (if r.1 = .ok ∧ r.2.fullpath = [] then { r.2 with fullpath := [slash] } else r.2).dir = r.2.dir ∧
        (if r.1 = .ok ∧ r.2.fullpath = [] then { r.2 with fullpath := [slash] } else r.2).last =
          r.2.last := fun r => by split <;> exact ⟨rfl, rfl⟩
    rw [(hout _).1, (hout _).2]
    generalize names (tempPath s.cwd path) = ns
    cases dir with
    | true =>
      simp only [if_true]
      cases ns with
      | nil =>
        simp only [true_or, iff_true, lookupMinodeLoop, Prog.run_pure]
        intro p
        rw [hstart.uses, holding_eq]
        simp
      | cons name next =>
        simp only [reduceCtorEq, false_or]
        by_cases hcheck : checkDir s s.fsroot = .ok
        · simp only [hcheck, not_true_eq_false, iff_false]
          exact hstart.not_counted hone hroot hfits hcheck rfl
        · simp only [hcheck, not_false_eq_true, iff_true]
          have hcheck₁ : checkDir s₁ s.fsroot ≠ .ok := by
            rwa [hstart.check hone hroot hfits]
          simp only [lookupMinodeLoop, searchDir, Prog.run_bind, ne_eq, hcheck₁, not_false_eq_true, if_true,
            Prog.run_pure]
          intro p
          rw [hstart.uses, holding_eq]
          simp
    | false =>
      simp only [Bool.false_eq_true, if_false]
      cases ns with
      | nil =>
        simp only [not_true_eq_false, false_and, iff_false, lookupMinodeLoop, Prog.run_pure]
        rw [hstart.uses]
        exact not_counted_holding s.uses s.fsroot
      | cons name next =>
        simp only [reduceCtorEq, not_false_eq_true, true_and]
        have hwalk : ∃ rc out' s', (lookupMinodeLoop false last (name :: next) s.fsroot ⟨none, none, []⟩).run s₁ =
            ((rc, out'), s') ∧ out'.dir = none ∧
            (Refused (name :: next) s.fsroot s₁ ∧ out'.last = none ∧ (∃ q, s'.uses = holding s.uses q) ∨
              ¬ Refused (name :: next) s.fsroot s₁ ∧ Counted s.uses s'.uses none out'.last) :=
          loop_holding hfits (List.cons_ne_nil name next) hone₁ hstart.uses rfl rfl
        obtain ⟨rc, out', s', hloop, hdir, ⟨hrefused, hlast, q, huses⟩ | ⟨hrefused, hcounted⟩⟩ := hwalk
        · rw [hloop]
          simp only [hdir, hlast, huses, hrefused, not_true_eq_false, iff_false]
          exact not_counted_holding s.uses q
        · rw [hloop]
          simp only [hdir, hrefused, not_false_eq_true, iff_true]
          exact hcounted
  · simp only [hfull, ne_eq, not_false_eq_true, if_true, Prog.run_pure, true_or, iff_true]
    intro p
    simp

section Bare

/-- A system with one disk and nothing in its root directory. -/
def bareRoot : Ufs where
  vdisk _ := { pairDisk with
    minodes := [⟨2, false, 1, some 0, { Dinode.zero with mode := 0x41ED, nlink := 2 }⟩] }
  nvdisk := 1
  ddname _ := []
  dsname _ := []
  mountedMinode i := if i = 0 then some ⟨0, 2⟩ else none
  fsroot := ⟨0, 2⟩
  mountpoint := [⟨0, 2⟩]
  cwd := ⟨some ⟨0, 2⟩, some ⟨0, 2⟩, [slash]⟩
  acee := none
  createPerm := 0x1ED

theorem bareRoot_uses (p : Minptr) : bareRoot.uses p = if p.ino = 2 then 1 else 0 := by
  by_cases hp : p.ino = 2
  · rw [if_pos hp, uses_eq, Ufs.minode?, hp]
    rfl
  · have hnone : bareRoot.minode? p = none := List.find?_eq_none.mpr fun m hm => by
      rw [List.mem_singleton.mp hm]
      simpa using Ne.symm hp
    rw [if_neg hp, uses_eq, hnone]
    rfl

/-- The root directory itself comes with its reference. -/
theorem lookupMinode_counted_root : LookupContract bareRoot [slash] true true := by
  refine (lookupMinode_counted bareRoot [slash] true true (fun _ => List.nodup_singleton 2) ?_ ?_).mpr
    (.inr (.inl (by decide)))
  · rw [bareRoot_uses]
    decide
  · intro p
    rw [bareRoot_uses]
    split <;> decide

/-- A name that is not there: the root comes back as `*dir`, but without a reference. -/
theorem lookupMinode_not_counted : ¬ LookupContract bareRoot [slash, 0xA7] true true := by
  intro h
  have hroot := h ⟨0, 2⟩
  revert hroot
  decide +kernel

end Bare

end Ufs370
