import Ufs370.FreeInodeLaws

/-! Clients that create files at the same time, one locked step of a client after another. -/

namespace Ufs370

open Lib

/-- The disk, and the inodes that are out: those in use and those a client was given. -/
structure Clients where
  disk : VDisk
  out : List Nat

/-- A locked step of a client in `ufs_file_allocate`: it gets an inode, sets its attributes and
writes it back, or gives it back. -/
inductive ClientStep
  | allocate
  | writeback (ino : Nat) (dinode : Dinode)
  | deallocate (ino : Nat)

abbrev ClientEvent := ClientStep × Rc × Nat

def Clients.onDisk {α : Type} (x : Prog VDisk α) : Prog Clients α :=
  Prog.lift Clients.disk (fun disk c => { c with disk }) x

/-- The part of `ufs_file_allocate` that has the number of a new inode. -/
def clientWriteback (ino : Nat) (dinode : Dinode) : Prog VDisk Rc := do
  match ← inodeGet ino with
  | none => return .enomem
  | some minode =>
    modifyDinode minode fun _ => dinode
    let _ ← inodeWriteback minode
    inodeRel minode
    return .ok

def clientStep : ClientStep → Prog Clients (Rc × Nat)
  | .allocate => do
    let (rc, ino) ← Clients.onDisk inodeAllocate
    if rc = .ok then
      Prog.modify fun c => { c with out := ino :: c.out }
    return (rc, ino)
  | .writeback ino dinode => do
    return (← Clients.onDisk (clientWriteback ino dinode), ino)
  | .deallocate ino => do
    Clients.onDisk (inodeDeallocate ino)
    Prog.modify fun c => { c with out := c.out.filter (· ≠ ino) }
    return (.ok, ino)

/-- A client writes to the inode it was given, which has a type by then, and gives back none
that is not out. -/
def ClientStep.Legal (c : Clients) : ClientStep → Prop
  | .allocate => True
  | .writeback ino dinode => ino ∈ c.out ∧ dinode.mode ≠ 0
  | .deallocate ino => ino ∈ c.out

/-- The numbers in the cache of free inodes. -/
def VDisk.freeCache (v : VDisk) : List Nat := (List.range v.sb.nfreeinode).map v.sb.freeinode

structure Clients.WellFormed (c : Clients) : Prop where
  geometry : Geometry c.disk
  table : c.disk.TableLayout
  nodup : c.disk.freeCache.Nodup
  disjoint : ∀ i ∈ c.disk.freeCache, i ∉ c.out

/-- If the cache has to be refilled, then every inode that is out has a mode on the disk, and
the refill comes upon one that has none. -/
def Clients.RefillSafe (c : Clients) : Prop :=
  c.disk.sb.readonly = false → c.disk.sb.totalFreeinode ≠ 0 → c.disk.sb.nfreeinode = 0 →
    (∀ i ∈ c.out, InodeNumber c.disk i → (c.disk.slot i).mode ≠ 0) ∧
    c.disk.Finds (c.disk.sb.datablockStartSector - c.disk.sb.ilistSector) c.disk.sb.ilistSector

section History

variable {hist : List ClientEvent} {e : ClientEvent} {n : Nat}

/-- Inode `n` was handed out and not given back since.  The newest event comes first. -/
def StillOut (n : Nat) (hist : List ClientEvent) : Prop :=
  ∃ since before, hist = since ++ (.allocate, .ok, n) :: before ∧
    ∀ r, (ClientStep.deallocate n, r) ∉ since

/-- No inode was handed out again before it was given back. -/
def HandedOnce (hist : List ClientEvent) : Prop :=
  ∀ later before n, hist = later ++ (.allocate, .ok, n) :: before → ¬ StillOut n before

theorem StillOut.of_cons (h : StillOut n (e :: hist)) :
    e = (.allocate, .ok, n) ∨ StillOut n hist ∧ ∀ r, e ≠ (.deallocate n, r) := by
  obtain ⟨since, before, heq, hsince⟩ := h
  cases since with
  | nil =>
    rw [List.nil_append, List.cons.injEq] at heq
    exact .inl heq.1
  | cons e' since =>
    rw [List.cons_append, List.cons.injEq] at heq
    refine .inr ⟨⟨since, before, heq.2, fun r h => hsince r (List.mem_cons_of_mem _ h)⟩, fun r h => ?_⟩
    exact hsince r (by rw [← h, heq.1]; exact List.mem_cons_self)

theorem HandedOnce.cons (h : HandedOnce hist)
    (he : ∀ n, e = (.allocate, .ok, n) → ¬ StillOut n hist) : HandedOnce (e :: hist) := by
  intro later before n heq
  cases later with
  | nil =>
    rw [List.nil_append, List.cons.injEq] at heq
    rw [← heq.2]
    exact he n heq.1
  | cons e' later =>
    rw [List.cons_append, List.cons.injEq] at heq
    exact h later before n heq.2

end History

section Steps

variable {v : VDisk}

theorem SameLayout.take (v : VDisk) (n t : Nat) (m : Bool) : SameLayout v { v with
    sb := { v.sb with nfreeinode := n, totalFreeinode := t, modified := m } } :=
  ⟨rfl, rfl, rfl, rfl, rfl, rfl⟩

/-- What is taken is the last number of the cache. -/
theorem inodeTake_spec (hn : 0 < v.sb.nfreeinode) : ∃ rc n v', inodeTake.run v = ((rc, n), v') ∧
    SameLayout v v' ∧ ∃ x, v.freeCache = v'.freeCache ++ [x] ∧ (rc = .ok → n = x) := by
  have hsub : u32sub v.sb.nfreeinode 1 = v.sb.nfreeinode - 1 := u32sub_of_le hn
  have hcache : v.freeCache =
      (List.range (v.sb.nfreeinode - 1)).map v.sb.freeinode ++ [v.sb.freeinode (v.sb.nfreeinode - 1)] := by
    rw [VDisk.freeCache]
    conv_lhs => rw [← Nat.sub_add_cancel hn, List.range_succ, List.map_append]
    rfl
  simp only [inodeTake, Prog.run_bind, Prog.run_ite, Prog.run_pure, hsub]
  split
  · refine ⟨_, _, _, rfl, .take .., _, hcache, fun h => ?_⟩
    exact absurd h ‹_›
  · exact ⟨_, _, _, rfl, .take .., _, hcache, fun _ => rfl⟩

theorem freeCache_fill (xs : List Nat) (m : Bool) : ({ v with
    sb := { v.sb.fill 0 xs with nfreeinode := xs.length, modified := m } } : VDisk).freeCache = xs := by
  rw [VDisk.freeCache]
  refine List.ext_getElem (by simp) fun a ha hlen => ?_
  rw [List.getElem_map, List.getElem_range]
  have := Superblock.fill_entry v.sb 0 xs hlen
  rwa [Nat.zero_add] at this

/-- The cache of `v` lists numbers of which none is out, each once. -/
def VDisk.CacheFree (v : VDisk) (out : List Nat) : Prop :=
  v.freeCache.Nodup ∧ ∀ i ∈ v.freeCache, i ∉ out

/-- An inode that is handed out was not out and is no longer in the cache. -/
structure Handed (v : VDisk) (out : List Nat) (rc : Rc) (n : Nat) (v' : VDisk) : Prop where
  layout : SameLayout v v'
  cache : v'.CacheFree out
  fresh : rc = .ok → n ∉ out ∧ n ∉ v'.freeCache

theorem inodeTake_handed {out : List Nat} (h : v.CacheFree out) (hn : 0 < v.sb.nfreeinode) :
    ∃ rc n v', inodeTake.run v = ((rc, n), v') ∧ Handed v out rc n v' := by
  obtain ⟨rc, n, v', hrun, hlay, x, hcache, hrc⟩ := inodeTake_spec hn
  obtain ⟨hnodup, hout⟩ := h
  rw [hcache] at hnodup hout
  obtain ⟨hnodup', _, hdisj⟩ := List.nodup_append'.mp hnodup
  refine ⟨rc, n, v', hrun, hlay, ⟨hnodup', fun i hi => hout i (List.mem_append_left _ hi)⟩, fun h => ?_⟩
  rw [hrc h]
  exact ⟨hout x (List.mem_append_right _ (List.mem_singleton_self x)),
    fun hx => hdisj hx (List.mem_singleton_self x)⟩

theorem inodeAllocate_handed {out : List Nat} (g : Geometry v) (hper : v.TableLayout)
    (h : v.CacheFree out)
    (hsafe : v.sb.readonly = false → v.sb.totalFreeinode ≠ 0 → v.sb.nfreeinode = 0 →
      (∀ i ∈ out, InodeNumber v i → (v.slot i).mode ≠ 0) ∧
      v.Finds (v.sb.datablockStartSector - v.sb.ilistSector) v.sb.ilistSector) :
    ∃ rc n v', inodeAllocate.run v = ((rc, n), v') ∧ Handed v out rc n v' := by
  simp only [inodeAllocate, Prog.run_bind, Prog.run_ite, Prog.run_pure]
  by_cases hro : v.sb.readonly = true
  · exact ⟨.erofs, 0, v, by rw [if_pos hro], .refl v, h, fun h => absurd h (by decide)⟩
  by_cases htotal : v.sb.totalFreeinode = 0
  · exact ⟨.enospc, 0, v, by rw [if_neg hro, if_pos htotal], .refl v, h, fun h => absurd h (by decide)⟩
  by_cases hempty : v.sb.nfreeinode = 0
  · obtain ⟨hout, hfinds⟩ := hsafe (Bool.eq_false_of_not_eq_true hro) htotal hempty
    obtain ⟨rc, xs, w, hrun, hw⟩ := freeinodeUpdate_spec g hper (Bool.eq_false_of_not_eq_true hro) hempty
    have hlay : SameLayout v w := by
      obtain ⟨f, m, hfill⟩ := Superblock.fill_same v.sb 0 xs
      have hsb := hw.sb
      rw [hfill] at hsb
      exact ⟨by rw [hw.same], by rw [hsb], by rw [hsb], by rw [hsb], by rw [hsb], by rw [hsb]⟩
    have hcache : w.freeCache = xs := by
      have := freeCache_fill (v := v) xs w.sb.modified
      rw [← hw.sb] at this
      exact this
    have hfree : w.CacheFree out := by
      rw [VDisk.CacheFree, hcache]
      refine ⟨hw.sorted.imp Nat.ne_of_lt, fun i hi hmem => ?_⟩
      obtain ⟨hnum, hmode⟩ := hw.mem i hi
      exact hout i hmem hnum hmode
    rw [if_neg hro, if_neg htotal, if_pos hempty]
    simp only [hrun]
    by_cases hrc : rc = .ok
    · have hpos : 0 < w.sb.nfreeinode := by
        rw [hw.sb]
        exact List.length_pos_of_ne_nil (hw.some hrc hfinds)
      obtain ⟨rc', n, v', htake, hv'⟩ := inodeTake_handed hfree hpos
      refine ⟨rc', n, v', ?_, hlay.trans hv'.layout, hv'.cache, hv'.fresh⟩
      rw [if_neg (not_not_intro hrc), htake]
    · exact ⟨rc, 0, w, by rw [if_pos hrc], hlay, hfree, fun h => absurd h hrc⟩
  · obtain ⟨rc, n, v', htake, hv'⟩ := inodeTake_handed h (Nat.pos_of_ne_zero hempty)
    exact ⟨rc, n, v', by rw [if_neg hro, if_neg htotal, if_neg hempty, htake], hv'⟩

end Steps

section Clients

variable {c : Clients}

theorem clientWriteback_keepsSuper (ino : Nat) (d : Dinode) : KeepsSuper (clientWriteback ino d) := by
  refine .bind (.inodeGet ino) fun r => ?_
  cases r with
  | none => exact .pure _
  | some minode =>
    exact .bind (.modifyMinode _ _) fun _ => .bind (.inodeWriteback _) fun _ =>
      .bind (.inodeRel _) fun _ => .pure _

/-- Giving an inode back puts its number into the cache, if there is room for it. -/
theorem inodeDeallocate_spec (v : VDisk) (ino : Nat) :
    SameLayout v ((inodeDeallocate ino).run v).2 ∧
      (((inodeDeallocate ino).run v).2.freeCache = v.freeCache ∨
        ((inodeDeallocate ino).run v).2.freeCache = v.freeCache ++ [ino]) := by
  simp only [inodeDeallocate, Prog.run_bind]
  obtain ⟨hsb, _, hbs⟩ := KeepsSuper.inodeGet ino v
  generalize (inodeGet ino).run v = r at hsb hbs
  obtain ⟨minode, w⟩ := r
  dsimp only at hsb hbs
  cases minode with
  | none => exact ⟨.of_sb hbs hsb, .inl (by simp only [VDisk.freeCache, Prog.run_pure, hsb])⟩
  | some minode =>
    simp only [modifyMinode, Prog.run_bind]
    obtain ⟨hsb', _, hbs'⟩ := KeepsSuper.inodeWriteback minode
      (w.setMinode minode fun _ => ⟨ino, false, 0, none, .zero⟩)
    generalize ((inodeWriteback minode).run _).2 = u at hsb' hbs'
    rw [VDisk.setMinode_sb, hsb] at hsb'
    rw [VDisk.setMinode_blksize, hbs] at hbs'
    refine ⟨⟨hbs', by rw [hsb'], by rw [hsb'], by rw [hsb'], by rw [hsb'], by rw [hsb']⟩, ?_⟩
    by_cases hroom : v.sb.nfreeinode < maxFreeinode
    · right
      simp only [VDisk.freeCache, hsb', hroom, if_true, List.range_succ, List.map_append, List.map_cons,
        List.map_nil, Function.update_self]
      congr 1
      refine List.map_congr_left fun a ha => Function.update_of_ne (Nat.ne_of_lt ?_) ..
      exact List.mem_range.mp ha
    · left
      simp only [VDisk.freeCache, hsb', hroom, if_false]

theorem clientStep_wellFormed (h : c.WellFormed) {s : ClientStep} (hs : s.Legal c)
    (hsafe : s = .allocate → c.RefillSafe) : ((clientStep s).run c).2.WellFormed := by
  cases s with
  | allocate =>
    obtain ⟨rc, n, v', hrun, hv'⟩ :=
      inodeAllocate_handed h.geometry h.table ⟨h.nodup, h.disjoint⟩ (hsafe rfl)
    have hg := hv'.layout.geometry h.geometry
    have ht := hv'.layout.tableLayout h.table
    simp only [clientStep, Clients.onDisk, Prog.run_bind, hrun, Prog.run_ite, Prog.run_pure]
    by_cases hrc : rc = .ok
    · rw [if_pos hrc]
      refine ⟨hg, ht, hv'.cache.1, fun i hi hmem => ?_⟩
      rcases List.mem_cons.mp hmem with rfl | hmem
      · exact (hv'.fresh hrc).2 hi
      · exact hv'.cache.2 i hi hmem
    · rw [if_neg hrc]
      exact ⟨hg, ht, hv'.cache.1, hv'.cache.2⟩
  | writeback ino d =>
    obtain ⟨hsb, _, hbs⟩ := clientWriteback_keepsSuper ino d c.disk
    have hlay : SameLayout c.disk ((clientWriteback ino d).run c.disk).2 := .of_sb hbs hsb
    have hcache : ((clientWriteback ino d).run c.disk).2.freeCache = c.disk.freeCache := by
      simp only [VDisk.freeCache, hsb]
    refine ⟨hlay.geometry h.geometry, hlay.tableLayout h.table, ?_, ?_⟩
    · exact hcache ▸ h.nodup
    · exact hcache ▸ h.disjoint
  | deallocate ino =>
    obtain ⟨hlay, hcache⟩ := inodeDeallocate_spec c.disk ino
    have hdisj : ∀ i ∈ c.disk.freeCache, i ∉ c.out.filter (· ≠ ino) := fun i hi hmem =>
      h.disjoint i hi (List.mem_of_mem_filter hmem)
    refine ⟨hlay.geometry h.geometry, hlay.tableLayout h.table, ?_, fun i hi => ?_⟩
    · rcases hcache with hcache | hcache
      · exact hcache ▸ h.nodup
      · refine hcache ▸ List.nodup_append'.mpr ⟨h.nodup, List.nodup_singleton ino, fun i hi hi' => ?_⟩
        rw [List.mem_singleton.mp hi'] at hi
        exact h.disjoint ino hi hs
    · rcases hcache with hcache | hcache
      · exact hdisj i (hcache ▸ hi)
      · rcases List.mem_append.mp (hcache ▸ hi) with hi | hi
        · exact hdisj i hi
        · rw [List.mem_singleton.mp hi]
          simp [clientStep]

/-- What is still out by the history is out by the state, and a step hands out none of it. -/
theorem clientStep_handedOnce {hist : List ClientEvent} (h : c.WellFormed)
    (hout : ∀ n, StillOut n hist → n ∈ c.out) (honce : HandedOnce hist) {s : ClientStep}
    (hsafe : s = .allocate → c.RefillSafe) :
    (∀ n, StillOut n ((s, ((clientStep s).run c).1) :: hist) → n ∈ ((clientStep s).run c).2.out) ∧
      HandedOnce ((s, ((clientStep s).run c).1) :: hist) := by
  cases s with
  | allocate =>
    obtain ⟨rc, n, v', hrun, hv'⟩ :=
      inodeAllocate_handed h.geometry h.table ⟨h.nodup, h.disjoint⟩ (hsafe rfl)
    simp only [clientStep, Clients.onDisk, Prog.run_bind, hrun, Prog.run_ite, Prog.run_pure,
      apply_ite Prod.fst, ite_self]
    refine ⟨fun k hk => ?_, honce.cons fun k hk hstill => ?_⟩
    · rcases hk.of_cons with heq | ⟨hk, _⟩
      · obtain ⟨rfl, rfl⟩ : rc = .ok ∧ n = k := by simpa using heq
        simp
      · have := hout k hk
        split
        · exact List.mem_cons_of_mem n this
        · exact this
    · obtain ⟨rfl, rfl⟩ : rc = .ok ∧ n = k := by simpa using hk
      exact (hv'.fresh rfl).1 (hout n hstill)
  | writeback ino d =>
    refine ⟨fun k hk => ?_, honce.cons fun k hk => absurd hk (by simp)⟩
    rcases hk.of_cons with heq | ⟨hk, _⟩
    · exact absurd heq (by simp)
    · exact hout k hk
  | deallocate ino =>
    refine ⟨fun k hk => ?_, honce.cons fun k hk => absurd hk (by simp)⟩
    rcases hk.of_cons with heq | ⟨hk, hne⟩
    · exact absurd heq (by simp)
    · refine List.mem_filter.mpr ⟨hout k hk, decide_eq_true fun heq => ?_⟩
      exact hne _ (by rw [← heq])

/-- Where every refill is safe, no inode is handed out twice. -/
theorem inodeAllocate_once {c₀ : Clients} (h₀ : c₀.WellFormed) {hist c}
    (hrun : Run clientStep (fun c s => s.Legal c ∧ (s = .allocate → c.RefillSafe)) c₀ hist c) :
    HandedOnce hist := by
  have hinv : c.WellFormed ∧ (∀ n, StillOut n hist → n ∈ c.out) ∧ HandedOnce hist := by
    refine hrun.invariant_hist (I := fun hist c =>
      c.WellFormed ∧ (∀ n, StillOut n hist → n ∈ c.out) ∧ HandedOnce hist) ?_ ?_
    · refine ⟨h₀, fun n hn => ?_, fun later before n heq => ?_⟩
      · obtain ⟨since, before, heq, _⟩ := hn
        simp at heq
      · simp at heq
    · rintro hist c s ⟨h, hout, honce⟩ ⟨hs, hsafe⟩
      exact ⟨clientStep_wellFormed h hs hsafe, clientStep_handedOnce h hout honce hsafe⟩
  exact hinv.2.2

end Clients

/-- A disk with eight inodes, of which 3 and 7 are free, and only 7 is in the cache. -/
def twoFree : Clients where
  disk :=
    { blksize := 512
      readonly := false
      sb :=
        { datablockStartSector := 4, volumeSize := 8, modified := false, readonly := false,
          totalFreeblock := 0, totalFreeinode := 2, nfreeblock := 0, freeblock := fun _ => 0,
          nfreeinode := 1, freeinode := fun _ => 7, inodesPerBlock := 4, blksizeShift := 9,
          ilistSector := 2 }
      io := ⟨fun _ o => if o / dinodeSize = 2 then 0 else 1, []⟩
      super :=
        { datablockStartSector := 4, volumeSize := 8, modified := false, readonly := false,
          totalFreeblock := 0, totalFreeinode := 2, nfreeblock := 0, freeblock := fun _ => 0,
          nfreeinode := 1, freeinode := fun _ => 7, inodesPerBlock := 4, blksizeShift := 9,
          ilistSector := 2 }
      minodes := [] }
  out := [1, 2, 4, 5, 6, 8]

theorem twoFree_wellFormed : twoFree.WellFormed where
  geometry := by constructor <;> decide
  table := rfl
  nodup := by decide
  disjoint := by decide

/-- The first client writes its inode back before the second one needs a refill. -/
theorem inodeAllocate_once_written : ∃ hist c,
    Run clientStep (fun c s => s.Legal c) twoFree hist c ∧ hist.length = 3 ∧ HandedOnce hist := by
  have hget : ∀ c, ClientStep.allocate.Legal c := fun _ => trivial
  have hfull : twoFree.RefillSafe := fun _ _ h => absurd h (by decide)
  have hlegal : (ClientStep.writeback 7 { Dinode.zero with mode := 0x8000 }).Legal
      ((clientStep .allocate).run twoFree).2 := ⟨by decide +kernel, by decide⟩
  have hsafe : ((clientStep (.writeback 7 { Dinode.zero with mode := 0x8000 })).run
      ((clientStep .allocate).run twoFree).2).2.RefillSafe := by
    intro _ _ _
    refine ⟨fun i hi _ => (?_ : ∀ i ∈ _, (VDisk.slot _ i).mode ≠ 0) i hi, 0, by decide +kernel,
      ⟨2, by decide +kernel, by decide +kernel⟩, by decide +kernel, by decide +kernel⟩
    decide +kernel
  have hrun : Run clientStep (fun c s => s.Legal c ∧ (s = .allocate → c.RefillSafe)) twoFree _ _ :=
    .cons .allocate (.cons _ (.cons .allocate .nil ⟨hget twoFree, fun _ => hfull⟩)
      ⟨hlegal, fun h => absurd h (by simp)⟩) ⟨hget _, fun _ => hsafe⟩
  exact ⟨_, _, hrun.mono fun _ _ h => h.1, rfl, inodeAllocate_once twoFree_wellFormed hrun⟩

/-- Two clients are given inode 7, the second one by a refill that comes before the first
one has written it back. -/
theorem inodeAllocate_twice : ∃ hist c, Run clientStep (fun c s => s.Legal c) twoFree hist c ∧
    ¬ HandedOnce hist := by
  have hfirst : ((clientStep .allocate).run twoFree).1 = (.ok, 7) := by decide +kernel
  have hsecond : ((clientStep .allocate).run ((clientStep .allocate).run twoFree).2).1 = (.ok, 7) := by
    decide +kernel
  have hget : ∀ c, ClientStep.allocate.Legal c := fun _ => trivial
  refine ⟨_, _, .cons .allocate (.cons .allocate .nil (hget _)) (hget _), fun h => ?_⟩
  rw [hfirst, hsecond] at h
  exact h [] _ 7 rfl ⟨[], [], rfl, by simp⟩

end Ufs370
