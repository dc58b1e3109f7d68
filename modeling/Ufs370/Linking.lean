import Ufs370.Orderly
import Ufs370.RenameRuns

/-! A second name for a file, which `ufs_file_link` gives it. -/

namespace Ufs370

open Lib Lib.IndexForest Lib.IndexLayout Lib.Namespace

section Relink

variable {v : VDisk} {inos free : List Nat} {p : Nat} {g : Dinode → Dinode}

/-- An inode that gets another count of links and is written back. -/
theorem WellFormed.relink (hw : WellFormed v inos free) (hc : v.Coherent) (hone : v.OneHandle) (hp : p ∈ inos)
    (huse : 0 < v.uses p) (hg : ∀ x, ∃ l, g x = { x with nlink := l }) :
    (inodeWriteback p).run (v.setDinode p g) = (.ok, (v.setDinode p g).writtenBack p) ∧
      Confined inos {p} v ((v.setDinode p g).writtenBack p) free ∧
      ((v.setDinode p g).writtenBack p).inode p = g (v.inode p) := by
  have h := hw.stored hp (cached_of_uses huse)
  obtain ⟨hbeside, hs, hown⟩ := h.beside_nlink hg
  have hset := SameData.setDinode (g := g) (fun x => by obtain ⟨l, hl⟩ := hg x; rw [hl])
    (fun x => by obtain ⟨l, hl⟩ := hg x; rw [hl]) v p
  have h₁ := h.same hset
  have hback : (inodeWriteback p).run (v.setDinode p g) = (.ok, (v.setDinode p g).writtenBack p) :=
    writeback_run h.owned h.number
  have hheld := (Held.refl hone).keeps (Prog.Moves.bind (KeepsHandles.modifyDinode p g) fun _ => KeepsHandles.inodeWriteback p)
  simp only [modifyDinode, Prog.run_bind, hback] at hheld
  refine ⟨hback, ⟨hs.wellFormed hw, hbeside.spares.coherent hc fun i hi => ?_, hheld, hbeside.spares, hbeside.sb,
    fun i hi => hbeside.mode hi, fun i hi _ => ?_⟩, hown⟩
  · rw [Set.mem_singleton_iff.mp hi]
    exact inSlot_back h₁.owned.geometry h₁.number h₁.cached
  · by_cases hip : i = p
    · rw [hip]
      exact h.content_same hs
    · exact hbeside.spares.content hw (fun heq => hip (Set.mem_singleton_iff.mp heq)) hi

end Relink

section Link

variable {v v' : VDisk} {inos free free' : List Nat} {dirs : Set Nat} {d p : Nat} {name : List UInt8}

/-- From `v` to `v'` file `p` got a name in directory `d`. -/
structure Joined (inos : List Nat) (dirs : Set Nat) (d p : Nat) (name : List UInt8) (v v' : VDisk) (free' : List Nat) : Prop where
  confined : Confined inos {d, p} v v' free'
  hierarchy : v'.Hierarchy inos dirs
  names : ∀ i ∈ dirs, ∀ n c, v'.names i n c ↔ put v.names d name p i n c
  linked : v'.Linked inos dirs

theorem fileLink_run (h : Orderly inos free dirs v) (hroom : v.Room) (hd : d ∈ dirs) (hused : 0 < v.uses d)
    (hused' : 0 < v.uses p) {e : Nat} {n : List UInt8} (he : e ∈ dirs) (hp : v.names e n p) (hfile : ¬ (v.inode p).isdir = true)
    (hnone : ∀ c, ¬ v.names d (direntFilename name) c) (hsize : SizeOk v (v.filesize d + direntSize))
    (hentry : (placesOf v.nidx (ceil (v.filesize d + direntSize) v.blksize)).length ≤ v.room d)
    (hlink : (v.inode p).nlink.toNat + 1 < 65536) :
    ∃ v' free', (fileLink d p name).run v = (.ok, v') ∧ Joined inos dirs d p (direntFilename name) v v' free' := by
  have hw := h.wellFormed
  have hmem {i : Nat} (hi : i ∈ dirs) : i ∈ inos := (h.hierarchy.sound i hi).mem
  have hpmem : p ∈ inos := (h.hierarchy.sound e he).named _ hp
  have hpd {i : Nat} (hi : i ∈ dirs) : i ≠ p := fun heq => hfile (heq ▸ h.hierarchy.tree.isdir i hi)
  have hordinary := h.ordinary hd hnone
  obtain ⟨v₁, free₁, hadd, hedited⟩ := ((h.hierarchy.sound d hd).opened hused).add hw h.coherent
    (h.coherent.tended h.unmounted.oneHandle hroom) hsize hentry hpmem hnone
  have hw₁ := hedited.confined.wellFormed
  have hinode₁ : v₁.inode p = v.inode p :=
    hedited.confined.inode hw (fun heq => hpd hd (Set.mem_singleton_iff.mp heq).symm) hpmem
  have hisdir₁ {i : Nat} (hi : i ∈ inos) : (v₁.inode i).isdir = (v.inode i).isdir := hedited.confined.isdir_mem hw hi
  have hnames₁ (i : Nat) (hi : i ∈ dirs) (m : List UInt8) (c : Nat) := hedited.names_put hw hnone (hmem hi) m c
  obtain ⟨hback, hconfined, hown⟩ := hw₁.relink hedited.confined.coherent hedited.confined.held.oneHandle hpmem
    (by rw [hedited.confined.held.uses]; exact hused') (g := fun x => { x with nlink := x.nlink + 1 }) fun _ => ⟨_, rfl⟩
  generalize hv₂ : (v₁.setDinode p fun x => { x with nlink := x.nlink + 1 }).writtenBack p = v₂ at hback hconfined hown
  have hnlink : (v₂.inode p).nlink = (v.inode p).nlink + 1 := by rw [hown, hinode₁]
  have hother {i : Nat} (hi : i ≠ p) : i ∉ ({p} : Set Nat) := fun heq => hi (Set.mem_singleton_iff.mp heq)
  have hisdir₂ {i : Nat} (hi : i ∈ inos) : (v₂.inode i).isdir = (v₁.inode i).isdir := hconfined.isdir_mem hw₁ hi
  have hnames₂ (i : Nat) (hi : i ∈ dirs) (m : List UInt8) (c : Nat) : v₂.names i m c ↔ v₁.names i m c := by
    rw [VDisk.names, VDisk.names, hconfined.dirents hw₁ (hother (hpd hi)) (hmem hi)]
  have hnames (i : Nat) (hi : i ∈ dirs) (m : List UInt8) (c : Nat) := (hnames₂ i hi m c).trans (hnames₁ i hi m c)
  have hnamed {i : Nat} (hi : i ∈ dirs) {m : List UInt8} {c : Nat} (hc : v₂.names i m c) : c ∈ inos :=
    ((hnames i hi m c).mp hc).elim (fun hold => (h.hierarchy.sound i hi).named _ hold.1) fun heq => heq.2.2 ▸ hpmem
  have hsound (i : Nat) (hi : i ∈ dirs) : SoundDirectory inos v₂ i := by
    refine (hedited.sound hw (h.hierarchy.sound i hi) ?_).confined hw₁ (hother (hpd hi)) hconfined
    rintro x (hx | rfl)
    · exact (h.hierarchy.sound d hd).sane x hx
    · exact (h.hierarchy.sound e he).sane ⟨p, n⟩ hp
  have hbut := (hedited.relinked hw h.hierarchy.sound hd).put (h.linked.but p) hordinary hpmem hnone hnames₁ hedited.nlink
    fun hdir => absurd hdir hfile
  refine ⟨v₂, free₁, ?_, (hedited.confined.mono (by simp)).trans hw (hconfined.mono (by simp)), ⟨hsound, ?_⟩, hnames, ?_, ?_⟩
  · simp only [fileLink, Prog.run_bind, hadd, ne_eq, not_true_eq_false, if_false, modifyDinode, hback, Prog.run_pure]
  · refine h.hierarchy.tree.congr (fun i hi => (hsound i hi).isdir) (fun i hi m c hc hdir => ?_)
      (fun i hi m c c' hc hc' => ?_) fun i hi m c hdir => ?_
    · rwa [hisdir₂ (hnamed hi hc), hisdir₁ (hnamed hi hc)] at hdir
    · exact (Dirent.mk.inj ((hsound i hi).apart.eq hc hc' rfl)).1
    · rw [hnames i hi]
      constructor
      · rintro (hold | ⟨-, -, rfl⟩)
        · exact hold.1
        · exact absurd hdir hfile
      · exact fun hold => .inl ⟨hold, fun heq => hnone c (heq.1 ▸ heq.2 ▸ hold)⟩
  · intro i hi
    have hsubdirs : v₂.subdirs i = v₁.subdirs i := subdirs_congr fun m c _ => by
      rw [hnames₂ i hi]
      exact and_congr_right fun hc => by rw [hisdir₂ (hnamed hi ((hnames₂ i hi m c).mpr hc))]
    rw [hconfined.inode hw₁ (hother (hpd hi)) (hmem hi), hsubdirs]
    exact hbut.directory i hi
  · intro i hi hdir
    rw [hisdir₂ hi] at hdir
    have hlinks := hbut.file i hi hdir
    rw [holders_congr fun f hf m => hnames₂ f hf m i]
    by_cases hip : i = p
    · subst hip
      rw [if_pos rfl, hinode₁] at hlinks
      rw [hnlink, UInt16.toNat_succ hlink, hlinks]
    · rw [if_neg hip] at hlinks
      rw [hconfined.inode hw₁ (hother hip) hi]
      exact hlinks

end Link

end Ufs370
