import Ufs370.FailedAllocate
import Ufs370.Hierarchy

/-! What `ufs_file_allocate` enters in a directory. -/

namespace Ufs370

open Lib Lib.IndexForest Lib.IndexLayout Lib.Namespace

section Counted

variable {v v' w : VDisk} {inos free free' : List Nat} {S : Set Nat} {x : Nat}

theorem FreeCounted.number (h : FreeCounted v) {m : Nat} (hm : m ∈ List.range' 1 v.inodes) : InodeNumber v m := by
  rw [(h.geometry.tableGeometry h.table).number]
  have := List.mem_range'_1.mp hm
  omega

/-- Updates that leave the modes of inodes alone. -/
theorem Confined.freeInodes (h : Confined inos S v v' free') (hc : v.Coherent) (hf : FreeCounted v) :
    v'.freeInodes = v.freeInodes := by
  have hlay := h.spares.layout
  rw [VDisk.freeInodes, VDisk.freeInodes, hlay.inodes]
  refine List.filter_congr fun m hm => decide_eq_decide.mpr ?_
  have hnum := hf.number hm
  rw [show v'.slot m = v'.inode m from h.coherent m (hlay.inodeNumber hnum), h.mode m hnum,
    show v.slot m = v.inode m from hc m hnum]

theorem Confined.counted (h : Confined inos S v v' free') (hc : v.Coherent) (hf : FreeCounted v) : FreeCounted v' := by
  have hfree := h.freeInodes hc hf
  have hlay := h.spares.layout
  obtain ⟨_, _, _, _, hsb⟩ := h.sb
  have hcache : v'.freeCache = v.freeCache := by
    rw [VDisk.freeCache, VDisk.freeCache, hsb]
  refine ⟨hlay.geometry hf.geometry, hlay.tableLayout hf.table, h.wellFormed.live, ?_, ?_, ?_, ?_⟩
  · rw [hsb]
    exact hf.writable
  · rw [hfree, hsb]
    exact hf.total
  · rw [hcache]
    exact hf.nodup
  · rw [hcache, hfree]
    exact hf.cached

/-- An inode that was taken and got a mode. -/
theorem TookFree.counted (htook : TookFree v x w) (h : FreeCounted v) (hx : x ∈ v.freeInodes) (hlay : SameLayout v v')
    (hlive : v'.Live)
    (hsb : ∃ n f t m, v'.sb = { w.sb with nfreeblock := n, freeblock := f, totalFreeblock := t, modified := m })
    (hother : ∀ m, m ≠ x → InodeNumber v m → (v'.slot m).mode = (v.slot m).mode) (hmode : (v'.slot x).mode ≠ 0) :
    FreeCounted v' ∧ v'.freeInodes = v.freeInodes.erase x := by
  obtain ⟨_, _, _, _, hsb⟩ := hsb
  have hfree : v'.freeInodes = v.freeInodes.erase x := by
    rw [(freeInodes_nodup v).erase_eq_filter, VDisk.freeInodes, VDisk.freeInodes, List.filter_filter, hlay.inodes]
    refine List.filter_congr fun m hm => ?_
    by_cases hmx : m = x
    · subst hmx
      simp [hmode]
    · rw [hother m hmx (h.number hm)]
      simp [hmx]
  have hcache : v'.freeCache = w.freeCache := by
    rw [VDisk.freeCache, VDisk.freeCache, hsb]
  refine ⟨⟨hlay.geometry h.geometry, hlay.tableLayout h.table, hlive, ?_, ?_, ?_, fun m hm => ?_⟩, hfree⟩
  · rw [hsb]
    exact htook.quiet.writable
  · rw [hfree, List.length_erase_of_mem hx, hsb, ← h.total]
    exact htook.total
  · exact hcache ▸ htook.nodup
  · rw [hcache] at hm
    rw [hfree, (freeInodes_nodup v).mem_erase_iff]
    exact (htook.cached m hm).symm

end Counted

/-- From `v` to `v'` inode `x` was made and entered in directory `d`. -/
structure Entered (inos : List Nat) (d x : Nat) (name : List UInt8) (mode : UInt16) (v v' : VDisk) (free' : List Nat) : Prop where
  fresh : x ∈ v.freeInodes
  sane : inodeNumberSanity v x = .ok
  wellFormed : WellFormed v' (x :: inos) free'
  coherent : v'.Coherent
  held : Held v [] v'
  spares : Spares {d, x} (v.counts inos) v v'
  counted : FreeCounted v'
  freeInodes : v'.freeInodes = v.freeInodes.erase x
  opened : OpenDirectory (x :: inos) v' d
  entries : ∀ e, e ∈ v'.dirents d ↔ e ∈ v.dirents d ∨ e = ⟨x, direntFilename name⟩
  entriesNew : v'.dirents x = newEntries mode x d
  whole : direntSize ∣ v'.filesize x
  modeOther : ∀ i, i ≠ x → InodeNumber v i → (v'.inode i).mode = (v.inode i).mode
  modeNew : (v'.inode x).mode = mode
  nlink : (v'.inode d).nlink = if (v'.inode x).isdir then (v.inode d).nlink + 1 else (v.inode d).nlink
  nlinkNew : (v'.inode x).nlink = newLinks mode

section Create

variable {v v' w : VDisk} {inos free free' : List Nat} {d x ino parentDir : Nat} {name : List UInt8}

theorem afterSlash_plain (h : slash ∉ name) : afterSlash name = name := by
  have htake : name.reverse.takeWhile (fun c => decide (c ≠ slash)) = name.reverse := by
    refine List.takeWhile_eq_self_iff.mpr fun c hc => decide_eq_true ?_
    rintro rfl
    exact h (List.mem_reverse.mp hc)
  rw [afterSlash, htake, List.reverse_reverse]

theorem direntFilename_plain (h : slash ∉ name) : slash ∉ direntFilename name := by
  rw [direntFilename, CString.read_chars]
  exact fun hmem => h ((List.takeWhile_sublist _).subset ((List.take_sublist ..).subset hmem))

/-- The list of free inodes is as before when a new inode gets its type. -/
theorem createInode_sb (hw : WellFormed v inos free) (ht : Tended v) (hnum : InodeNumber v ino) (hnew : ino ∉ inos)
    (hsize : v.filesize ino = 0) (hparent : parentDir < 4294967296) {attr : Attr} {now : Timev} (htype : KnownType attr.mode)
    {v₁ v₂ v₃ : VDisk} (hget : (inodeGet ino).run v = (some ino, v₁))
    (htyped : (allocateType ino parentDir attr.mode).run (v₁.setDinode ino fun d => d.setAttr attr now) = (.ok, v₂))
    (hback : (inodeWriteback ino).run v₂ = (.ok, v₃)) (hrel : (inodeRel ino).run v₃ = ((), v')) :
    ∃ n f t m, v'.sb = { v.sb with nfreeblock := n, freeblock := f, totalFreeblock := t, modified := m } := by
  obtain ⟨u, hget', htaken⟩ := inodeGet_live hw.geometry hw.live hnum
  rw [hget] at hget'
  obtain rfl := (Prod.mk.inj hget').2
  have s₁ := SameView.of_taken htaken
  have hset := SameData.setDinode (g := fun d => d.setAttr attr now) (fun _ => rfl) (fun _ => rfl) v₁ ino
  have hwell := hset.wellFormed (s₁.wellFormed (hw.cons hnum hnew hsize))
  have hhandles : (v₁.setDinode ino fun d => d.setAttr attr now).handles = v₁.handles :=
    (KeepsHandles.modifyDinode ino fun d => d.setAttr attr now).run v₁ (htaken.oneHandle ht.oneHandle)
  have hsize₁ : (v₁.setDinode ino fun d => d.setAttr attr now).filesize ino = 0 :=
    (hset.filesize ino (.inl htaken.cached)).trans ((s₁.filesize ino).trans hsize)
  rcases allocateType_run (hwell.stored (List.mem_cons_self ..) ((hset.cached ino).mpr htaken.cached))
    ((oneHandle_congr hhandles).mpr (htaken.oneHandle ht.oneHandle)) hsize₁ (hnum.lt hw.geometry) hparent htype with
    ⟨-, -, u, -, hrun⟩ | ⟨u, free', hrun, -, -, hlisted⟩
  · rw [htyped] at hrun
    exact absurd (Prod.mk.inj hrun).1 (by decide)
  · rw [htyped] at hrun
    obtain rfl := (Prod.mk.inj hrun).2
    have hstored := hlisted.stored
    rw [inodeWriteback_live hstored.owned.geometry hstored.owned.live hstored.number] at hback
    obtain rfl := (Prod.mk.inj hback).2
    obtain ⟨w, hrel', hreleased⟩ := inodeRel_run hlisted.writtenBack.stored.cached
    rw [hrel] at hrel'
    obtain rfl := (Prod.mk.inj hrel').2
    have hsb₁ : v₁.sb = v.sb := by rw [s₁.same]
    have hsb' : v'.sb = v₂.sb := by
      rw [hreleased.same]
      rfl
    rw [hsb', ← hsb₁]
    exact hlisted.beside.sb

/-- A name that is not there is entered where there is room for it. -/
theorem fileAllocate_enters (h : CreateReady inos v free) (hopen : OpenDirectory inos v d)
    (hc : v.Coherent) {attr : Attr} (htype : KnownType attr.mode) (hmode : attr.mode ≠ 0) (hplain : slash ∉ name)
    (hnone : ∀ c, ¬ v.names d (direntFilename name) c) (hnext : v.InodeRoom) (hsize : SizeOk v (v.filesize d + direntSize))
    (hroom : v.EntryRoom d attr.mode) (now : Timev) :
    ∃ x v' free', (fileAllocate d name attr now).run v = ((.ok, x), v') ∧
      Entered inos d x name attr.mode v v' free' := by
  have hw := h.wellFormed
  have hplain' := direntFilename_plain hplain
  have hlookup := hopen.lookup_none hw hplain' (by rwa [direntFilename_idem])
  have hfiles := inodeAllocate_files h.counted.geometry h.counted.table h.counted.live
  rcases inodeAllocate_free h.counted with ⟨hnil, -⟩ | ⟨x, hx, w, htook, hrun⟩
  · exact absurd hnil hnext.1
  have hsane : inodeNumberSanity v x = .ok := by
    have hcode := (inodeAllocate_code h.counted).mpr hnext
    rwa [hrun] at hcode
  rw [hsane, if_pos rfl] at hrun
  rw [hrun] at hfiles
  obtain ⟨hnum, -⟩ := (mem_freeInodes h.counted.geometry h.counted.table).mp hx
  obtain ⟨hnew, hzero⟩ := h.unused x hx
  have hne : d ≠ x := fun heq => hnew (heq ▸ hopen.mem)
  have hlay := (hfiles.spares ∅ fun _ => 0).layout
  have hww := hfiles.wellFormed hw
  have htw := hfiles.tended h.tended
  have hzero' : w.filesize x = 0 := by rwa [VDisk.filesize, hfiles.inode]
  have hparent := (hw.number d hopen.mem).lt hw.geometry
  rcases createInode_run hww htw (hlay.inodeNumber hnum) hnew hzero' hparent attr now htype with
    ⟨hisdir, hnil, -⟩ | ⟨v₁, v₂, v₃, u, free₁, hget, htyped, hback, hrel, hmade⟩
  · have hmono : (placesOf v.nidx (ceil (v.filesize d) v.blksize)).length ≤
        (placesOf v.nidx (ceil (v.filesize d + direntSize) v.blksize)).length :=
      placesOf_length_mono _ (Nat.div_le_div_right (by omega))
    rw [VDisk.EntryRoom, VDisk.room, hw.list.total, hnil, newBlocks, if_pos hisdir, List.length_nil] at hroom
    omega
  have hsb := createInode_sb hww htw (hlay.inodeNumber hnum) hnew hzero' hparent htype hget htyped hback hrel
  have hw₁ := hmade.wellFormed
  have hnumd := hlay.inodeNumber (hw.number d hopen.mem)
  have hinode : u.inode d = v.inode d := (hmade.spares.inode d hne hnumd).trans (congrFun hfiles.inode d)
  have hsized : u.filesize d = v.filesize d := by
    rw [VDisk.filesize, hinode]
    rfl
  have hdirents : u.dirents d = v.dirents d := by
    rw [hmade.spares.dirents (hlay.geometry hw.geometry) hne hnumd (if_pos hopen.mem)
      (by rw [VDisk.counts, if_pos hopen.mem]; exact hww.le_maxBlocks hopen.mem), hfiles.dirents]
  have hblk : u.blksize = v.blksize := hmade.spares.layout.blksize.trans hlay.blksize
  have hnidx : u.nidx = v.nidx := by rw [VDisk.nidx, hblk]; rfl
  have hheld₀ : Held v [] w := (Held.refl h.tended.oneHandle).handles (by rw [VDisk.handles, hfiles.minodes]; rfl)
  have hheld := hheld₀.trans hmade.held
  have hcw : w.Coherent := (hfiles.spares ∅ fun _ => 0).coherent hc fun i hi => absurd hi (Set.notMem_empty i)
  have hcu : u.Coherent := hmade.spares.coherent hcw fun i hi => (Set.mem_singleton_iff.mp hi) ▸ hmade.inSlot
  have hopen₁ : OpenDirectory (x :: inos) u d := by
    refine ⟨List.mem_cons_of_mem x hopen.mem, ?_, by rw [hinode]; exact hopen.isdir, by rw [hsized]; exact hopen.whole,
      fun e he => ?_, by rw [hdirents]; exact hopen.apart⟩
    · rw [hheld.uses]
      exact hopen.used
    · rw [hdirents] at he
      exact List.mem_cons_of_mem x (hopen.named e he)
  have hroom₁ : (placesOf u.nidx (ceil (u.filesize d + direntSize) u.blksize)).length ≤ u.room d := by
    have hlength := hmade.length
    rw [VDisk.EntryRoom, VDisk.room, hw.list.total] at hroom
    rw [VDisk.room, hw₁.list.total, hsized, hblk, hnidx]
    omega
  have hnone₁ (c : Nat) : ¬ u.names d (direntFilename (afterSlash (direntFilename name))) c := fun hc => by
    rw [afterSlash_plain hplain', direntFilename_idem, VDisk.names, hdirents] at hc
    exact hnone c hc
  obtain ⟨v', free', hadd, hedited⟩ := hopen₁.add hw₁ hcu hmade.tended (by rw [hsized]; exact hsize.congr hblk) hroom₁
    (List.mem_cons_self ..) hnone₁
  rw [afterSlash_plain hplain', direntFilename_idem] at hedited
  have hconfined := hedited.confined
  have hnumx : InodeNumber u x := hw₁.number x (List.mem_cons_self ..)
  have hxd : x ∉ ({d} : Set Nat) := fun heq => hne (Set.mem_singleton_iff.mp heq).symm
  have hinodex : v'.inode x = u.inode x := hconfined.inode hw₁ hxd (List.mem_cons_self ..)
  have hspares₁ : Spares {d, x} (v.counts inos) v u :=
    (hfiles.spares {d, x} _).trans (fun _ _ => by rw [hfiles.counts]) (hmade.spares.mono (by simp))
  have hspares : Spares {d, x} (v.counts inos) v v' :=
    hspares₁.trans (fun i hi => counts_other hspares₁ hi hw.number (by
      rw [Set.mem_insert_iff, Set.mem_singleton_iff, not_or] at hi
      rw [List.mem_cons]
      exact or_iff_right hi.2)) (hconfined.spares.mono (by simp))
  have hmodes (i : Nat) (hi : i ≠ x) (hnumi : InodeNumber v i) : (v'.inode i).mode = (v.inode i).mode := by
    rw [hconfined.mode i (hspares₁.layout.inodeNumber hnumi), hmade.spares.inode i hi (hlay.inodeNumber hnumi), hfiles.inode]
  have hslots (i : Nat) (hi : i ≠ x) (hnumi : InodeNumber v i) : (v'.slot i).mode = (v.slot i).mode := by
    rw [show v'.slot i = v'.inode i from hconfined.coherent i (hspares.layout.inodeNumber hnumi), hmodes i hi hnumi,
      show v.slot i = v.inode i from hc i hnumi]
  have hmodex : (v'.inode x).mode = attr.mode := by rw [hinodex, hmade.mode]
  have hcounted := htook.counted h.counted hx hspares.layout hconfined.wellFormed.live (by
      obtain ⟨_, _, _, _, hsb₁⟩ := hsb
      obtain ⟨n, f, t, m, hsb₂⟩ := hconfined.sb
      rw [hsb₁] at hsb₂
      exact ⟨n, f, t, m, hsb₂⟩) hslots (by
      rw [show v'.slot x = v'.inode x from hconfined.coherent x (hspares.layout.inodeNumber hnum), hmodex]
      exact hmode)
  refine ⟨x, v', free', ?_, hx, hsane, hconfined.wellFormed, hconfined.coherent, hheld.trans hconfined.held, hspares,
    hcounted.1, hcounted.2, hedited.opened, fun e => ?_, ?_, ?_, hmodes, hmodex, ?_, ?_⟩
  · simp only [fileAllocate, Prog.run_bind, hlookup, hrun, ne_eq, not_true_eq_false, if_false, hget, modifyDinode, htyped,
      hback, hrel, hadd, Prog.run_pure]
  · rw [hedited.entries, hdirents]
  · rw [hconfined.dirents hw₁ hxd (List.mem_cons_self ..), hmade.dirents]
  · rw [hconfined.filesize hw₁ hxd (List.mem_cons_self ..), hmade.filesize]
    exact ⟨_, rfl⟩
  · rw [hedited.nlink, hinode, hinodex]
  · rw [hinodex, hmade.nlink]

end Create

end Ufs370
