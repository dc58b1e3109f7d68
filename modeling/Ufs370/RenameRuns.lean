import Ufs370.Links

/-! What `ufs_file_rename` does to the entries of the directories. -/

namespace Ufs370

open Lib Lib.IndexForest Lib.IndexLayout Lib.Namespace

namespace Entry

variable {b : Block} {i j ino : Nat}

theorem dirent_setInodeNumber_same (hino : ino < 4294967296) :
    dirent (setInodeNumber b i ino) i = ⟨ino, (dirent b i).name⟩ := by
  have hnumber : inodeNumber (setInodeNumber b i ino) i = ino := by
    rw [inodeNumber, setInodeNumber, Bytes.word_setWord_same]
    exact Nat.mod_eq_of_lt hino
  rw [dirent, hnumber]
  congr 1
  refine CString.read_congr fun k hk => ?_
  have hdiv : (direntSize * i + 4 + k) / 4 ≠ 16 * i := by
    simp only [direntSize]
    omega
  simp only [name, setInodeNumber, Bytes.setWord, hdiv, if_false]

theorem dirent_setInodeNumber_other (h : i ≠ j) : dirent (setInodeNumber b j ino) i = dirent b i :=
  dirent_congr fun k hk => by
    have hdiv : (direntSize * i + k) / 4 ≠ 16 * j := by
      simp only [direntSize] at hk ⊢
      omega
    simp only [setInodeNumber, Bytes.setWord, hdiv, if_false]

end Entry

/-! The steps on one directory. -/

section Replace

variable {v v' : VDisk} {d i c ino n k : Nat} {cnt : Nat → Nat} {all : Set Nat} {inos free free' : List Nat} {name : List UInt8}
  {P : Dirent → Prop} {sz : Nat} {l : UInt16}

theorem replaceSubr_quiet (hv : v.Live) : Steady replaceSubr (· = v) := by
  rintro w rfl ctx blk sz hok
  simp only [replaceSubr, Prog.run_bind, readBuf_live hv] at hok ⊢
  split at hok
  · simp only [Prog.run_bind, vdiskWrite_live hv, ne_eq, not_true_eq_false, if_false, Prog.run_pure] at hok
    cases hok
  · rfl

/-- The first entry of a name gets another number. -/
theorem Stored.replaceForeach (h : Stored cnt all d v free) (hn : v.filesize d = direntSize * n) (hk : k < n)
    (hname : (v.direntAt d k).name = direntFilename name) (hfirst : ∀ e, e < k → ¬ (v.direntAt d e).name = direntFilename name) :
    (datablockForeach replaceSubr d ⟨name, ino, fun _ => 0⟩).run v =
      ((.iteratorBreak, ⟨name, ino, fun _ => 0⟩), v.setBlock (v.fileBlock d (k / v.perBlock))
        (Entry.setInodeNumber (v.io.blocks (v.fileBlock d (k / v.perBlock))) (k % v.perBlock) ino)) := by
  have hskip (m : Nat) (hnone : ∀ j, j < v.perBlock → m * v.perBlock + j < n →
      ¬ (v.direntAt d (m * v.perBlock + j)).name = direntFilename name) (_ : m * v.blksize < v.filesize d) :
      (replaceSubr ⟨name, ino, fun _ => 0⟩ (v.fileBlock d m)
        (min v.blksize (v.filesize d - m * v.blksize))).run v = ((.ok, ⟨name, ino, fun _ => 0⟩), v) := by
    have hscan := h.find_none (P := fun e => e.name = direntFilename name) hn hnone
    simp only [replaceSubr, Prog.run_bind, readBuf_live h.owned.live, removeScan_eq, hscan]
    rfl
  have hscan := h.find_first (P := fun e => e.name = direntFilename name) hn hk hname hfirst
  refine h.foreach_first (P := fun e => e.name = direntFilename name) hn (replaceSubr_quiet h.owned.live) hskip hk hfirst ?_
    (by decide)
  simp only [replaceSubr, Prog.run_bind, readBuf_live h.owned.live, removeScan_eq, hscan, vdiskWrite_live h.owned.live, ne_eq,
    not_true_eq_false, if_false]
  rfl

/-- A directory whose entries stay as many. -/
theorem Relisted.edited_same {es : List Dirent} (h : Relisted (v.counts inos) {b | b ∈ v.allBlocks inos free} d es l v v' free)
    (hw : WellFormed v inos free) (hopen : OpenDirectory inos v d) (hlen : es.length = (v.dirents d).length)
    (hc : v.Coherent) (hheld : Held v [] v') (hnamed : ∀ e ∈ es, e.inodeNumber ∈ inos) (hapart : Apart es)
    (hP : ∀ x, x ∈ es ↔ P x) : Edited inos d P (v.filesize d) l v v' free := by
  have hsize : direntSize * es.length = v.filesize d := by rw [hlen, hopen.entries_eq]
  have hedited := h.edited hw hopen (by rw [hsize]; exact hw.size d hopen.mem) hc hheld hnamed hapart hP (by
    rw [hsize, (hopen.stored hw).count])
  rwa [hsize] at hedited

/-- `ufs_directory_replace_entry` gives an entry another number. -/
theorem OpenDirectory.replace (h : OpenDirectory inos v d) (hw : WellFormed v inos free) (hc : v.Coherent) (hone : v.OneHandle)
    (hname : v.names d (direntFilename name) c) (hino : ino ∈ inos) :
    ∃ v', (directoryReplaceEntry d name ino).run v = (.ok, v') ∧ Edited inos d
      (fun x => (x ∈ v.dirents d ∧ x.name ≠ direntFilename name) ∨ x = ⟨ino, direntFilename name⟩) (v.filesize d)
      (v.inode d).nlink v v' free := by
  have hs := h.stored hw
  obtain ⟨k, hk, hentry⟩ := List.getElem_of_mem hname
  obtain ⟨hlt, hget⟩ := getElem_dirents h.entries_eq (h := hk)
  have hfound : (v.direntAt d k).name = direntFilename name := by rw [← hget, hentry]
  have hfirst (e : Nat) (he : e < k) : ¬ (v.direntAt d e).name = direntFilename name := fun heq => by
    have hlt' : e < (v.dirents d).length := Nat.lt_trans he hk
    have hget' := (getElem_dirents h.entries_eq (h := hlt')).2
    have hsame := h.apart.eq (List.getElem_mem hk) (List.getElem_mem hlt') (by rw [hget, hget', hfound, heq])
    exact Nat.ne_of_lt he ((List.Nodup.getElem_inj_iff h.apart.nodup).mp hsame)
  have hrun : (datablockForeach replaceSubr d ⟨name, ino, fun _ => 0⟩).run v = _ :=
    hs.replaceForeach h.entries_eq hlt hfound hfirst
  have hnew : Entry.dirent (Entry.setInodeNumber (v.io.blocks (v.fileBlock d (k / v.perBlock))) (k % v.perBlock) ino)
      (k % v.perBlock) = ⟨ino, direntFilename name⟩ := by
    rw [Entry.dirent_setInodeNumber_same ((hw.number ino hino).lt hw.geometry), ← hfound]
    rfl
  have hlisted := hs.relisted_set h.entries_eq hlt hnew fun j hj => Entry.dirent_setInodeNumber_other hj
  have hset : (⟨ino, direntFilename name⟩ : Dirent).name = (v.dirents d)[k].name := by rw [hentry]
  refine ⟨_, by simp only [directoryReplaceEntry, Prog.run_bind, hrun, ne_eq, not_true_eq_false, if_false, Prog.run_pure],
    hlisted.edited_same hw h (by rw [List.length_set]) hc ((Held.refl hone).handles rfl) (fun e he => ?_)
    (h.apart.set hk hset) fun x => h.apart.mem_set hk hset⟩
  rcases (h.apart.mem_set hk hset).mp he with ⟨hmem, -⟩ | rfl
  · exact h.named e hmem
  · exact hino

/-- A directory that is written back. -/
theorem OpenDirectory.writeback (h : OpenDirectory inos v d) (hw : WellFormed v inos free) (hc : v.Coherent) (hone : v.OneHandle) :
    ∃ v', (inodeWriteback d).run v = (.ok, v') ∧
      Edited inos d (· ∈ v.dirents d) (v.filesize d) (v.inode d).nlink v v' free := by
  have hs := h.stored hw
  have hback := inodeWriteback_live hw.geometry hw.live (hw.number d h.mem)
  have hheld := (Held.refl hone).keeps (KeepsHandles.inodeWriteback d)
  rw [hback] at hheld
  exact ⟨_, hback, (hs.relisted_self h.entries_eq).writtenBack.edited_same hw h rfl hc hheld h.named h.apart fun _ => Iff.rfl⟩

/-- A removal from a directory without entries. -/
theorem directoryRemoveEntry_empty (hv : v.Live) (hcached : v.Cached d) (hsize : v.filesize d = 0) :
    (directoryRemoveEntry d name).run v = (.enoent, v) := by
  have hzero : (v.din d).filesize.toNat = 0 := by
    rw [hcached.din]
    exact hsize
  have hlast (sz : Nat) : ((datablockLast d sz).run v) = (((datablockLast d sz).run v).1, v) :=
    Prod.ext rfl (datablockLast_same hv d sz)
  simp only [directoryRemoveEntry, Prog.run_bind, hzero]
  rw [hlast 0]
  simp only [readBuf_live hv, datablockForeach, Prog.run_bind, hzero, if_true, Prog.run_pure, ne_eq, reduceCtorEq,
    not_false_eq_true]

end Replace

/-! Names after an update of one directory. -/

section Names

variable {v v' : VDisk} {d i : Nat} {inos free free' : List Nat} {P : Dirent → Prop} {sz : Nat} {l : UInt16}

theorem Edited.dirents (h : Edited inos d P sz l v v' free') (hw : WellFormed v inos free) (hi : i ∈ inos) (hne : i ≠ d) :
    v'.dirents i = v.dirents i :=
  h.confined.dirents hw (fun heq => hne (Set.mem_singleton_iff.mp heq)) hi

theorem Edited.names_same (h : Edited inos d P sz l v v' free') {n : List UInt8} {c : Nat} : v'.names d n c ↔ P ⟨c, n⟩ :=
  h.entries _

theorem Edited.names_other (h : Edited inos d P sz l v v' free') (hw : WellFormed v inos free) (hi : i ∈ inos) (hne : i ≠ d)
    {n : List UInt8} {c : Nat} : v'.names i n c ↔ v.names i n c := by
  rw [VDisk.names, VDisk.names, h.dirents hw hi hne]

theorem Edited.names_put {x : Nat} {n : List UInt8} (h : Edited inos d (fun e => e ∈ v.dirents d ∨ e = ⟨x, n⟩) sz l v v' free')
    (hw : WellFormed v inos free) (hfree : ∀ c, ¬ v.names d n c) (hi : i ∈ inos) (m : List UInt8) (c : Nat) :
    v'.names i m c ↔ put v.names d n x i m c := by
  by_cases hid : i = d
  · subst hid
    have hold : drop v.names i n i m c ↔ v.names i m c := and_iff_left_of_imp fun hc heq => hfree c (heq.2 ▸ hc)
    rw [h.names_same, put]
    refine or_congr hold.symm ⟨fun heq => ?_, fun heq => ?_⟩
    · obtain ⟨rfl, rfl⟩ := Dirent.mk.inj heq
      exact ⟨rfl, rfl, rfl⟩
    · rw [heq.2.1, heq.2.2]
  · rw [h.names_other hw hi hid, put_of_ne (.inl hid)]

theorem Edited.names_drop {n : List UInt8} (h : Edited inos d (fun e => e ∈ v.dirents d ∧ e.name ≠ n) sz l v v' free')
    (hw : WellFormed v inos free) (hi : i ∈ inos) (m : List UInt8) (c : Nat) :
    v'.names i m c ↔ drop v.names d n i m c := by
  by_cases hid : i = d
  · subst hid
    rw [h.names_same]
    exact and_congr_right fun _ => ⟨fun hne heq => hne heq.2, fun hne heq => hne ⟨rfl, heq⟩⟩
  · rw [h.names_other hw hi hid, drop_of_ne (.inl hid)]

theorem Edited.names_replace {x : Nat} {n : List UInt8}
    (h : Edited inos d (fun e => (e ∈ v.dirents d ∧ e.name ≠ n) ∨ e = ⟨x, n⟩) sz l v v' free') (hw : WellFormed v inos free)
    (hi : i ∈ inos) (m : List UInt8) (c : Nat) : v'.names i m c ↔ put v.names d n x i m c := by
  by_cases hid : i = d
  · subst hid
    rw [h.names_same, put]
    refine or_congr (and_congr_right fun _ => ?_) ⟨fun heq => ?_, fun heq => ?_⟩
    · exact not_congr (iff_and_self.mpr fun _ => rfl)
    · obtain ⟨rfl, rfl⟩ := Dirent.mk.inj heq
      exact ⟨rfl, rfl, rfl⟩
    · rw [heq.2.1, heq.2.2]
  · rw [h.names_other hw hi hid, put_of_ne (.inl hid)]

/-- The links of the directories of a tree when one of them is updated. -/
theorem Edited.relinked {dirs : Set Nat} (h : Edited inos d P sz l v v' free') (hw : WellFormed v inos free)
    (hsound : ∀ i ∈ dirs, SoundDirectory inos v i) (hd : d ∈ dirs) : Relinked inos dirs d v v' where
  finite := inos.finite_toSet.subset fun i hi => (hsound i hi).mem
  mem i hi := (hsound i hi).mem
  named i hi _ _ hc := (hsound i hi).named _ hc
  target := hd
  isdir := (hsound d hd).isdir
  same _ hi := h.confined.isdir_mem hw hi
  inode _ hi hid := h.confined.inode hw (fun heq => hid (Set.mem_singleton_iff.mp heq)) hi

/-- An update and the directory written back. -/
theorem Edited.writtenBack {v₁ : VDisk} {free₁ : List Nat} (h : Edited inos d P sz l v v₁ free₁) (hw : WellFormed v inos free)
    (hback : Edited inos d (· ∈ v₁.dirents d) (v₁.filesize d) (v₁.inode d).nlink v₁ v' free') : Edited inos d P sz l v v' free' where
  confined := h.confined.trans hw hback.confined
  opened := hback.opened
  entries e := (hback.entries e).trans (h.entries e)
  filesize := hback.filesize.trans h.filesize
  nlink := hback.nlink.trans h.nlink
  room := hback.room.trans h.room

theorem Edited.sound (h : Edited inos d P sz l v v' free') (hw : WellFormed v inos free) (hi : SoundDirectory inos v i)
    (hsane : ∀ x, P x → inodeNumberSanity v x.inodeNumber = .ok) : SoundDirectory inos v' i := by
  by_cases hid : i = d
  · subst hid
    refine h.opened.sound fun e he => ?_
    rw [h.confined.spares.layout.numberSanity]
    exact hsane e ((h.entries e).mp he)
  · exact hi.confined hw (fun heq => hid (Set.mem_singleton_iff.mp heq)) h.confined

theorem Edited.opened_other (h : Edited inos d P sz l v v' free') (hw : WellFormed v inos free) (hi : OpenDirectory inos v i) :
    OpenDirectory inos v' i := by
  by_cases hid : i = d
  · exact hid ▸ h.opened
  · exact hi.confined hw (fun heq => hid (Set.mem_singleton_iff.mp heq)) h.confined

end Names

/-- What a call of `ufs_file_rename` starts from: two directories of a tree, with a free block besides those that the new
entry may need, and no disk mounted. -/
structure RenameReady (inos free : List Nat) (dirs : Set Nat) (k a b : Nat) (v : VDisk) : Prop where
  wellFormed : WellFormed v inos free
  coherent : v.Coherent
  oneHandle : v.OneHandle
  references : ∀ i, v.uses i + k < 65536
  unmounted : ∀ i, v.mounted i = none
  hierarchy : v.Hierarchy inos dirs
  source : a ∈ dirs
  usedSource : 0 < v.uses a
  target : b ∈ dirs
  usedTarget : 0 < v.uses b
  size : SizeOk v (v.filesize b + direntSize)
  room : (placesOf v.nidx (ceil (v.filesize b + direntSize) v.blksize)).length < v.room b

/-- From `v` to `v'` what had a name was removed. -/
structure Cleared (inos : List Nat) (dirs : Set Nat) (b : Nat) (name : List UInt8) (v v' : VDisk) (free' : List Nat) : Prop where
  confined : Confined inos ({b} ∪ v.bearers b name) v v' free'
  hierarchy : v'.Hierarchy inos (dirs \ v.bearers b name)
  opened : OpenDirectory inos v' b
  entries : ∀ x, x ∈ v'.dirents b ↔ x ∈ v.dirents b ∧ x.name ≠ direntFilename name
  filesize : v'.filesize b ≤ v.filesize b
  room : v.room b ≤ v'.room b
  empty : ∀ y ∈ v.bearers b name, (v.inode y).isdir = true → v'.filesize y = 0
  linked : v.Linked inos dirs → v'.Linked inos (dirs \ v.bearers b name)

section Target

variable {v v' : VDisk} {inos free free' : List Nat} {dirs : Set Nat} {k a b c d y : Nat} {name : List UInt8}

theorem RenameReady.sourceOpen (h : RenameReady inos free dirs k a b v) : OpenDirectory inos v a :=
  (h.hierarchy.sound a h.source).opened h.usedSource

theorem RenameReady.targetOpen (h : RenameReady inos free dirs k a b v) : OpenDirectory inos v b :=
  (h.hierarchy.sound b h.target).opened h.usedTarget

theorem RenameReady.free_ne_nil (h : RenameReady inos free dirs k a b v) : free ≠ [] :=
  free_of_room h.wellFormed (Nat.le_add_right ..) h.room

/-- The part of `ufs_file_rename` that makes way for the new entry. -/
theorem renameTarget_run (h : RenameReady inos free dirs 5 a b v) (hplain : slash ∉ name) (hfreed : v.Removable b name) :
    ∃ v' free', (renameTarget b name).run v = (.ok, v') ∧ Cleared inos dirs b name v v' free' := by
  have hw := h.wellFormed
  have hopen := h.targetOpen
  by_cases hnone : ∀ c, ¬ v.names b (direntFilename name) c
  · have hempty : v.bearers b name = ∅ := Set.eq_empty_of_forall_notMem hnone
    refine ⟨v, free, ?_, (SameView.refl v).confined hw h.coherent (.refl h.oneHandle), ?_, hopen, fun x => ?_, Nat.le_refl _,
      Nat.le_refl _, fun y hy => absurd hy (hnone y), ?_⟩
    · simp only [renameTarget, Prog.run_bind, hopen.lookup_none hw hplain hnone, if_true, Prog.run_pure]
    · rw [hempty, Set.sdiff_empty]
      exact h.hierarchy
    · refine (and_iff_left_of_imp fun hx heq => hnone x.inodeNumber ?_).symm
      rw [VDisk.names, ← heq]
      exact hx
    · rw [hempty, Set.sdiff_empty]
      exact id
  · obtain ⟨y, hname⟩ := not_forall_not.mp hnone
    have hbearer (i : Nat) (hi : i ∈ v.bearers b name) : i = y := h.hierarchy.tree.one b h.target _ y i hname hi
    obtain ⟨v', free', hrun, hgone⟩ := fileDeallocate_run hopen hw h.coherent h.oneHandle h.references h.unmounted h.free_ne_nil
      hplain hname (h.hierarchy.bearer_ne h.target hfreed hname) (hfreed y hname)
    refine ⟨v', free', ?_, hgone.confined.mono ?_, hgone.hierarchy h.hierarchy hw h.target hfreed hname, hgone.opened, hgone.entries, ?_, hgone.room,
      fun i hi hdir => ?_, fun hlinked => hgone.linked h.hierarchy hw hlinked h.target hname hfreed⟩
    · simp only [renameTarget, Prog.run_bind, hopen.lookup hw hplain hname, hrun]
    · rintro i (rfl | rfl)
      · exact .inl rfl
      · exact .inr hname
    · rw [hgone.filesize]
      exact Nat.sub_le ..
    · obtain rfl := hbearer i hi
      rw [hgone.filesizeGone, if_pos hdir]

/-- A target that stays. -/
theorem renameTarget_stuck (h : RenameReady inos free dirs 5 a b v) (hplain : slash ∉ name)
    (hname : v.names b (direntFilename name) y) (hstuck : (v.inode y).Stuck name) :
    ∃ rc v', (renameTarget b name).run v = (rc, v') ∧ rc ≠ .ok ∧ SameView v v' ∧ Held v [] v' := by
  obtain ⟨rc, v', hrun, hrc, hsame, hheld⟩ := fileDeallocate_stuck h.targetOpen h.wellFormed h.coherent h.oneHandle
    (fun i => Nat.lt_of_succ_lt (h.references i)) h.unmounted hplain hname hstuck
  refine ⟨rc, v', ?_, hrc, hsame, hheld⟩
  simp only [renameTarget, Prog.run_bind, h.targetOpen.lookup h.wellFormed hplain hname, hrun]

end Target

/-- The names after a move of `x`: it goes from the name `f` in `a` to the name `t` in `b`, and a directory takes `b` for its
parent. -/
def moveNames (E : Entries Nat (List UInt8)) (a : Nat) (f : List UInt8) (b : Nat) (t : List UInt8) (x : Nat) (dirMove : Bool) :
    Entries Nat (List UInt8) :=
  if dirMove ∧ a ≠ b then put (drop (put E b t x) a f) x [dot, dot] b else drop (put E b t x) a f

/-- From `v` to `v'` an inode was moved. -/
structure Moved (inos : List Nat) (dirs : Set Nat) (a : Nat) (fromName : List UInt8) (b : Nat) (toName : List UInt8) (x : Nat)
    (v v' : VDisk) (free' : List Nat) : Prop where
  confined : Confined inos ({a, b, x} ∪ v.bearers b toName) v v' free'
  sound : ∀ d ∈ dirs \ v.bearers b toName, SoundDirectory inos v' d
  names : ∀ d ∈ dirs \ v.bearers b toName, ∀ n c, v'.names d n c ↔
    moveNames v.names a (direntFilename fromName) b (direntFilename toName) x (v.inode x).isdir d n c
  linked : v.Linked inos dirs → Ordinary [dot] [dot, dot] (direntFilename fromName) → (v.inode b).nlink.toNat + 1 < 65536 →
    v'.Linked inos (dirs \ v.bearers b toName)

section Entries

variable {v v' v₂ : VDisk} {inos free free' free₂ : List Nat} {dirs : Set Nat} {k a b c d x : Nat} {fromName toName : List UInt8}

theorem Cleared.names (hclear : Cleared inos dirs b toName v v₂ free₂) (h : RenameReady inos free dirs k a b v)
    (hd : d ∈ dirs \ v.bearers b toName) {n : List UInt8} :
    v₂.names d n c ↔ drop v.names b (direntFilename toName) d n c := by
  by_cases hdb : d = b
  · subst hdb
    rw [VDisk.names, hclear.entries]
    exact and_congr_right fun _ => ⟨fun hn heq => hn heq.2, fun hn heq => hn ⟨rfl, heq⟩⟩
  · rw [drop_of_ne (.inl hdb), VDisk.names, VDisk.names,
      hclear.confined.dirents h.wellFormed _ (h.hierarchy.sound d hd.1).mem]
    rintro (heq | heq)
    · exact hdb heq
    · exact hd.2 heq

/-- The first step puts the new entry where there is none of its name. -/
theorem Cleared.add (hclear : Cleared inos dirs b toName v v₂ free₂) (h : RenameReady inos free dirs 5 a b v) (hx : x ∈ inos) :
    ∃ v₃ free₃, (directoryAddEntry b x toName).run v₂ = (.ok, v₃) ∧ free₃ ≠ [] ∧ Edited inos b
      (fun e => e ∈ v₂.dirents b ∨ e = ⟨x, direntFilename toName⟩) (v₂.filesize b + direntSize)
      (if (v₂.inode x).isdir then (v₂.inode b).nlink + 1 else (v₂.inode b).nlink) v₂ v₃ free₃ := by
  have hconfined := hclear.confined
  have hblk := hconfined.spares.layout.blksize
  have hnidx : v₂.nidx = v.nidx := by rw [VDisk.nidx, hblk]; rfl
  have hpos := hconfined.wellFormed.geometry.blksize_bounds
  have htended := hconfined.coherent.tended hconfined.held.oneHandle
    fun i => Nat.lt_of_succ_lt (hconfined.room h.references i)
  have hle := Nat.add_le_add_right hclear.filesize direntSize
  have hgrown : (placesOf v₂.nidx (ceil (v₂.filesize b + direntSize) v₂.blksize)).length < v₂.room b := by
    rw [hnidx, hblk]
    refine Nat.lt_of_le_of_lt (placesOf_length_mono _ (Nat.div_le_div_right ?_)) (Nat.lt_of_lt_of_le h.room hclear.room)
    omega
  obtain ⟨v₃, free₃, hrun, hadd⟩ := hclear.opened.add hconfined.wellFormed hconfined.coherent htended
    ((h.size.mono hle).congr hblk) (Nat.le_of_lt hgrown) hx fun c hc => ((hclear.entries _).mp hc).2 rfl
  have hblk₃ := hadd.confined.spares.layout.blksize
  have hnidx₃ : v₃.nidx = v₂.nidx := by rw [VDisk.nidx, hblk₃]; rfl
  refine ⟨v₃, free₃, hrun, free_of_room hadd.confined.wellFormed (Nat.le_refl (v₃.filesize b)) ?_, hadd⟩
  rw [hadd.room, hadd.filesize, hnidx₃, hblk₃]
  exact hgrown

/-- A call whose target is the directory that holds the source finds it empty. -/
theorem renameEntries_emptied (fromName : List UInt8) (hclear : Cleared inos dirs b toName v v₂ free₂) (h : RenameReady inos free dirs 5 a b v)
    (hfreed : v.Removable b toName) (hx : x ∈ inos) (ha : a ∈ v.bearers b toName) (dirMove : Bool) :
    ∃ v' free', (renameEntries a fromName b toName x dirMove).run v₂ = (.enoent, v') ∧
      Confined inos ({b} ∪ v.bearers b toName) v v' free' ∧
      ∀ e, e ∈ v'.dirents b ↔ (e ∈ v.dirents b ∧ e.name ≠ direntFilename toName) ∨ e = ⟨x, direntFilename toName⟩ := by
  obtain ⟨v₃, free₃, hrun, -, hadd⟩ := hclear.add h hx
  have hmem := (h.hierarchy.sound a h.source).mem
  have hne : a ∉ ({b} : Set Nat) := fun heq => h.hierarchy.bearer_ne h.target hfreed ha (Set.mem_singleton_iff.mp heq)
  have hconfined := hclear.confined.trans h.wellFormed (hadd.confined.mono (by simp))
  have hsize : v₃.filesize a = 0 := by
    rw [hadd.confined.filesize hclear.confined.wellFormed hne hmem]
    exact hclear.empty a ha (h.hierarchy.tree.isdir a h.source)
  refine ⟨v₃, free₃, ?_, hconfined, fun e => ?_⟩
  · simp only [renameEntries, Prog.run_bind, hrun, ne_eq, not_true_eq_false, if_false,
      directoryRemoveEntry_empty hconfined.wellFormed.live (hconfined.cached h.usedSource) hsize, reduceCtorEq,
      not_false_eq_true, if_true, Prog.run_pure]
  · rw [hadd.entries, hclear.entries]

/-- A directory that is moved to another one is not what has the name there. -/
theorem RenameReady.not_bearer (h : RenameReady inos free dirs k a b v) (hfreed : v.Removable b toName)
    (hname : v.names a (direntFilename fromName) x) (hdir : (v.inode x).isdir = true) (ha : a ∉ v.bearers b toName) (hne : a ≠ b) :
    x ∉ v.bearers b toName := by
  intro hbear
  have htree := h.hierarchy.tree
  have hxmem := htree.mem_of_dir h.source hname hdir
  obtain ⟨-, hroot, hleaf⟩ := h.hierarchy.leaf h.target hfreed hbear hdir
  have hxup := (htree.child b h.target _ x (h.hierarchy.plain h.target hfreed) hbear hdir).2.2
  by_cases hplain : Ordinary [dot] [dot, dot] (direntFilename fromName)
  · have hxup' := (htree.child a h.source _ x hplain hname hdir).2.2
    exact hne (htree.one x hxmem _ _ _ hxup hxup')
  · rcases not_and_or.mp hplain with heq | heq
    · rw [not_not.mp heq] at hname
      rw [htree.one a h.source _ _ _ (htree.self a h.source) hname] at hbear
      exact ha hbear
    · rw [not_not.mp heq] at hname
      have haroot : a ≠ rootInode := by
        rintro rfl
        exact hroot (htree.one _ h.source _ _ _ htree.top hname)
      obtain ⟨n, hn, hchild⟩ := htree.named a h.source haroot x hname
      exact hleaf n a hn hchild

/-- From `v` to `v'` the directories `dirs` got the names `E`. -/
structure Staged (inos : List Nat) (dirs S : Set Nat) (E : Entries Nat (List UInt8)) (v v' : VDisk) (free' : List Nat) : Prop where
  confined : Confined inos S v v' free'
  sound : ∀ d ∈ dirs, SoundDirectory inos v' d
  names : ∀ d ∈ dirs, ∀ n c, v'.names d n c ↔ E d n c

theorem Staged.edit {D S : Set Nat} {E F : Entries Nat (List UInt8)} {P : Dirent → Prop} {sz : Nat} {l : UInt16}
    (h : Staged inos D S E v v₂ free₂) (hw : WellFormed v inos free) (he : Edited inos d P sz l v₂ v' free') (hd : d ∈ S)
    (hP : ∀ e, P e → inodeNumberSanity v₂ e.inodeNumber = .ok) (hnames : ∀ i ∈ D, ∀ n c, v'.names i n c ↔ F i n c) :
    Staged inos D S F v v' free' where
  confined := h.confined.trans hw (he.confined.mono (Set.singleton_subset_iff.mpr hd))
  sound i hi := he.sound h.confined.wellFormed (h.sound i hi) hP
  names := hnames

theorem Staged.opened {D S : Set Nat} {E : Entries Nat (List UInt8)} (h : Staged inos D S E v v' free') (hd : d ∈ D)
    (huse : 0 < v.uses d) : OpenDirectory inos v' d :=
  (h.sound d hd).opened (by
    rw [h.confined.held.uses]
    exact huse)

/-- The move of the entry, up to the new parent. -/
theorem renameEntries_transfer (hclear : Cleared inos dirs b toName v v₂ free₂) (h : RenameReady inos free dirs 5 a b v)
    (hfreed : v.Removable b toName) (hname : v.names a (direntFilename fromName) x) (ha : a ∉ v.bearers b toName) :
    ∃ v₃ free₃ v₄ free₄, (directoryAddEntry b x toName).run v₂ = (.ok, v₃) ∧ (directoryRemoveEntry a fromName).run v₃ = (.ok, v₄) ∧
      Staged inos (dirs \ v.bearers b toName) ({a, b, x} ∪ v.bearers b toName) (put v.names b (direntFilename toName) x) v v₃ free₃ ∧
      Staged inos (dirs \ v.bearers b toName) ({a, b, x} ∪ v.bearers b toName)
        (drop (put v.names b (direntFilename toName) x) a (direntFilename fromName)) v v₄ free₄ ∧
      (v.Linked inos dirs → Ordinary [dot] [dot, dot] (direntFilename fromName) → (v.inode b).nlink.toNat + 1 < 65536 →
        v₄.Linked inos (dirs \ v.bearers b toName)) := by
  have hw := h.wellFormed
  have hx : x ∈ inos := (h.hierarchy.sound a h.source).named _ hname
  have hbdirs : b ∈ dirs \ v.bearers b toName := ⟨h.target, fun hb => h.hierarchy.bearer_ne h.target hfreed hb rfl⟩
  have hadirs : a ∈ dirs \ v.bearers b toName := ⟨h.source, ha⟩
  have hmem {d : Nat} (hd : d ∈ dirs \ v.bearers b toName) : d ∈ inos := (h.hierarchy.sound d hd.1).mem
  have hsane {i : Nat} (hi : inodeNumberSanity v i = .ok) : inodeNumberSanity v₂ i = .ok := by
    rw [hclear.confined.spares.layout.numberSanity]
    exact hi
  have hw₂ := hclear.confined.wellFormed
  obtain ⟨v₃, free₃, hrunAdd, hfree₃, hadd⟩ := hclear.add h hx
  have hw₃ := hadd.confined.wellFormed
  have hfree₂ (c : Nat) : ¬ v₂.names b (direntFilename toName) c := fun hc => ((hclear.names h hbdirs).mp hc).2 ⟨rfl, rfl⟩
  have hstage₂ : Staged inos (dirs \ v.bearers b toName) ({a, b, x} ∪ v.bearers b toName)
      (drop v.names b (direntFilename toName)) v v₂ free₂ :=
    ⟨hclear.confined.mono (Set.union_subset_union_left _ (by simp)), hclear.hierarchy.sound, fun d hd n c => hclear.names h hd⟩
  have hstage₃ := hstage₂.edit (F := put v.names b (direntFilename toName) x) hw hadd (.inl (by simp)) (fun e he => by
    rcases he with he | rfl
    · exact (hclear.hierarchy.sound b hbdirs).sane e he
    · exact hsane ((h.hierarchy.sound a h.source).sane ⟨x, direntFilename fromName⟩ hname))
    fun d hd n c => ((hadd.names_put hw₂ hfree₂ (hmem hd) n c).trans (put_congr (hclear.names h hd))).trans put_drop
  have hname₃ : v₃.names a (direntFilename fromName) x := by
    rw [hstage₃.names a hadirs]
    by_cases heq : a = b ∧ direntFilename fromName = direntFilename toName
    · exact .inr ⟨heq.1, heq.2, rfl⟩
    · exact .inl ⟨hname, heq⟩
  have hopen₃ := hstage₃.opened hadirs h.usedSource
  have htended₃ := hadd.confined.coherent.tended hstage₃.confined.held.oneHandle
    fun i => Nat.lt_of_succ_lt (hstage₃.confined.room h.references i)
  obtain ⟨v₄, free₄, hrunRemove, hremove⟩ := hopen₃.remove hw₃ hadd.confined.coherent htended₃ hfree₃ hname₃
  have hstage₄ := hstage₃.edit (F := drop (put v.names b (direntFilename toName) x) a (direntFilename fromName)) hw hremove
    (.inl (by simp)) (fun e he => (hstage₃.sound a hadirs).sane e he.1)
    fun d hd n c => (hremove.names_drop hw₃ (hmem hd) n c).trans (drop_congr (hstage₃.names d hd n c))
  refine ⟨v₃, free₃, v₄, free₄, hrunAdd, hrunRemove, hstage₃, hstage₄, fun hlinked hfrom hroom => ?_⟩
  have hlinked₂ := hclear.linked hlinked
  have hroom₂ : (v₂.inode b).nlink.toNat + 1 < 65536 := by
    have hsub : v₂.subdirs b ⊆ v.subdirs b := fun n ⟨hn, c, hc, hcdir⟩ => by
      have hold := ((hclear.names h hbdirs).mp hc).1
      have hsame : (v₂.inode c).isdir = (v.inode c).isdir :=
        hclear.confined.isdir_mem hw ((h.hierarchy.sound b h.target).named ⟨c, n⟩ hold)
      exact ⟨hn, c, hold, hsame.symm.trans hcdir⟩
    have hcard := Set.ncard_le_ncard hsub (v.subdirs_finite b)
    have hold := hlinked.directory b h.target
    rw [hlinked₂.directory b hbdirs]
    omega
  have hlinked₃ := (hadd.relinked hw₂ hclear.hierarchy.sound hbdirs).put (hlinked₂.but x)
    (h.hierarchy.plain h.target hfreed) hx hfree₂ (fun d hd n c => hadd.names_put hw₂ hfree₂ (hmem hd) n c) hadd.nlink
    fun _ => hroom₂
  exact ((hremove.relinked hw₃ hstage₃.sound hadirs).drop hlinked₃ hfrom hname₃
    (fun c hc => (Dirent.mk.inj (hopen₃.apart.eq hname₃ hc rfl)).1)
    (fun d hd n c => hremove.names_drop hw₃ (hmem hd) n c) hremove.nlink).all

/-- The steps of a move that goes through. -/
theorem renameEntries_run (hclear : Cleared inos dirs b toName v v₂ free₂) (h : RenameReady inos free dirs 5 a b v)
    (hfreed : v.Removable b toName) (hname : v.names a (direntFilename fromName) x) (hused : 0 < v.uses x)
    (ha : a ∉ v.bearers b toName) (habove : (v.inode x).isdir = true → ¬ Above [dot, dot] v.names x b) :
    ∃ v' free', (renameEntries a fromName b toName x (v.inode x).isdir).run v₂ = (.ok, v') ∧
      Moved inos dirs a fromName b toName x v v' free' := by
  have hw := h.wellFormed
  have htree := h.hierarchy.tree
  have hbdirs : b ∈ dirs \ v.bearers b toName := ⟨h.target, fun hb => h.hierarchy.bearer_ne h.target hfreed hb rfl⟩
  have hmem {d : Nat} (hd : d ∈ dirs \ v.bearers b toName) : d ∈ inos := (h.hierarchy.sound d hd.1).mem
  obtain ⟨v₃, free₃, v₄, free₄, hrunAdd, hrunRemove, hstage₃, hstage₄, hlinked₄⟩ :=
    renameEntries_transfer hclear h hfreed hname ha
  have hw₄ := hstage₄.confined.wellFormed
  by_cases hmove : (v.inode x).isdir = true ∧ a ≠ b
  swap
  · refine ⟨v₄, free₄, ?_, hstage₄.confined, hstage₄.sound, fun d hd n c => ?_, hlinked₄⟩
    · simp only [renameEntries, Prog.run_bind, hrunAdd, hrunRemove, ne_eq, not_true_eq_false, if_false, if_neg hmove,
        Prog.run_pure]
    · rw [moveNames, if_neg hmove, hstage₄.names d hd]
  -- a directory that goes to another one still has the entry for its parent
  obtain ⟨hdir, hne⟩ := hmove
  have hxmem := htree.mem_of_dir h.source hname hdir
  have hxdirs : x ∈ dirs \ v.bearers b toName := ⟨hxmem, h.not_bearer hfreed hname hdir ha hne⟩
  obtain ⟨p, hpmem, hup⟩ := htree.parent x hxmem
  have hdots : direntFilename [dot, dot] = [dot, dot] := by decide
  have hup₄ : v₄.names x (direntFilename [dot, dot]) p := by
    rw [hdots, hstage₄.names x hxdirs]
    refine ⟨.inl ⟨hup, fun heq => (h.hierarchy.plain h.target hfreed).2 heq.2.symm⟩, ?_⟩
    rintro ⟨rfl, heq⟩
    rw [← heq] at hname
    obtain rfl := htree.eq_root h.source hname
    exact habove hdir (htree.root_above h.target)
  have hopen₄ := hstage₄.opened hxdirs hused
  have hc₄ := hstage₄.confined.coherent
  obtain ⟨v₅, hrunReplace, hreplace⟩ := hopen₄.replace hw₄ hc₄ hstage₄.confined.held.oneHandle hup₄ (hmem hbdirs)
  obtain ⟨v₆, hrunBack, hback⟩ := hreplace.opened.writeback hreplace.confined.wellFormed hreplace.confined.coherent
    hreplace.confined.held.oneHandle
  have hedited := hreplace.writtenBack hw₄ hback
  rw [hdots] at hedited
  have hself : v.names b [dot] b := htree.self b h.target
  have hstage := hstage₄.edit hw hedited (.inl (by simp)) (fun e he => by
    rcases he with he | rfl
    · exact (hstage₄.sound x hxdirs).sane e he.1
    · rw [hstage₄.confined.spares.layout.numberSanity]
      exact (h.hierarchy.sound b h.target).sane ⟨b, [dot]⟩ hself)
    fun d hd n c => (hedited.names_replace hw₄ (hmem hd) n c).trans (put_congr (hstage₄.names d hd n c))
  refine ⟨v₆, free₄, ?_, hstage.confined, hstage.sound, fun d hd n c => ?_, fun hlinked hfrom hroom => ?_⟩
  · simp only [renameEntries, Prog.run_bind, hrunAdd, hrunRemove, ne_eq, not_true_eq_false, if_false, hdir, hne,
      not_false_eq_true, and_self, if_true, hrunReplace, hrunBack, Prog.run_pure]
  · rw [moveNames, if_pos ⟨hdir, hne⟩, hstage.names d hd]
  · have hisdir₄ {i : Nat} (hi : i ∈ inos) : (v₄.inode i).isdir = (v.inode i).isdir := hstage₄.confined.isdir_mem hw hi
    refine ((hedited.relinked hw₄ hstage₄.sound hxdirs).reparent ((hlinked₄ hlinked hfrom hroom).but x) (hmem hbdirs) ?_
      (fun c hc => ?_) (fun d hd n c => hedited.names_replace hw₄ (hmem hd) n c) hedited.nlink).all
    · rw [hisdir₄ (hmem hbdirs)]
      exact htree.isdir b h.target
    · rw [hdots] at hup₄
      rw [(Dirent.mk.inj (hopen₄.apart.eq hup₄ hc rfl)).1, hisdir₄ (h.hierarchy.sound p hpmem).mem]
      exact htree.isdir p hpmem

end Entries

end Ufs370
