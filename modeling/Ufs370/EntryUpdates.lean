import Ufs370.DirectoryLaws
import Ufs370.Lib.SwapRemove

/-! Directories as multisets of entries: what lookups find, and what is added and removed. -/

namespace Ufs370

open Lib Lib.IndexForest Lib.IndexLayout

section Relist

variable {v v' v'' : VDisk} {d n k : Nat} {cnt : Nat → Nat} {all : Set Nat} {free free' free'' : List Nat}
  {es es' : List Dirent} {l l' : UInt16}

theorem countsAt_countsAt (hb : v'.blksize = v.blksize) (sz sz' : Nat) :
    countsAt v' (countsAt v cnt d sz) d sz' = countsAt v cnt d sz' := by
  rw [countsAt, countsAt, hb, Function.update_idem]
  rfl

theorem Relisted.trans (h : Relisted cnt all d es l v v' free')
    (h' : Relisted (countsAt v cnt d (direntSize * es.length)) all d es' l' v' v'' free'') :
    Relisted cnt all d es' l' v v'' free'' where
  stored := by
    rw [← countsAt_countsAt h.beside.blksize (direntSize * es.length)]
    exact h'.stored
  beside := h.beside.trans (fun _ hi => countsAt_other hi) h'.beside
  filesize := h'.filesize
  dirents := h'.dirents
  nlink := h'.nlink
  inSlot hin := h'.inSlot (h.inSlot hin)

/-- A write that replaces an entry. -/
theorem Stored.relisted_set (h : Stored cnt all d v free) (hn : v.filesize d = direntSize * n) (hk : k < n) {buf : Block}
    {x : Dirent} (hsame : Entry.dirent buf (k % v.perBlock) = x) (hother : ∀ j, j ≠ k % v.perBlock →
      Entry.dirent buf j = Entry.dirent (v.io.blocks (v.fileBlock d (k / v.perBlock))) j) :
    Relisted cnt all d ((v.dirents d).set k x) (v.inode d).nlink v (v.setBlock (v.fileBlock d (k / v.perBlock)) buf)
      free := by
  have hm := h.entry_block hn hk
  have hlen : ((v.dirents d).set k x).length = n := by rw [List.length_set, dirents_length hn]
  have hsize := (h.filesize_setBlock hm buf d).trans hn
  have hcnt : countsAt v cnt d (direntSize * n) = cnt := by
    rw [countsAt, ← hn, ← h.count, Function.update_eq_self]
  refine ⟨?_, h.beside_setBlock hm buf, by rw [hlen]; exact hsize, List.ext_getElem? fun e => ?_, ?_,
    fun hin => h.inSlot_setBlock hm buf hin⟩
  · rw [hlen, hcnt]
    exact h.setBlock hm buf
  · rw [getElem?_dirents hsize, List.getElem?_set, dirents_length hn, getElem?_dirents hn]
    by_cases he : e < n
    · rw [if_pos he, if_pos he, h.direntAt_setBlock hn hk hsame hother he]
      by_cases hek : e = k
      · rw [if_pos hek, if_pos hek.symm, if_pos hk]
      · rw [if_neg hek, if_neg (Ne.symm hek)]
    · rw [if_neg he, if_neg he, if_neg (by omega)]
  · rw [VDisk.inode_setBlock (h.owned.data_of_mem (h.block_mem hm))]

/-- A directory that is contracted by its last entry. -/
theorem Resized.relisted_last (h : Stored cnt all d v free) (hn : v.filesize d = direntSize * (n + 1))
    (hnew : FileSize v (direntSize * n)) (r : Resized cnt all d (direntSize * n) v free v' free') :
    Relisted cnt all d (v.dirents d).dropLast (v.inode d).nlink v v' free' := by
  have hlen : (v.dirents d).dropLast.length = n := by rw [List.length_dropLast, dirents_length hn, Nat.add_sub_cancel]
  have hsize : v'.filesize d = direntSize * n := r.filesize_eq h hnew
  refine ⟨by rw [hlen]; exact r.stored h hnew, r.beside h, by rw [hlen, hsize], List.ext_getElem? fun e => ?_, ?_,
    fun hin => ?_⟩
  · rw [getElem?_dirents hsize, List.getElem?_dropLast, dirents_length hn, Nat.add_sub_cancel]
    by_cases he : e < n
    · rw [if_pos he, if_pos he, getElem?_dirents hn, if_pos (Nat.lt_succ_of_lt he),
        r.direntAt h hn (Nat.lt_succ_of_lt he) he]
    · rw [if_neg he, if_neg he]
  · obtain ⟨_, _, hown⟩ := r.own
    rw [h.cached.deref, Option.map_some] at hown
    rw [VDisk.inode_some hown, VDisk.inode_some h.cached.deref]
  · rcases r.synced with rfl | hsync
    · exact hin
    · exact hsync

end Relist

section Lookup

variable {v : VDisk} {d n : Nat} {cnt : Nat → Nat} {all : Set Nat} {free : List Nat}

theorem entry_of_mem (hn : v.filesize d = direntSize * n) {P : Dirent → Prop} (hnone : ∀ x ∈ v.dirents d, ¬ P x) :
    ∀ e, e < n → ¬ P (v.direntAt d e) := fun e he =>
  hnone _ (List.mem_of_getElem? (by rw [getElem?_dirents hn, if_pos he]))

/-- A search for a name that ends at the first entry of a kind. -/
theorem getElem_dirents (hn : v.filesize d = direntSize * n) {k : Nat} {h : k < (v.dirents d).length} :
    k < n ∧ (v.dirents d)[k] = v.direntAt d k := by
  have hk : k < n := by rwa [dirents_length hn] at h
  have hget := getElem?_dirents hn (k := k)
  rw [if_pos hk, List.getElem?_eq_getElem h] at hget
  exact ⟨hk, Option.some.inj hget⟩

/-- A lookup finds the first entry that has an inode and the name, cut where the lookup cuts it. -/
theorem fileLookupByName_run (h : Stored cnt all d v free) (hn : v.filesize d = direntSize * n)
    (hdir : (v.inode d).isdir = true) (name : List UInt8) : (fileLookupByName d name).run v =
      ((match (v.dirents d).find? fun e => decide (1 ≤ e.inodeNumber ∧ e.name = direntFilename (lookupName name)) with
        | some e => .ok e.inodeNumber
        | none => .error .enoent), v) := by
  have hquiet : Steady lookupSubr (· = v) := by
    rintro w rfl ctx blk sz _
    simp only [lookupSubr, Prog.run_bind, readBuf_live h.owned.live]
    split <;> rfl
  have hskip (m : Nat) (hnone : ∀ j, j < v.perBlock → m * v.perBlock + j < n →
      ¬ (1 ≤ (v.direntAt d (m * v.perBlock + j)).inodeNumber ∧
        (v.direntAt d (m * v.perBlock + j)).name = direntFilename (lookupName name)))
      (_ : m * v.blksize < v.filesize d) : (lookupSubr ⟨lookupName name, 0, fun _ => 0⟩ (v.fileBlock d m)
        (min v.blksize (v.filesize d - m * v.blksize))).run v = ((.ok, ⟨lookupName name, 0, fun _ => 0⟩), v) := by
    have hscan := h.find_none (P := fun e => 1 ≤ e.inodeNumber ∧ e.name = direntFilename (lookupName name)) hn hnone
    simp only [lookupSubr, Prog.run_bind, readBuf_live h.owned.live, lookupScan_eq, hscan, Option.map_none]
    rfl
  simp only [fileLookupByName, Prog.run_bind, h.cached.din, hdir, Bool.not_true, Bool.false_eq_true, if_false]
  cases hfind : (v.dirents d).find? fun e => decide (1 ≤ e.inodeNumber ∧ e.name = direntFilename (lookupName name)) with
  | none =>
    have hnone := entry_of_mem (P := fun e => 1 ≤ e.inodeNumber ∧ e.name = direntFilename (lookupName name)) hn
      fun x hx hboth => List.find?_eq_none.mp hfind x hx (decide_eq_true hboth)
    rw [h.foreach_end (P := fun e => 1 ≤ e.inodeNumber ∧ e.name = direntFilename (lookupName name))
      hn hquiet hskip hnone]
    rfl
  | some x =>
    obtain ⟨hx, k, hk, rfl, hbefore⟩ := List.find?_eq_some_iff_getElem.mp hfind
    obtain ⟨hlt, hget⟩ := getElem_dirents hn (h := hk)
    rw [hget, decide_eq_true_eq] at hx
    have hfirst (e : Nat) (he : e < k) : ¬ (1 ≤ (v.direntAt d e).inodeNumber ∧
        (v.direntAt d e).name = direntFilename (lookupName name)) := by
      have hnot := hbefore e he
      rwa [(getElem_dirents hn).2, Bool.not_eq_true', decide_eq_false_iff_not] at hnot
    have hscan := h.find_first (P := fun e => 1 ≤ e.inodeNumber ∧ e.name = direntFilename (lookupName name)) hn hlt hx hfirst
    have hnumber : Entry.inodeNumber (v.io.blocks (v.fileBlock d (k / v.perBlock))) (k % v.perBlock) =
      (v.direntAt d k).inodeNumber := rfl
    have hvisit : (lookupSubr ⟨lookupName name, 0, fun _ => 0⟩ (v.fileBlock d (k / v.perBlock))
        (min v.blksize (v.filesize d - k / v.perBlock * v.blksize))).run v =
        ((.iteratorBreak, ⟨lookupName name, (v.direntAt d k).inodeNumber, fun _ => 0⟩), v) := by
      simp only [lookupSubr, Prog.run_bind, readBuf_live h.owned.live, lookupScan_eq, hscan, Option.map_some, hnumber]
      rfl
    rw [h.foreach_first (P := fun e => 1 ≤ e.inodeNumber ∧ e.name = direntFilename (lookupName name))
      hn hquiet hskip hlt hfirst hvisit (by decide), hget]
    rfl

end Lookup

section Remove

variable {v : VDisk} {d n : Nat} {cnt : Nat → Nat} {all : Set Nat} {free : List Nat}

/-- The last entry of a directory, as the removal reads it. -/
theorem last_entry (h : Stored cnt all d v free) (hn : v.filesize d = direntSize * (n + 1)) :
    (datablockLast d (v.filesize d)).run v = (v.fileBlock d (n / v.perBlock), v) ∧
      u32sub (residue (v.filesize d) v.sb.blksizeShift) direntSize = direntSize * (n % v.perBlock) := by
  have hm := h.entry_block hn (Nat.lt_succ_self n)
  obtain ⟨hbs, hper⟩ := h.owned.geometry.perBlock
  have hlt : direntSize * (n + 1) < 4294967296 := hn ▸ h.size.lt
  refine ⟨h.last hm hm ?_, ?_⟩
  · rw [hn, hbs, Nat.mul_left_comm]
    refine Nat.mul_le_mul_left _ ?_
    rw [Nat.mul_comm]
    exact Nat.lt_mul_div_succ n (by omega)
  · rw [hn, residue_entries h.owned.geometry hlt]
    exact u32sub_of_le (Nat.le_mul_of_pos_right _ (Nat.succ_pos _))

theorem removeSubr_skip (h : Stored cnt all d v free) (hn : v.filesize d = direntSize * n) (p : LookupArg) (m : Nat)
    (hnone : ∀ j, j < v.perBlock → m * v.perBlock + j < n →
      ¬ (v.direntAt d (m * v.perBlock + j)).name = direntFilename p.name) :
    (removeSubr p (v.fileBlock d m) (min v.blksize (v.filesize d - m * v.blksize))).run v = ((.ok, p), v) := by
  have hscan := h.find_none (P := fun e => e.name = direntFilename p.name) hn hnone
  simp only [removeSubr, Prog.run_bind, readBuf_live h.owned.live, removeScan_eq, hscan]
  rfl

theorem removeSubr_quiet (hv : v.Live) : Steady removeSubr (· = v) := by
  rintro w rfl ctx blk sz hok
  simp only [removeSubr, Prog.run_bind, readBuf_live hv] at hok ⊢
  split at hok
  · simp only [Prog.run_bind, vdiskWrite_live hv, ne_eq, not_true_eq_false, if_false, Prog.run_pure] at hok
    cases hok
  · rfl

/-- The first entry of a name is overwritten. -/
theorem removeForeach_run (h : Stored cnt all d v free) (hn : v.filesize d = direntSize * n) (name : List UInt8)
    (replace : Nat → UInt8) :
    (datablockForeach removeSubr d ⟨name, 0, replace⟩).run v =
      match (v.dirents d).findIdx? fun e => decide (e.name = direntFilename name) with
      | none => ((.iteratorEnd, ⟨name, 0, replace⟩), v)
      | some k => ((.iteratorBreak, ⟨name, (v.direntAt d k).inodeNumber, replace⟩),
          v.setBlock (v.fileBlock d (k / v.perBlock))
            (Entry.set (v.io.blocks (v.fileBlock d (k / v.perBlock))) (k % v.perBlock) replace)) := by
  have hquiet := removeSubr_quiet h.owned.live
  have hskip (m : Nat) (hnone : ∀ j, j < v.perBlock → m * v.perBlock + j < n →
      ¬ (v.direntAt d (m * v.perBlock + j)).name = direntFilename name) (_ : m * v.blksize < v.filesize d) :=
    removeSubr_skip h hn ⟨name, 0, replace⟩ m hnone
  cases hfind : (v.dirents d).findIdx? fun e => decide (e.name = direntFilename name) with
  | none =>
    have hnone := entry_of_mem (P := fun e => e.name = direntFilename name) hn
      fun x hx hname => Bool.false_ne_true ((List.findIdx?_eq_none_iff.mp hfind x hx).symm.trans (decide_eq_true hname))
    exact h.foreach_end (P := fun e => e.name = direntFilename name) hn hquiet hskip hnone
  | some k =>
    obtain ⟨hk, hx, hbefore⟩ := List.findIdx?_eq_some_iff_getElem.mp hfind
    obtain ⟨hlt, hget⟩ := getElem_dirents hn (h := hk)
    rw [hget, decide_eq_true_eq] at hx
    have hfirst (e : Nat) (he : e < k) : ¬ (v.direntAt d e).name = direntFilename name := by
      have hnot := hbefore e he
      rwa [(getElem_dirents hn).2, decide_eq_true_eq] at hnot
    have hscan := h.find_first (P := fun e => e.name = direntFilename name) hn hlt hx hfirst
    have hnumber : Entry.inodeNumber (v.io.blocks (v.fileBlock d (k / v.perBlock))) (k % v.perBlock) =
      (v.direntAt d k).inodeNumber := rfl
    refine h.foreach_first (P := fun e => e.name = direntFilename name) hn hquiet hskip hlt hfirst ?_ (by decide)
    simp only [removeSubr, Prog.run_bind, readBuf_live h.owned.live, removeScan_eq, hscan, hnumber,
      vdiskWrite_live h.owned.live, ne_eq, not_true_eq_false, if_false]
    rfl

end Remove

/-! The two calls. -/

section Calls

variable {v v₁ v₂ : VDisk} {d t n : Nat} {cnt : Nat → Nat} {all : Set Nat} {inos free free' : List Nat} {es : List Dirent}
  {l : UInt16}

theorem Taken.cached_too (htaken : Taken t v v₁) (h : v.Cached d) : v₁.Cached d := by
  by_cases htd : d = t
  · exact htd ▸ htaken.cached
  · rwa [VDisk.Cached, htaken.other d htd]

/-- An inode that was taken for an update of directory `d` is given back. -/
theorem Tended.release (ht : Tended v) (hd : t = d → 0 < v.uses d) (hnum : InodeNumber v t) (s : SameView v v₁)
    (hbeside : Beside cnt d v₁ v₂) (hheld : Held v [t] v₂) (hcached : v₂.Cached d) :
    ∃ w, (inodeRel t).run v₂ = ((), w) ∧ SameView v₂ w ∧ Held v [] w ∧ w.Cached d := by
  have huses := hheld.uses t
  rw [List.count_singleton_self] at huses
  have ht₂ : v₂.Cached t := cached_of_uses (by omega)
  obtain ⟨w, hrun, hrel⟩ := inodeRel_run ht₂
  have hreleased := hheld.released hrel
  refine ⟨w, hrun, .of_released hheld.oneHandle ht₂ (fun hle => ?_) hrel, hreleased, ?_⟩
  · have htd : t ≠ d := fun htd => by
      have hpos := hd htd
      rw [← htd] at hpos
      omega
    have hnum₁ := s.number.mpr hnum
    rw [VDisk.InSlot, hbeside.slot t htd hnum₁, hbeside.inode t htd hnum₁]
    exact s.inSlot.mpr (ht.idle t hnum (by omega))
  · by_cases htd : t = d
    · refine cached_of_uses ?_
      rw [hreleased.uses]
      exact hd htd
    · rwa [VDisk.Cached, hrel.other d (Ne.symm htd)]

theorem Held.of_taken (ht : Tended v) (htaken : Taken t v v₁) : Held v [t] v₁ :=
  (Held.refl ht.oneHandle).taken ht.room (by decide) htaken

/-- `ufs_directory_add_entry` adds an entry at the end, or there are too few free blocks and nothing changed that a
reader of the disk would see. -/
theorem directoryAddEntry_run (h : Stored cnt all d v free) (ht : Tended v) (hd : t = d → 0 < v.uses d)
    (hn : v.filesize d = direntSize * n) (hnew : FileSize v (direntSize * (n + 1))) (hnum : InodeNumber v t)
    (hlt : t < 4294967296) (srcname : List UInt8) :
    (∃ v', (directoryAddEntry d t srcname).run v = (.enospc, v') ∧
      free.length + (placesOf v.nidx (cnt d)).length < (placesOf v.nidx (ceil (direntSize * (n + 1)) v.blksize)).length ∧
      v'.sb.totalFreeblock = 0 ∧ ∀ i, InodeNumber v i → v'.slot i = v.slot i) ∨
    ∃ v' free', (directoryAddEntry d t srcname).run v = (.ok, v') ∧
      free.length + (placesOf v.nidx (cnt d)).length =
        free'.length + (placesOf v.nidx (ceil (direntSize * (n + 1)) v.blksize)).length ∧
      Relisted cnt all d (v.dirents d ++ [⟨t, direntFilename srcname⟩])
        (if (v.inode t).isdir then (v.inode d).nlink + 1 else (v.inode d).nlink) v v' free' ∧ Tended v' ∧
      Held v [] v' := by
  have hheldAll := (Held.directoryAddEntry ht.room (by decide) d t srcname).run v (.refl ht.oneHandle)
  obtain ⟨v₁, hget, htaken⟩ := inodeGet_live h.owned.geometry h.owned.live hnum
  have s := SameView.of_taken htaken
  have hheld₁ := Held.of_taken ht htaken
  have h₁ := h.view s (htaken.cached_too h.cached)
  have hnidx : v₁.nidx = v.nidx := by rw [s.same]; rfl
  have hblk : v₁.blksize = v.blksize := by rw [s.same]
  have hnew₁ : FileSize v₁ (direntSize * (n + 1)) := ⟨hnew.lt, by rw [hblk]; exact hnew.addr.congr hblk⟩
  have hkeeps := hheld₁.keeps (KeepsHandles.addEntry d t t (direntFilename srcname))
  simp only [directoryAddEntry, Prog.run_bind, hget] at hheldAll ⊢
  rcases addEntry_run h₁ ((s.filesize d).trans hn) hnew₁ htaken.cached hlt (direntFilename srcname) with
    ⟨v₂, hrun, hshort, hfull⟩ | ⟨v₂, free', hrun, hlength, hadded⟩
  · left
    obtain ⟨_, howned⟩ := hfull.owned
    simp only [hrun]
    refine ⟨_, rfl, by rwa [← hnidx, ← hblk], ?_⟩
    have hcached : v₂.Cached t := by
      rw [hrun] at hkeeps
      refine cached_of_uses ?_
      rw [hkeeps.uses, List.count_singleton_self]
      omega
    obtain ⟨w, hrel, hreleased⟩ := inodeRel_run hcached
    rw [hrel]
    refine ⟨by rw [hreleased.same]; exact howned.list.total, fun i hi => ?_⟩
    have hslot : w.slot i = v₂.slot i := by rw [hreleased.same]; rfl
    rw [hslot, hfull.slot h₁.owned.geometry (s.number.mpr hi), s.slot]
  · right
    rw [hrun] at hkeeps
    obtain ⟨w, hrel, sw, hheld, hcached⟩ := ht.release hd hnum s hadded.beside hkeeps hadded.stored.cached
    have hbetween := hadded.between s sw hcached
    simp only [hrun, hrel, s.dirents, s.inode, direntFilename_idem] at hbetween hheldAll ⊢
    exact ⟨w, free', rfl, by rwa [← hnidx, ← hblk], hbetween, hbetween.tended h.number ht hheldAll, hheldAll⟩

theorem Beside.isdir (h : Beside cnt d v v₁) (hnum : InodeNumber v t) : (v₁.inode t).isdir = (v.inode t).isdir := by
  by_cases htd : t = d
  · obtain ⟨_, _, _, hown⟩ := h.own
    rw [htd, hown]
    rfl
  · rw [h.inode t htd hnum]

/-- The entry that is removed gives its place to the last one. -/
theorem removeEntry_relisted (h : Stored cnt all d v free) (hn : v.filesize d = direntSize * (n + 1)) (hfree : free ≠ [])
    {k : Nat} (hk : k < n + 1) :
    let v₁ := v.setBlock (v.fileBlock d (k / v.perBlock)) (Entry.set (v.io.blocks (v.fileBlock d (k / v.perBlock)))
      (k % v.perBlock) fun j => v.io.blocks (v.fileBlock d (n / v.perBlock)) (direntSize * (n % v.perBlock) + j))
    ∃ v₂ free', (datablockContract d direntSize).run v₁ = (.ok, v₂) ∧
      Relisted cnt all d (swapRemove (v.dirents d) k) (v.inode d).nlink v v₂ free' ∧
      free.length + (placesOf v.nidx (cnt d)).length =
        free'.length + (placesOf v.nidx (ceil (direntSize * n) v.blksize)).length := by
  intro v₁
  have hset := h.relisted_set hn hk
    (Entry.dirent_set_same (v.io.blocks (v.fileBlock d (k / v.perBlock))) (v.io.blocks (v.fileBlock d (n / v.perBlock)))
      (k % v.perBlock) (n % v.perBlock)) fun j hj => Entry.dirent_set_other _ _ hj
  have hlen : ((v.dirents d).set k (Entry.dirent (v.io.blocks (v.fileBlock d (n / v.perBlock))) (n % v.perBlock))).length =
      n + 1 := by rw [List.length_set, dirents_length hn]
  have h₁ := hset.stored
  have hsize₁ : v₁.filesize d = direntSize * (n + 1) := by rw [hset.filesize, hlen]
  have hnew : FileSize v₁ (direntSize * n) := by
    have hsize := h₁.size
    rw [hset.filesize, hlen] at hsize
    refine ⟨Nat.lt_of_le_of_lt (Nat.mul_le_mul_left _ (Nat.le_succ n)) hsize.lt, hsize.addr.mono ?_⟩
    have hle : direntSize * n ≤ direntSize * (n + 1) := Nat.mul_le_mul_left _ (Nat.le_succ n)
    change (direntSize * n + v₁.blksize - 1) / v₁.blksize ≤ (direntSize * (n + 1) + v₁.blksize - 1) / v₁.blksize
    exact Nat.div_le_div_right (by omega)
  obtain ⟨v₂, free', hrun, r⟩ := datablockContract_spec h₁.owned h₁.numbers h₁.number h₁.cached h₁.count h₁.size hnew
    (fun _ => .inl hfree) (show _ = direntSize * n + direntSize from hsize₁)
  have hcount : cnt d = countsAt v cnt d (direntSize * ((v.dirents d).set k
      (Entry.dirent (v.io.blocks (v.fileBlock d (n / v.perBlock))) (n % v.perBlock))).length) d := by
    rw [countsAt, Function.update_self, hlen, ← hn, h.count]
  refine ⟨v₂, free', hrun, ?_, by rw [hcount]; exact r.length⟩
  have hlast := hset.trans (r.relisted_last h₁ hsize₁ hnew)
  have hget : (v.dirents d).getLast? = some (Entry.dirent (v.io.blocks (v.fileBlock d (n / v.perBlock))) (n % v.perBlock)) := by
    rw [List.getLast?_eq_getElem?, dirents_length hn, Nat.add_sub_cancel, getElem?_dirents hn, if_pos (Nat.lt_succ_self n)]
    rfl
  rw [hset.dirents, hset.nlink] at hlast
  rw [swapRemove, hget]
  exact hlast

/-- `ufs_directory_remove_entry` removes the first entry of a name, or there is none and nothing changes. -/
theorem directoryRemoveEntry_run (h : Stored cnt all d v free) (ht : Tended v) (hd : 0 < v.uses d)
    (hn : v.filesize d = direntSize * (n + 1)) (hfree : free ≠ [])
    (hvalid : ∀ e ∈ v.dirents d, InodeNumber v e.inodeNumber) (name : List UInt8) :
    match (v.dirents d).findIdx? fun e => decide (e.name = direntFilename name) with
    | none => (directoryRemoveEntry d name).run v = (.enoent, v)
    | some k => ∃ v' free', (directoryRemoveEntry d name).run v = (.ok, v') ∧
        Relisted cnt all d (swapRemove (v.dirents d) k)
          (if (v.inode (v.direntAt d k).inodeNumber).isdir then (v.inode d).nlink - 1 else (v.inode d).nlink) v v' free' ∧
        Tended v' ∧ Held v [] v' ∧ free.length + (placesOf v.nidx (cnt d)).length =
          free'.length + (placesOf v.nidx (ceil (direntSize * n) v.blksize)).length := by
  have hheldAll := (Held.directoryRemoveEntry ht.room (by decide) d name).run v (.refl ht.oneHandle)
  obtain ⟨hlast, hpos⟩ := last_entry h hn
  have hforeach := removeForeach_run h hn name fun j => v.io.blocks (v.fileBlock d (n / v.perBlock))
    (direntSize * (n % v.perBlock) + j)
  simp only [directoryRemoveEntry, Prog.run_bind, h.din, hlast, hpos, readBuf_live h.owned.live] at hheldAll ⊢
  cases hfind : (v.dirents d).findIdx? fun e => decide (e.name = direntFilename name) with
  | none =>
    rw [hfind] at hforeach
    simp only [hforeach]
    rfl
  | some k =>
    obtain ⟨hk, -, -⟩ := List.findIdx?_eq_some_iff_getElem.mp hfind
    obtain ⟨hlt, hget⟩ := getElem_dirents hn (h := hk)
    obtain ⟨v₂, free', hcontract, hremoved, hlength⟩ := removeEntry_relisted h hn hfree hlt
    have hnum : InodeNumber v (v.direntAt d k).inodeNumber := hget ▸ hvalid _ (List.getElem_mem hk)
    rw [hfind] at hforeach
    have hheld₂ : Held v [] v₂ := by
      have hmid := (Held.refl ht.oneHandle).keeps (KeepsHandles.removeForeach d ⟨name, 0, fun j =>
        v.io.blocks (v.fileBlock d (n / v.perBlock)) (direntSize * (n % v.perBlock) + j)⟩)
      rw [hforeach] at hmid
      have hend := hmid.keeps (KeepsHandles.datablockContract d direntSize)
      rwa [hcontract] at hend
    have ht₂ := hremoved.tended h.number ht hheld₂
    have hd₂ : 0 < v₂.uses d := by
      rw [hheld₂.uses]
      exact hd
    have hnum₂ := hnum.congr hremoved.beside.blksize hremoved.beside.sb
    obtain ⟨v₃, hget₃, htaken⟩ := inodeGet_live hremoved.stored.owned.geometry hremoved.stored.owned.live hnum₂
    have s₃ := SameView.of_taken htaken
    have hheld₃ := Held.of_taken ht₂ htaken
    have hcached₃ := htaken.cached_too hremoved.stored.cached
    have hbetween := hremoved.between (.refl v) s₃ hcached₃
    have hisdir : (v₃.din (v.direntAt d k).inodeNumber).isdir = (v.inode (v.direntAt d k).inodeNumber).isdir := by
      rw [htaken.cached.din, s₃.inode, hremoved.beside.isdir hnum]
    simp only [hforeach, ne_eq, not_true_eq_false, if_false, removeTarget, Prog.run_bind, hcontract, hget₃,
      hisdir] at hheldAll ⊢
    have hend {v₄ : VDisk} {l : UInt16} (h₄ : Relisted cnt all d (swapRemove (v.dirents d) k) l v v₄ free')
        (hbeside₄ : Beside cnt d v₃ v₄) (hheld₄ : Held v₂ [(v.direntAt d k).inodeNumber] v₄) :
        ∃ w, (inodeRel (v.direntAt d k).inodeNumber).run v₄ = ((), w) ∧
          Relisted cnt all d (swapRemove (v.dirents d) k) l v w free' ∧ (Held v [] w → Tended w) := by
      obtain ⟨w, hrel, sw, hheldw, hcached⟩ := ht₂.release (fun _ => hd₂) hnum₂ s₃ hbeside₄ hheld₄ h₄.stored.cached
      have hw := h₄.between (.refl v) sw hcached
      exact ⟨w, hrel, hw, fun hheld => hw.tended h.number ht hheld⟩
    by_cases hdir : (v.inode (v.direntAt d k).inodeNumber).isdir = true
    · have hback := writeback_run (f := fun d => { d with nlink := d.nlink - 1 }) hbetween.stored.owned hbetween.stored.number
      have hrelink := hbetween.relink (g := fun d => { d with nlink := d.nlink - 1 }) fun _ => ⟨_, rfl⟩
      obtain ⟨hbeside₄, -, -⟩ := hbetween.stored.beside_nlink (g := fun d => { d with nlink := d.nlink - 1 })
        fun _ => ⟨_, rfl⟩
      have hheld₄ := (hheld₃.keeps (KeepsHandles.modifyDinode d fun d => { d with nlink := d.nlink - 1 })).keeps
        (KeepsHandles.inodeWriteback d)
      simp only [modifyDinode, Prog.run_modify, hback] at hheld₄
      obtain ⟨w, hrel, hw, htended⟩ := hend hrelink
        (((SameView.refl v₃).beside cnt d).trans (fun _ hi => countsAt_other hi) hbeside₄) hheld₄
      simp only [hdir, if_true, modifyDinode, Prog.run_bind, hback, hrel] at hheldAll ⊢
      rw [hbetween.nlink] at hw
      exact ⟨w, free', rfl, hw, htended hheldAll, hheldAll, hlength⟩
    · obtain ⟨w, hrel, hw, htended⟩ := hend hbetween ((SameView.refl v₃).beside cnt d) hheld₃
      simp only [hdir, Bool.false_eq_true, if_false, Prog.run_bind, hrel] at hheldAll ⊢
      exact ⟨w, free', rfl, hw, htended hheldAll, hheldAll, hlength⟩

end Calls

end Ufs370
