import Ufs370.FaultyAlloc

/-! The allocation of a block from a free list that may be damaged. -/

namespace Ufs370

open Lib

/-- What `ufs_disk_check_super` finds wrong with the fields of a super block.  `updateTime` is its
`update_time`, a signed word. -/
def superErrors (sb : Superblock) (updateTime : Int) : Nat :=
  (if sb.volumeSize < 128 then 1 else 0)
    + (if sb.volumeSize < sb.datablockStartSector then 1 else 0)
    + (if maxFreeinode < sb.nfreeinode then 1 else 0)
    + (if maxFreeblock < sb.nfreeblock then 1 else 0)
    + (if updateTime < 0 then 1 else 0)
    + (if sb.volumeSize < sb.totalFreeblock then 1 else 0)
    + (if sb.nfreeinode = 0 ∧ sb.nfreeblock = 0 ∧ sb.totalFreeblock = 0 ∧ sb.totalFreeinode = 0 then 1 else 0)

/-- `ufs_disk_check_super`: the number of errors, of which an unreadable last block is one. -/
def diskCheckSuper (sb : Superblock) (updateTime : Int) : Prog Store Nat := do
  if superErrors sb updateTime ≠ 0 then
    return superErrors sb updateTime
  if ← Store.alloc then
    match ← Store.read (sb.volumeSize - 1) with
    | .error _ => return 1
    | .ok _ => return 0
  else
    return 0

/-- The entries of the array of free blocks that `allocateLoop` reads. -/
def cacheReads : Nat → VDisk → Rc → List Nat
  | 0, _, _ => []
  | fuel + 1, v, error =>
    if v.sb.totalFreeblock = 0 then []
    else
      let r := allocateRound v error
      u32sub v.sb.nfreeblock 1 ::
        if datablockNumberSanity r.2.2 r.1 then [] else cacheReads fuel r.2.2 r.2.1

/-- The call stays within the array of free blocks, and what it hands out is a data block. -/
structure AllocateSafe (v : VDisk) : Prop where
  ends : ∀ fuel, v.sb.totalFreeblock < fuel →
    (allocateLoop fuel .ok).run v = (allocateLoop (v.sb.totalFreeblock + 1) .ok).run v
  reads : ∀ i ∈ cacheReads (v.sb.totalFreeblock + 1) v .ok, i < maxFreeblock
  count : (datablockAllocate.run v).2.sb.nfreeblock ≤ maxFreeblock
  block : (datablockAllocate.run v).1.1 = .ok → datablockNumberSanity v (datablockAllocate.run v).1.2

/-- The array of free blocks is not used up before the count of free blocks is, or it ends in a number of a
data block, behind which there is no more than fits into the array. -/
def CacheGood (v : VDisk) : Prop :=
  v.sb.totalFreeblock = 0 ∨ 0 < v.sb.nfreeblock ∧
    (v.sb.totalFreeblock < v.sb.nfreeblock ∨
      (∃ i, 0 < i ∧ i < v.sb.nfreeblock ∧ datablockNumberSanity v (v.sb.freeblock i)) ∨
      v.sb.totalFreeblock = v.sb.nfreeblock ∧ ¬ datablockNumberSanity v (v.sb.freeblock 0) ∨
      datablockNumberSanity v (v.sb.freeblock 0) ∧
        (v.Serves 2 → v.word (v.sb.freeblock 0) 0 ≤ maxFreeblock))

section Damaged

variable {v w : VDisk} {error rc : Rc} {fuel n : Nat}

theorem freeblockUpdate_insane {b : Nat} (hb : ¬ datablockNumberSanity v b) :
    ∃ rc fs, (freeblockUpdate b).run v = (rc, v.withFaults fs) := by
  have hinsane : ¬ datablockNumberSanity { v with io := { v.io with faults := v.io.faults.tail } } b := hb
  by_cases hbuf : v.io.faults.headD .none = .none
  · refine ⟨.eio, v.io.faults.tail, ?_⟩
    simp only [freeblockUpdate, Prog.run_bind, diskGetBuf_run, hbuf, hinsane, decide_true, if_true,
      Bool.false_eq_true, if_false, Prog.run_pure]
    rfl
  · refine ⟨.enomem, v.io.faults.tail, ?_⟩
    simp only [freeblockUpdate, Prog.run_bind, diskGetBuf_run, hbuf, decide_false, Bool.false_eq_true, if_false,
      Prog.run_pure]
    rfl

theorem refill_keeps (v : VDisk) (fs : List Fault) (n m : Nat) (words : Nat → Nat) :
    ({ v.withFaults fs with sb := { v.sb.copyFreeblock n words with
      nfreeblock := m, modified := true } } : VDisk).sb.totalFreeblock = v.sb.totalFreeblock ∧
    ∀ c, datablockNumberSanity { v.withFaults fs with sb := { v.sb.copyFreeblock n words with
      nfreeblock := m, modified := true } } c = datablockNumberSanity v c :=
  ⟨rfl, sanity_congr rfl rfl⟩

/-- What no refill of the array touches. -/
theorem freeblockUpdate_keeps (b : Nat) : ((freeblockUpdate b).run v).2.sb.totalFreeblock = v.sb.totalFreeblock ∧
    ∀ c, datablockNumberSanity ((freeblockUpdate b).run v).2 c = datablockNumberSanity v c := by
  by_cases hb : datablockNumberSanity v b
  · rcases freeblockUpdate_run hb with ⟨-, hrun⟩ | ⟨-, rc, fs, hrun, -⟩
    · rw [hrun]
      exact refill_keeps ..
    · rw [hrun]
      exact ⟨rfl, fun _ => rfl⟩
  · obtain ⟨rc, fs, hrun⟩ := freeblockUpdate_insane hb
    rw [hrun]
    exact ⟨rfl, fun _ => rfl⟩

theorem allocateRound_total (v : VDisk) (error : Rc) :
    (allocateRound v error).2.2.sb.totalFreeblock = v.sb.totalFreeblock - 1 := by
  rw [allocateRound]
  split
  · exact (freeblockUpdate_keeps _).1
  · rfl

theorem allocateRound_sanity (v : VDisk) (error : Rc) (b : Nat) :
    datablockNumberSanity (allocateRound v error).2.2 b = datablockNumberSanity v b := by
  rw [allocateRound]
  split
  · exact (freeblockUpdate_keeps _).2 b
  · rfl

/-- Every round takes one from the count of free blocks. -/
theorem allocateLoop_ends (hfuel : v.sb.totalFreeblock < fuel) (more : Nat) :
    (allocateLoop (fuel + more) error).run v = (allocateLoop fuel error).run v := by
  induction fuel generalizing v error with
  | zero => exact absurd hfuel (Nat.not_lt_zero _)
  | succ fuel ih =>
    by_cases htotal : v.sb.totalFreeblock = 0
    · rw [Nat.succ_add]
      simp [allocateLoop, htotal]
    · rw [Nat.succ_add, allocateLoop_round htotal, allocateLoop_round htotal]
      have hnext := @ih (allocateRound v error).2.2 (allocateRound v error).2.1
        (by rw [allocateRound_total]; omega)
      simp only [hnext]

theorem allocateLoop_sane (hfuel : v.sb.totalFreeblock < fuel)
    (hok : ((allocateLoop fuel error).run v).1.1 = .ok) :
    datablockNumberSanity v ((allocateLoop fuel error).run v).1.2 := by
  induction fuel generalizing v error with
  | zero => exact absurd hfuel (Nat.not_lt_zero _)
  | succ fuel ih =>
    by_cases htotal : v.sb.totalFreeblock = 0
    · simp [allocateLoop, htotal] at hok
    · rw [allocateLoop_round htotal] at hok ⊢
      dsimp only at hok ⊢
      split at hok
      · rename_i hsane
        rw [if_pos hsane]
        rwa [allocateRound_sanity] at hsane
      · rename_i hsane
        rw [if_neg hsane]
        have hnext := ih (v := (allocateRound v error).2.2) (by rw [allocateRound_total]; omega) hok
        rwa [allocateRound_sanity] at hnext

/-- A round drops the last entry of the array, if that is no number of a data block. -/
theorem allocateRound_bad (hn : v.sb.nfreeblock = n + 1) (hbad : ¬ datablockNumberSanity v (v.sb.freeblock n)) :
    ∃ rc fs, allocateRound v error =
      (v.sb.freeblock n, rc, (v.setFree n v.sb.freeblock (v.sb.totalFreeblock - 1)).withFaults fs) ∧
      (n ≠ 0 → fs = v.io.faults) := by
  have hsub : u32sub (n + 1) 1 = n := u32sub_of_le (Nat.succ_pos n)
  rw [allocateRound, hn, hsub]
  split
  · rename_i h0
    obtain ⟨rc, fs, hrun⟩ := freeblockUpdate_insane
      (v := v.setFree n v.sb.freeblock (v.sb.totalFreeblock - 1)) hbad
    exact ⟨rc, fs, by rw [hrun], fun h => absurd h0 h⟩
  · exact ⟨error, v.io.faults, rfl, fun _ => rfl⟩

/-- The array without its last entry, if that is no number of a data block. -/
theorem cacheGood_drop (hn : v.sb.nfreeblock = n + 1) (htotal : v.sb.totalFreeblock ≠ 0)
    (hbad : ¬ datablockNumberSanity v (v.sb.freeblock n)) (fs : List Fault) (hfs : n ≠ 0 → fs = v.io.faults) :
    CacheGood ((v.setFree n v.sb.freeblock (v.sb.totalFreeblock - 1)).withFaults fs) ↔ CacheGood v := by
  change v.sb.totalFreeblock - 1 = 0 ∨ 0 < n ∧ (v.sb.totalFreeblock - 1 < n ∨
    (∃ i, 0 < i ∧ i < n ∧ datablockNumberSanity v (v.sb.freeblock i)) ∨
    v.sb.totalFreeblock - 1 = n ∧ ¬ datablockNumberSanity v (v.sb.freeblock 0) ∨
    datablockNumberSanity v (v.sb.freeblock 0) ∧
      ((v.withFaults fs).Serves 2 → v.word (v.sb.freeblock 0) 0 ≤ maxFreeblock)) ↔ _
  rw [CacheGood, hn]
  rcases Nat.eq_zero_or_pos n with rfl | hpos
  · have hnone : ¬ ∃ i, 0 < i ∧ i < 0 + 1 ∧ datablockNumberSanity v (v.sb.freeblock i) :=
      fun ⟨i, hlo, hhi, _⟩ => absurd hhi (by omega)
    grind
  · obtain rfl := hfs (Nat.ne_of_gt hpos)
    have hsome : (∃ i, 0 < i ∧ i < n + 1 ∧ datablockNumberSanity v (v.sb.freeblock i)) ↔
        ∃ i, 0 < i ∧ i < n ∧ datablockNumberSanity v (v.sb.freeblock i) := by
      refine exists_congr fun i => and_congr_right fun _ => ⟨fun ⟨hlt, hi⟩ => ⟨?_, hi⟩, fun ⟨hlt, hi⟩ => ⟨by omega, hi⟩⟩
      rcases Nat.lt_succ_iff_lt_or_eq.mp hlt with hlt | rfl
      · exact hlt
      · exact absurd hi hbad
    have hserves : (v.withFaults v.io.faults).Serves 2 ↔ v.Serves 2 := VDisk.serves_congr rfl
    rw [hsome, hserves]
    generalize (∃ i, 0 < i ∧ i < n ∧ datablockNumberSanity v (v.sb.freeblock i)) = found
    grind

/-- The loop is safe if the array is good. -/
theorem cacheReads_good (hle : v.sb.nfreeblock ≤ maxFreeblock) (hfuel : v.sb.totalFreeblock < fuel) :
    ((∀ i ∈ cacheReads fuel v error, i < maxFreeblock) ∧
      ((allocateLoop fuel error).run v).2.sb.nfreeblock ≤ maxFreeblock) ↔ CacheGood v := by
  induction fuel generalizing v error with
  | zero => exact absurd hfuel (Nat.not_lt_zero _)
  | succ fuel ih =>
    by_cases htotal : v.sb.totalFreeblock = 0
    · refine iff_of_true ⟨?_, ?_⟩ (.inl htotal)
      · simp [cacheReads, htotal]
      · simpa [allocateLoop, htotal] using hle
    rw [allocateLoop_round htotal, cacheReads, if_neg htotal]
    rcases hn : v.sb.nfreeblock with _ | n
    · -- the entry before the first one
      refine iff_of_false (fun h => ?_) fun h => ?_
      · exact absurd (h.1 _ (List.mem_cons_self ..)) (by decide)
      · rw [CacheGood, hn] at h
        exact h.elim htotal fun h => absurd h.1 (Nat.lt_irrefl 0)
    have hsub : u32sub (n + 1) 1 = n := u32sub_of_le (Nat.succ_pos n)
    rw [hn] at hle
    rw [hsub]
    by_cases hsane : datablockNumberSanity v (v.sb.freeblock n)
    · have hfirst : (allocateRound v error).1 = v.sb.freeblock n := by rw [allocateRound, hn, hsub]
      have hdone : datablockNumberSanity (allocateRound v error).2.2 (allocateRound v error).1 := by
        rw [allocateRound_sanity, hfirst]
        exact hsane
      simp only [hdone, if_true, List.forall_mem_singleton]
      rw [and_iff_right (Nat.lt_of_succ_le hle)]
      rw [CacheGood, hn, or_iff_right htotal, and_iff_right (Nat.succ_pos n)]
      rcases Nat.eq_zero_or_pos n with rfl | hpos
      · -- the array is refilled from the block that is handed out
        have hnone : ¬ ∃ i, 0 < i ∧ i < 0 + 1 ∧ datablockNumberSanity v (v.sb.freeblock i) := by
          rintro ⟨i, hlo, hhi, -⟩
          omega
        have htotal' : ¬ v.sb.totalFreeblock < 0 + 1 := by omega
        simp only [htotal', hnone, hsane, not_true_eq_false, and_false, true_and, false_or]
        have hround : allocateRound v error = (v.sb.freeblock 0,
            (freeblockUpdate (v.sb.freeblock 0)).run (v.setFree 0 v.sb.freeblock (v.sb.totalFreeblock - 1))) := by
          rw [allocateRound, hn, hsub, if_pos rfl]
        have hserves : (v.setFree 0 v.sb.freeblock (v.sb.totalFreeblock - 1)).Serves 2 ↔ v.Serves 2 :=
          VDisk.serves_congr rfl
        rw [hround, ← hserves]
        rcases freeblockUpdate_run (v := v.setFree 0 v.sb.freeblock (v.sb.totalFreeblock - 1)) hsane with
          ⟨hok, hrun⟩ | ⟨hfail, rc, fs, hrun, -⟩
        · rw [hrun]
          exact ⟨fun h _ => h, fun h => h hok⟩
        · rw [hrun]
          exact iff_of_true (Nat.zero_le _) fun hok => absurd hok hfail
      · have hround : (allocateRound v error).2.2.sb.nfreeblock = n := by
          rw [allocateRound, hn, hsub, if_neg (Nat.ne_of_gt hpos)]
          rfl
        rw [hround]
        exact iff_of_true (Nat.le_of_succ_le hle) (.inr (.inl ⟨n, hpos, Nat.lt_succ_self n, hsane⟩))
    · obtain ⟨rc, fs, hround, hfs⟩ := allocateRound_bad hn hsane
      have hnot : ¬ datablockNumberSanity (allocateRound v error).2.2 (allocateRound v error).1 := by
        rw [allocateRound_sanity, hround]
        exact hsane
      have hnext := @ih (allocateRound v error).2.2 (allocateRound v error).2.1
        (by rw [hround]; exact Nat.le_of_succ_le hle) (by rw [allocateRound_total]; omega)
      simp only [hnot, Bool.false_eq_true, if_false, List.forall_mem_cons]
      rw [and_assoc, hnext, and_iff_right (Nat.lt_of_succ_le hle), hround]
      exact cacheGood_drop hn htotal hsane fs hfs

theorem diskCheckSuper_nfreeblock {sb : Superblock} {updateTime : Int} {s : Store}
    (haccepted : ((diskCheckSuper sb updateTime).run s).1 = 0) : sb.nfreeblock ≤ maxFreeblock := by
  have herrors : superErrors sb updateTime = 0 := by
    by_contra hne
    simp only [diskCheckSuper, Prog.run_pure, hne, ne_eq, not_false_eq_true, if_true] at haccepted
  by_contra hmore
  simp only [superErrors, Nat.not_le.mp hmore, if_true] at herrors
  omega

/-- What the call leaves is what the loop left, and a block that it hands out is the one that the loop found. -/
theorem datablockAllocate_loop :
    (datablockAllocate.run v).2.sb = ((allocateLoop (v.sb.totalFreeblock + 1) .ok).run v).2.sb ∧
    ((datablockAllocate.run v).1.1 = .ok →
      ((allocateLoop (v.sb.totalFreeblock + 1) .ok).run v).1 = (.ok, (datablockAllocate.run v).1.2)) := by
  rcases hloop : (allocateLoop (v.sb.totalFreeblock + 1) .ok).run v with ⟨⟨rc, b⟩, w⟩
  by_cases hrc : rc = .ok
  · subst hrc
    refine ⟨(allocate_clear hloop).1, ?_⟩
    simp only [datablockAllocate, Prog.run_bind, hloop, ne_eq, not_true_eq_false, if_false]
    rcases readBuf_run b with ⟨-, hrun⟩ | ⟨-, rc, fs, hrun, hrc⟩
    · rw [hrun]
      simp only [Prog.run_bind, Prog.run_pure]
      intro hok
      rw [if_pos hok]
    · rw [hrun]
      exact fun hok => absurd hok hrc
  · rw [allocate_error hloop hrc]
    exact ⟨rfl, fun hok => absurd hok hrc⟩

/-- For every super block that is accepted, whatever is in its array and in the blocks of the list. -/
theorem allocateSafe_iff {updateTime : Int} {s : Store}
    (haccepted : ((diskCheckSuper v.sb updateTime).run s).1 = 0) : AllocateSafe v ↔ CacheGood v := by
  obtain ⟨hsb, hblock⟩ := datablockAllocate_loop (v := v)
  rw [← cacheReads_good (diskCheckSuper_nfreeblock haccepted) (Nat.lt_succ_self _), ← hsb]
  refine ⟨fun h => ⟨h.reads, h.count⟩, fun h => ⟨fun fuel hfuel => ?_, h.1, h.2, fun hok => ?_⟩⟩
  · obtain ⟨more, rfl⟩ := Nat.exists_eq_add_of_le (Nat.succ_le_of_lt hfuel)
    exact allocateLoop_ends (Nat.lt_succ_self _) more
  · have hfound := hblock hok
    have hsane := allocateLoop_sane (Nat.lt_succ_self v.sb.totalFreeblock) (congrArg Prod.fst hfound)
    rwa [congrArg Prod.snd hfound] at hsane

end Damaged

/-- A disk of 128 blocks with 1 for every number in the array but the first, which is 10. -/
def wornDisk (nfreeblock totalFreeblock count : Nat) : VDisk := { pairDisk with
  sb := { pairSuper with
    volumeSize := 128, nfreeblock, totalFreeblock, freeblock := fun i => if i = 0 then 10 else 1 }
  io := ⟨fun b => if b = 10 then Bytes.setWord zeroBlock 0 count else zeroBlock, []⟩ }

/-- Three bad entries are dropped, and the block at the bottom links to nothing. -/
theorem allocateSafe_iff_worn : AllocateSafe (wornDisk 4 9 0) := by
  have haccepted : ((diskCheckSuper (wornDisk 4 9 0).sb 0).run ⟨fun _ => zeroBlock, []⟩).1 = 0 := by decide
  exact (allocateSafe_iff haccepted).mpr (.inr ⟨by decide, .inr (.inr (.inr ⟨by decide, fun _ => by decide⟩))⟩)

/-- An array that is empty before the count of free blocks is down to zero, and a link with more entries than
the array has. -/
theorem not_allocateSafe :
    ((diskCheckSuper (wornDisk 0 1 0).sb 0).run ⟨fun _ => zeroBlock, []⟩).1 = 0 ∧
      cacheReads 2 (wornDisk 0 1 0) .ok = [4294967295] ∧ ¬ AllocateSafe (wornDisk 0 1 0) ∧
    ((diskCheckSuper (wornDisk 1 2 99).sb 0).run ⟨fun _ => zeroBlock, []⟩).1 = 0 ∧
      (datablockAllocate.run (wornDisk 1 2 99)).2.sb.nfreeblock = 99 ∧ ¬ AllocateSafe (wornDisk 1 2 99) := by
  have hreads : cacheReads 2 (wornDisk 0 1 0) .ok = [4294967295] := by decide +kernel
  have hcount : (datablockAllocate.run (wornDisk 1 2 99)).2.sb.nfreeblock = 99 := by decide +kernel
  refine ⟨by decide, hreads, fun h => ?_, by decide, hcount, fun h => ?_⟩
  · have hlast := h.reads 4294967295 (by
      change 4294967295 ∈ cacheReads 2 (wornDisk 0 1 0) .ok
      rw [hreads]
      exact List.mem_singleton_self _)
    exact absurd hlast (by decide)
  · exact absurd (hcount ▸ h.count) (by decide)

end Ufs370
