import Ufs370.PagerLaws

/-! A virtual disk that a pager serves, and what becomes of one that is read only. -/

namespace Ufs370

open Lib

/-- The two ways in which the file functions get at the blocks of a disk. -/
inductive VdiskCall
  | read (now block : Nat)
  | write (now block : Nat) (buf : Block)

/-- `ufs_vdisk_read` and `ufs_vdisk_write` on a disk whose I/O vector is that of a pager. -/
def vdiskCall : VdiskCall → Prog Pager (Except Rc (Option Block))
  | .read now block => pagerStep (.read now block)
  | .write now block buf => do
    if (← Prog.get).readonly then
      return .error .erofs
    pagerStep (.write now block buf)

/-- A read stays on the disk.  A write may go anywhere. -/
def VdiskCall.InRange (vol : Nat) : VdiskCall → Prop
  | .read _ block => block < vol
  | .write .. => True

namespace Pager

/-- Every page of a read-only disk is a copy of a block of the disk. -/
structure Clean (s : Store) (p : Pager) : Prop where
  readonly : p.readonly = true
  store : p.store = s
  works : s.faults = []
  clean : ∀ pg ∈ p.pages, pg.dirty = 0
  copy : ∀ pg ∈ p.pages, pg.block ≠ noBlock → pg.buf = s.blocks pg.block

end Pager

section Clean

variable {s : Store} {p : Pager} (h : p.Clean s) (now : Nat)

include h

theorem Pager.Clean.pages {pages : List Page} (hclean : ∀ pg ∈ pages, pg.dirty = 0)
    (hcopy : ∀ pg ∈ pages, pg.block ≠ noBlock → pg.buf = s.blocks pg.block)
    (cachehits reads dreads : Nat) :
    ({ p with pages, cachehits, reads, dreads } : Pager).Clean s :=
  ⟨h.readonly, h.store, h.works, hclean, hcopy⟩

theorem pagerNewPage_clean : ∃ p', (pagerNewPage now).run p = (some p.pages.length, p') ∧
    p'.Clean s ∧ p.pages.length < p'.pages.length := by
  have hrun : (Store.alloc.run p.store) = (true, p.store) := by
    rw [h.store]
    exact Store.alloc_nil h.works
  simp only [pagerNewPage, Pager.onStore, Prog.run_bind, hrun, if_true, Prog.run_pure]
  refine ⟨_, rfl, ?_, by simp⟩
  refine h.pages (fun pg hpg => ?_) (fun pg hpg hb => ?_) p.cachehits p.reads p.dreads
  · rcases List.mem_append.mp hpg with hpg | hpg
    · exact h.clean pg hpg
    · rw [List.mem_singleton.mp hpg]
      rfl
  · rcases List.mem_append.mp hpg with hpg | hpg
    · exact h.copy pg hpg hb
    · rw [List.mem_singleton.mp hpg] at hb
      exact absurd rfl hb

theorem pagerLruPage_clean : ∃ n p', (pagerLruPage now).run p = (some n, p') ∧ p'.Clean s ∧
    n < p'.pages.length := by
  by_cases hroom : p.pages.length < p.maxpages
  · obtain ⟨p', hrun, hp', hlt⟩ := pagerNewPage_clean h now
    exact ⟨_, p', by simp only [pagerLruPage, Prog.run_bind, hroom, if_true, hrun], hp', hlt⟩
  cases hscan : lruScan none 0 p.pages with
  | none =>
    obtain ⟨p', hrun, hp', hlt⟩ := pagerNewPage_clean h now
    exact ⟨_, p', by simp only [pagerLruPage, Prog.run_bind, hroom, if_false, hscan, hrun], hp', hlt⟩
  | some r =>
    refine ⟨r.1, p, ?_, h, ?_⟩
    · simp only [pagerLruPage, Prog.run_bind, hroom, if_false, hscan, Prog.run_pure]
    · simpa using lruScan_index p.pages 0 none (by simp) r.1 r.2 hscan

/-- A page that is reused need not be saved first. -/
theorem pagerTakePage_clean : ∃ n p', (pagerTakePage now).run p = ((some n, .ok), p') ∧
    p'.Clean s := by
  obtain ⟨n, p', hrun, hp', hlt⟩ := pagerLruPage_clean h now
  have hd : (p'.page n).dirty = 0 := by
    rw [Pager.page_eq hlt]
    exact hp'.clean _ (List.getElem_mem hlt)
  refine ⟨n, p', ?_, hp'⟩
  simp only [pagerTakePage, Prog.run_bind, hrun, hd, ne_eq, not_true_eq_false, if_false, Prog.run_pure]

theorem Pager.Clean.modify {f : Page → Page} (n : Nat) (hclean : ∀ pg ∈ p.pages, (f pg).dirty = 0)
    (hcopy : ∀ pg ∈ p.pages, (f pg).block ≠ noBlock → (f pg).buf = s.blocks (f pg).block)
    (cachehits reads dreads : Nat) :
    ({ p with pages := p.pages.modify n f, cachehits, reads, dreads } : Pager).Clean s := by
  have hmem : ∀ pg ∈ p.pages.modify n f, pg ∈ p.pages ∨ ∃ pg' ∈ p.pages, pg = f pg' := by
    intro pg hpg
    obtain ⟨i, hi, rfl⟩ := List.mem_iff_getElem.mp hpg
    rw [List.getElem_modify]
    split
    · exact .inr ⟨_, List.getElem_mem _, rfl⟩
    · exact .inl (List.getElem_mem _)
  refine h.pages (fun pg hpg => ?_) (fun pg hpg hb => ?_) ..
  · rcases hmem pg hpg with hpg | ⟨pg', hpg', rfl⟩
    · exact h.clean pg hpg
    · exact hclean pg' hpg'
  · rcases hmem pg hpg with hpg | ⟨pg', hpg', rfl⟩
    · exact h.copy pg hpg hb
    · exact hcopy pg' hpg' hb

/-- A read returns the physical contents and leaves the pages clean. -/
theorem pagerRead_clean {b : Nat} (hb : b ≠ noBlock) : ∃ p',
    (pagerRead now b).run p = (.ok (s.blocks b), p') ∧ p'.Clean s := by
  have h₀ : ({ p with reads := pagerInc p.reads 0 } : Pager).Clean s :=
    h.pages h.clean h.copy ..
  simp only [pagerRead, Prog.run_bind]
  generalize ({ p with reads := pagerInc p.reads 0 } : Pager) = q at h₀
  cases hfind : pagerFindBlock q b with
  | some n =>
    obtain ⟨hlt, hblock⟩ := pagerFindBlock_some hfind
    have hbuf : q.pages[n].buf = s.blocks b := by
      have := h₀.copy _ (List.getElem_mem hlt)
      rw [hblock] at this
      exact this hb
    refine ⟨_, ?_, h₀.modify n (f := fun pg => { pg with used := pagerInc pg.used 1, lru := now })
      h₀.clean h₀.copy (pagerInc q.cachehits 1) q.reads q.dreads⟩
    have hpage : (Pager.page { q with
        cachehits := pagerInc q.cachehits 1
        pages := q.pages.modify n fun pg => { pg with used := pagerInc pg.used 1, lru := now } } n).buf =
          s.blocks b := by
      rw [Pager.page_eq (by simpa using hlt), List.getElem_modify, if_pos rfl]
      exact hbuf
    exact congrArg (fun buf => (Except.ok buf, _)) hpage
  | none =>
    obtain ⟨n, p', hrun, hp'⟩ := pagerTakePage_clean h₀ now
    have hread : (diskRead b).run p' = (.ok (s.blocks b), p') := by
      simp only [diskRead, Pager.onStore, Prog.run_lift, hp'.store, Store.read_nil hp'.works]
      rw [← hp'.store]
    simp only [hrun, ne_eq, not_true_eq_false, if_false, Prog.run_bind, hread, Prog.run_pure]
    exact ⟨_, rfl, hp'.modify n (f := fun _ => ⟨now, 0, 1, b, s.blocks b⟩) (fun _ _ => rfl)
      (fun _ _ _ => rfl) p'.cachehits p'.reads (pagerInc p'.dreads 1)⟩

theorem vdiskCall_clean {vol : Nat} (hvol : vol ≤ noBlock) {c : VdiskCall} (hc : c.InRange vol) :
    ((vdiskCall c).run p).2.Clean s := by
  cases c with
  | read now b =>
    obtain ⟨p', hrun, hp'⟩ := pagerRead_clean h now (Nat.ne_of_lt (Nat.lt_of_lt_of_le hc hvol))
    simp only [vdiskCall, pagerStep, Prog.run_bind, hrun, Prog.run_pure]
    exact hp'
  | write now b buf =>
    simp only [vdiskCall, Prog.run_bind, h.readonly, if_true, Prog.run_pure]
    exact h

end Clean

/-- On a disk that is open for reading only, every block stays readable and reads as the disk
holds it, whatever was read before and whatever the file functions tried to write.  They get
at the disk by these calls alone. -/
theorem readonly_stays_readable {vol : Nat} (hvol : vol ≤ noBlock) {s : Store} (hs : s.faults = [])
    (maxpages : Nat) {hist p}
    (hrun : Run vdiskCall (fun _ => VdiskCall.InRange vol) (pagerNew s true maxpages) hist p)
    (now b : Nat) (hb : b < vol) :
    ((pagerRead now b).run p).1 = .ok (s.blocks b) ∧ p.store = s := by
  have hstart : (pagerNew s true maxpages).Clean s :=
    ⟨rfl, rfl, hs, fun _ h => absurd h List.not_mem_nil, fun _ h => absurd h List.not_mem_nil⟩
  have hclean : p.Clean s := hrun.invariant hstart fun _ _ h hc => vdiskCall_clean h hvol hc
  obtain ⟨p', hread, _⟩ := pagerRead_clean hclean now (Nat.ne_of_lt (Nat.lt_of_lt_of_le hb hvol))
  exact ⟨by rw [hread], hclean.store⟩

/-- One page for two blocks, with a write in between that is refused. -/
theorem readonly_stays_readable_shared :
    let p₀ := pagerNew ⟨fun b _ => UInt8.ofNat b, []⟩ true 1
    let p₁ := ((vdiskCall (.read 1 1)).run p₀).2
    let p₂ := ((vdiskCall (.write 2 1 fun _ => 7)).run p₁).2
    let p₃ := ((vdiskCall (.read 3 0)).run p₂).2
    ((pagerRead 4 1).run p₃).1 = .ok fun _ => 1 := by
  have hread : ∀ now b, b < 2 → VdiskCall.InRange 2 (.read now b) := fun _ _ hb => hb
  have hwrite : ∀ now b buf, VdiskCall.InRange 2 (.write now b buf) := fun _ _ _ => trivial
  have hworks : (⟨fun b _ => UInt8.ofNat b, []⟩ : Store).faults = [] := rfl
  exact (readonly_stays_readable (by decide) hworks 1
    (.cons (.read 3 0) (.cons (.write 2 1 fun _ => 7) (.cons (.read 1 1) .nil
      (hread 1 1 (by decide))) (hwrite 2 1 _)) (hread 3 0 (by decide))) 4 1 (by decide)).1

end Ufs370
