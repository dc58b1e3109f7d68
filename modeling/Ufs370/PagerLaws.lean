import Ufs370.Pager
import Ufs370.Lib.WriteBack
import Ufs370.Lib.Runs
import Mathlib.Data.Set.Insert

/-! The pager refines the plain disk: whatever fails, a block reads as it was last written. -/

namespace Ufs370

open Lib Lib.WriteBack

def Page.line (pg : Page) : Line Nat Block := ⟨pg.block, pg.buf, decide (pg.dirty ≠ 0)⟩

namespace Pager

def lines (p : Pager) : List (Line Nat Block) := p.pages.map Page.line

/-- The contents of the disk as a caller of the pager sees them. -/
def logical (p : Pager) : Nat → Block := view p.lines p.store.blocks

def Ok (p : Pager) : Prop := Coherent (· ≠ noBlock) p.lines p.store.blocks

/-- `p'` is as good as `p` and shows the same contents. -/
def Same (p p' : Pager) : Prop := p'.Ok ∧ ∀ b, b ≠ noBlock → p'.logical b = p.logical b

def Uncached (p : Pager) (b : Nat) : Prop := ∀ pg ∈ p.pages, pg.block ≠ b

theorem Same.refl {p : Pager} (h : p.Ok) : Same p p := ⟨h, fun _ _ => rfl⟩

theorem Same.trans {p q r : Pager} (h : Same p q) (h' : Same q r) : Same p r :=
  ⟨h'.1, fun b hb => (h'.2 b hb).trans (h.2 b hb)⟩

theorem lines_modify (pages : List Page) {n : Nat} (hn : n < pages.length) (f : Page → Page) :
    (pages.modify n f).map Page.line = (pages.map Page.line).set n (f pages[n]).line := by
  rw [List.modify_eq_set_get _ hn, List.map_set]
  rfl

theorem page_eq {p : Pager} {n : Nat} (hn : n < p.pages.length) : p.page n = p.pages[n] := by
  simp [page, List.getD_eq_getElem?_getD, hn]

theorem Uncached.lines {p : Pager} {b : Nat} (h : p.Uncached b) : ∀ l ∈ p.lines, l.key ≠ b := by
  intro l hl
  obtain ⟨pg, hpg, rfl⟩ := List.mem_map.mp hl
  exact h pg hpg

end Pager

open Pager

theorem pagerFindBlock_none {p : Pager} {b : Nat} (h : pagerFindBlock p b = none) :
    p.Uncached b := by
  simpa [pagerFindBlock, Uncached, List.findIdx?_eq_none_iff] using h

theorem pagerFindBlock_some {p : Pager} {b n : Nat} (h : pagerFindBlock p b = some n) :
    ∃ hn : n < p.pages.length, p.pages[n].block = b := by
  obtain ⟨hn, hb, _⟩ := List.findIdx?_eq_some_iff_getElem.mp h
  exact ⟨hn, by simpa using hb⟩

theorem diskRead_cases (b : Nat) (p : Pager) :
    (∃ s, ((diskRead b).run p).2 = { p with store := s } ∧ s.blocks = p.store.blocks) ∧
      (((diskRead b).run p).1 = .ok (p.store.blocks b) ∨ ((diskRead b).run p).1 = .error .decb) := by
  rcases Store.read_cases b p.store with ⟨hb, hr⟩ | ⟨hb, hr⟩
  · exact ⟨⟨_, rfl, hb⟩, .inl hr⟩
  · exact ⟨⟨_, rfl, hb⟩, .inr hr⟩

theorem diskWrite_cases (buf : Block) (b : Nat) (p : Pager) :
    ∃ s, ((diskWrite buf b).run p).2 = { p with store := s } ∧
      (((diskWrite buf b).run p).1 = .ok ∧ s.blocks = Function.update p.store.blocks b buf ∨
        ((diskWrite buf b).run p).1 ≠ .ok ∧
          (s.blocks = p.store.blocks ∨ s.blocks = Function.update p.store.blocks b buf)) := by
  by_cases hro : p.readonly
  · have hrun : (diskWrite buf b).run p = (.erofs, p) := by simp [diskWrite, hro]
    exact ⟨p.store, by rw [hrun], .inr ⟨by simp [hrun], .inl rfl⟩⟩
  · refine ⟨((Store.write buf b).run p.store).2, by simp [diskWrite, hro, onStore], ?_⟩
    rcases Store.write_cases buf b p.store with ⟨hr, hb⟩ | ⟨hr, hb⟩
    · exact .inl ⟨by simp [diskWrite, hro, onStore, hr], hb⟩
    · exact .inr ⟨by simp [diskWrite, hro, onStore, hr], hb⟩

theorem lruScan_index (pages : List Page) (n : Nat) (best : Option (Nat × Page))
    (hbest : ∀ m pg, best = some (m, pg) → m < n) :
    ∀ m pg, lruScan best n pages = some (m, pg) → m < n + pages.length := by
  induction pages generalizing n best with
  | nil =>
    intro m pg h
    simpa using hbest m pg (by simpa [lruScan] using h)
  | cons p ps ih =>
    intro m pg h
    have hlen : n + 1 + ps.length = n + (p :: ps).length := by simp; omega
    rw [← hlen]
    have hnew : ∀ m pg, some (n, p) = some (m, pg) → m < n + 1 := by
      intro m pg h
      simp only [Option.some.injEq, Prod.mk.injEq] at h
      omega
    cases best with
    | none => exact ih (n + 1) _ hnew m pg h
    | some best =>
      have hold : ∀ m pg, some best = some (m, pg) → m < n + 1 := fun m pg h =>
        Nat.lt_succ_of_lt (hbest m pg h)
      simp only [lruScan] at h
      split at h
      · exact ih (n + 1) _ hnew m pg h
      · split at h
        · exact ih (n + 1) _ hnew m pg h
        · exact ih (n + 1) _ hold m pg h

/-- What finding a page for a miss may do: nothing a caller sees. -/
theorem pagerNewPage_spec (now : Nat) {p : Pager} (hp : p.Ok) :
    Same p ((pagerNewPage now).run p).2 ∧
      (∀ b, b ≠ noBlock → p.Uncached b → ((pagerNewPage now).run p).2.Uncached b) ∧
      ∀ n, ((pagerNewPage now).run p).1 = some n → n < ((pagerNewPage now).run p).2.pages.length := by
  cases ha : (Store.alloc.run p.store).1 with
  | false =>
    refine ⟨?_, ?_, ?_⟩
    · simp [pagerNewPage, onStore, ha, Same, Ok, logical, Pager.lines]
      exact hp
    · intro b _ hu
      simpa [pagerNewPage, onStore, ha, Uncached] using hu
    · simp [pagerNewPage, onStore, ha]
  | true =>
    have hnew : ¬ ((pageNew now).line.key ≠ noBlock) := by simp [Page.line, pageNew]
    obtain ⟨hco, hview⟩ := Coherent.append hp hnew (by simp [Page.line, pageNew])
    refine ⟨?_, ?_, ?_⟩
    · simp only [pagerNewPage, onStore, Prog.run_bind, ha, if_true, Prog.run_pure, Same, Ok, logical, Pager.lines,
        List.map_append, List.map_cons, List.map_nil, Store.alloc_blocks]
      exact ⟨hco, hview⟩
    · intro b hb hu pg hpg
      simp only [pagerNewPage, onStore, Prog.run_bind, ha, if_true, Prog.run_pure,
        List.mem_append,
        List.mem_singleton] at hpg
      rcases hpg with hpg | rfl
      · exact hu pg hpg
      · exact fun h => hb h.symm
    · intro n hn
      simp only [pagerNewPage, onStore, Prog.run_bind, ha, if_true, Prog.run_pure,
        Option.some.injEq] at hn ⊢
      simp [← hn]

theorem pagerLruPage_spec (now : Nat) {p : Pager} (hp : p.Ok) :
    Same p ((pagerLruPage now).run p).2 ∧
      (∀ b, b ≠ noBlock → p.Uncached b → ((pagerLruPage now).run p).2.Uncached b) ∧
      ∀ n, ((pagerLruPage now).run p).1 = some n → n < ((pagerLruPage now).run p).2.pages.length := by
  unfold pagerLruPage
  simp only [Prog.run_bind, Prog.run_ite]
  split
  · exact pagerNewPage_spec now hp
  · cases hs : lruScan none 0 p.pages with
    | none => exact pagerNewPage_spec now hp
    | some r =>
      refine ⟨Same.refl hp, fun b _ h => h, fun n hn => ?_⟩
      simp only [Prog.run_pure, Option.some.injEq] at hn ⊢
      subst hn
      simpa using lruScan_index p.pages 0 none (by simp) r.1 r.2 hs

theorem pageFlush_spec {p : Pager} (hp : p.Ok) {n : Nat} (hn : n < p.pages.length)
    (hd : p.pages[n].dirty ≠ 0) :
    Same p ((pageFlush n).run p).2 ∧
      ((pageFlush n).run p).2.pages.map Page.block = p.pages.map Page.block ∧
      (((pageFlush n).run p).1 = .ok →
        ((pageFlush n).run p).2.pages = p.pages.modify n fun pg => { pg with dirty := 0 }) := by
  have hln : n < p.lines.length := by simpa [Pager.lines] using hn
  have hline : p.lines[n] = p.pages[n].line := by simp [Pager.lines]
  obtain ⟨s, hs, hcase⟩ := diskWrite_cases p.pages[n].buf p.pages[n].block p
  have hpage := page_eq hn
  rcases hcase with ⟨hr, hb⟩ | ⟨hr, hb⟩
  · obtain ⟨hco, hview⟩ := Coherent.save hln hp
    have hpages : ((pageFlush n).run p).2.pages = p.pages.modify n fun pg => { pg with dirty := 0 } := by
      simp [pageFlush, hpage, hr, hs, Pager.setPage]
    have hstore : ((pageFlush n).run p).2.store.blocks = s.blocks := by
      simp [pageFlush, hpage, hr, hs, Pager.setPage]
    have hlines : ((pageFlush n).run p).2.lines =
        p.lines.set n ⟨p.lines[n].key, p.lines[n].val, false⟩ := by
      rw [Pager.lines, hpages, lines_modify _ hn, hline]
      rfl
    refine ⟨?_, ?_, fun _ => hpages⟩
    · simp only [Same, Ok, logical, hlines, hstore, hb]
      rw [hline] at hco hview ⊢
      exact ⟨hco, hview⟩
    · rw [hpages, List.modify_eq_set_get _ hn, List.map_set]
      apply List.ext_getElem
      · simp
      · intro i hi hi'
        simp only [List.getElem_set, List.getElem_map]
        split <;> simp_all
  · have hstate : ((pageFlush n).run p).2 = { p with store := s } := by
      simp [pageFlush, hpage, hr, hs]
    have hrc : ((pageFlush n).run p).1 ≠ .ok := by simp [pageFlush, hpage, hr]
    refine ⟨?_, by rw [hstate], fun h => absurd h hrc⟩
    rw [hstate]
    rcases hb with hb | hb
    · simp only [Same, Ok, logical, Pager.lines, hb]
      exact ⟨hp, fun _ _ => trivial⟩
    · obtain ⟨hco, hview⟩ := Coherent.save_failed hln hp (by simpa [hline, Page.line] using hd)
        p.pages[n].buf
      simp only [Same, Ok, logical, hb]
      rw [hline] at hco hview
      exact ⟨hco, hview⟩

/-- A page taken for a miss is clean, and taking it changed nothing a caller sees. -/
theorem pagerTakePage_spec (now : Nat) {p : Pager} (hp : p.Ok) :
    Same p ((pagerTakePage now).run p).2 ∧
      (∀ b, b ≠ noBlock → p.Uncached b → ((pagerTakePage now).run p).2.Uncached b) ∧
      ∀ n, ((pagerTakePage now).run p).1 = (some n, .ok) →
        ∃ hn : n < ((pagerTakePage now).run p).2.pages.length,
          ((pagerTakePage now).run p).2.pages[n].dirty = 0 := by
  obtain ⟨hsame, hunc, hlt⟩ := pagerLruPage_spec now hp
  obtain ⟨o, q, hr⟩ : ∃ o q, (pagerLruPage now).run p = (o, q) := ⟨_, _, rfl⟩
  rw [hr] at hsame hunc hlt
  simp only [pagerTakePage, Prog.run_bind, hr]
  cases o with
  | none => exact ⟨hsame, hunc, fun n hn => by simp at hn⟩
  | some n =>
    have hn := hlt n rfl
    simp only at hn hsame hunc
    simp only [Prog.run_bind, Prog.run_ite, Prog.run_pure, page_eq hn]
    by_cases hd : q.pages[n].dirty = 0
    · simp only [hd, ne_eq, not_true_eq_false, if_false]
      refine ⟨hsame, hunc, fun m hm => ?_⟩
      simp only [Prod.mk.injEq, Option.some.injEq, and_true] at hm
      subst hm
      exact ⟨hn, hd⟩
    · simp only [ne_eq, hd, not_false_eq_true, if_true]
      obtain ⟨hsame', hkeys, hpages⟩ := pageFlush_spec hsame.1 hn hd
      refine ⟨hsame.trans hsame', fun b hb hu => ?_, fun m hm => ?_⟩
      · have hub := hunc b hb hu
        intro pg hpg hblk
        have hmem : b ∈ ((pageFlush n).run q).2.pages.map Page.block := List.mem_map.mpr ⟨pg, hpg, hblk⟩
        rw [hkeys] at hmem
        obtain ⟨pg', hpg', hblk'⟩ := List.mem_map.mp hmem
        exact hub pg' hpg' hblk'
      · simp only [Prod.mk.injEq, Option.some.injEq] at hm
        obtain ⟨rfl, hm⟩ := hm
        have := hpages hm
        simp only [this]
        exact ⟨by simpa using hn, by simp⟩

theorem pagerHit_run (now n : Nat) (p : Pager) : ∃ c, (pagerHit now n).run p = ((),
    { p with cachehits := c, pages := p.pages.modify n fun page =>
        { page with used := pagerInc page.used 1, lru := now } }) := ⟨_, rfl⟩

theorem Pager.lines_hit (now : Nat) (pages : List Page) (n : Nat) :
    (pages.modify n fun page => { page with used := pagerInc page.used 1, lru := now }).map
      Page.line = pages.map Page.line := by
  apply List.ext_getElem
  · simp
  · intro i hi hi'
    simp only [List.getElem_map, List.getElem_modify]
    split <;> rfl

/-- A clean page is reused for `b` after the disk came to hold `buf` there. -/
theorem pagerReset_spec (now : Nat) {p : Pager} (hp : p.Ok) {n b : Nat}
    (hn : n < p.pages.length) (hd : p.pages[n].dirty = 0) (hu : p.Uncached b)
    {buf : Block} (hbuf : p.store.blocks b = buf) : Same p ((pagerReset now n b buf).run p).2 := by
  have hln : n < p.lines.length := by simpa [Pager.lines] using hn
  obtain ⟨hco, hview⟩ := Coherent.retarget hln hp (by simp [Pager.lines, Page.line, hd]) hu.lines
  simp only [pagerReset, Pager.setPage, Same, Ok, logical, Pager.lines, lines_modify _ hn]
  rw [hbuf] at hco hview
  exact ⟨hco, hview⟩

theorem pagerRead_spec (now : Nat) {p : Pager} (hp : p.Ok) {b : Nat} (hb : b ≠ noBlock) :
    Same p ((pagerRead now b).run p).2 ∧
      ∀ x, ((pagerRead now b).run p).1 = .ok x → x = p.logical b := by
  have hp0 : Same p { p with reads := pagerInc p.reads 0 } := ⟨hp, fun _ _ => rfl⟩
  simp only [pagerRead, Prog.run_bind]
  cases hf : pagerFindBlock { p with reads := pagerInc p.reads 0 } b with
  | some n =>
    obtain ⟨hn, hblk⟩ := pagerFindBlock_some hf
    obtain ⟨c, hhit⟩ := pagerHit_run now n { p with reads := pagerInc p.reads 0 }
    simp only [Prog.run_bind, Prog.run_pure, hhit]
    refine ⟨?_, fun x hx => ?_⟩
    · simp only [Same, Ok, logical, Pager.lines, lines_hit]
      exact ⟨hp, fun _ _ => trivial⟩
    · simp only [Except.ok.injEq] at hx
      rw [← hx, page_eq (by simpa using hn)]
      have hln : n < p.lines.length := by simpa [Pager.lines] using hn
      have hview := Coherent.view_getElem hp hln (by simpa [Pager.lines, Page.line, hblk] using hb)
      simp only [Pager.lines, List.getElem_map, Page.line] at hview
      simp only at hblk
      rw [hblk] at hview
      simpa [logical, Pager.lines, List.getElem_modify] using hview.symm
  | none =>
    have hu := pagerFindBlock_none hf
    obtain ⟨hsame, hunc, hclean⟩ := pagerTakePage_spec now hp0.1
    obtain ⟨r, q, hr⟩ : ∃ r q, (pagerTakePage now).run { p with reads := pagerInc p.reads 0 } =
      (r, q) := ⟨_, _, rfl⟩
    rw [hr] at hsame hunc hclean
    replace hsame := hp0.trans hsame
    obtain ⟨o, rc⟩ := r
    simp only [Prog.run_bind, hr]
    cases o with
    | none => exact ⟨hsame, fun x hx => by simp at hx⟩
    | some n =>
      simp only [Prog.run_bind, Prog.run_ite, Prog.run_pure]
      by_cases hrc : rc = .ok
      · subst hrc
        obtain ⟨hn, hd⟩ := hclean n rfl
        simp only [ne_eq, not_true_eq_false, if_false]
        obtain ⟨⟨s, hs, hblocks⟩, hres⟩ := diskRead_cases b q
        have hq' : Same p { q with store := s } := by
          simp only [Same, Ok, logical, Pager.lines, hblocks]
          exact hsame
        rcases hres with hres | hres
        · simp only [hres, hs, Prog.run_bind, Prog.run_pure]
          have hstored : q.store.blocks b = p.logical b := by
            rw [← hsame.2 b hb]
            exact (view_of_absent (hunc b hb hu).lines).symm
          refine ⟨hq'.trans ?_, fun x hx => ?_⟩
          · exact pagerReset_spec now (p := { q with store := s, dreads := pagerInc q.dreads 1 })
              hq'.1 hn hd (hunc b hb hu) (by simp [hblocks])
          · simp only [Except.ok.injEq] at hx
            rw [← hx, hstored]
        · simp only [hres, hs, Prog.run_pure]
          exact ⟨hq', fun x hx => by simp at hx⟩
      · simp only [ne_eq, hrc, not_false_eq_true, if_true]
        exact ⟨hsame, fun x hx => by simp at hx⟩

/-- `p'` shows `x` in block `b` and the contents of `p` elsewhere. -/
def Pager.Wrote (b : Nat) (x : Block) (p p' : Pager) : Prop :=
  p'.Ok ∧ ∀ c, c ≠ noBlock → p'.logical c = Function.update p.logical b x c

theorem Pager.Wrote.trans {p q r : Pager} {b : Nat} {x : Block} (h : Wrote b x p q)
    (h' : Same q r) : Wrote b x p r := ⟨h'.1, fun c hc => (h'.2 c hc).trans (h.2 c hc)⟩

theorem Pager.Same.wrote {p q r : Pager} {b : Nat} {x : Block} (h : Same p q)
    (h' : Wrote b x q r) : Wrote b x p r := by
  refine ⟨h'.1, fun c hc => (h'.2 c hc).trans ?_⟩
  by_cases hcb : c = b
  · subst hcb
    simp
  · rw [Function.update_of_ne hcb, Function.update_of_ne hcb, h.2 c hc]

theorem pagerHit_same (now n : Nat) {p : Pager} (hp : p.Ok) : Same p ((pagerHit now n).run p).2 := by
  obtain ⟨c, hhit⟩ := pagerHit_run now n p
  simp only [hhit, Same, Ok, logical, Pager.lines, lines_hit]
  exact ⟨hp, fun _ _ => trivial⟩

/-- The deferred write of a hit. -/
theorem setPage_wrote {p : Pager} (hp : p.Ok) {n b : Nat} (hn : n < p.pages.length)
    (hblk : p.pages[n].block = b) (hb : b ≠ noBlock) (buf : Block)
    (hwrap : p.pages[n].dirty + 1 < 4294967296) :
    Wrote b buf p ((Pager.setPage n fun page =>
      { page with buf := buf, dirty := u32 (page.dirty + 1) }).run p).2 := by
  have hln : n < p.lines.length := by simpa [Pager.lines] using hn
  have hkey : p.lines[n].key = b := by simpa [Pager.lines, Page.line] using hblk
  have hline : (⟨p.lines[n].key, buf, true⟩ : Line Nat Block) =
      Page.line { p.pages[n] with buf := buf, dirty := u32 (p.pages[n].dirty + 1) } := by
    simp [Page.line, Pager.lines, u32_of_lt hwrap]
  obtain ⟨hco, hview⟩ := Coherent.write_hit hln hp (hkey ▸ hb) buf
  rw [hline] at hco hview
  rw [hkey] at hview
  simp only [Pager.setPage, Wrote, Ok, logical, Pager.lines, lines_modify _ hn]
  exact ⟨hco, hview⟩

theorem pagerWrite_spec (now : Nat) {p : Pager} (hp : p.Ok) {b : Nat} (hb : b ≠ noBlock)
    (buf : Block) (hwrap : ∀ pg ∈ p.pages, pg.block = b → pg.dirty + 1 < 4294967296) :
    (((pagerWrite now b buf).run p).1 = .ok → Wrote b buf p ((pagerWrite now b buf).run p).2) ∧
      (Same p ((pagerWrite now b buf).run p).2 ∨ Wrote b buf p ((pagerWrite now b buf).run p).2) := by
  have hp0 : Same p { p with writes := pagerInc p.writes 0 } := ⟨hp, fun _ _ => rfl⟩
  simp only [pagerWrite, Prog.run_bind]
  cases hf : pagerFindBlock { p with writes := pagerInc p.writes 0 } b with
  | some n =>
    obtain ⟨hn, hblk⟩ := pagerFindBlock_some hf
    have hhit := pagerHit_same now n hp0.1
    obtain ⟨c, hrun⟩ := pagerHit_run now n { p with writes := pagerInc p.writes 0 }
    rw [hrun] at hhit
    have hdone := (hp0.trans hhit).wrote (setPage_wrote (n := n) hhit.1 (by simpa using hn)
      (by simpa [List.getElem_modify] using hblk) hb buf
      (by simpa [List.getElem_modify] using hwrap _ (List.getElem_mem hn) hblk))
    simp only [Prog.run_bind, Prog.run_pure, hrun]
    exact ⟨fun _ => hdone, .inr hdone⟩
  | none =>
    have hu := pagerFindBlock_none hf
    simp only [Prog.run_ite, Prog.run_bind, Prog.run_pure]
    obtain ⟨s, hs, hcase⟩ := diskWrite_cases buf b { p with writes := pagerInc p.writes 0 }
    obtain ⟨hco, hview⟩ := Coherent.write_through hp hu.lines buf
    rcases hcase with ⟨hr, hblocks⟩ | ⟨hr, hblocks⟩
    · simp only [hr, hs, ne_eq, not_true_eq_false, if_false]
      have hw : Wrote b buf p { p with
          store := s, writes := pagerInc p.writes 0, dwrites := pagerInc p.dwrites 1 } := by
        simp only [Wrote, Ok, logical, Pager.lines, hblocks]
        exact ⟨hco, hview⟩
      obtain ⟨hsame, hunc, hclean⟩ := pagerTakePage_spec now hw.1
      obtain ⟨r, q, hrun⟩ : ∃ r q, (pagerTakePage now).run { p with
        store := s, writes := pagerInc p.writes 0, dwrites := pagerInc p.dwrites 1 } = (r, q) :=
        ⟨_, _, rfl⟩
      rw [hrun] at hsame hunc hclean
      have hq := hw.trans hsame
      obtain ⟨o, rc⟩ := r
      simp only [hrun]
      cases o with
      | none => exact ⟨fun _ => hq, .inr hq⟩
      | some n =>
        simp only [Prog.run_ite, Prog.run_bind, Prog.run_pure]
        by_cases hrc : rc = .ok
        · subst hrc
          obtain ⟨hn, hd⟩ := hclean n rfl
          have hstored : q.store.blocks b = buf := by
            have := hq.2 b hb
            rw [Function.update_self, logical, view_of_absent (hunc b hb hu).lines] at this
            exact this
          have hdone := hq.trans (pagerReset_spec now hq.1 hn hd (hunc b hb hu) hstored)
          simp only [not_true_eq_false, if_false]
          exact ⟨fun _ => hdone, .inr hdone⟩
        · simp only [hrc, not_false_eq_true, if_true]
          exact ⟨False.elim, .inr hq⟩
    · simp only [hr, hs, ne_eq, not_false_eq_true, if_true]
      refine ⟨False.elim, ?_⟩
      rcases hblocks with hblocks | hblocks
      · left
        simp only [Same, Ok, logical, Pager.lines, hblocks]
        exact ⟨hp, fun _ _ => trivial⟩
      · right
        simp only [Wrote, Ok, logical, Pager.lines, hblocks]
        exact ⟨hco, hview⟩

/-- The pages before `n` are clean already; the loop cleans the others or stops on a failure. -/
theorem pagerFlushFrom_spec (count : Nat) {p : Pager} (hp : p.Ok) (n : Nat)
    (hlen : n + count = p.pages.length)
    (hclean : ∀ i (hi : i < p.pages.length), i < n → p.pages[i].dirty = 0) :
    Same p ((pagerFlushFrom count n).run p).2 ∧
      (((pagerFlushFrom count n).run p).1 = .ok →
        ∀ pg ∈ ((pagerFlushFrom count n).run p).2.pages, pg.dirty = 0) := by
  induction count generalizing p n with
  | zero =>
    refine ⟨Same.refl hp, fun _ pg hpg => ?_⟩
    simp only [pagerFlushFrom, Prog.run_pure] at hpg
    obtain ⟨i, hi, rfl⟩ := List.getElem_of_mem hpg
    exact hclean i hi (by omega)
  | succ count ih =>
    have hn : n < p.pages.length := by omega
    simp only [pagerFlushFrom, Prog.run_bind, Prog.run_ite, page_eq hn]
    by_cases hd : p.pages[n].dirty = 0
    · simp only [hd, ne_eq, not_true_eq_false, if_false]
      refine ih hp (n + 1) (by omega) fun i hi hin => ?_
      by_cases hi' : i = n
      · subst hi'; exact hd
      · exact hclean i hi (by omega)
    · obtain ⟨hsame, hkeys, hpages⟩ := pageFlush_spec hp hn hd
      simp only [ne_eq, hd, not_false_eq_true, if_true]
      by_cases hrc : ((pageFlush n).run p).1 = .ok
      · simp only [hrc, not_true_eq_false, if_false]
        have hp' := hpages hrc
        have hlen' : ((pageFlush n).run p).2.pages.length = p.pages.length := by simp [hp']
        obtain ⟨hs, hall⟩ := ih hsame.1 (n + 1) (by omega) (fun i hi hin => by
          simp only [hp', List.getElem_modify]
          split
          · rfl
          · exact hclean i (by omega) (by omega))
        exact ⟨hsame.trans hs, hall⟩
      · simp only [hrc, not_false_eq_true, if_true, Prog.run_pure]
        exact ⟨hsame, False.elim⟩

theorem pagerFlush_spec {p : Pager} (hp : p.Ok) :
    Same p (pagerFlush.run p).2 ∧
      ((pagerFlush.run p).1 = .ok → ∀ pg ∈ (pagerFlush.run p).2.pages, pg.dirty = 0) := by
  simpa [pagerFlush] using pagerFlushFrom_spec p.pages.length hp 0 (by omega) (by omega)

/-- With no dirty page the disk itself holds what callers see. -/
theorem Pager.Ok.store_eq {p : Pager} (hp : p.Ok) (hclean : ∀ pg ∈ p.pages, pg.dirty = 0)
    {b : Nat} (hb : b ≠ noBlock) : p.store.blocks b = p.logical b := by
  refine Coherent.store_eq_view hp (fun l hl => ?_) hb
  obtain ⟨pg, hpg, rfl⟩ := List.mem_map.mp hl
  simp [Page.line, hclean pg hpg]

/-- The calls on a pager, each with the clock it reads. -/
inductive PagerOp
  | read (now block : Nat)
  | write (now block : Nat) (buf : Block)
  | flush

/-- What a call returns: the code, and for a read that is 0 the bytes. -/
def pagerStep : PagerOp → Prog Pager (Except Rc (Option Block))
  | .read now block => do
    match ← pagerRead now block with
    | .ok buf => return .ok (some buf)
    | .error rc => return .error rc
  | .write now block buf => do
    let rc ← pagerWrite now block buf
    return if rc = .ok then .ok none else .error rc
  | .flush => do
    let rc ← pagerFlush
    return if rc = .ok then .ok none else .error rc

/-- Block numbers lie below `vol`, and no write makes a page's 32-bit count of deferred
writes wrap. -/
def PagerAllowed (vol : Nat) (p : Pager) : PagerOp → Prop
  | .read _ block => block < vol
  | .write _ block _ =>
    block < vol ∧ ∀ pg ∈ p.pages, pg.block = block → pg.dirty + 1 < 4294967296
  | .flush => True

/-- The values block `b` may show after a history: the last write that returned 0, or a
write since then that did not. -/
def possible (initial : Nat → Block) (b : Nat) :
    List (PagerOp × Except Rc (Option Block)) → Set Block
  | [] => {initial b}
  | (.write _ c buf, .ok _) :: hist => if c = b then {buf} else possible initial b hist
  | (.write _ c buf, .error _) :: hist =>
    if c = b then insert buf (possible initial b hist) else possible initial b hist
  | (_, _) :: hist => possible initial b hist

/-- What one call promises, given the contents before and after it. -/
structure PagerPromise (vol : Nat) (p : Pager) (op : PagerOp) (r : Except Rc (Option Block))
    (p' : Pager) : Prop where
  read : ∀ now b, op = .read now b → ∀ buf, r = .ok (some buf) → buf = p.logical b
  failed : ∀ rc, r = .error rc → ∀ c, c < vol → (∀ now buf, op ≠ .write now c buf) →
    p'.logical c = p.logical c
  flush : op = .flush → r = .ok none → (∀ pg ∈ p'.pages, pg.dirty = 0) ∧
    ∀ c, c < vol → p'.store.blocks c = p'.logical c

section Run

variable {vol : Nat} (hvol : vol ≤ noBlock)
include hvol

theorem pagerStep_ok {p : Pager} (hp : p.Ok) {op : PagerOp} (hop : PagerAllowed vol p op) :
    ((pagerStep op).run p).2.Ok := by
  cases op with
  | read now b =>
    have hb : b ≠ noBlock := Nat.ne_of_lt (Nat.lt_of_lt_of_le hop hvol)
    have h := (pagerRead_spec now hp hb).1.1
    simp only [pagerStep, Prog.run_bind]
    split <;> exact h
  | write now b buf =>
    have hb : b ≠ noBlock := Nat.ne_of_lt (Nat.lt_of_lt_of_le hop.1 hvol)
    rcases (pagerWrite_spec now hp hb buf hop.2).2 with h | h <;> exact h.1
  | flush => exact (pagerFlush_spec hp).1.1

theorem pagerStep_promise {p : Pager} (hp : p.Ok) {op : PagerOp} (hop : PagerAllowed vol p op) :
    PagerPromise vol p op ((pagerStep op).run p).1 ((pagerStep op).run p).2 := by
  have hne : ∀ c, c < vol → c ≠ noBlock := fun c hc =>
    Nat.ne_of_lt (Nat.lt_of_lt_of_le hc hvol)
  cases op with
  | read now b =>
    obtain ⟨hsame, hread⟩ := pagerRead_spec now hp (hne b hop)
    refine ⟨fun now' b' heq buf hr => ?_, fun rc hr c hc _ => ?_, by simp⟩
    · cases heq
      refine hread buf ?_
      simp only [pagerStep, Prog.run_bind] at hr
      split at hr
      · simp_all
      · simp at hr
    · have : ((pagerStep (.read now b)).run p).2 = ((pagerRead now b).run p).2 := by
        simp only [pagerStep, Prog.run_bind]
        split <;> rfl
      rw [this]
      exact hsame.2 c (hne c hc)
  | write now b buf =>
    refine ⟨by simp, fun rc _ c hc hnw => ?_, by simp⟩
    have hcb : c ≠ b := fun h => hnw now buf (by rw [h])
    rcases (pagerWrite_spec now hp (hne b hop.1) buf hop.2).2 with h | h
    · exact h.2 c (hne c hc)
    · exact (h.2 c (hne c hc)).trans (Function.update_of_ne hcb _ _)
  | flush =>
    obtain ⟨hsame, hclean⟩ := pagerFlush_spec hp
    refine ⟨by simp, fun rc _ c hc _ => hsame.2 c (hne c hc), fun _ hr => ?_⟩
    have hrc : (pagerFlush.run p).1 = .ok := by
      by_contra h
      simp [pagerStep, h] at hr
    exact ⟨hclean hrc, fun c hc => hsame.1.store_eq (hclean hrc) (hne c hc)⟩

/-- One call keeps the contents among the possible ones. -/
theorem pagerStep_possible {initial : Nat → Block} {hist p}
    (hp : p.Ok) (hposs : ∀ b, b < vol → p.logical b ∈ possible initial b hist) {op : PagerOp}
    (hop : PagerAllowed vol p op) : ∀ b, b < vol → ((pagerStep op).run p).2.logical b ∈
      possible initial b ((op, ((pagerStep op).run p).1) :: hist) := by
  have hne : ∀ c, c < vol → c ≠ noBlock := fun c hc =>
    Nat.ne_of_lt (Nat.lt_of_lt_of_le hc hvol)
  intro b hb
  cases op with
  | read now c =>
    have : ((pagerStep (.read now c)).run p).2 = ((pagerRead now c).run p).2 := by
      simp only [pagerStep, Prog.run_bind]
      split <;> rfl
    rw [this, (pagerRead_spec now hp (hne c hop)).1.2 b (hne b hb)]
    exact hposs b hb
  | write now c buf =>
    obtain ⟨hok, hany⟩ := pagerWrite_spec now hp (hne c hop.1) buf hop.2
    simp only [pagerStep, Prog.run_bind, Prog.run_pure]
    by_cases hrc : ((pagerWrite now c buf).run p).1 = .ok
    · simp only [hrc, if_true, possible]
      rw [(hok hrc).2 b (hne b hb)]
      by_cases hcb : c = b
      · subst hcb
        simp
      · rw [if_neg hcb, Function.update_of_ne (Ne.symm hcb)]
        exact hposs b hb
    · simp only [hrc, if_false, possible]
      by_cases hcb : c = b
      · subst hcb
        rw [if_pos rfl]
        rcases hany with h | h
        · rw [h.2 c (hne c hb)]
          exact Set.mem_insert_of_mem _ (hposs c hb)
        · rw [h.2 c (hne c hb), Function.update_self]
          exact Set.mem_insert _ _
      · rw [if_neg hcb]
        rcases hany with h | h
        · rw [h.2 b (hne b hb)]
          exact hposs b hb
        · rw [h.2 b (hne b hb), Function.update_of_ne (Ne.symm hcb)]
          exact hposs b hb
  | flush =>
    rw [show ((pagerStep .flush).run p).2 = (pagerFlush.run p).2 from rfl,
      (pagerFlush_spec hp).1.2 b (hne b hb)]
    exact hposs b hb

/-- The page cache refines the plain disk. -/
theorem pager_refines_disk (store : Store) (readonly : Bool) (maxpages : Nat) {hist p}
    (h : Run pagerStep (PagerAllowed vol) (pagerNew store readonly maxpages) hist p) :
    (∀ b, b < vol → p.logical b ∈ possible store.blocks b hist) ∧
      ∀ op, PagerAllowed vol p op →
        PagerPromise vol p op ((pagerStep op).run p).1 ((pagerStep op).run p).2 := by
  have hinv : p.Ok ∧ ∀ b, b < vol → p.logical b ∈ possible store.blocks b hist := by
    refine h.invariant_hist (I := fun hist p =>
      p.Ok ∧ ∀ b, b < vol → p.logical b ∈ possible store.blocks b hist) ?_ ?_
    · exact ⟨Coherent.nil, fun b _ => by simp [possible, pagerNew, logical, Pager.lines, view]⟩
    · rintro hist p op ⟨hp, hposs⟩ hop
      exact ⟨pagerStep_ok hvol hp hop, pagerStep_possible hvol hp hposs hop⟩
  exact ⟨hinv.2, fun op hop => pagerStep_promise hvol hinv.1 hop⟩

end Run

/-- One write to a disk whose next request takes effect and still fails. -/
theorem pager_refines_disk_late :
    ((pagerStep (.write 7 5 fun _ => 1)).run
        (pagerNew ⟨fun _ => zeroBlock, [.late]⟩ false 0)).2.logical 5 ∈
      possible (fun _ => zeroBlock) 5
        [(.write 7 5 fun _ => 1, ((pagerStep (.write 7 5 fun _ => 1)).run
          (pagerNew ⟨fun _ => zeroBlock, [.late]⟩ false 0)).1)] := by
  have hvol : 128 ≤ noBlock := by decide
  have hop : PagerAllowed 128 (pagerNew ⟨fun _ => zeroBlock, [.late]⟩ false 0)
      (.write 7 5 fun _ => 1) := ⟨by decide, by simp [pagerNew]⟩
  exact (pager_refines_disk hvol _ false 0 (.cons _ .nil hop)).1 5 (by decide)

end Ufs370
