import Ufs370.PagerLaws
import Ufs370.Lib.Triple
import Mathlib.Data.Prod.Lex

/-! What the page cache is like after any calls, and the page that it gives up. -/

namespace Ufs370

open Lib Lib.Prog

/-- What the search for a page to give up compares. -/
def Page.rank (pg : Page) : ℕ ×ₗ ℕ := toLex (pg.used, pg.lru)

namespace Pager

def keys (p : Pager) : List Nat := p.pages.map Page.block

/-- Each block number but the invalid one comes once. -/
def Distinct (keys : List Nat) : Prop := keys.Pairwise fun b b' => b = b' → b = noBlock

theorem Distinct.append {keys : List Nat} (h : Distinct keys) : Distinct (keys ++ [noBlock]) := by
  refine List.pairwise_append.mpr ⟨h, List.pairwise_singleton _ _, fun b _ b' hb' heq => ?_⟩
  exact heq.trans (List.mem_singleton.mp hb')

theorem Distinct.set {keys : List Nat} (h : Distinct keys) (n : Nat) {b : Nat} (hb : b ∉ keys) :
    Distinct (keys.set n b) := by
  have hne (i : Nat) (hi : i < keys.length) : keys[i] ≠ b := fun heq => hb (heq ▸ List.getElem_mem hi)
  refine List.pairwise_iff_getElem.mpr fun i j hi hj hij heq => ?_
  rw [List.length_set] at hi hj
  rw [List.getElem_set, List.getElem_set] at heq
  rw [List.getElem_set]
  by_cases hni : n = i
  · rw [if_pos hni, if_neg (by omega)] at heq
    exact absurd heq.symm (hne j hj)
  rw [if_neg hni] at heq ⊢
  by_cases hnj : n = j
  · rw [if_pos hnj] at heq
    exact absurd heq (hne i hi)
  · rw [if_neg hnj] at heq
    exact List.pairwise_iff_getElem.mp h i j hi hj hij heq

/-- The bound on the number of pages, and that no two of them hold the same block. -/
structure Shaped (maxpages : Nat) (p : Pager) : Prop where
  capacity : p.maxpages = maxpages
  bounded : p.keys.length ≤ max 1 maxpages
  distinct : Distinct p.keys

/-- A miss of block `b` finds the cache so. -/
def Missing (maxpages b : Nat) (p : Pager) : Prop := p.Shaped maxpages ∧ b ∉ p.keys

/-- The pages hold the blocks they held. -/
def SameKeys (p p' : Pager) : Prop := p'.maxpages = p.maxpages ∧ p'.keys = p.keys

instance : Std.Refl SameKeys := ⟨fun _ => ⟨rfl, rfl⟩⟩

instance : IsTrans Pager SameKeys := ⟨fun _ _ _ h h' => ⟨h'.1.trans h.1, h'.2.trans h.2⟩⟩

variable {α : Type} {maxpages b now n : Nat} {x : Prog Pager α}

theorem Shaped.same {p p' : Pager} (h : p.Shaped maxpages) (hkeys : SameKeys p p') : p'.Shaped maxpages :=
  ⟨hkeys.1.trans h.capacity, hkeys.2 ▸ h.bounded, hkeys.2 ▸ h.distinct⟩

theorem shaped_of_moves (hx : Moves SameKeys x) : Triple (Shaped maxpages) x fun _ => Shaped maxpages :=
  ⟨fun p hp => hp.same (hx.run p)⟩

theorem missing_of_moves (hx : Moves SameKeys x) : Triple (Missing maxpages b) x fun _ => Missing maxpages b :=
  ⟨fun p hp => ⟨hp.1.same (hx.run p), (hx.run p).2 ▸ hp.2⟩⟩

theorem onStore_sameKeys (x : Prog Store α) : Moves SameKeys (onStore x) := ⟨fun _ => ⟨rfl, rfl⟩⟩

theorem setPage_sameKeys {f : Page → Page} (hf : ∀ pg, (f pg).block = pg.block) : Moves SameKeys (setPage n f) := by
  refine ⟨fun p => ⟨rfl, ?_⟩⟩
  refine List.ext_getElem (by simp [keys, setPage]) fun i hi _ => ?_
  simp only [keys, setPage, run_modify, List.getElem_map, List.getElem_modify]
  split
  exacts [hf _, rfl]

theorem keys_reset (p : Pager) (block : Nat) (buf : Block) :
    ((pagerReset now n block buf).run p).2.keys = p.keys.set n block := by
  refine List.ext_getElem (by simp [keys, pagerReset, setPage]) fun i hi _ => ?_
  simp only [keys, pagerReset, setPage, run_modify, List.getElem_map, List.getElem_modify, List.getElem_set]
  split <;> rfl

theorem reset_shaped (block : Nat) (buf : Block) :
    Triple (Missing maxpages block) (pagerReset now n block buf) fun _ => Shaped maxpages := by
  refine ⟨fun p hp => ⟨hp.1.capacity, ?_, ?_⟩⟩
  · rw [keys_reset, List.length_set]
    exact hp.1.bounded
  · rw [keys_reset]
    exact hp.1.distinct.set n hp.2

end Pager

open Pager

variable {maxpages b now n : Nat}

theorem diskRead_sameKeys (block : Nat) : Moves SameKeys (diskRead block) := onStore_sameKeys _

theorem diskWrite_sameKeys (buf : Block) (block : Nat) : Moves SameKeys (diskWrite buf block) :=
  .bind .get fun _ => .ite (.pure _) (onStore_sameKeys _)

theorem pageFlush_sameKeys (n : Nat) : Moves SameKeys (pageFlush n) :=
  .bind .get fun _ => .bind (diskWrite_sameKeys _ _) fun _ => .ite (.pure _)
    (.bind (.modify fun _ => ⟨rfl, rfl⟩) fun _ => .bind (setPage_sameKeys fun _ => rfl) fun _ => .pure _)

theorem pagerHit_sameKeys (now n : Nat) : Moves SameKeys (pagerHit now n) :=
  .bind (.modify fun _ => ⟨rfl, rfl⟩) fun _ => setPage_sameKeys fun _ => rfl

theorem pagerFlushFrom_sameKeys (count n : Nat) : Moves SameKeys (pagerFlushFrom count n) := by
  induction count generalizing n with
  | zero => exact .pure _
  | succ count ih =>
    exact .bind .get fun _ => .ite (.bind (pageFlush_sameKeys n) fun _ => .ite (.pure _) (ih _)) (ih _)

/-- The scan keeps the first of the pages of least rank. -/
theorem lruScan_least (pages : List Page) (n : Nat) (best : Nat × Page) :
    ∃ r, lruScan (some best) n pages = some r ∧ (r = best ∨ n ≤ r.1 ∧ pages[r.1 - n]? = some r.2) ∧
      r.2.rank ≤ best.2.rank ∧ ∀ pg ∈ pages, r.2.rank ≤ pg.rank := by
  induction pages generalizing n best with
  | nil => exact ⟨best, rfl, .inl rfl, le_rfl, fun _ h => absurd h List.not_mem_nil⟩
  | cons p ps ih =>
    have hnext (best' : Nat × Page) (hbest : best' = best ∨ best' = (n, p))
        (hle : best'.2.rank ≤ best.2.rank) (hp : best'.2.rank ≤ p.rank) :
        ∃ r, lruScan (some best') (n + 1) ps = some r ∧
          (r = best ∨ n ≤ r.1 ∧ (p :: ps)[r.1 - n]? = some r.2) ∧
          r.2.rank ≤ best.2.rank ∧ ∀ pg ∈ p :: ps, r.2.rank ≤ pg.rank := by
      obtain ⟨r, hr, hfrom, hrb, hrps⟩ := ih (n + 1) best'
      refine ⟨r, hr, ?_, hrb.trans hle, List.forall_mem_cons.mpr ⟨hrb.trans hp, hrps⟩⟩
      rcases hfrom with rfl | ⟨hn, hget⟩
      · rcases hbest with rfl | rfl
        · exact .inl rfl
        · exact .inr ⟨le_rfl, by simp⟩
      · refine .inr ⟨by omega, ?_⟩
        rwa [show r.1 - n = r.1 - (n + 1) + 1 by omega, List.getElem?_cons_succ]
    rw [lruScan]
    split
    · have hlt : p.rank ≤ best.2.rank := Prod.Lex.toLex_le_toLex.mpr (.inl ‹_›)
      exact hnext (n, p) (.inr rfl) hlt le_rfl
    · split
      · rename_i h
        have hlt : p.rank ≤ best.2.rank := Prod.Lex.toLex_le_toLex.mpr (.inr ⟨h.1, h.2.le⟩)
        exact hnext (n, p) (.inr rfl) hlt le_rfl
      · have hle : best.2.rank ≤ p.rank := by
          refine Prod.Lex.toLex_le_toLex.mpr ?_
          simp only
          omega
        exact hnext best (.inl rfl) le_rfl hle

/-- A full cache gives up a page of least rank. -/
theorem pagerLruPage_full (now : Nat) {p : Pager} (hfull : max 1 p.maxpages ≤ p.pages.length) :
    ∃ n, ∃ hn : n < p.pages.length, (pagerLruPage now).run p = (some n, p) ∧
      ∀ pg ∈ p.pages, p.pages[n].rank ≤ pg.rank := by
  obtain ⟨pg, pages, hpages⟩ := List.exists_cons_of_length_pos
    (Nat.lt_of_lt_of_le Nat.one_pos (Nat.max_le.mp hfull).1)
  obtain ⟨r, hr, hfrom, hrb, hrps⟩ := lruScan_least pages 1 (0, pg)
  have hget : p.pages[r.1]? = some r.2 := by
    rw [hpages]
    rcases hfrom with rfl | ⟨hn, hget⟩
    · rfl
    · rwa [show r.1 = r.1 - 1 + 1 by omega, List.getElem?_cons_succ]
  obtain ⟨hn, hget⟩ := List.getElem?_eq_some_iff.mp hget
  refine ⟨r.1, hn, ?_, ?_⟩
  · have hscan : lruScan none 0 p.pages = some r := by rw [hpages, lruScan, hr]
    have hroom : ¬ p.pages.length < p.maxpages := Nat.not_lt.mpr (Nat.max_le.mp hfull).2
    simp only [pagerLruPage, Prog.run_bind, hroom, if_false, hscan, Prog.run_pure]
  · rw [hget, hpages]
    exact List.forall_mem_cons.mpr ⟨hrb, hrps⟩

theorem pagerNewPage_missing (hb : b ≠ noBlock) :
    Triple (fun p => p.Missing maxpages b ∧ p.pages.length < max 1 maxpages) (pagerNewPage now)
      fun _ => Missing maxpages b := by
  refine .bind (Q := fun _ p => p.Missing maxpages b ∧ p.pages.length < max 1 maxpages)
    ⟨fun _ hp => ⟨⟨hp.1.1.same ⟨rfl, rfl⟩, hp.1.2⟩, hp.2⟩⟩ fun _ => .ite (fun _ => ?_) fun _ => .pure fun _ hp => hp.1
  refine .get fun p hp => .bind (.modify ?_) fun _ => .pure fun _ hp' => hp'
  rintro p rfl
  have hkeys : (p.pages ++ [pageNew now]).map Page.block = p.keys ++ [noBlock] := by
    rw [List.map_append]
    rfl
  refine ⟨⟨hp.1.1.capacity, ?_, ?_⟩, ?_⟩
  · rw [keys, List.length_map, List.length_append]
    exact hp.2
  · rw [keys, hkeys]
    exact hp.1.1.distinct.append
  · rw [keys, hkeys, List.mem_append, List.mem_singleton]
    exact not_or_intro hp.1.2 hb

theorem pagerLruPage_room (now : Nat) {p : Pager} (hroom : p.pages.length < max 1 p.maxpages) :
    (pagerLruPage now).run p = (pagerNewPage now).run p := by
  simp only [pagerLruPage, Prog.run_bind, Prog.run_ite]
  split
  · rfl
  · have hnil : p.pages = [] := List.length_eq_zero_iff.mp (by omega)
    rw [hnil, lruScan]

theorem pagerLruPage_missing (hb : b ≠ noBlock) :
    Triple (Missing maxpages b) (pagerLruPage now) fun _ => Missing maxpages b := by
  refine ⟨fun p hp => ?_⟩
  by_cases hroom : p.pages.length < max 1 p.maxpages
  · rw [pagerLruPage_room now hroom]
    exact (pagerNewPage_missing hb).run p ⟨hp, hp.1.capacity ▸ hroom⟩
  · obtain ⟨n, _, hrun, _⟩ := pagerLruPage_full now (Nat.not_lt.mp hroom)
    rw [hrun]
    exact hp

theorem pagerTakePage_missing (hb : b ≠ noBlock) :
    Triple (Missing maxpages b) (pagerTakePage now) fun _ => Missing maxpages b := by
  refine .bind (pagerLruPage_missing hb) fun r => ?_
  cases r with
  | none => exact .pure fun _ hp => hp
  | some n =>
    refine missing_of_moves (.bind .get fun _ => .ite ?_ (.pure _))
    exact .bind (pageFlush_sameKeys n) fun _ => .pure _

/-- What a miss does once the page to reuse is asked for: whatever comes before the page is reset
leaves the blocks that the cache holds alone. -/
theorem pagerRead_shaped (hb : b ≠ noBlock) :
    Triple (Shaped maxpages) (pagerRead now b) fun _ => Shaped maxpages := by
  refine .bind (shaped_of_moves (.modify fun _ => ⟨rfl, rfl⟩)) fun _ => .get fun p hp => ?_
  cases hfind : pagerFindBlock p b with
  | some n =>
    refine .pre (shaped_of_moves ?_) fun _ h => h ▸ hp
    exact .bind (pagerHit_sameKeys now n) fun _ => .bind .get fun _ => .pure _
  | none =>
    have hmiss : p.Missing maxpages b := ⟨hp, fun h => ?_⟩
    · refine .pre (.bind (pagerTakePage_missing hb) fun r => ?_) fun _ h => h ▸ hmiss
      obtain ⟨_ | n, rc⟩ := r
      · exact .pure fun _ hp => hp.1
      refine .ite (fun _ => .pure fun _ hp => hp.1) fun _ => ?_
      refine .bind (missing_of_moves (diskRead_sameKeys b)) fun r => ?_
      cases r with
      | error rc => exact .pure fun _ hp => hp.1
      | ok buf =>
        refine .bind (missing_of_moves (.modify fun _ => ⟨rfl, rfl⟩)) fun _ => ?_
        exact .bind (reset_shaped b buf) fun _ => .pure fun _ hp => hp
    · obtain ⟨pg, hpg, hblock⟩ := List.mem_map.mp h
      exact pagerFindBlock_none hfind pg hpg hblock

theorem pagerWrite_shaped (hb : b ≠ noBlock) (buf : Block) :
    Triple (Shaped maxpages) (pagerWrite now b buf) fun _ => Shaped maxpages := by
  refine .bind (shaped_of_moves (.modify fun _ => ⟨rfl, rfl⟩)) fun _ => .get fun p hp => ?_
  cases hfind : pagerFindBlock p b with
  | some n =>
    refine .pre (shaped_of_moves ?_) fun _ h => h ▸ hp
    exact .bind (pagerHit_sameKeys now n) fun _ => .bind (setPage_sameKeys fun _ => rfl) fun _ => .pure _
  | none =>
    have hmiss : p.Missing maxpages b := ⟨hp, fun h => ?_⟩
    · refine .pre (.bind (missing_of_moves (diskWrite_sameKeys buf b)) fun rc => ?_) fun _ h => h ▸ hmiss
      refine .ite (fun _ => .pure fun _ hp => hp.1) fun _ => ?_
      refine .bind (missing_of_moves (.modify fun _ => ⟨rfl, rfl⟩)) fun _ => ?_
      refine .bind (pagerTakePage_missing hb) fun r => ?_
      obtain ⟨_ | n, rc⟩ := r
      · exact .pure fun _ hp => hp.1
      refine .ite (fun _ => .pure fun _ hp => hp.1) fun _ => ?_
      exact .bind (reset_shaped b buf) fun _ => .pure fun _ hp => hp
    · obtain ⟨pg, hpg, hblock⟩ := List.mem_map.mp h
      exact pagerFindBlock_none hfind pg hpg hblock

/-- The calls on blocks that a page can hold. -/
def PagerOp.Valid : PagerOp → Prop
  | .read _ block => block < noBlock
  | .write _ block _ => block < noBlock
  | .flush => True

theorem pagerStep_shaped {op : PagerOp} (hop : op.Valid) :
    Triple (Shaped maxpages) (pagerStep op) fun _ => Shaped maxpages := by
  cases op with
  | read now b =>
    refine .bind (pagerRead_shaped (Nat.ne_of_lt hop)) fun r => ?_
    cases r <;> exact .pure fun _ hp => hp
  | write now b buf => exact .bind (pagerWrite_shaped (Nat.ne_of_lt hop) buf) fun _ => .pure fun _ hp => hp
  | flush =>
    refine shaped_of_moves (.bind (.bind .get fun _ => ?_) fun _ => .pure _)
    exact pagerFlushFrom_sameKeys _ _

/-- The cache holds at most `maxpages` pages, or one, and no block twice; and a page that it gives up is of
least rank. -/
theorem pager_shape (store : Store) (readonly : Bool) (maxpages : Nat) {hist p}
    (h : Run pagerStep (fun _ op => op.Valid) (pagerNew store readonly maxpages) hist p) :
    p.pages.length ≤ max 1 maxpages ∧
      (∀ i j (hi : i < p.pages.length) (hj : j < p.pages.length),
        p.pages[i].block = p.pages[j].block → p.pages[i].block ≠ noBlock → i = j) ∧
      ∀ now, ∀ q : Pager, max 1 q.maxpages ≤ q.pages.length →
        ∃ n, ∃ hn : n < q.pages.length, (pagerLruPage now).run q = (some n, q) ∧
          ∀ pg ∈ q.pages, q.pages[n].rank ≤ pg.rank := by
  have hnew : (pagerNew store readonly maxpages).Shaped maxpages := ⟨rfl, Nat.zero_le _, List.Pairwise.nil⟩
  have hshape : p.Shaped maxpages := by
    refine h.invariant (I := Shaped maxpages) hnew ?_
    exact fun p op hp hop => (pagerStep_shaped hop).run p hp
  have hdistinct := List.pairwise_iff_getElem.mp (List.pairwise_map.mp hshape.distinct)
  refine ⟨by simpa [keys] using hshape.bounded, fun i j hi hj heq hne => ?_, fun now q => pagerLruPage_full now⟩
  rcases Nat.lt_trichotomy i j with hij | hij | hij
  · exact absurd (hdistinct i j hi hj hij heq) hne
  · exact hij
  · exact absurd (heq.trans (hdistinct j i hj hi hij heq.symm)) hne

/-- Two misses and a hit with room for one page. -/
theorem pager_shape_one :
    let calls := Prog.each pagerStep [.read 1 5, .write 2 6 zeroBlock, .read 3 6]
    let p := (calls.run (pagerNew ⟨fun _ => zeroBlock, []⟩ false 1)).2
    p.pages.map Page.rank = [toLex (2, 3)] ∧ p.pages.length ≤ max 1 1 := by
  have hread : PagerOp.Valid (.read 1 5) := show 5 < noBlock by decide
  have hwrite : PagerOp.Valid (.write 2 6 zeroBlock) := show 6 < noBlock by decide
  have hagain : PagerOp.Valid (.read 3 6) := show 6 < noBlock by decide
  have hrun : Run pagerStep (fun _ op => op.Valid) (pagerNew ⟨fun _ => zeroBlock, []⟩ false 1) _ _ :=
    .cons _ (.cons _ (.cons _ .nil hread) hwrite) hagain
  exact ⟨by decide +kernel, (pager_shape _ false 1 hrun).1⟩

end Ufs370
