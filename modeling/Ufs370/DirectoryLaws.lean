import Ufs370.Dirents
import Ufs370.Opening

/-! What an update of a directory does to its entries, and that it lets all else be. -/

namespace Ufs370

open Lib Lib.IndexForest Lib.IndexLayout

/-- From `v` to `v'` handles came or went, and no inode shows it. -/
structure SameView (v v' : VDisk) : Prop where
  same : v' = { v with minodes := v'.minodes }
  inode : v'.inode = v.inode

/-- From `v` to `v'` only inode `d`, its blocks and the free list changed; each inode `i` has `cnt i` blocks. -/
structure Beside (cnt : Nat → Nat) (d : Nat) (v v' : VDisk) : Prop where
  blksize : v'.blksize = v.blksize
  sb : ∃ n f t m, v'.sb = { v.sb with nfreeblock := n, freeblock := f, totalFreeblock := t, modified := m }
  own : ∃ a s l, v'.inode d = { v.inode d with addr := a, filesize := s, nlink := l }
  inode : ∀ i, i ≠ d → InodeNumber v i → v'.inode i = v.inode i
  slot : ∀ i, i ≠ d → InodeNumber v i → v'.slot i = v.slot i
  data : ∀ i, i ≠ d → ∀ m, m < cnt i → m < maxBlocks v.nidx → v'.fileBlock i m = v.fileBlock i m ∧
    v'.io.blocks (v.fileBlock i m) = v.io.blocks (v.fileBlock i m)

section Views

variable {v v' v'' : VDisk} {i d : Nat} {cnt : Nat → Nat} {all : Set Nat} {free free' : List Nat}

namespace SameView

theorem refl (v : VDisk) : SameView v v := ⟨rfl, rfl⟩

theorem trans (h : SameView v v') (h' : SameView v' v'') : SameView v v'' where
  same := by rw [h'.same, h.same]
  inode := h'.inode.trans h.inode

theorem of_taken (h : Taken i v v') : SameView v v' := ⟨h.same, h.inode⟩

/-- An inode that goes from the cache is on the disk as it was in the cache. -/
theorem of_released (hone : v.OneHandle) (hcached : v.Cached i) (hin : v.uses i ≤ 1 → v.InSlot i)
    (h : Released i v v') : SameView v v' where
  same := h.same
  inode := by
    funext j
    by_cases hj : j = i
    · subst hj
      have hm := hcached.deref
      by_cases hstays : (v.deref j).Stays
      · exact h.inode_stays hm hstays
      · have hslot : v'.slot j = v.slot j := by rw [h.same]; rfl
        rw [VDisk.inode_none (h.gone hone _ hm hstays), hslot]
        refine hin ?_
        rw [uses_some hm]
        rw [Minode.Stays, not_or, not_not] at hstays
        omega
    · exact h.inode_other hj

theorem forest (h : SameView v v') : v'.forest = v.forest := by
  have hword : v'.word = v.word := by rw [h.same]; rfl
  rw [VDisk.forest, VDisk.forest, hword, h.inode]

theorem slot (h : SameView v v') : v'.slot = v.slot := by
  rw [h.same]
  rfl

theorem fileBlock (h : SameView v v') : v'.fileBlock = v.fileBlock := by
  have hnidx : v'.nidx = v.nidx := by rw [h.same]; rfl
  funext i m
  rw [VDisk.fileBlock, VDisk.fileBlock, VDisk.blockAt, VDisk.blockAt, h.forest, hnidx]

theorem beside (h : SameView v v') (cnt : Nat → Nat) (d : Nat) : Beside cnt d v v' where
  blksize := by rw [h.same]
  sb := ⟨_, _, _, _, by rw [h.same]⟩
  own := ⟨_, _, _, congrFun h.inode d⟩
  inode i _ _ := congrFun h.inode i
  slot i _ _ := congrFun h.slot i
  data i _ m _ _ := ⟨by rw [h.fileBlock], by rw [h.same]⟩

end SameView

theorem Beside.trans {cnt' : Nat → Nat} (hcnt : ∀ i, i ≠ d → cnt' i = cnt i) (h : Beside cnt d v v')
    (h' : Beside cnt' d v' v'') : Beside cnt d v v'' where
  blksize := h'.blksize.trans h.blksize
  sb := by
    obtain ⟨_, _, _, _, hsb⟩ := h.sb
    obtain ⟨n, f, t, m, hsb'⟩ := h'.sb
    exact ⟨n, f, t, m, by rw [hsb', hsb]⟩
  own := by
    obtain ⟨_, _, _, hown⟩ := h.own
    obtain ⟨a, s, l, hown'⟩ := h'.own
    exact ⟨a, s, l, by rw [hown', hown]⟩
  inode i hi hnum := (h'.inode i hi (hnum.congr h.blksize h.sb)).trans (h.inode i hi hnum)
  slot i hi hnum := (h'.slot i hi (hnum.congr h.blksize h.sb)).trans (h.slot i hi hnum)
  data i hi m hm hmax := by
    obtain ⟨hblock, hdata⟩ := h.data i hi m hm hmax
    have hnidx : v'.nidx = v.nidx := by rw [VDisk.nidx, h.blksize]; rfl
    obtain ⟨hblock', hdata'⟩ := h'.data i hi m (hcnt i hi ▸ hm) (hnidx ▸ hmax)
    rw [hblock] at hblock' hdata'
    exact ⟨hblock', hdata'.trans hdata⟩

theorem Resized.beside {newsz : Nat} (h : Stored cnt all d v free) (r : Resized cnt all d newsz v free v' free') :
    Beside cnt d v v' where
  blksize := r.blksize
  sb := r.sb
  own := by
    obtain ⟨_, a, hown⟩ := r.own
    rw [h.cached.deref, Option.map_some] at hown
    exact ⟨a, _, _, by rw [VDisk.inode_some hown, VDisk.inode_some h.cached.deref]⟩
  inode i hi hnum := r.inode_other hi hnum
  slot i hi hnum := r.slot i hi hnum
  data i hi m hm hmax := by
    have hn := h.owned.geometry.nidx_bounds
    have hplace := placeOf_data (n := v.nidx) (by omega) hmax
    have hmem : ((i, (placeOf v.nidx m).1), (placeOf v.nidx m).2) ∈
        Within v.nidx (Function.update cnt d (min (cnt d) (ceil newsz v.blksize))) :=
      hplace.mem_within _ (by rwa [Function.update_of_ne hi])
    have hnidx : v'.nidx = v.nidx := by rw [VDisk.nidx, r.blksize]; rfl
    exact ⟨by rw [VDisk.fileBlock, hnidx]; exact r.node _ hmem, r.data _ hmem fun _ => hplace.full⟩

/-- A write to a data block of `d`. -/
theorem Stored.beside_setBlock (h : Stored cnt all d v free) {m : Nat} (hm : m * v.blksize < v.filesize d) (buf : Block) :
    Beside cnt d v (v.setBlock (v.fileBlock d m) buf) := by
  have hdata := h.owned.data_of_mem (h.block_mem hm)
  have hinode : (v.setBlock (v.fileBlock d m) buf).inode = v.inode := VDisk.inode_setBlock hdata
  refine ⟨rfl, ⟨_, _, _, _, rfl⟩, ⟨_, _, _, congrFun hinode d⟩, fun i _ _ => congrFun hinode i, fun i _ hnum => ?_,
    fun i hi k hk hmax => ?_⟩
  · exact slot_congr h.owned.geometry hnum rfl ⟨_, _, _, _, rfl⟩ fun b hb =>
      VDisk.setBlock_other _ _ (Nat.ne_of_lt (Nat.lt_of_lt_of_le hb hdata))
  · have hn := h.owned.geometry.nidx_bounds
    have hplace := placeOf_data (n := v.nidx) (by omega) hmax
    have hmem : ((i, (placeOf v.nidx k).1), (placeOf v.nidx k).2) ∈ Within v.nidx cnt := hplace.mem_within _ hk
    refine ⟨(h.owned.agree_data (h.mem_within hm) (h.dataPlace hm).full buf).node h.owned.partition.closed hmem, ?_⟩
    refine VDisk.setBlock_other v buf fun heq => hi ?_
    exact congrArg (fun x => x.1.1) (h.owned.node_inj hmem (h.mem_within hm) heq)

/-- A new link count of `d`, written back. -/
theorem Stored.beside_nlink (h : Stored cnt all d v free) {g : Dinode → Dinode} (hg : ∀ x, ∃ l, g x = { x with nlink := l }) :
    Beside cnt d v ((v.setDinode d g).writtenBack d) ∧ SameData v ((v.setDinode d g).writtenBack d) ∧
      ((v.setDinode d g).writtenBack d).inode d = g (v.inode d) := by
  have haddr (x : Dinode) : (g x).addr = x.addr := by
    obtain ⟨l, hl⟩ := hg x
    rw [hl]
  have hsize (x : Dinode) : (g x).filesize = x.filesize := by
    obtain ⟨l, hl⟩ := hg x
    rw [hl]
  have hset := SameData.setDinode haddr hsize v d
  have h₁ := h.same hset
  have hback := SameData.writtenBack h₁.owned.geometry h₁.number h₁.cached
  have hs := hset.trans hback
  have hown : ((v.setDinode d g).writtenBack d).inode d = g (v.inode d) := by
    rw [inode_writtenBack h₁.owned.geometry h₁.number h₁.cached (.inl h₁.cached), VDisk.inode_setDinode_same h.cached]
  refine ⟨⟨rfl, ⟨_, _, _, _, rfl⟩, ?_, fun i hi hnum => ?_, fun i hi hnum => ?_, fun i hi m hm hmax => ?_⟩, hs, hown⟩
  · obtain ⟨l, hl⟩ := hg (v.inode d)
    exact ⟨_, _, l, by rw [hown, hl]⟩
  · rw [inode_writtenBack h₁.owned.geometry h₁.number h₁.cached (.inr (hset.number hnum)), VDisk.inode_setDinode_other hi]
  · rw [slot_writtenBack_other h₁.owned.geometry.table h₁.number (hset.number hnum) hi]
    rfl
  · have hn := h.owned.geometry.nidx_bounds
    have hplace := placeOf_data (n := v.nidx) (by omega) hmax
    have hmem : ((i, (placeOf v.nidx m).1), (placeOf v.nidx m).2) ∈ Within v.nidx cnt := hplace.mem_within _ hm
    exact ⟨(hs.agree h.owned (within_number h.numbers)).node h.owned.partition.closed hmem,
      hs.blocks _ (h.owned.data_of_mem (h.owned.node_mem hmem))⟩

end Views

/-! The disk between two calls. -/

/-- Each inode has one handle with room for more references, and one that is not in use is on the disk. -/
structure Tended (v : VDisk) : Prop where
  oneHandle : v.OneHandle
  room : v.Room
  idle : ∀ i, InodeNumber v i → v.uses i = 0 → v.InSlot i

section Tended

variable {v v' : VDisk} {i d : Nat} {cnt : Nat → Nat} {all : Set Nat} {inos free free' : List Nat}

theorem cached_of_uses (h : 0 < v.uses i) : v.Cached i := by
  rw [VDisk.Cached]
  cases hm : v.minode? i with
  | none =>
    rw [uses_none hm] at h
    exact absurd h (Nat.lt_irrefl 0)
  | some m => rfl

end Tended

/-! The entries of a directory. -/

theorem InodeNumber.lt {v : VDisk} (g : Geometry v) {i : Nat} (h : InodeNumber v i) : i < 4294967296 := by
  have hslot := h.slot
  have hbytes := g.ilistBytes
  simp only [dinodeSize] at hslot
  omega

theorem SizeOk.mono {v : VDisk} {sz sz' : Nat} (h : SizeOk v sz) (hle : sz' ≤ sz) : SizeOk v sz' :=
  h.imp (Nat.le_trans hle) fun ⟨hsmall, hlt, hall⟩ => ⟨hsmall, Nat.le_trans hle hlt, Nat.le_trans hle hall⟩

/-- Where entry `n` of `n + 1` entries is in its block. -/
theorem residue_entries {v : VDisk} (g : Geometry v) {n : Nat} (hlt : direntSize * (n + 1) < 4294967296) :
    residue (direntSize * (n + 1)) v.sb.blksizeShift = direntSize * (n % v.perBlock + 1) := by
  obtain ⟨hbs, hper⟩ := g.perBlock
  have hone : u32sub (direntSize * (n + 1)) 1 = 63 + direntSize * n := by
    rw [u32sub_of_le (Nat.mul_pos (by decide) (Nat.succ_pos n)), Nat.mul_succ, direntSize]
    omega
  have hdiv : (63 + direntSize * n) / v.blksize = n / v.perBlock := by
    rw [hbs, ← Nat.div_div_eq_div_mul, Nat.add_mul_div_left _ _ (by decide),
      Nat.div_eq_of_lt (show 63 < direntSize by decide), Nat.zero_add]
  have hblock : n / v.perBlock * v.blksize = direntSize * (v.perBlock * (n / v.perBlock)) := by
    rw [hbs, Nat.mul_left_comm, Nat.mul_comm (n / v.perBlock)]
  have hle : direntSize * (v.perBlock * (n / v.perBlock)) ≤ direntSize * (n + 1) :=
    Nat.mul_le_mul_left _ (Nat.le_succ_of_le (Nat.mul_div_le ..))
  rw [residue, hone, Nat.shiftRight_eq_div_pow, Nat.shiftLeft_eq, ← g.blksize, hdiv, hblock, u32,
    Nat.mod_eq_of_lt (Nat.lt_of_le_of_lt hle hlt), u32sub_of_le hle, ← Nat.mul_sub]
  congr 1
  have := Nat.div_add_mod n v.perBlock
  omega

section Entries

variable {v v' : VDisk} {d n e k : Nat} {cnt : Nat → Nat} {all : Set Nat} {free free' : List Nat}

theorem dirents_length (hn : v.filesize d = direntSize * n) : (v.dirents d).length = n := by
  rw [VDisk.dirents, List.length_map, List.length_range]
  change v.filesize d / direntSize = n
  rw [hn, Nat.mul_div_cancel_left _ (by decide)]

theorem dirents_eq (hn : v.filesize d = direntSize * n) : v.dirents d = (List.range n).map (v.direntAt d) := by
  rw [VDisk.dirents]
  change (List.range (v.filesize d / direntSize)).map _ = _
  rw [hn, Nat.mul_div_cancel_left _ (by decide)]

theorem getElem?_dirents (hn : v.filesize d = direntSize * n) : (v.dirents d)[k]? =
    if k < n then some (v.direntAt d k) else none := by
  rw [dirents_eq hn, List.getElem?_map]
  by_cases hk : k < n
  · rw [if_pos hk, List.getElem?_range hk, Option.map_some]
  · rw [if_neg hk, List.getElem?_eq_none (by rw [List.length_range]; exact Nat.not_lt.mp hk), Option.map_none]

theorem perBlock_congr (h : v'.blksize = v.blksize) : v'.perBlock = v.perBlock := by
  rw [VDisk.perBlock, h]
  rfl

variable (h : Stored cnt all d v free) (hn : v.filesize d = direntSize * n)
include h hn

/-- The block of an entry is in the directory. -/
theorem Stored.entry_block (he : e < n) : e / v.perBlock * v.blksize < v.filesize d := by
  rw [hn]
  exact block_lt h.owned.geometry he

theorem Resized.direntAt {n' : Nat} (r : Resized cnt all d (direntSize * n') v free v' free') (he : e < n) (he' : e < n') :
    v'.direntAt d e = v.direntAt d e := by
  have hblock := (r.fileBlock_old h (m := e / v.perBlock) (block_lt h.owned.geometry he') (h.entry_block hn he)).2
  rw [VDisk.direntAt, VDisk.direntAt, perBlock_congr r.blksize]
  change Entry.dirent (v'.io.blocks (v'.fileBlock d _)) _ = _
  rw [hblock]
  rfl

/-- A write that puts `x` at entry `k`. -/
theorem Stored.direntAt_setBlock {buf : Block} {x : Dirent} (hk : k < n)
    (hsame : Entry.dirent buf (k % v.perBlock) = x)
    (hother : ∀ j, j ≠ k % v.perBlock → Entry.dirent buf j = Entry.dirent (v.io.blocks (v.fileBlock d (k / v.perBlock))) j)
    (he : e < n) : (v.setBlock (v.fileBlock d (k / v.perBlock)) buf).direntAt d e =
      if e = k then x else v.direntAt d e := by
  have hm := h.entry_block hn hk
  have hm' := h.entry_block hn he
  have hblock := h.fileBlock_setBlock hm buf hm'
  rw [VDisk.direntAt, VDisk.direntAt]
  change Entry.dirent ((v.setBlock _ buf).io.blocks ((v.setBlock _ buf).fileBlock d (e / v.perBlock))) (e % v.perBlock) = _
  rw [hblock]
  by_cases hquot : e / v.perBlock = k / v.perBlock
  · rw [hquot, VDisk.setBlock_self]
    by_cases hek : e = k
    · rw [if_pos hek, hek, hsame]
    · have hmod : e % v.perBlock ≠ k % v.perBlock := fun hmod => hek (by
        have := Nat.div_add_mod e v.perBlock
        have := Nat.div_add_mod k v.perBlock
        rw [hquot, hmod] at *
        omega)
      rw [if_neg hek, hother _ hmod]
      rfl
  · have hek : e ≠ k := fun hek => hquot (hek ▸ rfl)
    rw [if_neg hek, VDisk.setBlock_other _ _ fun heq => hquot (h.block_inj hm' hm heq)]
    rfl

theorem Stored.direntAt_same (hs : SameData v v') (he : e < n) : v'.direntAt d e = v.direntAt d e := by
  rw [VDisk.direntAt, VDisk.direntAt, perBlock_congr hs.blksize]
  change Entry.dirent (v'.io.blocks (v'.fileBlock d _)) _ = _
  rw [h.data_same hs (h.entry_block hn he)]
  rfl

end Entries

theorem SameView.dirents {v v' : VDisk} (h : SameView v v') : v'.dirents = v.dirents := by
  have hper : v'.perBlock = v.perBlock := perBlock_congr (by rw [h.same])
  have hblocks : v'.io = v.io := by rw [h.same]
  funext i
  rw [VDisk.dirents, VDisk.dirents, h.inode]
  refine List.map_congr_left fun e _ => ?_
  rw [VDisk.direntAt, VDisk.direntAt, hper]
  change Entry.dirent (v'.io.blocks (v'.fileBlock i _)) _ = _
  rw [h.fileBlock, hblocks]
  rfl

/-- From `v` to `v'` directory `d` got the entries `es` and `l` links, and all else was let be. -/
structure Relisted (cnt : Nat → Nat) (all : Set Nat) (d : Nat) (es : List Dirent) (l : UInt16) (v v' : VDisk)
    (free' : List Nat) : Prop where
  stored : Stored (countsAt v cnt d (direntSize * es.length)) all d v' free'
  beside : Beside cnt d v v'
  filesize : v'.filesize d = direntSize * es.length
  dirents : v'.dirents d = es
  nlink : (v'.inode d).nlink = l
  inSlot : v.InSlot d → v'.InSlot d

section Add

variable {v v' : VDisk} {d t n : Nat} {cnt : Nat → Nat} {all : Set Nat} {free free' : List Nat} {es : List Dirent}
  {l : UInt16}

theorem countsAt_other {sz i : Nat} (hi : i ≠ d) : countsAt v cnt d sz i = cnt i := Function.update_of_ne hi ..

/-- The count of the links that an entry adds or takes. -/
theorem Relisted.relink (h : Relisted cnt all d es l v v' free') {g : Dinode → Dinode}
    (hg : ∀ x, ∃ l, g x = { x with nlink := l }) :
    Relisted cnt all d es (g (v'.inode d)).nlink v ((v'.setDinode d g).writtenBack d) free' := by
  obtain ⟨hbeside, hs, hown⟩ := h.stored.beside_nlink hg
  have hsize := (hs.filesize d (.inl h.stored.cached)).trans h.filesize
  have hdirents : ((v'.setDinode d g).writtenBack d).dirents d = v'.dirents d := by
    rw [dirents_eq hsize, dirents_eq h.filesize]
    exact List.map_congr_left fun e he => h.stored.direntAt_same h.filesize hs (List.mem_range.mp he)
  refine ⟨h.stored.same hs, h.beside.trans (fun i hi => countsAt_other hi) hbeside, hsize,
    hdirents.trans h.dirents, by rw [hown], fun _ => ?_⟩
  have hset := SameData.setDinode (g := g) (fun x => by obtain ⟨l, hl⟩ := hg x; rw [hl])
    (fun x => by obtain ⟨l, hl⟩ := hg x; rw [hl]) v' d
  have h₁ := h.stored.same hset
  rw [VDisk.InSlot, slot_writtenBack_same h₁.owned.geometry.table h₁.number, h₁.cached.din, hown,
    VDisk.inode_setDinode_same h.stored.cached]

/-- An expanded directory gets its new last entry. -/
theorem Resized.relisted (h : Stored cnt all d v free) (hn : v.filesize d = direntSize * n)
    (hnew : FileSize v (direntSize * (n + 1))) (r : Resized cnt all d (direntSize * (n + 1)) v free v' free')
    {buf : Block} {x : Dirent} (hsame : Entry.dirent buf (n % v.perBlock) = x) (hother : ∀ j, j ≠ n % v.perBlock →
      Entry.dirent buf j = Entry.dirent (v'.io.blocks (v'.fileBlock d (n / v.perBlock))) j) :
    Relisted cnt all d (v.dirents d ++ [x]) (v.inode d).nlink v (v'.setBlock (v'.fileBlock d (n / v.perBlock)) buf)
      free' := by
  have h' := r.stored h hnew
  have hsize : v'.filesize d = direntSize * (n + 1) := r.filesize_eq h hnew
  have hper : v'.perBlock = v.perBlock := perBlock_congr r.blksize
  have hm := h'.entry_block hsize (Nat.lt_succ_self n)
  rw [hper] at hm
  have hlen : (v.dirents d ++ [x]).length = n + 1 := by
    rw [List.length_append, dirents_length hn, List.length_singleton]
  have hset := h'.setBlock hm buf
  have hsize' := (h'.filesize_setBlock hm buf d).trans hsize
  have hentry {e : Nat} (he : e < n + 1) : (v'.setBlock (v'.fileBlock d (n / v.perBlock)) buf).direntAt d e =
      if e = n then x else v'.direntAt d e := by
    rw [← hper] at hsame hother ⊢
    exact h'.direntAt_setBlock hsize (Nat.lt_succ_self n) hsame hother he
  refine ⟨by rw [hlen]; exact hset, (r.beside h).trans (fun i hi => countsAt_other hi) (h'.beside_setBlock hm _),
    by rw [hlen]; exact hsize', ?_, ?_, fun hin => ?_⟩
  · refine List.ext_getElem? fun k => ?_
    rw [getElem?_dirents hsize', List.getElem?_append, dirents_length hn]
    by_cases hk : k < n
    · rw [if_pos (Nat.lt_succ_of_lt hk), if_pos hk, getElem?_dirents hn, if_pos hk, hentry (Nat.lt_succ_of_lt hk),
        if_neg (Nat.ne_of_lt hk), r.direntAt h hn hk (Nat.lt_succ_of_lt hk)]
    · by_cases heq : k = n
      · subst heq
        rw [if_pos (Nat.lt_succ_self k), if_neg hk, Nat.sub_self, hentry (Nat.lt_succ_self k), if_pos rfl]
        rfl
      · rw [if_neg (by omega), if_neg hk, List.getElem?_eq_none (by rw [List.length_singleton]; omega)]
  · obtain ⟨_, _, hown⟩ := r.own
    rw [h.cached.deref, Option.map_some] at hown
    rw [VDisk.inode_setBlock (h'.owned.data_of_mem (h'.block_mem hm)), VDisk.inode_some hown,
      VDisk.inode_some h.cached.deref]
  · refine h'.inSlot_setBlock hm _ ?_
    rcases r.synced with rfl | hsync
    · exact hin
    · exact hsync

theorem direntFilename_idem (name : List UInt8) : direntFilename (direntFilename name) = direntFilename name :=
  CString.read_chars_read ..

/-- What `ufs_directory_add_entry` does once it has the inode. -/
theorem addEntry_run (h : Stored cnt all d v free) (hn : v.filesize d = direntSize * n)
    (hnew : FileSize v (direntSize * (n + 1))) (ht : v.Cached t) {ino : Nat} (hino : ino < 4294967296)
    (filename : List UInt8) :
    (∃ v', (addEntry d t ino filename).run v = (.enospc, v') ∧
      free.length + (placesOf v.nidx (cnt d)).length < (placesOf v.nidx (ceil (direntSize * (n + 1)) v.blksize)).length ∧
      Exhausted cnt d v v') ∨
    ∃ v' free', (addEntry d t ino filename).run v = (.ok, v') ∧
      free.length + (placesOf v.nidx (cnt d)).length =
        free'.length + (placesOf v.nidx (ceil (direntSize * (n + 1)) v.blksize)).length ∧
      Relisted cnt all d (v.dirents d ++ [⟨ino, direntFilename filename⟩])
        (if (v.inode t).isdir then (v.inode d).nlink + 1 else (v.inode d).nlink) v v' free' := by
  rcases datablockExpand_spec h.owned h.numbers h.number h.cached h.count h.size hnew
    (show direntSize * (n + 1) = (v.inode d).filesize.toNat + direntSize by rw [Nat.mul_succ, ← hn]; rfl) with
    ⟨v', hrun, hshort, hfull⟩ | ⟨v₁, free', hrun, r⟩
  · refine .inl ⟨v', ?_, hshort, hfull⟩
    simp only [addEntry, Prog.run_bind, hrun, ne_eq, reduceCtorEq, not_false_eq_true, if_true, Prog.run_pure]
  right
  have h₁ := r.stored h hnew
  have hsize : v₁.filesize d = direntSize * (n + 1) := r.filesize_eq h hnew
  have hper : v₁.perBlock = v.perBlock := perBlock_congr r.blksize
  have hm := h₁.entry_block hsize (Nat.lt_succ_self n)
  have hlast : (datablockLast d (direntSize * (n + 1))).run v₁ = _ := h₁.last hm (hsize ▸ hm) (by
    obtain ⟨hbs, hpos⟩ := h₁.owned.geometry.perBlock
    rw [hbs, Nat.mul_left_comm]
    refine Nat.mul_le_mul_left _ ?_
    rw [Nat.mul_comm]
    exact Nat.lt_mul_div_succ n (by omega))
  have hresidue := residue_entries h₁.owned.geometry (n := n) hnew.lt
  have hindex : u32sub (residue (direntSize * (n + 1)) v₁.sb.blksizeShift / direntSize) 1 = n % v.perBlock := by
    rw [hresidue, Nat.mul_div_cancel_left _ (by decide), hper]
    exact u32sub_of_le (Nat.le_add_left 1 _)
  rw [hper] at hlast hm
  have hblk := h₁.block_pos hm
  simp only [addEntry, Prog.run_bind, hrun, ne_eq, not_true_eq_false, if_false, h₁.din, hsize, hlast, hblk,
    readBuf_live h₁.owned.live, hindex, vdiskWrite_live h₁.owned.live]
  have hentry : Entry.dirent (Entry.setName (Entry.setInodeNumber (v₁.io.blocks (v₁.fileBlock d (n / v.perBlock)))
      (n % v.perBlock) ino) (n % v.perBlock) filename) (n % v.perBlock) = ⟨ino, direntFilename filename⟩ :=
    Entry.dirent_add_same hino
  have hadded := r.relisted h hn hnew hentry fun j hj => Entry.dirent_add_other hj
  have hisdir : ∀ buf, ((v₁.setBlock (v₁.fileBlock d (n / v.perBlock)) buf).din t).isdir = (v.inode t).isdir := by
    intro buf
    have hdin : (v₁.setBlock (v₁.fileBlock d (n / v.perBlock)) buf).din t = v₁.din t := rfl
    rw [hdin, ← ht.din]
    by_cases htd : t = d
    · subst htd
      obtain ⟨_, _, hown⟩ := r.own
      rw [ht.deref, Option.map_some] at hown
      rw [VDisk.din, VDisk.deref_some hown]
      rfl
    · rw [VDisk.din, VDisk.deref, r.other t htd]
      rfl
  simp only [hisdir]
  by_cases hdir : (v.inode t).isdir = true
  · have hback := writeback_run (f := fun d => { d with nlink := d.nlink + 1 }) hadded.stored.owned hadded.stored.number
    simp only [hdir, if_true, modifyDinode, Prog.run_bind, hback, Prog.run_pure]
    refine ⟨_, free', rfl, r.length, ?_⟩
    have hrelink := hadded.relink (g := fun d => { d with nlink := d.nlink + 1 }) fun _ => ⟨_, rfl⟩
    rwa [hadded.nlink] at hrelink
  · simp only [hdir, Bool.false_eq_true, if_false, Prog.run_pure]
    exact ⟨_, free', rfl, r.length, hadded⟩

end Add

section Views

variable {v v' v'' : VDisk} {d n i : Nat} {cnt : Nat → Nat} {all : Set Nat} {inos free free' : List Nat} {es : List Dirent}
  {l : UInt16}

/-- An update of a directory that leaves the handles as they were. -/
theorem Relisted.tended (r : Relisted cnt all d es l v v' free') (hnum : InodeNumber v d) (ht : Tended v)
    (hheld : Held v [] v') : Tended v' where
  oneHandle := hheld.oneHandle
  room i := by
    rw [hheld.uses]
    exact ht.room i
  idle i hi huses := by
    have hi' : InodeNumber v i := hi.congr r.beside.blksize.symm (by
      obtain ⟨_, _, _, _, hsb⟩ := r.beside.sb
      exact ⟨_, _, _, _, by rw [hsb]⟩)
    rw [hheld.uses, List.count_nil, Nat.add_zero] at huses
    by_cases hid : i = d
    · rw [hid] at huses ⊢
      exact r.inSlot (ht.idle d hnum huses)
    · rw [VDisk.InSlot, r.beside.slot i hid hi', r.beside.inode i hid hi']
      exact ht.idle i hi' huses

theorem SameView.filesize (s : SameView v v') (i : Nat) : v'.filesize i = v.filesize i := by
  rw [VDisk.filesize, s.inode]
  rfl

theorem SameView.inSlot (s : SameView v v') : v'.InSlot i ↔ v.InSlot i := by
  rw [VDisk.InSlot, s.slot, s.inode]
  rfl

theorem SameView.number (s : SameView v v') : InodeNumber v' i ↔ InodeNumber v i := by
  rw [s.same]
  exact ⟨fun h => ⟨h.pos, h.slot⟩, fun h => ⟨h.pos, h.slot⟩⟩

theorem Stored.view (h : Stored cnt all d v free) (s : SameView v v') (hcached : v'.Cached d) :
    Stored cnt all d v' free where
  owned := by
    have hnidx : v'.nidx = v.nidx := by rw [s.same]; rfl
    rw [hnidx]
    exact (h.owned.setMinodes s.same fun _ _ => by rw [s.inode]).1
  numbers i hi := s.number.mpr (h.numbers i hi)
  number := s.number.mpr h.number
  cached := hcached
  count := by
    rw [s.filesize, h.count, s.same]
  size := by
    rw [s.filesize]
    exact ⟨h.size.lt, by rw [s.same]; exact h.size.addr⟩

theorem SameView.countsAt (s : SameView v v') (cnt : Nat → Nat) (d sz : Nat) : countsAt v' cnt d sz = countsAt v cnt d sz := by
  rw [s.same]
  rfl

/-- Handles that come or go before an update and after it do not show. -/
theorem Relisted.between (h : Relisted cnt all d es l v' v'' free') (s : SameView v v') {w : VDisk} (s' : SameView v'' w)
    (hcached : w.Cached d) : Relisted cnt all d es l v w free' where
  stored := by
    rw [← s.countsAt]
    exact h.stored.view s' hcached
  beside := (s.beside cnt d).trans (fun _ _ => rfl) (h.beside.trans (fun _ _ => rfl) (s'.beside cnt d))
  filesize := (s'.filesize d).trans h.filesize
  dirents := by rw [s'.dirents, h.dirents]
  nlink := by rw [s'.inode, h.nlink]
  inSlot hin := s'.inSlot.mpr (h.inSlot (s.inSlot.mpr hin))

theorem Relisted.wellFormed (hw : WellFormed v inos free) (hd : d ∈ inos) (hsize : SizeOk v (direntSize * es.length))
    {all : Set Nat} (h : Relisted (v.counts inos) all d es l v v' free') : WellFormed v' inos free' := by
  have hnidx : v'.nidx = v.nidx := by rw [VDisk.nidx, h.beside.blksize]; rfl
  have hinode (i : Nat) (hi : i ∈ inos) (hne : i ≠ d) : v'.inode i = v.inode i := h.beside.inode i hne (hw.number i hi)
  have hcounts : v'.counts inos = countsAt v (v.counts inos) d (direntSize * es.length) := by
    funext i
    by_cases hid : i = d
    · subst hid
      rw [VDisk.counts, if_pos hd, VDisk.blockCount, countsAt, Function.update_self, h.beside.blksize]
      change ceil (v'.filesize i) _ = _
      rw [h.filesize]
    · rw [countsAt_other hid, VDisk.counts, VDisk.counts]
      split
      · rename_i hi
        rw [VDisk.blockCount, hinode i hi hid, h.beside.blksize]
        rfl
      · rfl
  have howned := h.stored.owned
  rw [← hcounts] at howned
  refine (howned.wellFormed hw.distinct (fun i hi => (hw.number i hi).congr h.beside.blksize h.beside.sb) fun i hi => ?_).1
  by_cases hid : i = d
  · subst hid
    change SizeOk v' (v'.filesize i)
    rw [h.filesize]
    exact hsize.congr h.beside.blksize
  · rw [hinode i hi hid]
    exact (hw.size i hi).congr h.beside.blksize

end Views

section Scans

variable {κ : Type} {func : κ → Nat → Nat → Prog VDisk (Rc × κ)} {v v' : VDisk} {d n k : Nat} {cnt : Nat → Nat} {all : Set Nat}
  {free : List Nat} {ctx ctx' : κ} {ret : Rc} {P : Dirent → Prop} (h : Stored cnt all d v free)
  (hn : v.filesize d = direntSize * n) (hquiet : Steady func (· = v))
  (hskip : ∀ m, (∀ j, j < v.perBlock → m * v.perBlock + j < n → ¬ P (v.direntAt d (m * v.perBlock + j))) →
    m * v.blksize < v.filesize d →
    (func ctx (v.fileBlock d m) (min v.blksize (v.filesize d - m * v.blksize))).run v = ((.ok, ctx), v))
include h hn hquiet hskip

/-- A search that finds nothing. -/
theorem Stored.foreach_none (hpos : 0 < n) (hnone : ∀ e, e < n → ¬ P (v.direntAt d e)) :
    (datablockForeach func d ctx).run v = ((.iteratorEnd, ctx), v) := by
  have hbs := h.blksize_pos
  have hcount : 0 < cnt d := by
    rw [h.count]
    refine (lt_ceil hbs).mpr ?_
    rw [Nat.zero_mul, hn]
    exact Nat.mul_pos (by decide) hpos
  obtain ⟨m, hm⟩ := Nat.exists_eq_succ_of_ne_zero (Nat.ne_of_gt hcount)
  have hlt {i : Nat} (hi : i < cnt d) : i * v.blksize < v.filesize d := by
    rw [h.count] at hi
    exact (lt_ceil hbs).mp hi
  have hblock (i : Nat) (hi : i < cnt d) := hskip i (fun j _ hj => hnone _ hj) (hlt hi)
  exact foreach_visit h.owned h.count (h.count ▸ h.size.addr) rfl hquiet h.cached (m := m) (by omega)
    (fun i hi => hblock i (by omega)) (hblock m (by omega)) fun _ => hm.symm

theorem Stored.foreach_end (hnone : ∀ e, e < n → ¬ P (v.direntAt d e)) :
    (datablockForeach func d ctx).run v = ((.iteratorEnd, ctx), v) := by
  rcases Nat.eq_zero_or_pos n with rfl | hpos
  · have hzero : (v.din d).filesize.toNat = 0 := by rw [h.din, hn]; rfl
    simp only [datablockForeach, Prog.run_bind, hzero, if_true]
    rfl
  · exact h.foreach_none hn hquiet hskip hpos hnone

/-- A search that ends at entry `k`. -/
theorem Stored.foreach_first (hk : k < n) (hfirst : ∀ e, e < k → ¬ P (v.direntAt d e))
    (hvisit : (func ctx (v.fileBlock d (k / v.perBlock))
      (min v.blksize (v.filesize d - k / v.perBlock * v.blksize))).run v = ((ret, ctx'), v')) (hret : ret ≠ .ok) :
    (datablockForeach func d ctx).run v = ((ret, ctx'), v') := by
  have hbs := h.blksize_pos
  have hm : k / v.perBlock < cnt d := by
    rw [h.count]
    exact (lt_ceil hbs).mpr (h.entry_block hn hk)
  have hrun := foreach_visit h.owned h.count (h.count ▸ h.size.addr) rfl hquiet h.cached hm (fun i hi => ?_) hvisit
    fun hok => absurd hok hret
  · rwa [if_neg hret] at hrun
  · refine hskip i (fun j hj _ => hfirst _ ?_) ?_
    · have hle : (i + 1) * v.perBlock ≤ k / v.perBlock * v.perBlock := Nat.mul_le_mul_right _ hi
      have := Nat.div_mul_le_self k v.perBlock
      rw [Nat.succ_mul] at hle
      omega
    · have hi : i < cnt d := Nat.lt_trans hi hm
      rw [h.count] at hi
      exact (lt_ceil hbs).mp hi

end Scans

section Find

variable {v v' : VDisk} {d n k m : Nat} {cnt : Nat → Nat} {all : Set Nat} {free : List Nat} {P : Dirent → Prop}
  [DecidablePred P]

theorem direntAt_block {j : Nat} (hj : j < v.perBlock) (m : Nat) :
    Entry.dirent (v.io.blocks (v.fileBlock d m)) j = v.direntAt d (m * v.perBlock + j) := by
  have hpos : 0 < v.perBlock := Nat.lt_of_le_of_lt (Nat.zero_le j) hj
  rw [VDisk.direntAt, Nat.mul_comm m, Nat.mul_add_div hpos, Nat.div_eq_of_lt hj, Nat.add_zero, Nat.mul_add_mod,
    Nat.mod_eq_of_lt hj]
  rfl

variable (h : Stored cnt all d v free) (hn : v.filesize d = direntSize * n)
include h hn

theorem Stored.find_none (hnone : ∀ j, j < v.perBlock → m * v.perBlock + j < n → ¬ P (v.direntAt d (m * v.perBlock + j))) :
    (List.range' 0 (min v.blksize (v.filesize d - m * v.blksize) / direntSize)).find?
      (fun i => decide (P (Entry.dirent (v.io.blocks (v.fileBlock d m)) i))) = none := by
  rw [hn, entries_in h.owned.geometry]
  refine List.find?_eq_none.mpr fun j hj => ?_
  obtain ⟨_, hlt⟩ := List.mem_range'_1.mp hj
  rw [decide_eq_true_eq, direntAt_block (by omega)]
  exact hnone j (by omega) (by omega)

theorem Stored.find_first (hk : k < n) (hmatch : P (v.direntAt d k)) (hfirst : ∀ e, e < k → ¬ P (v.direntAt d e)) :
    (List.range' 0 (min v.blksize (v.filesize d - k / v.perBlock * v.blksize) / direntSize)).find?
      (fun i => decide (P (Entry.dirent (v.io.blocks (v.fileBlock d (k / v.perBlock))) i))) = some (k % v.perBlock) := by
  obtain ⟨-, hper⟩ := h.owned.geometry.perBlock
  have hsplit := Nat.div_add_mod' k v.perBlock
  have hmod : k % v.perBlock < v.perBlock := Nat.mod_lt _ (by omega)
  rw [hn, entries_in h.owned.geometry]
  refine List.find?_range'_eq_some.mpr ⟨?_, ?_, ?_⟩
  · rw [decide_eq_true_eq, direntAt_block hmod, hsplit]
    exact hmatch
  · rw [List.mem_range'_1]
    omega
  · intro j _ hj
    rw [Bool.not_eq_true', decide_eq_false_iff_not, direntAt_block (by omega)]
    exact hfirst _ (by omega)

end Find

end Ufs370
