import Ufs370.InodeLaws
import Ufs370.Lib.IndexForest

/-! Who owns which block: the places of the inodes, the free list, and the few blocks that
a function has in hand between the two. -/

namespace Ufs370

open Lib Lib.IndexForest Lib.IndexLayout

/-- An inode and a slot of its address list, and the indices to follow from there. -/
abbrev BlockPath := Path (Nat × Nat) Nat

namespace VDisk

/-- The address lists of all inodes and the links in the index blocks. -/
def forest (v : VDisk) : Forest (Nat × Nat) Nat Nat where
  root r := (v.inode r.1).addrAt r.2
  link := v.word

@[simp] theorem forest_setFree (v : VDisk) (n t : Nat) (f : Nat → Nat) :
    (v.setFree n f t).forest = v.forest := rfl

variable {v : VDisk} {b ino : Nat} {buf : Block} {D : Set BlockPath}

theorem inode_setBlock (hb : v.sb.datablockStartSector ≤ b) : (v.setBlock b buf).inode = v.inode := by
  funext ino
  simp only [inode, minode?_setBlock]
  cases v.minode? ino with
  | some m => rfl
  | none =>
    have hloc : inodeInquireDiskLocation (v.setBlock b buf) ino = inodeInquireDiskLocation v ino := rfl
    simp only [slot, hloc]
    split
    · rename_i hok
      have hlow : (inodeInquireDiskLocation v ino).2.1 < v.sb.datablockStartSector := by
        simp only [inodeInquireDiskLocation] at hok ⊢
        by_contra h
        simp [h] at hok
      rw [setBlock_other v buf (Nat.ne_of_lt (Nat.lt_of_lt_of_le hlow hb))]
    · rfl

theorem addrAt_setAddr_same {r : Nat} (h : v.Cached ino) (hr : r < 19) (hb : b < 4294967296) :
    ((v.setDinode ino fun d => d.setAddr r b).inode ino).addrAt r = b := by
  rw [inode_setDinode_same h]
  simp only [Dinode.addrAt, Dinode.setAddr, hr, dif_pos, if_true, UInt32.toNat_ofNat']
  exact Nat.mod_eq_of_lt hb

theorem addrAt_setAddr_other {r i r' : Nat} (v : VDisk) (b : Nat) (h : i = ino → r' ≠ r) :
    ((v.setDinode ino fun d => d.setAddr r b).inode i).addrAt r' = (v.inode i).addrAt r' := by
  by_cases hi : i = ino
  · subst hi
    cases hm : v.minode? i with
    | none =>
      have hm' : (v.setDinode i fun d => d.setAddr r b).minode? i = none := by
        rw [minode?_setDinode_same, hm, Option.map_none]
      rw [inode_none hm, inode_none hm']
      rfl
    | some m =>
      have hc : v.Cached i := by rw [Cached, hm]; rfl
      rw [inode_setDinode_same hc]
      simp only [Dinode.addrAt, Dinode.setAddr, h rfl, if_false]
  · rw [inode_setDinode_other hi]

theorem agree_setBlock (hb : v.sb.datablockStartSector ≤ b)
    (hword : ∀ r is i, (r, is ++ [i]) ∈ D → v.forest.node (r, is) = b → Bytes.word buf i = v.word b i) :
    Agree D v.forest (v.setBlock b buf).forest where
  root r _ := by simp only [forest, inode_setBlock hb]
  link r is i hp := by
    by_cases h : v.forest.node (r, is) = b
    · simp only [h]
      simp only [forest, word, setBlock_self]
      exact hword r is i hp h
    · change Bytes.word ((v.setBlock b buf).io.blocks _) i = Bytes.word (v.io.blocks _) i
      rw [setBlock_other v buf h]

end VDisk

/-- The blocks `all` are shared out between the paths of `D`, the blocks `hand` and the
free list. -/
structure Owned (v : VDisk) (D : Set BlockPath) (hand free : List Nat) (all : Set Nat) : Prop where
  geometry : Geometry v
  live : v.Live
  list : FreeList v free
  nodup : (hand ++ free).Nodup
  partition : Partition v.forest D {b | b ∈ hand ++ free} all
  sane : ∀ b ∈ all, datablockNumberSanity v b

/-- What functions on the blocks of inode `ino` leave alone: everything but the free list,
the address list of `ino` and its index blocks. -/
structure Frame (ino : Nat) (D : Set BlockPath) (hand : List Nat) (v v' : VDisk) : Prop where
  blksize : v'.blksize = v.blksize
  super : v'.super = v.super
  sb : ∃ n f t m, v'.sb = { v.sb with
    nfreeblock := n, freeblock := f, totalFreeblock := t, modified := m }
  minodes : ∃ f : Dinode → Dinode, (∀ d, ∃ a, f d = { d with addr := a }) ∧
    v'.minodes = (v.setDinode ino f).minodes
  node : ∀ p ∈ D, v'.forest.node p = v.forest.node p
  data : ∀ p ∈ D, (p.1.1 = ino → p.2.length = height naddrDirect p.1.2) →
    v'.io.blocks (v.forest.node p) = v.io.blocks (v.forest.node p)
  low : ∀ b, b < v.sb.datablockStartSector → v'.io.blocks b = v.io.blocks b
  hand : ∀ b ∈ hand, v'.io.blocks b = v.io.blocks b

theorem Geometry.congr {v v' : VDisk} (g : Geometry v) (hb : v'.blksize = v.blksize)
    (hsb : ∃ n f t m, v'.sb = { v.sb with
      nfreeblock := n, freeblock := f, totalFreeblock := t, modified := m }) : Geometry v' := by
  obtain ⟨n, f, t, m, hsb⟩ := hsb
  constructor <;> rw [hsb] <;> try rw [hb]
  exacts [g.blksize, g.low, g.high, g.ilist, g.data, g.order, g.ilistBytes, g.volume]

section Frame

variable {v v' v'' : VDisk} {ino : Nat} {D D' D'' : Set BlockPath} {hand hand' hand'' : List Nat}

theorem setDinode_minodes_id (v : VDisk) (ino : Nat) : (v.setDinode ino id).minodes = v.minodes := by
  simp [VDisk.setDinode, VDisk.setMinode]

theorem Frame.refl (ino : Nat) (D : Set BlockPath) (hand : List Nat) (v : VDisk) :
    Frame ino D hand v v where
  blksize := rfl
  super := rfl
  sb := ⟨_, _, _, _, rfl⟩
  minodes := ⟨id, fun d => ⟨d.addr, rfl⟩, (setDinode_minodes_id v ino).symm⟩
  node _ _ := rfl
  data _ _ _ := rfl
  low _ _ := rfl
  hand _ _ := rfl

theorem Frame.trans (h : Frame ino D hand v v') (h' : Frame ino D' hand' v' v'')
    (hD : D'' ⊆ D) (hD' : D'' ⊆ D') (hh : hand'' ⊆ hand) (hh' : hand'' ⊆ hand') :
    Frame ino D'' hand'' v v'' where
  blksize := h'.blksize.trans h.blksize
  super := h'.super.trans h.super
  sb := by
    obtain ⟨_, _, _, _, hsb⟩ := h.sb
    obtain ⟨n, f, t, m, hsb'⟩ := h'.sb
    exact ⟨n, f, t, m, by rw [hsb', hsb]⟩
  minodes := by
    obtain ⟨f, hf, hm⟩ := h.minodes
    obtain ⟨f', hf', hm'⟩ := h'.minodes
    refine ⟨f' ∘ f, fun d => ?_, ?_⟩
    · obtain ⟨a, ha⟩ := hf d
      obtain ⟨a', ha'⟩ := hf' (f d)
      exact ⟨a', by rw [Function.comp_apply, ha', ha]⟩
    · rw [hm']
      simp only [VDisk.setDinode, VDisk.setMinode] at hm ⊢
      rw [hm, List.map_map]
      congr 1
      funext m
      by_cases hi : m.inodeNumber = ino <;> simp [hi]
  node p hp := (h'.node p (hD' hp)).trans (h.node p (hD hp))
  data p hp hfull := by
    have h2 := h'.data p (hD' hp) hfull
    rw [h.node p (hD hp)] at h2
    exact h2.trans (h.data p (hD hp) hfull)
  low b hb := by
    obtain ⟨_, _, _, _, hsb⟩ := h.sb
    exact (h'.low b (by rw [hsb]; exact hb)).trans (h.low b hb)
  hand b hb := (h'.hand b (hh' hb)).trans (h.hand b (hh hb))

theorem Frame.minode?_other (h : Frame ino D hand v v') {i : Nat} (hi : i ≠ ino) :
    v'.minode? i = v.minode? i := by
  obtain ⟨f, _, hm⟩ := h.minodes
  rw [← VDisk.minode?_setDinode_other v ino f hi]
  simp only [VDisk.minode?, hm]

theorem Frame.minode?_own (h : Frame ino D hand v v') :
    ∃ f : Dinode → Dinode, (∀ d, ∃ a, f d = { d with addr := a }) ∧
      v'.minode? ino = (v.minode? ino).map fun m => { m with dinode := f m.dinode } := by
  obtain ⟨f, hf, hm⟩ := h.minodes
  refine ⟨f, hf, ?_⟩
  rw [← VDisk.minode?_setDinode_same]
  simp only [VDisk.minode?, hm]

theorem Frame.cached (h : Frame ino D hand v v') (i : Nat) : v'.Cached i ↔ v.Cached i := by
  by_cases hi : i = ino
  · subst hi
    obtain ⟨f, _, hm⟩ := h.minode?_own
    rw [VDisk.Cached, hm, Option.isSome_map]
    rfl
  · rw [VDisk.Cached, h.minode?_other hi]
    rfl

end Frame

section Steps

variable {v : VDisk} {D : Set BlockPath} {hand free : List Nat} {all : Set Nat} {b ino : Nat}

theorem Frame.setBlock (hb : v.sb.datablockStartSector ≤ b) (buf : Block)
    (hnode : ∀ p ∈ D, (v.setBlock b buf).forest.node p = v.forest.node p)
    (hdata : ∀ p ∈ D, (p.1.1 = ino → p.2.length = height naddrDirect p.1.2) → v.forest.node p ≠ b)
    (hhand : b ∉ hand) : Frame ino D hand v (v.setBlock b buf) where
  blksize := rfl
  super := rfl
  sb := ⟨_, _, _, _, rfl⟩
  minodes := ⟨id, fun d => ⟨d.addr, rfl⟩, (setDinode_minodes_id v ino).symm⟩
  node := hnode
  data p hp hfull := VDisk.setBlock_other v buf (hdata p hp hfull)
  low _ hc := VDisk.setBlock_other v buf (Nat.ne_of_lt (Nat.lt_of_lt_of_le hc hb))
  hand _ hc := VDisk.setBlock_other v buf (ne_of_mem_of_not_mem hc hhand)

theorem Frame.setFree (n t : Nat) (f : Nat → Nat) : Frame ino D hand v (v.setFree n f t) where
  blksize := rfl
  super := rfl
  sb := ⟨_, _, _, _, rfl⟩
  minodes := ⟨id, fun d => ⟨d.addr, rfl⟩, (setDinode_minodes_id v ino).symm⟩
  node _ _ := rfl
  data _ _ _ := rfl
  low _ _ := rfl
  hand _ _ := rfl

theorem Frame.setAddr (r b : Nat)
    (hnode : ∀ p ∈ D, (v.setDinode ino fun d => d.setAddr r b).forest.node p =
      v.forest.node p) :
    Frame ino D hand v (v.setDinode ino fun d => d.setAddr r b) where
  blksize := rfl
  super := rfl
  sb := ⟨_, _, _, _, rfl⟩
  minodes := ⟨fun d => d.setAddr r b, fun _ => ⟨_, rfl⟩, rfl⟩
  node := hnode
  data _ _ _ := rfl
  low _ _ := rfl
  hand _ _ := rfl

namespace Owned

theorem data_of_mem (h : Owned v D hand free all) (hb : b ∈ all) : v.sb.datablockStartSector ≤ b := by
  have := h.sane b hb
  simp only [datablockNumberSanity, decide_eq_true_eq] at this
  exact this.1

theorem pos_of_mem (h : Owned v D hand free all) (hb : b ∈ all) : 0 < b :=
  Nat.lt_of_lt_of_le (Nat.lt_of_le_of_lt (Nat.zero_le _) h.geometry.data) (h.data_of_mem hb)

theorem lt_of_mem (h : Owned v D hand free all) (hb : b ∈ all) : b < 4294967296 :=
  Nat.lt_trans (lt_volumeSize (h.sane b hb)) h.geometry.volume

theorem reserve (h : Owned v D hand free all) (hb : b ∈ hand ++ free) : b ∈ all :=
  h.partition.reserve_subset hb

theorem node_ne (h : Owned v D hand free all) (hb : b ∈ hand ++ free) {p : BlockPath} (hp : p ∈ D) :
    v.forest.node p ≠ b := fun heq => h.partition.apart p hp (heq ▸ hb)

/-- A change to the contents of a block that no path leads to. -/
theorem agree_reserve (h : Owned v D hand free all) (hb : b ∈ hand ++ free) (buf : Block) :
    Agree D v.forest (v.setBlock b buf).forest :=
  VDisk.agree_setBlock (h.data_of_mem (h.reserve hb)) fun r is i hp heq =>
    absurd heq (h.node_ne hb (h.partition.closed r is i hp))

theorem frame_reserve (h : Owned v D hand free all) (ino : Nat) (hb : b ∈ hand ++ free)
    (buf : Block) {hand' : List Nat} (hhand : b ∉ hand') : Frame ino D hand' v (v.setBlock b buf) :=
  .setBlock (h.data_of_mem (h.reserve hb)) buf
    (fun _ hp => (h.agree_reserve hb buf).node h.partition.closed hp)
    (fun _ hp _ => h.node_ne hb hp) hhand

/-- The same blocks on another list, after a change that no path notices. -/
theorem relist {v' : VDisk} {hand' free' : List Nat} (h : Owned v D hand free all)
    (hg : Geometry v') (hlive : v'.Live) (hlist : FreeList v' free')
    (hperm : (hand' ++ free').Perm (hand ++ free)) (hF : Agree D v.forest v'.forest)
    (hsane : ∀ b, datablockNumberSanity v' b = datablockNumberSanity v b) :
    Owned v' D hand' free' all where
  geometry := hg
  live := hlive
  list := hlist
  nodup := hperm.nodup_iff.mpr h.nodup
  partition := by
    have hset : {b | b ∈ hand' ++ free'} = {b | b ∈ hand ++ free} := Set.ext fun _ => hperm.mem_iff
    rw [hset]
    exact h.partition.agree hF
  sane b hb := by rw [hsane]; exact h.sane b hb

/-- The same blocks without some of the paths. -/
theorem restrict {D' : Set BlockPath} (h : Owned v D hand free all) (hD : D' ⊆ D)
    (hclosed : Closed D') : Owned v D' hand free (v.forest.node '' D' ∪ {b | b ∈ hand ++ free}) where
  geometry := h.geometry
  live := h.live
  list := h.list
  nodup := h.nodup
  partition := ⟨hclosed, h.partition.inj.mono hD, fun p hp => h.partition.apart p (hD hp), rfl⟩
  sane b hb := by
    refine h.sane b (h.partition.cover ▸ ?_)
    exact Set.union_subset_union_left _ (Set.image_mono hD) hb

theorem setBlock (h : Owned v D hand free all) (hb : b ∈ hand) (buf : Block) :
    Owned (v.setBlock b buf) D hand free all :=
  h.relist (h.geometry.congr rfl ⟨_, _, _, _, rfl⟩) (h.live.setBlock ..)
    (h.list.setBlock (fun hf => (List.nodup_append'.mp h.nodup).2.2 hb hf) buf) (.refl _)
    (h.agree_reserve (List.mem_append_left free hb) buf) fun _ => rfl

theorem allocate_nil (h : Owned v D hand [] all) : datablockAllocate.run v = ((.enospc, 0), v) :=
  datablockAllocate_nil h.list

/-- Allocation takes a block in hand, cleared. -/
theorem allocate_cons (h : Owned v D hand (b :: free) all) (ino : Nat) :
    ∃ v', datablockAllocate.run v = ((.ok, b), v') ∧ Owned v' D (b :: hand) free all ∧
      Frame ino D hand v v' ∧ v'.io.blocks b = zeroBlock ∧ v'.minodes = v.minodes := by
  obtain ⟨n, f, hrun, hlist⟩ := datablockAllocate_cons h.live h.list
  have hb : b ∈ hand ++ b :: free := List.mem_append_right _ (List.mem_cons_self ..)
  have hhand : b ∉ hand := fun hmem =>
    (List.nodup_append'.mp h.nodup).2.2 hmem (List.mem_cons_self ..)
  refine ⟨_, hrun, ?_, ?_, VDisk.setBlock_self .., rfl⟩
  · exact h.relist (h.geometry.congr rfl ⟨_, _, _, _, rfl⟩)
      ((h.live.setFree ..).setBlock ..) hlist List.perm_middle.symm (h.agree_reserve hb _) fun _ => rfl
  · exact Frame.trans (h.frame_reserve ino hb zeroBlock hhand) (.setFree n free.length f)
      (Set.Subset.refl _) (Set.Subset.refl _) (List.Subset.refl _) (List.Subset.refl _)

/-- A block in hand goes back; if the list is empty, it has to end the chain. -/
theorem deallocate (h : Owned v D (b :: hand) free all) (hfirst : free ≠ [] ∨ v.word b 0 = 0)
    (ino : Nat) :
    ∃ v', (datablockDeallocate b).run v = (.ok, v') ∧ Owned v' D hand (b :: free) all ∧
      Frame ino D hand v v' ∧ v'.minodes = v.minodes := by
  have hb : b ∈ b :: hand ++ free := List.mem_cons_self ..
  obtain ⟨hnb, _⟩ := List.nodup_cons.mp h.nodup
  have hbfree : b ∉ free := fun hmem => hnb (List.mem_append_right _ hmem)
  have hbhand : b ∉ hand := fun hmem => hnb (List.mem_append_left _ hmem)
  obtain ⟨n, f, buf, hrun, hlist⟩ :=
    datablockDeallocate_spec h.live h.list hbfree (h.sane b (h.reserve hb)) hfirst
  refine ⟨_, hrun, ?_, ?_, rfl⟩
  · exact h.relist (h.geometry.congr rfl ⟨_, _, _, _, rfl⟩)
      ((h.live.setFree ..).setBlock ..) hlist List.perm_middle (h.agree_reserve hb _) fun _ => rfl
  · exact Frame.trans (h.frame_reserve ino hb buf hbhand) (.setFree n (free.length + 1) f)
      (Set.Subset.refl _) (Set.Subset.refl _) (List.Subset.refl _) (List.Subset.refl _)

theorem reserve_erase (hb : b ∉ hand ++ free) :
    {c | c ∈ b :: hand ++ free} \ {b} = {c | c ∈ hand ++ free} := by
  ext c
  simp only [Set.mem_sdiff, Set.mem_ofPred_eq, List.cons_append, List.mem_cons, Set.mem_singleton_iff]
  constructor
  · rintro ⟨rfl | hc, hne⟩
    · exact absurd rfl hne
    · exact hc
  · exact fun hc => ⟨.inr hc, fun heq => hb (heq ▸ hc)⟩

/-- A block in hand becomes the root block of a slot. -/
theorem setRoot {ino r : Nat} (h : Owned v D (b :: hand) free all) (hcached : v.Cached ino)
    (hr : r < 19) (hq : ((ino, r), []) ∉ D) :
    Owned (v.setDinode ino fun d => d.setAddr r b)
        (insert ((ino, r), []) D) hand free all ∧
      Frame ino D hand v (v.setDinode ino fun d => d.setAddr r b) := by
  have hb : b ∈ b :: hand ++ free := List.mem_cons_self ..
  obtain ⟨hnb, hnodup⟩ := List.nodup_cons.mp h.nodup
  have hF : Agree D v.forest
      (v.setDinode ino fun d => d.setAddr r b).forest := by
    refine ⟨fun ⟨i, r'⟩ hp => ?_, fun _ _ _ _ => rfl⟩
    by_cases hir : i = ino ∧ r' = r
    · obtain ⟨rfl, rfl⟩ := hir
      exact absurd hp hq
    · exact VDisk.addrAt_setAddr_other v b (by tauto)
  refine ⟨⟨h.geometry.congr rfl ⟨_, _, _, _, rfl⟩, ⟨h.live.faults, h.live.writable⟩,
    h.list.congr rfl rfl, hnodup, ?_, h.sane⟩, ?_⟩
  · rw [← reserve_erase hnb]
    exact h.partition.attach hF hq (h.partition.closed.insert_root _) hb
      (VDisk.addrAt_setAddr_same hcached hr (h.lt_of_mem (h.reserve hb)))
  · exact .setAddr r b fun p hp => hF.node h.partition.closed hp

section Link

variable {r : Nat × Nat} {is : List Nat} {i : Nat}

theorem node_inj (h : Owned v D hand free all) {p q : BlockPath} (hp : p ∈ D) (hq : q ∈ D)
    (heq : v.forest.node p = v.forest.node q) : p = q := h.partition.inj hp hq heq

theorem node_mem (h : Owned v D hand free all) {p : BlockPath} (hp : p ∈ D) : v.forest.node p ∈ all :=
  h.partition.mem_all hp

/-- A write to one word of an index block, for the paths that do not use that word. -/
theorem agree_word (h : Owned v D hand free all) (hp : (r, is) ∈ D) {D' : Set BlockPath} (hD : D' ⊆ D)
    (hclosed : Closed D') (hq : (r, is ++ [i]) ∉ D') (w : Nat) :
    Agree D' v.forest (v.setBlock (v.forest.node (r, is))
      (Bytes.setWord (v.io.blocks (v.forest.node (r, is))) i w)).forest := by
  refine VDisk.agree_setBlock (h.data_of_mem (h.node_mem hp)) fun r' is' i' hp' heq => ?_
  obtain ⟨rfl, rfl⟩ := Prod.mk.inj (h.node_inj (hD (hclosed r' is' i' hp')) hp heq)
  have hne : i' ≠ i := by
    rintro rfl
    exact hq hp'
  exact Bytes.word_setWord_ne _ w hne

theorem frame_word (h : Owned v D hand free all) (hp : (r, is) ∈ D) {D' : Set BlockPath} (hD : D' ⊆ D)
    (hclosed : Closed D') (hq : (r, is ++ [i]) ∉ D') (hidx : is.length < height naddrDirect r.2)
    (w : Nat) {hand' : List Nat} (hhand : hand' ⊆ hand ++ free) :
    Frame r.1 D' hand' v (v.setBlock (v.forest.node (r, is))
      (Bytes.setWord (v.io.blocks (v.forest.node (r, is))) i w)) := by
  refine .setBlock (h.data_of_mem (h.node_mem hp)) _
    (fun _ hp' => (h.agree_word hp hD hclosed hq w).node hclosed hp') (fun p hp' hfull heq => ?_)
    fun hmem => h.partition.apart _ hp (hhand hmem)
  obtain rfl := h.node_inj (hD hp') hp heq
  exact Nat.ne_of_lt hidx (hfull rfl)

/-- A block in hand becomes entry `i` of an index block. -/
theorem setLink (h : Owned v D (b :: hand) free all) (hp : (r, is) ∈ D) (hq : (r, is ++ [i]) ∉ D)
    (hidx : is.length < height naddrDirect r.2) :
    Owned (v.setBlock (v.forest.node (r, is))
        (Bytes.setWord (v.io.blocks (v.forest.node (r, is))) i b))
        (insert (r, is ++ [i]) D) hand free all ∧
      Frame r.1 D hand v (v.setBlock (v.forest.node (r, is))
        (Bytes.setWord (v.io.blocks (v.forest.node (r, is))) i b)) := by
  have hb : b ∈ b :: hand ++ free := List.mem_cons_self ..
  have hF := h.agree_word hp (Set.Subset.refl D) h.partition.closed hq b
  obtain ⟨hnb, hnodup⟩ := List.nodup_cons.mp h.nodup
  have hfree : v.forest.node (r, is) ∉ free := fun hmem =>
    h.partition.apart _ hp (List.mem_append_right _ hmem)
  refine ⟨⟨h.geometry.congr rfl ⟨_, _, _, _, rfl⟩, h.live.setBlock .., h.list.setBlock hfree _, hnodup,
    ?_, h.sane⟩, ?_⟩
  · rw [← reserve_erase hnb]
    refine h.partition.attach hF hq (h.partition.closed.insert_child hp i) hb ?_
    rw [Forest.node_snoc, hF.node h.partition.closed hp]
    change Bytes.word ((v.setBlock _ _).io.blocks _) i = b
    rw [VDisk.setBlock_self, Bytes.word_setWord_same]
    exact Nat.mod_eq_of_lt (h.lt_of_mem (h.reserve hb))
  · exact h.frame_word hp (Set.Subset.refl D) h.partition.closed hq hidx b
      fun c hc => List.mem_append_left _ (List.mem_cons_of_mem _ hc)

/-- The node at the end of a path of an index block is taken in hand. -/
theorem clearLink (h : Owned v D hand free all) (hq : (r, is ++ [i]) ∈ D)
    (hleaf : ∀ j, (r, is ++ [i] ++ [j]) ∉ D) (hidx : is.length < height naddrDirect r.2) :
    Owned (v.setBlock (v.forest.node (r, is))
        (Bytes.setWord (v.io.blocks (v.forest.node (r, is))) i 0))
        (D \ {(r, is ++ [i])}) (v.forest.node (r, is ++ [i]) :: hand) free all ∧
      Frame r.1 (D \ {(r, is ++ [i])}) hand v (v.setBlock (v.forest.node (r, is))
        (Bytes.setWord (v.io.blocks (v.forest.node (r, is))) i 0)) := by
  have hp := h.partition.closed r is i hq
  have hclosed : Closed (D \ {(r, is ++ [i])}) := by
    rintro r' is' i' ⟨hmem, hne⟩
    refine ⟨h.partition.closed r' is' i' hmem, fun heq => ?_⟩
    obtain ⟨rfl, rfl⟩ := Prod.mk.inj heq
    exact hleaf i' hmem
  have hnot : (r, is ++ [i]) ∉ D \ {(r, is ++ [i])} := fun hmem => hmem.2 rfl
  have hF := h.agree_word hp Set.sdiff_subset hclosed hnot 0
  have hfree : v.forest.node (r, is) ∉ free := fun hmem =>
    h.partition.apart _ hp (List.mem_append_right _ hmem)
  have hnodup : (v.forest.node (r, is ++ [i]) :: hand ++ free).Nodup :=
    List.nodup_cons.mpr ⟨h.partition.apart _ hq, h.nodup⟩
  refine ⟨⟨h.geometry.congr rfl ⟨_, _, _, _, rfl⟩, h.live.setBlock .., h.list.setBlock hfree _, hnodup,
    ?_, h.sane⟩, ?_⟩
  · refine h.partition.detach Set.sdiff_subset hclosed hF ?_
    have hdiff : D \ (D \ {(r, is ++ [i])}) = {(r, is ++ [i])} := by
      rw [Set.sdiff_sdiff_right_self]
      exact Set.inter_eq_right.mpr (Set.singleton_subset_iff.mpr hq)
    rw [hdiff, Set.image_singleton]
    ext c
    simp only [Set.mem_ofPred_eq, List.cons_append, List.mem_cons, Set.mem_union,
      Set.mem_singleton_iff]
    tauto
  · exact h.frame_word hp Set.sdiff_subset hclosed hnot hidx 0 fun c hc => List.mem_append_left _ hc

theorem link (h : Owned v D hand free all) (hq : (r, is ++ [i]) ∈ D) :
    (datablockLink (v.forest.node (r, is)) i).run v = (v.forest.node (r, is ++ [i]), v) := by
  have hp := h.sane _ (h.node_mem (h.partition.closed r is i hq))
  have hq' := h.sane _ (h.node_mem hq)
  rw [Forest.node_snoc] at hq' ⊢
  change datablockNumberSanity v (v.word (v.forest.node (r, is)) i) = true at hq'
  simp only [VDisk.word] at hq'
  simp only [datablockLink, Prog.run_bind, hp, Bool.not_true, Bool.false_eq_true, if_false,
    readBuf_live h.live, hq', if_true, Prog.run_pure]
  rfl

theorem addLeaf_nil (h : Owned v D hand [] all) (up i : Nat) :
    (datablockAddLeaf up i).run v = (0, v) := by
  simp only [datablockAddLeaf, Prog.run_bind, Prog.run_ite, h.allocate_nil, ne_eq, reduceCtorEq,
    not_false_eq_true, if_true, Prog.run_pure, ite_self]

/-- A new entry of an index block is a cleared block from the free list. -/
theorem addLeaf_cons (h : Owned v D hand (b :: free) all) (hp : (r, is) ∈ D)
    (hq : (r, is ++ [i]) ∉ D) (hidx : is.length < height naddrDirect r.2) :
    ∃ v', (datablockAddLeaf (v.forest.node (r, is)) i).run v = (b, v') ∧
      Owned v' (insert (r, is ++ [i]) D) hand free all ∧ Frame r.1 D hand v v' ∧
      v'.io.blocks b = zeroBlock ∧ v'.forest.node (r, is ++ [i]) = b := by
  obtain ⟨v₁, hrun, h₁, hframe₁, hzero, _⟩ := h.allocate_cons r.1
  have hnode : v₁.forest.node (r, is) = v.forest.node (r, is) := hframe₁.node _ hp
  obtain ⟨h₂, hframe₂⟩ := h₁.setLink hp hq hidx
  rw [hnode] at h₂ hframe₂
  have hup := h.sane _ (h.node_mem hp)
  have hpos : v.forest.node (r, is) ≠ 0 := Nat.ne_of_gt (h.pos_of_mem (h.node_mem hp))
  have hne : b ≠ v.forest.node (r, is) := Ne.symm
    (h.node_ne (List.mem_append_right _ (List.mem_cons_self ..)) hp)
  refine ⟨_, ?_, h₂, hframe₁.trans hframe₂ (Set.Subset.refl _) (Set.Subset.refl _)
    (List.Subset.refl _) (List.Subset.refl _), ?_, ?_⟩
  · simp only [datablockAddLeaf, Prog.run_bind, hpos, hup, Bool.not_true,
      Bool.false_eq_true, if_false, hrun, ne_eq, not_true_eq_false, readBuf_live h₁.live,
      vdiskWrite_live h₁.live, Prog.run_pure, if_true]
  · rw [VDisk.setBlock_other _ _ hne, hzero]
  · rw [Forest.node_snoc, hframe₂.node _ hp, hnode]
    change Bytes.word ((v₁.setBlock _ _).io.blocks _) i = b
    rw [VDisk.setBlock_self, Bytes.word_setWord_same]
    exact Nat.mod_eq_of_lt (h.lt_of_mem (h.reserve (List.mem_append_right _ (List.mem_cons_self ..))))

theorem unlink_live (hv : v.Live) (idxblk n : Nat) : (datablockUnlink idxblk n).run v =
    (v.word idxblk n, v.setBlock idxblk (Bytes.setWord (v.io.blocks idxblk) n 0)) := by
  simp only [datablockUnlink, Prog.run_bind, readBuf_live hv, vdiskWrite_live hv, if_true,
    Prog.run_pure]
  rfl

/-- An entry of an index block goes to the free list. -/
theorem removeLeaf (h : Owned v D hand free all)
    (hfirst : free ≠ [] ∨ v.word (v.forest.node (r, is ++ [i])) 0 = 0) (hq : (r, is ++ [i]) ∈ D)
    (hleaf : ∀ j, (r, is ++ [i] ++ [j]) ∉ D) (hidx : is.length < height naddrDirect r.2) :
    ∃ v', (datablockRemoveLeaf (v.forest.node (r, is)) i).run v =
        (v.forest.node (r, is ++ [i]), v') ∧
      Owned v' (D \ {(r, is ++ [i])}) hand (v.forest.node (r, is ++ [i]) :: free) all ∧
      Frame r.1 (D \ {(r, is ++ [i])}) hand v v' := by
  have hup := h.sane _ (h.node_mem (h.partition.closed r is i hq))
  obtain ⟨h₁, hframe₁⟩ := h.clearLink hq hleaf hidx
  have hne : v.forest.node (r, is ++ [i]) ≠ v.forest.node (r, is) := fun heq =>
    List.cons_ne_nil i [] (List.append_right_eq_self.mp
      (Prod.mk.inj (h.node_inj hq (h.partition.closed r is i hq) heq)).2)
  obtain ⟨v', hrun, h₂, hframe₂, _⟩ := h₁.deallocate (hfirst.imp_right fun hword => by
    rw [VDisk.word, VDisk.setBlock_other _ _ hne]
    exact hword) r.1
  refine ⟨v', ?_, h₂, hframe₁.trans hframe₂ (Set.Subset.refl _) (Set.Subset.refl _)
    (List.Subset.refl _) (List.Subset.refl _)⟩
  have hword : v.word (v.forest.node (r, is)) i = v.forest.node (r, is ++ [i]) := by
    rw [Forest.node_snoc]
    rfl
  simp only [datablockRemoveLeaf, Prog.run_bind, hup, Bool.not_true, Bool.false_eq_true, if_false,
    unlink_live h.live, hword, hrun, Prog.run_pure]

end Link

/-- An index block in hand goes to the free list, and its first entry is handed on. -/
theorem removeSelf {up : Nat} (h : Owned v D (up :: hand) free all) (ino : Nat) :
    ∃ v', (datablockRemoveSelf up).run v = (v.word up 0, v') ∧ Owned v' D hand (up :: free) all ∧
      Frame ino D hand v v' ∧ v'.minodes = v.minodes := by
  have hb : up ∈ up :: hand ++ free := List.mem_cons_self ..
  have hhand : up ∉ hand := fun hmem =>
    (List.nodup_cons.mp h.nodup).1 (List.mem_append_left _ hmem)
  have h₁ := h.setBlock (List.mem_cons_self ..) (Bytes.setWord (v.io.blocks up) 0 0)
  have hframe₁ := h.frame_reserve ino hb (Bytes.setWord (v.io.blocks up) 0 0) hhand
  have hword : (v.setBlock up (Bytes.setWord (v.io.blocks up) 0 0)).word up 0 = 0 := by
    rw [VDisk.word, VDisk.setBlock_self]
    exact Bytes.word_setWord_same ..
  obtain ⟨v', hrun, h₂, hframe₂, hm⟩ := h₁.deallocate (.inr hword) ino
  refine ⟨v', ?_, h₂, hframe₁.trans hframe₂ (Set.Subset.refl _) (Set.Subset.refl _)
    (List.Subset.refl _) (List.Subset.refl _), hm⟩
  simp only [datablockRemoveSelf, Prog.run_bind, h.sane up (h.reserve hb), Bool.not_true,
    Bool.false_eq_true, if_false, unlink_live h.live, hrun, Prog.run_pure]

/-- A whole tree of an inode is taken in hand. -/
theorem release {r : Nat × Nat} (h : Owned v D hand free all) {S : List BlockPath} (hS : S.Nodup)
    (hmem : ∀ p, p ∈ S ↔ p ∈ D ∧ p.1 = r) :
    Owned v (D \ {p | p ∈ S}) (S.map v.forest.node ++ hand) free all := by
  have hclosed : Closed (D \ {p | p ∈ S}) := by
    rintro r' is i ⟨hp, hne⟩
    exact ⟨h.partition.closed r' is i hp, fun hS => hne ((hmem _).mpr ⟨hp, ((hmem _).mp hS).2⟩)⟩
  have hSD : ∀ p ∈ S, p ∈ D := fun p hp => ((hmem p).mp hp).1
  have hnodup : (S.map v.forest.node ++ hand ++ free).Nodup := by
    rw [List.append_assoc]
    refine List.nodup_append'.mpr ⟨?_, h.nodup, ?_⟩
    · exact hS.map_on fun p hp q hq heq => h.node_inj (hSD p hp) (hSD q hq) heq
    · intro c hc hc'
      obtain ⟨p, hp, rfl⟩ := List.mem_map.mp hc
      exact h.partition.apart p (hSD p hp) hc'
  refine ⟨h.geometry, h.live, h.list, hnodup, ?_, h.sane⟩
  refine h.partition.detach Set.sdiff_subset hclosed ⟨fun _ _ => rfl, fun _ _ _ _ => rfl⟩ ?_
  have hdiff : D \ (D \ {p | p ∈ S}) = {p | p ∈ S} := by
    rw [Set.sdiff_sdiff_right_self]
    exact Set.inter_eq_right.mpr hSD
  rw [hdiff]
  ext c
  simp only [Set.mem_ofPred_eq, List.mem_append, List.mem_map, Set.mem_union, Set.mem_image]
  rw [or_assoc, or_comm]

/-- The slot of a tree that was taken in hand is cleared. -/
theorem clearRoot (h : Owned v D hand free all) (ino r : Nat) (hr : ∀ is, ((ino, r), is) ∉ D) :
    Owned (v.setDinode ino fun d => d.setAddr r 0) D hand free all ∧
      Frame ino D hand v (v.setDinode ino fun d => d.setAddr r 0) := by
  have hF : Agree D v.forest (v.setDinode ino fun d => d.setAddr r 0).forest := by
    refine ⟨fun ⟨i, r'⟩ hp => VDisk.addrAt_setAddr_other v 0 ?_, fun _ _ _ _ => rfl⟩
    rintro rfl rfl
    exact hr [] hp
  exact ⟨h.relist (h.geometry.congr rfl ⟨_, _, _, _, rfl⟩) ⟨h.live.faults, h.live.writable⟩
    (h.list.congr rfl rfl) (.refl _) hF fun _ => rfl,
    .setAddr r 0 fun p hp => hF.node h.partition.closed hp⟩

end Owned

end Steps

end Ufs370
