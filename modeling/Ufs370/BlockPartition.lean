import Ufs370.SizeChange
import Ufs370.Lib.Runs

/-! The blocks of a disk: those of the inodes and the free ones, over runs of size changes. -/

namespace Ufs370

open Lib Lib.IndexForest Lib.IndexLayout

namespace VDisk

def blockCount (v : VDisk) (i : Nat) : Nat := ceil (v.inode i).filesize.toNat v.blksize

def dataBlocks (v : VDisk) (i : Nat) : List Nat :=
  (List.range (v.blockCount i)).map fun m => v.blockAt i (placeOf v.nidx m)

def indexBlocks (v : VDisk) (i : Nat) : List Nat :=
  ((placesOf v.nidx (v.blockCount i)).filter fun q => decide (q.2.length ≠ height naddrDirect q.1)).map
    (v.blockAt i)

/-- The blocks that the address list of an inode reaches within its size. -/
def inodeBlocks (v : VDisk) (i : Nat) : List Nat := v.dataBlocks i ++ v.indexBlocks i

end VDisk

/-- The sizes that an address list can hold and that fit in a signed word. -/
def SizeOk (v : VDisk) (sz : Nat) : Prop :=
  sz ≤ (16 + v.nidx) * v.blksize ∨
    (v.blksize = 512 ∨ v.blksize = 1024 ∨ v.blksize = 2048) ∧ sz ≤ 2147483647 ∧
      sz ≤ (16 + v.nidx + v.nidx ^ 2 + v.nidx ^ 3) * v.blksize

/-- A disk on which no block has two uses, be it in an inode of `inos` or as a free one. -/
structure WellFormed (v : VDisk) (inos free : List Nat) : Prop where
  geometry : Geometry v
  live : v.Live
  distinct : inos.Nodup
  number : ∀ i ∈ inos, InodeNumber v i
  size : ∀ i ∈ inos, SizeOk v (v.inode i).filesize.toNat
  list : FreeList v free
  blocks : (free ++ inos.flatMap v.inodeBlocks).Nodup
  sane : ∀ b ∈ inos.flatMap v.inodeBlocks, datablockNumberSanity v b

section Blocks

variable {v : VDisk} {n k : Nat}

theorem filter_newPlaces {p : Place} {m : Nat} (hp : DataPlace n p m) :
    (newPlaces p).filter (fun q => decide (q.2.length = height naddrDirect q.1)) = [p] := by
  have hmem : ∀ q, q ∈ (newPlaces p).filter
      (fun q => decide (q.2.length = height naddrDirect q.1)) ↔ q = p := by
    intro q
    rw [List.mem_filter, ← fill_eq_iff hp.full, decide_eq_true_eq]
    constructor
    · rintro ⟨⟨_, hfill⟩, hlen⟩
      have hq : fill naddrDirect q = q := by
        rw [fill, hlen, Nat.sub_self, List.replicate_zero, List.append_nil]
      exact hq.symm.trans hfill
    · rintro rfl
      refine ⟨⟨Nat.le_of_eq hp.full, ?_⟩, hp.full⟩
      rw [fill, hp.full, Nat.sub_self, List.replicate_zero, List.append_nil]
  have hnodup := (newPlaces_nodup p).filter fun q => decide (q.2.length = height naddrDirect q.1)
  refine List.perm_singleton.mp ((List.perm_ext_iff_of_nodup hnodup (List.nodup_singleton p)).mpr ?_)
  exact fun q => (hmem q).trans List.mem_singleton.symm

/-- The places with a data block are those of the data blocks. -/
theorem filter_placesOf (hn : 0 < n) (hk : k ≤ maxBlocks n) :
    (placesOf n k).filter (fun q => decide (q.2.length = height naddrDirect q.1)) =
      (List.range k).map (placeOf n) := by
  induction k with
  | zero => rfl
  | succ k ih =>
    rw [placesOf_succ, List.filter_append, ih (Nat.le_of_succ_le hk), List.range_succ,
      List.map_append, filter_newPlaces (placeOf_data hn hk)]
    rfl

theorem inodeBlocks_perm (hn : 0 < v.nidx) {i : Nat} (hk : v.blockCount i ≤ maxBlocks v.nidx) :
    (v.inodeBlocks i).Perm ((placesOf v.nidx (v.blockCount i)).map (v.blockAt i)) := by
  have hdata : v.dataBlocks i = ((placesOf v.nidx (v.blockCount i)).filter
      fun q => decide (q.2.length = height naddrDirect q.1)).map (v.blockAt i) := by
    rw [filter_placesOf hn hk, List.map_map]
    rfl
  rw [VDisk.inodeBlocks, hdata, VDisk.indexBlocks, ← List.map_append]
  refine List.Perm.map _ ?_
  simpa only [decide_not] using List.filter_append_perm
    (fun q : Place => decide (q.2.length = height naddrDirect q.1)) (placesOf v.nidx (v.blockCount i))

/-- How many index blocks there are. -/
theorem indexBlocks_length (hn : 0 < v.nidx) {i : Nat} (hk : v.blockCount i ≤ maxBlocks v.nidx) :
    (v.indexBlocks i).length = indexCount v.nidx (v.blockCount i) := by
  have hperm := (inodeBlocks_perm hn hk).length_eq
  rw [VDisk.inodeBlocks, List.length_append, List.length_map, placesOf_length hn, VDisk.dataBlocks,
    List.length_map, List.length_range] at hperm
  omega

end Blocks

section Ownership

variable {v : VDisk} {inos free : List Nat}

namespace VDisk

/-- The data blocks of each inode; those that are not in `inos` have none. -/
def counts (v : VDisk) (inos : List Nat) (i : Nat) : Nat := if i ∈ inos then v.blockCount i else 0

/-- All blocks of a disk. -/
def allBlocks (v : VDisk) (inos free : List Nat) : List Nat := free ++ inos.flatMap v.inodeBlocks

end VDisk

theorem SizeOk.lt (g : Geometry v) {sz : Nat} (h : SizeOk v sz) : sz < 2147483648 := by
  have hbs := g.blksize_bounds
  rcases h with h | ⟨_, hlt, _⟩
  · calc sz
      _ ≤ (16 + v.nidx) * v.blksize := h
      _ ≤ (16 + 8192) * 32768 := Nat.mul_le_mul (by have := g.nidx_bounds; omega) hbs.2
      _ < 2147483648 := by decide
  · omega

theorem SizeOk.fileSize (g : Geometry v) {sz : Nat} (h : SizeOk v sz) : FileSize v sz := by
  have hlt := h.lt g
  have hbs := g.blksize_bounds
  obtain ⟨_, hceil⟩ := ceil_mul sz (show 0 < v.blksize by omega)
  have hle : ∀ a, sz ≤ a * v.blksize → ceil sz v.blksize ≤ a := fun a ha => by
    have : ceil sz v.blksize * v.blksize < (a + 1) * v.blksize := by
      rw [Nat.succ_mul]
      omega
    exact Nat.le_of_lt_succ (Nat.lt_of_mul_lt_mul_right this)
  refine ⟨by omega, ?_⟩
  rcases h with h | ⟨hsmall, _, h⟩
  · exact .inl (hle _ h)
  · refine .inr ⟨by omega, ?_, hle _ h⟩
    rcases hsmall with hs | hs | hs <;> rw [hs] at hceil ⊢ <;> omega

theorem WellFormed.le_maxBlocks (h : WellFormed v inos free) {i : Nat} (hi : i ∈ inos) :
    v.blockCount i ≤ maxBlocks v.nidx :=
  (SizeOk.fileSize h.geometry (h.size i hi)).addr.le_maxBlocks

/-- The places in use of each inode, as paths. -/
def paths (v : VDisk) (inos : List Nat) : List BlockPath :=
  inos.flatMap fun i => inoPaths i (placesOf v.nidx (v.blockCount i))

theorem mem_paths {x : BlockPath} : x ∈ paths v inos ↔
    x.1.1 ∈ inos ∧ (x.1.2, x.2) ∈ placesOf v.nidx (v.blockCount x.1.1) := by
  obtain ⟨⟨i, r⟩, is⟩ := x
  simp only [paths, List.mem_flatMap, mem_inoPaths]
  constructor
  · rintro ⟨_, hi, rfl, hq⟩
    exact ⟨hi, hq⟩
  · rintro ⟨hi, hq⟩
    exact ⟨i, hi, rfl, hq⟩

section Paths

variable (hn : 0 < v.nidx) (hk : ∀ i ∈ inos, v.blockCount i ≤ maxBlocks v.nidx)
include hn hk

theorem mem_counts {x : BlockPath} : x ∈ Within v.nidx (v.counts inos) ↔ x ∈ paths v inos := by
  rw [mem_paths]
  change _ ∈ needed v.nidx naddrDirect (v.counts inos x.1.1) ↔ _
  by_cases hi : x.1.1 ∈ inos
  · simp only [VDisk.counts, hi, if_true, true_and]
    exact (mem_placesOf hn (hk _ hi)).symm
  · simp only [VDisk.counts, hi, if_false, false_and, iff_false]
    exact fun h => Nat.not_lt_zero _ h.2

theorem paths_nodup (hinos : inos.Nodup) : (paths v inos).Nodup := by
  refine List.nodup_flatMap.mpr ⟨fun i hi => ?_, hinos.imp fun hne x hx hy => ?_⟩
  · refine (placesOf_nodup hn (hk i hi)).map fun _ _ h => ?_
    obtain ⟨h1, h2⟩ := Prod.mk.inj h
    exact Prod.ext (Prod.mk.inj h1).2 h2
  · obtain ⟨⟨i, r⟩, is⟩ := x
    exact hne ((mem_inoPaths.mp hx).1.symm.trans (mem_inoPaths.mp hy).1)

/-- The blocks of the inodes are the nodes of the places. -/
theorem flatMap_inodeBlocks_perm :
    (inos.flatMap v.inodeBlocks).Perm ((paths v inos).map v.forest.node) := by
  rw [paths, List.map_flatMap]
  refine List.Perm.flatMap_left _ fun i hi => ?_
  have := inodeBlocks_perm hn (hk i hi)
  rwa [inoPaths, List.map_map]

theorem node_image : v.forest.node '' Within v.nidx (v.counts inos) =
    {b | b ∈ inos.flatMap v.inodeBlocks} := by
  ext b
  simp only [Set.mem_image, mem_counts hn hk, Set.mem_ofPred_eq,
    (flatMap_inodeBlocks_perm hn hk).mem_iff, List.mem_map]

end Paths

theorem WellFormed.image (h : WellFormed v inos free) :
    v.forest.node '' Within v.nidx (v.counts inos) = {b | b ∈ inos.flatMap v.inodeBlocks} :=
  node_image (by have := h.geometry.nidx_bounds; omega) fun _ hi => h.le_maxBlocks hi

theorem WellFormed.mem_free (h : WellFormed v inos free) {b : Nat} :
    b ∈ free ↔ b ∈ v.allBlocks inos free ∧ b ∉ inos.flatMap v.inodeBlocks := by
  have hapart := (List.nodup_append'.mp h.blocks).2.2
  rw [VDisk.allBlocks, List.mem_append]
  constructor
  · exact fun hb => ⟨.inl hb, fun hb' => hapart hb hb'⟩
  · exact fun ⟨hb, hne⟩ => hb.resolve_right hne

theorem WellFormed.owned (h : WellFormed v inos free) :
    Owned v (Within v.nidx (v.counts inos)) [] free {b | b ∈ v.allBlocks inos free} := by
  have hn : 0 < v.nidx := by have := h.geometry.nidx_bounds; omega
  have hk := fun i hi => h.le_maxBlocks (i := i) hi
  obtain ⟨hfree, hinos, hapart⟩ := List.nodup_append'.mp h.blocks
  have himage := h.image
  refine ⟨h.geometry, h.live, h.list, hfree, ⟨within_closed _ _, ?_, ?_, ?_⟩, ?_⟩
  · intro x hx y hy heq
    exact List.inj_on_of_nodup_map ((flatMap_inodeBlocks_perm hn hk).nodup_iff.mp hinos)
      ((mem_counts hn hk).mp hx) ((mem_counts hn hk).mp hy) heq
  · intro x hx hb
    have hx' : v.forest.node x ∈ v.forest.node '' Within v.nidx (v.counts inos) := ⟨x, hx, rfl⟩
    rw [himage] at hx'
    exact hapart hb hx'
  · rw [himage]
    ext b
    simp only [VDisk.allBlocks, List.nil_append, Set.mem_union, Set.mem_ofPred_eq, List.mem_append]
    exact or_comm
  · intro b hb
    rcases List.mem_append.mp hb with hb | hb
    · exact h.list.sane b hb
    · exact h.sane b hb

theorem Owned.wellFormed {all : Set Nat} (h : Owned v (Within v.nidx (v.counts inos)) [] free all)
    (hinos : inos.Nodup) (hnum : ∀ i ∈ inos, InodeNumber v i)
    (hsz : ∀ i ∈ inos, SizeOk v (v.inode i).filesize.toNat) :
    WellFormed v inos free ∧ all = {b | b ∈ v.allBlocks inos free} := by
  have hn : 0 < v.nidx := by have := h.geometry.nidx_bounds; omega
  have hk : ∀ i ∈ inos, v.blockCount i ≤ maxBlocks v.nidx := fun i hi =>
    (SizeOk.fileSize h.geometry (hsz i hi)).addr.le_maxBlocks
  have himage := node_image hn hk
  have hnodup : (inos.flatMap v.inodeBlocks).Nodup := by
    refine (flatMap_inodeBlocks_perm hn hk).nodup_iff.mpr ?_
    refine (paths_nodup hn hk hinos).map_on fun x hx y hy heq => ?_
    exact h.node_inj ((mem_counts hn hk).mpr hx) ((mem_counts hn hk).mpr hy) heq
  have hblocks : ∀ b ∈ inos.flatMap v.inodeBlocks, ∃ x ∈ Within v.nidx (v.counts inos),
      v.forest.node x = b := fun b hb => by
    have : b ∈ {b | b ∈ inos.flatMap v.inodeBlocks} := hb
    rwa [← himage] at this
  have hall : all = {b | b ∈ v.allBlocks inos free} := by
    rw [← h.partition.cover, himage]
    ext b
    simp only [VDisk.allBlocks, List.nil_append, Set.mem_union, Set.mem_ofPred_eq, List.mem_append]
    exact or_comm
  refine ⟨⟨h.geometry, h.live, hinos, hnum, hsz, h.list, ?_, ?_⟩, hall⟩
  · refine List.nodup_append'.mpr ⟨h.nodup, hnodup, fun b hb hb' => ?_⟩
    obtain ⟨x, hx, rfl⟩ := hblocks b hb'
    exact h.partition.apart x hx hb
  · intro b hb
    obtain ⟨x, hx, rfl⟩ := hblocks b hb
    exact h.sane _ (h.node_mem hx)

end Ownership

section Runs

variable {v v' : VDisk} {inos free free' : List Nat} {ino newsz i : Nat} {cnt : Nat → Nat}
  {all : Set Nat}

namespace Resized

variable (r : Resized cnt all ino newsz v free v' free')
include r

theorem cached (hcached : v.Cached i) : v'.Cached i := by
  by_cases hi : i = ino
  · subst hi
    obtain ⟨_, _, hown⟩ := r.own
    rwa [VDisk.Cached, hown, Option.isSome_map]
  · rwa [VDisk.Cached, r.other i hi]

theorem inode_other (hi : i ≠ ino) (hnum : InodeNumber v i) : v'.inode i = v.inode i := by
  simp only [VDisk.inode, r.other i hi, r.slot i hi hnum]

theorem filesize (hcached : v.Cached ino) (hsz : newsz < 4294967296) :
    (v'.inode ino).filesize.toNat = newsz := by
  obtain ⟨_, _, hown⟩ := r.own
  rw [hcached.deref, Option.map_some] at hown
  rw [VDisk.inode_some hown]
  exact Nat.mod_eq_of_lt hsz

end Resized

/-- One call: an inode and the size it is to get. -/
def sizeStep (op : Nat × Nat) : Prog VDisk Rc := datablockSizeChange op.2 op.1

/-- A call for an inode in use, whether it works or not. -/
structure SizeAsked (inos : List Nat) (v : VDisk) (op : Nat × Nat) : Prop where
  inode : op.1 ∈ inos
  cached : v.Cached op.1
  size : SizeOk v op.2

/-- A call that gives back no block that the free list would take for a table of free blocks. -/
structure SizeTry (inos : List Nat) (v : VDisk) (op : Nat × Nat) : Prop extends SizeAsked inos v op where
  chain : v.sb.totalFreeblock = 0 → ceil op.2 v.blksize < v.blockCount op.1 → v.EndsChain op.1

/-- A call that works, for an inode in use, with a free block left. -/
structure SizeCall (inos : List Nat) (v : VDisk) (op : Nat × Nat) : Prop where
  inode : op.1 ∈ inos
  cached : v.Cached op.1
  size : SizeOk v op.2
  free : 0 < v.sb.totalFreeblock
  works : ((sizeStep op).run v).1 = .ok

/-- The size of inode `i` after some calls. -/
def sizeAfter (hist : List ((Nat × Nat) × Rc)) (i sz : Nat) : Nat :=
  ((hist.find? fun e => decide (e.1.1 = i)).map fun e => e.1.2).getD sz

theorem SizeCall.tries {op : Nat × Nat} (hop : SizeCall inos v op) : SizeTry inos v op :=
  ⟨⟨hop.inode, hop.cached, hop.size⟩, fun h => absurd h (Nat.ne_of_gt hop.free)⟩

/-- What one call comes to. -/
theorem sizeStep_spec (h : WellFormed v inos free) {op : Nat × Nat} (hop : SizeTry inos v op) :
    ((sizeStep op).run v).1 ≠ .ok ∧ Exhausted (v.counts inos) op.1 v ((sizeStep op).run v).2 ∨
    ∃ free', Resized (v.counts inos) {b | b ∈ v.allBlocks inos free} op.1 op.2 v free
      ((sizeStep op).run v).2 free' := by
  have hfirst : ceil op.2 v.blksize < ceil (v.inode op.1).filesize.toNat v.blksize →
      free ≠ [] ∨ v.EndsChain op.1 := fun hless => by
    by_cases hfree : free = []
    · refine .inr (hop.chain ?_ hless)
      rw [h.list.total, hfree]
      rfl
    · exact .inl hfree
  have hcnt : v.counts inos op.1 = ceil (v.inode op.1).filesize.toNat v.blksize := if_pos hop.inode
  have hnum : ∀ i, v.counts inos i ≠ 0 → InodeNumber v i := fun i hi => by
    by_cases hmem : i ∈ inos
    · exact h.number i hmem
    · exact absurd (if_neg hmem) hi
  have hlt := (h.size _ hop.inode).lt h.geometry
  have hlt' := hop.size.lt h.geometry
  rcases datablockSizeChange_spec h.owned hnum (h.number _ hop.inode) hop.cached hcnt
    (SizeOk.fileSize h.geometry (h.size _ hop.inode)) (SizeOk.fileSize h.geometry hop.size) (by omega)
    (by omega) hfirst with
    ⟨rc, v', hrun, hrc, -, hfull⟩ | ⟨v', free', hrun, r⟩
  · left
    rw [sizeStep, hrun]
    exact ⟨hrc, hfull⟩
  · exact .inr ⟨free', by rw [sizeStep, hrun]; exact r⟩

theorem sizeStep_resized (h : WellFormed v inos free) {op : Nat × Nat} (hop : SizeCall inos v op) :
    ∃ free', Resized (v.counts inos) {b | b ∈ v.allBlocks inos free} op.1 op.2 v free
      ((sizeStep op).run v).2 free' :=
  (sizeStep_spec h hop.tries).resolve_left fun hfail => hfail.1 hop.works

theorem SizeOk.congr {sz : Nat} (h : SizeOk v sz) (hb : v'.blksize = v.blksize) : SizeOk v' sz := by
  rwa [SizeOk, VDisk.nidx, hb]

/-- The disk stays well formed, with the same blocks. -/
theorem Resized.wellFormed {op : Nat × Nat} (h : WellFormed v inos free) (hop : SizeAsked inos v op)
    (r : Resized (v.counts inos) {b | b ∈ v.allBlocks inos free} op.1 op.2 v free v' free') :
    WellFormed v' inos free' ∧ (v'.allBlocks inos free').Perm (v.allBlocks inos free) ∧
      v'.counts inos = Function.update (v.counts inos) op.1 (ceil op.2 v.blksize) := by
  have hnidx : v'.nidx = v.nidx := by rw [VDisk.nidx, r.blksize]; rfl
  have hsize := r.filesize hop.cached (hop.size.fileSize h.geometry).lt
  have hcounts : v'.counts inos = Function.update (v.counts inos) op.1 (ceil op.2 v.blksize) := by
    funext i
    by_cases hi : i = op.1
    · subst hi
      simp only [VDisk.counts, hop.inode, if_true, VDisk.blockCount, hsize, r.blksize,
        Function.update_self]
    · rw [Function.update_of_ne hi]
      simp only [VDisk.counts]
      split
      · rename_i hmem
        rw [VDisk.blockCount, r.inode_other hi (h.number i hmem), r.blksize]
        rfl
      · rfl
  have howned : Owned v' (Within v'.nidx (v'.counts inos)) [] free' {b | b ∈ v.allBlocks inos free} := by
    rw [hcounts, hnidx]
    exact r.owned
  obtain ⟨hwf, hall⟩ := howned.wellFormed h.distinct
    (fun i hi => (h.number i hi).congr r.blksize r.sb) fun i hi => by
      by_cases hio : i = op.1
      · rw [hio, hsize]
        exact hop.size.congr r.blksize
      · rw [r.inode_other hio (h.number i hi)]
        exact (h.size i hi).congr r.blksize
  refine ⟨hwf, (List.perm_ext_iff_of_nodup hwf.blocks h.blocks).mpr fun b => ?_, hcounts⟩
  exact (Set.ext_iff.mp hall b).symm

/-- A call that is refused leaves the disk well formed. -/
theorem Exhausted.wellFormed (h : WellFormed v inos free) (hino : ino ∈ inos)
    (e : Exhausted (v.counts inos) ino v v') : WellFormed v' inos [] := by
  obtain ⟨all', howned⟩ := e.owned
  have hnidx : v'.nidx = v.nidx := by rw [VDisk.nidx, e.blksize]; rfl
  have hsize : ∀ i ∈ inos, (v'.inode i).filesize = (v.inode i).filesize := fun i hi => by
    by_cases hio : i = ino
    · subst hio
      obtain ⟨a, hown⟩ := e.own
      cases hm : v.minode? i with
      | none =>
        rw [hm, Option.map_none] at hown
        rw [VDisk.inode_none hm, VDisk.inode_none hown, e.slot h.geometry (h.number i hi)]
      | some m =>
        rw [hm, Option.map_some] at hown
        rw [VDisk.inode_some hm, VDisk.inode_some hown]
    · simp only [VDisk.inode, e.other i hio, e.slot h.geometry (h.number i hi)]
  have hcounts : v'.counts inos = v.counts inos := by
    funext i
    simp only [VDisk.counts]
    split
    · rename_i hmem
      rw [VDisk.blockCount, hsize i hmem, e.blksize]
      rfl
    · rfl
  rw [← hcounts, ← hnidx] at howned
  refine (howned.wellFormed h.distinct (fun i hi => (h.number i hi).congr e.blksize e.sb)
    fun i hi => ?_).1
  rw [hsize i hi]
  exact (h.size i hi).congr e.blksize

theorem SizeTry.wellFormed {op : Nat × Nat} (h : WellFormed v inos free) (hop : SizeTry inos v op) :
    ∃ free', WellFormed ((sizeStep op).run v).2 inos free' := by
  rcases sizeStep_spec h hop with ⟨_, hfull⟩ | ⟨free', r⟩
  · exact ⟨[], hfull.wellFormed h hop.inode⟩
  · exact ⟨free', (r.wellFormed h hop.toSizeAsked).1⟩

/-- What holds after each call of a run that started at `v`. -/
structure Running (v : VDisk) (inos free : List Nat) (hist : List ((Nat × Nat) × Rc)) (w : VDisk)
    (l : List Nat) : Prop where
  wellFormed : WellFormed w inos l
  blocks : (w.allBlocks inos l).Perm (v.allBlocks inos free)
  blksize : w.blksize = v.blksize
  sizes : ∀ i ∈ inos, (w.inode i).filesize.toNat = sizeAfter hist i (v.inode i).filesize.toNat
  kept : (∀ e ∈ hist, (v.inode e.1.1).filesize.toNat ≤ e.1.2) →
    (∀ i, v.counts inos i ≤ w.counts inos i) ∧
      ∀ p ∈ Within v.nidx (v.counts inos), w.forest.node p = v.forest.node p

theorem sizeAfter_cons (op : Nat × Nat) (rc : Rc) (hist : List ((Nat × Nat) × Rc)) (i sz : Nat) :
    sizeAfter ((op, rc) :: hist) i sz = if op.1 = i then op.2 else sizeAfter hist i sz := by
  simp only [sizeAfter, List.find?_cons]
  split <;> simp_all

theorem Running.step {w : VDisk} {l : List Nat} {hist : List ((Nat × Nat) × Rc)} {op : Nat × Nat}
    (h : Running v inos free hist w l) (hop : SizeCall inos w op) :
    ∃ l', Running v inos free ((op, ((sizeStep op).run w).1) :: hist) ((sizeStep op).run w).2 l' := by
  obtain ⟨l', r⟩ := sizeStep_resized h.wellFormed hop
  obtain ⟨hwf, hblocks, hcounts⟩ := r.wellFormed h.wellFormed hop.tries.toSizeAsked
  have hnidx : w.nidx = v.nidx := by rw [VDisk.nidx, h.blksize]; rfl
  refine ⟨l', hwf, hblocks.trans h.blocks, r.blksize.trans h.blksize, fun i hi => ?_, fun hist => ?_⟩
  · rw [sizeAfter_cons]
    by_cases hio : op.1 = i
    · subst hio
      rw [if_pos rfl]
      exact r.filesize hop.cached (hop.size.fileSize h.wellFormed.geometry).lt
    · rw [if_neg hio, r.inode_other (Ne.symm hio) (h.wellFormed.number i hi)]
      exact h.sizes i hi
  · have hop' : (v.inode op.1).filesize.toNat ≤ op.2 := hist _ (List.mem_cons_self ..)
    have hist := fun e he => hist e (List.mem_cons_of_mem _ he)
    obtain ⟨hle, hnode⟩ := h.kept hist
    have hnew : v.counts inos op.1 ≤ ceil op.2 w.blksize := by
      simp only [VDisk.counts, hop.inode, if_true, VDisk.blockCount, h.blksize]
      exact Nat.div_le_div_right (by omega)
    have hmin : ∀ i, v.counts inos i ≤ Function.update (w.counts inos) op.1
        (min (w.counts inos op.1) (ceil op.2 w.blksize)) i := fun i => by
      by_cases hi : i = op.1
      · subst hi
        rw [Function.update_self]
        exact Nat.le_min.mpr ⟨hle _, hnew⟩
      · rw [Function.update_of_ne hi]
        exact hle i
    refine ⟨fun i => ?_, fun p hp => ?_⟩
    · rw [hcounts]
      exact Nat.le_trans (hmin i) (update_mono (Nat.min_le_right ..) i)
    · rw [r.node p (hnidx ▸ within_mono hmin hp), hnode p hp]

/-- Over any run of calls that work, each block keeps exactly one use, each inode has the blocks
for its size, and inodes that are back at their old sizes have given back just what they took. -/
theorem sizeChange_partition {hist : List ((Nat × Nat) × Rc)} (h : WellFormed v inos free)
    (hrun : Run sizeStep (SizeCall inos) v hist v') :
    ∃ free', WellFormed v' inos free' ∧
      (v'.allBlocks inos free').Perm (v.allBlocks inos free) ∧
      (∀ i ∈ inos, (v'.inode i).filesize.toNat = sizeAfter hist i (v.inode i).filesize.toNat ∧
        (v'.dataBlocks i).length = ceil (v'.inode i).filesize.toNat v'.blksize ∧
        (v'.indexBlocks i).length =
          indexCount v'.nidx (ceil (v'.inode i).filesize.toNat v'.blksize)) ∧
      ((∀ e ∈ hist, (v.inode e.1.1).filesize.toNat ≤ e.1.2) →
        (∀ i ∈ inos, sizeAfter hist i (v.inode i).filesize.toNat = (v.inode i).filesize.toNat) →
        free'.Perm free) := by
  have hstart : Running v inos free [] v free :=
    ⟨h, .refl _, rfl, fun _ _ => rfl, fun _ => ⟨fun _ => Nat.le_refl _, fun _ _ => rfl⟩⟩
  obtain ⟨l, run⟩ := hrun.invariant_hist (I := fun hist w => ∃ l, Running v inos free hist w l)
    ⟨free, hstart⟩ fun hist w op ⟨l, hw⟩ hop => hw.step hop
  have hwf := run.wellFormed
  have hn : 0 < v'.nidx := by have := hwf.geometry.nidx_bounds; omega
  refine ⟨l, hwf, run.blocks, fun i hi => ⟨run.sizes i hi, ?_, ?_⟩, fun hist hback => ?_⟩
  · rw [VDisk.dataBlocks, List.length_map, List.length_range]
    rfl
  · exact indexBlocks_length hn (hwf.le_maxBlocks hi)
  · -- the inodes have the same blocks as at first, so the same blocks are left
    obtain ⟨_, hnode⟩ := run.kept hist
    have hnidx : v'.nidx = v.nidx := by rw [VDisk.nidx, run.blksize]; rfl
    have hcounts : v'.counts inos = v.counts inos := by
      funext i
      simp only [VDisk.counts]
      split
      · rename_i hi
        rw [VDisk.blockCount, run.sizes i hi, hback i hi, run.blksize]
        rfl
      · rfl
    have himage : {b | b ∈ inos.flatMap v'.inodeBlocks} = {b | b ∈ inos.flatMap v.inodeBlocks} := by
      rw [← hwf.image, ← h.image, hcounts, hnidx]
      exact Set.image_congr hnode
    refine (List.perm_ext_iff_of_nodup hwf.list.nodup h.list.nodup).mpr fun b => ?_
    rw [hwf.mem_free, h.mem_free, run.blocks.mem_iff]
    exact and_congr_right fun _ => not_congr (Set.ext_iff.mp himage b)

end Runs

section Pair

def pairSuper : Superblock where
  datablockStartSector := 10
  volumeSize := 12
  modified := false
  readonly := false
  totalFreeblock := 2
  totalFreeinode := 0
  nfreeblock := 2
  freeblock := fun i => if i = 0 then 11 else 10
  nfreeinode := 0
  freeinode := fun _ => 0
  inodesPerBlock := 4
  blksizeShift := 9
  ilistSector := 2

/-- Two free blocks and an empty inode. -/
def pairDisk : VDisk where
  blksize := 512
  readonly := false
  sb := pairSuper
  io := ⟨fun _ => zeroBlock, []⟩
  super := pairSuper
  minodes := [⟨2, false, 1, none, .zero⟩]

theorem pairDisk_wellFormed : WellFormed pairDisk [2] [10, 11] where
  geometry := by constructor <;> decide
  live := ⟨rfl, rfl⟩
  distinct := by decide
  number := by
    intro i hi
    obtain rfl := List.mem_singleton.mp hi
    constructor <;> decide
  size := by
    intro i hi
    obtain rfl := List.mem_singleton.mp hi
    exact .inl (Nat.zero_le _)
  list := {
    volume := by decide
    holds := by
      have hsaved : (pairDisk.saved 11).1 = 0 := Bytes.word_zero 0
      refine .entry (by decide) (by decide) (.link (by decide) ?_)
      change LinkedStack.Holds _ _ (pairDisk.saved 11).1 _ _
      rw [hsaved]
      exact .nil
    nodup := by decide
    sane := by decide
    total := rfl }
  blocks := by decide
  sane := by decide

/-- An inode that takes a block and gives it back. -/
theorem sizeChange_partition_pair : ∃ free', WellFormed
    ((sizeStep (2, 0)).run ((sizeStep (2, 512)).run pairDisk).2).2 [2] free' ∧ free'.Perm [10, 11] := by
  have grow : SizeCall [2] pairDisk (2, 512) :=
    ⟨by decide, rfl, .inl (by decide), by decide, by decide⟩
  have shrink : SizeCall [2] ((sizeStep (2, 512)).run pairDisk).2 (2, 0) :=
    ⟨by decide, rfl, .inl (by decide), by decide, by decide⟩
  obtain ⟨free', hwf, _, _, hback⟩ :=
    sizeChange_partition pairDisk_wellFormed (.cons (2, 0) (.cons (2, 512) .nil grow) shrink)
  refine ⟨free', hwf, hback (by decide) ?_⟩
  intro i hi
  obtain rfl := List.mem_singleton.mp hi
  rfl

end Pair

end Ufs370
