import Ufs370.Layout

/-! A change of size as a whole: the loops over the blocks and what they come to. -/

namespace Ufs370

open Lib Lib.IndexForest Lib.IndexLayout

/-- The map of a size of `m` blocks. -/
def MapOf (n : Nat) (map : Addrmap) : Nat → Prop
  | 0 => map.level = 0
  | m + 1 => map.IsBlock n m

theorem MapOf.level_le {n m : Nat} {map : Addrmap} (h : MapOf n map m) : map.level ≤ 3 := by
  cases m with
  | zero => exact Nat.le_trans (Nat.le_of_eq h) (Nat.zero_le 3)
  | succ m => exact Addrmap.IsBlock.level h

theorem Addressable.lt_maxBlocks {v : VDisk} {m : Nat} (h : Addressable v (m + 1)) :
    m < maxBlocks v.nidx := by
  rw [maxBlocks]
  rcases h with h | ⟨_, _, h⟩ <;> omega

theorem Addressable.mono {v : VDisk} {m m' : Nat} (h : Addressable v m) (hm : m' ≤ m) :
    Addressable v m' := by
  rcases h with h | ⟨hbs, hbytes, h⟩
  · exact .inl (Nat.le_trans hm h)
  · exact .inr ⟨hbs, Nat.lt_of_le_of_lt (Nat.mul_le_mul_right _ hm) hbytes, Nat.le_trans hm h⟩

theorem Addressable.congr {v v' : VDisk} {m : Nat} (h : Addressable v m)
    (hb : v'.blksize = v.blksize) : Addressable v' m := by
  rwa [Addressable, VDisk.nidx, hb]

theorem Addressable.le_maxBlocks {v : VDisk} {m : Nat} (h : Addressable v m) :
    m ≤ maxBlocks v.nidx := by
  rw [maxBlocks]
  rcases h with h | ⟨_, _, h⟩ <;> omega

section Loops

variable {v v' v'' : VDisk} {n ino k k' k'' i : Nat} {cnt : Nat → Nat}
  {free free' free'' : List Nat} {all : Set Nat} {old new : Addrmap} {oldsz : Nat}

theorem expandBlock_round (hn : 2 ≤ n) (h : Owned v (Within n cnt) [] free all)
    (hcached : v.Cached ino) (hold : MapOf n old (cnt ino)) (hnew : new.IsBlock n (cnt ino)) :
    BlockAdded ino (Within n cnt) v free all new.place ((expandBlock ino old new).run v) := by
  cases hk : cnt ino with
  | zero =>
    rw [hk] at hold hnew
    have hplace : new.place = (0, []) := hnew.place.eq (DataPlace.direct n (by decide)) rfl
    obtain ⟨hw, hw0⟩ := Addrmap.place_direct hplace
    rw [hplace]
    exact expandBlock_direct h hcached (by decide)
      (by rw [hk]; exact .direct n (by decide)) hold hw hw0
  | succ j =>
    rw [hk] at hold
    exact expandBlock_next hn h hcached hold.level hnew.level (Addrmap.IsBlock.next hn hold (hk ▸ hnew))
      hnew.place

theorem contractBlock_round (hn : 2 ≤ n) (h : Owned v (Within n cnt) [] free all)
    (hcached : v.Cached ino)
    (hfirst : free ≠ [] ∨ (old.level = new.level → v.word (v.blockAt ino old.place) 0 = 0))
    (hcnt : cnt ino = k + 1) (hold : old.IsBlock n k) (hnew : MapOf n new k) :
    BlockRemoved ino (Within n cnt) v free all old.place ((contractBlock ino old new .ok).run v) := by
  cases k with
  | zero =>
    have hp := DataPlace.direct n (i := 0) (by decide)
    have hplace : old.place = (0, []) := hold.place.eq hp rfl
    obtain ⟨ho, ho0⟩ := Addrmap.place_direct hplace
    rw [hplace]
    have hword := hfirst.imp_right fun hf => hf (ho.trans hnew.symm)
    rw [hplace] at hword
    exact contractBlock_direct h hcached hword (by omega) hp hcnt ho ho0 hnew
  | succ j =>
    exact contractBlock_next hn h hcached hfirst hold.level (Addrmap.IsBlock.level hnew)
      (Addrmap.IsBlock.next hn hnew hold) hold.place hcnt

/-- From `v` to `v'` inode `ino` went from `k` to `k'` data blocks. -/
structure Expanded (n ino : Nat) (cnt : Nat → Nat) (all : Set Nat) (k k' : Nat) (v : VDisk)
    (free : List Nat) (v' : VDisk) (free' : List Nat) : Prop where
  owned : Owned v' (Within n (Function.update cnt ino k')) [] free' all
  frame : Frame ino (Within n (Function.update cnt ino k)) [] v v'
  length : free.length + (placesOf n k).length = free'.length + (placesOf n k').length
  zero : ∀ m q, k ≤ m → m < k' → DataPlace n q m →
    v'.io.blocks (v'.forest.node ((ino, q.1), q.2)) = zeroBlock

theorem within_mono {cnt' : Nat → Nat} (h : ∀ i, cnt i ≤ cnt' i) : Within n cnt ⊆ Within n cnt' :=
  fun x hx => ⟨hx.1, Nat.lt_of_lt_of_le hx.2 (h x.1.1)⟩

theorem update_mono (hk : k ≤ k') (i : Nat) :
    Function.update cnt ino k i ≤ Function.update cnt ino k' i := by
  by_cases hi : i = ino
  · subst hi
    simpa using hk
  · simp [hi]

theorem DataPlace.mem_within {q : Place} {m : Nat} (h : DataPlace n q m) (cnt : Nat → Nat)
    (hm : m < cnt ino) : ((ino, q.1), q.2) ∈ Within n cnt :=
  ⟨h.valid, h.block ▸ hm⟩

theorem Expanded.refl (h : Owned v (Within n (Function.update cnt ino k)) [] free all) :
    Expanded n ino cnt all k k v free v free :=
  ⟨h, .refl .., rfl, fun _ _ h1 h2 => absurd h2 (Nat.not_lt.mpr h1)⟩

theorem Expanded.trans (hk : k ≤ k') (h : Expanded n ino cnt all k k' v free v' free')
    (h' : Expanded n ino cnt all k' k'' v' free' v'' free'') :
    Expanded n ino cnt all k k'' v free v'' free'' where
  owned := h'.owned
  frame := h.frame.trans h'.frame (Set.Subset.refl _) (within_mono (update_mono hk))
    (List.Subset.refl _) (List.Subset.refl _)
  length := h.length.trans h'.length
  zero m q hm hm'' hq := by
    rcases Nat.lt_or_ge m k' with hlt | hge
    · have hmem : ((ino, q.1), q.2) ∈ Within n (Function.update cnt ino k') :=
        hq.mem_within _ (by simpa using hlt)
      rw [h'.frame.node _ hmem, h'.frame.data _ hmem fun _ => hq.full]
      exact h.zero m q hm hlt hq
    · exact h'.zero m q hge hm'' hq

theorem placesOf_length_succ (hn : 0 < n) (hk : k < maxBlocks n) {q : Place} (hq : DataPlace n q k) :
    (placesOf n (k + 1)).length = (placesOf n k).length + (newPlaces q).length := by
  rw [placesOf_succ, List.length_append, (placeOf_data hn hk).unique hq]

theorem BlockAdded.expanded (hn : 0 < n) (hk : k < maxBlocks n) {q : Place} (hq : DataPlace n q k)
    {blk l} (g : Grown ino (Within n (Function.update cnt ino k)) v free all
      (inoPaths ino (newPlaces q)) v' l) (hzero : v'.io.blocks blk = zeroBlock)
    (hnode : v'.forest.node ((ino, q.1), q.2) = blk) :
    Expanded n ino cnt all k (k + 1) v free v' l where
  owned := by
    have hq' : DataPlace n q (Function.update cnt ino k ino) := by simpa using hq
    have hset : {x | x ∈ inoPaths ino (newPlaces q) ∨ x ∈ Within n (Function.update cnt ino k)} =
        Within n (Function.update cnt ino (k + 1)) := by
      ext ⟨⟨i, r⟩, is⟩
      have := mem_within_succ hn hq' (x := ((i, r), is))
      simp only [Function.update_self, Function.update_idem] at this
      rw [Set.mem_ofPred_eq, mem_inoPaths, this]
    exact hset ▸ g.owned
  frame := g.frame
  length := by
    have := g.length
    rw [placesOf_length_succ hn hk hq, this, inoPaths, List.length_map]
    omega
  zero m q' hm hm' hqm := by
    obtain rfl : m = k := by omega
    rw [hqm.unique hq, hnode, hzero]

theorem Stuck.after {D D' : Set BlockPath} (h : Stuck ino D' v' v'') (hframe : Frame ino D [] v v')
    (hD : D ⊆ D') (hclosed : Closed D) : Stuck ino D v v'' := by
  obtain ⟨all, howned⟩ := h.owned
  exact ⟨⟨_, howned.restrict hD hclosed⟩, hframe.trans h.frame (Set.Subset.refl _) hD
    (List.Subset.refl _) (List.Subset.refl _)⟩

/-- The loop of `ufs_datablock_expand` runs out of blocks or gets them all. -/
theorem expandLoop_spec (left oldsz i : Nat) (backup : Minode)
    (h : Owned v (Within n (Function.update cnt ino k)) [] free all) (hn : v.nidx = n)
    (hcached : v.Cached ino) (hold : MapOf n old k) (hlo : k * v.blksize < oldsz + (i + 1) * v.blksize)
    (hhi : oldsz + (i + 1) * v.blksize ≤ (k + 1) * v.blksize) (haddr : Addressable v (k + left)) :
    (∃ v' w, (expandLoop ino oldsz backup left i old).run v = (.enospc, v') ∧
      free.length + (placesOf n k).length < (placesOf n (k + left)).length ∧
      Stuck ino (Within n (Function.update cnt ino k)) v w ∧
      (v' = w ∨ v' = w.setMinode ino fun _ => backup)) ∨
    ∃ v' free', (expandLoop ino oldsz backup left i old).run v = (.ok, v') ∧
      Expanded n ino cnt all k (k + left) v free v' free' := by
  induction left generalizing v k i old free with
  | zero => exact .inr ⟨v, free, rfl, .refl h⟩
  | succ left ih =>
    have g := h.geometry
    have hn2 : 2 ≤ n := by have := g.nidx_bounds; omega
    have hnext : Addressable v (k + 1) := haddr.mono (by omega)
    have hbytes := hnext.bytes g
    have hu : u32 (oldsz + (i + 1) * v.blksize) = oldsz + (i + 1) * v.blksize := u32_of_lt (by omega)
    obtain ⟨_, hnew⟩ := datablockAddr_block g hnext hlo hhi
    rw [hn] at hnew
    have hcnt : Function.update cnt ino k ino = k := Function.update_self ..
    have hround := expandBlock_round hn2 h hcached (hcnt.symm ▸ hold) (hcnt.symm ▸ hnew)
    simp only [expandLoop, Prog.run_bind, hu]
    have hsucc := placesOf_length_succ (by omega) (hn ▸ hnext.lt_maxBlocks) hnew.place
    rcases hround with ⟨hfail, hstuck, hfew⟩ | ⟨l, hok, hblk, grown, hzero, hnode⟩
    · left
      have hshort : free.length + (placesOf n k).length < (placesOf n (k + (left + 1))).length :=
        Nat.lt_of_lt_of_le (by omega) (placesOf_length_mono n (show k + 1 ≤ k + (left + 1) by omega))
      rcases hfail with hfail | ⟨hok, hblk⟩
      · simp only [hfail, ne_eq, reduceCtorEq, not_false_eq_true, if_true, Prog.run_pure]
        exact ⟨_, _, rfl, hshort, hstuck, .inl rfl⟩
      · simp only [hok, hblk, ne_eq, not_true_eq_false, if_true, if_false, modifyMinode,
          Prog.run_bind, Prog.run_pure]
        exact ⟨_, _, rfl, hshort, hstuck, .inr rfl⟩
    · simp only [hok, hblk, ne_eq, not_true_eq_false, if_false]
      generalize hv₁ : ((expandBlock ino old _).run v).2 = v₁ at grown hzero hnode
      have hstep : Expanded n ino cnt all k (k + 1) v free v₁ l :=
        BlockAdded.expanded (by omega) (hn ▸ hnext.lt_maxBlocks) hnew.place grown hzero hnode
      have hb := grown.frame.blksize
      have hmul : (k + 1 + 1) * v.blksize = (k + 1) * v.blksize + v.blksize := Nat.succ_mul ..
      have hmul' : (i + 1 + 1) * v.blksize = (i + 1) * v.blksize + v.blksize := Nat.succ_mul ..
      have hmul'' : (k + 1) * v.blksize = k * v.blksize + v.blksize := Nat.succ_mul ..
      rcases ih (i + 1) hstep.owned (by rw [VDisk.nidx, hb]; exact hn)
        ((grown.frame.cached ino).mpr hcached) hnew (by rw [hb]; omega) (by rw [hb]; omega)
        (Addressable.congr (by rwa [Nat.add_right_comm]) hb) with
        ⟨v₂, w, hrun, hshort, hstuck, hw⟩ | ⟨v₂, l₂, hrun, hrest⟩
      · have hlen := hstep.length
        rw [show k + 1 + left = k + (left + 1) by omega] at hshort
        exact .inl ⟨v₂, w, hrun, by omega, hstuck.after grown.frame
          (within_mono (update_mono (Nat.le_succ k))) (within_closed _ _), hw⟩
      · rw [show k + (left + 1) = k + 1 + left by omega]
        exact .inr ⟨v₂, l₂, hrun, hstep.trans (Nat.le_succ k) hrest⟩

/-- From `v` to `v'` inode `ino` went back from `k'` to `k` data blocks. -/
structure Contracted (n ino : Nat) (cnt : Nat → Nat) (all : Set Nat) (k k' : Nat) (v : VDisk)
    (free : List Nat) (v' : VDisk) (free' : List Nat) : Prop where
  owned : Owned v' (Within n (Function.update cnt ino k)) [] free' all
  frame : Frame ino (Within n (Function.update cnt ino k)) [] v v'
  length : free.length + (placesOf n k').length = free'.length + (placesOf n k).length

theorem Contracted.trans (hk : k ≤ k') (h : Contracted n ino cnt all k' k'' v free v' free')
    (h' : Contracted n ino cnt all k k' v' free' v'' free'') :
    Contracted n ino cnt all k k'' v free v'' free'' where
  owned := h'.owned
  frame := h.frame.trans h'.frame (within_mono (update_mono hk)) (Set.Subset.refl _)
    (List.Subset.refl _) (List.Subset.refl _)
  length := by
    have h1 := h.length
    have h2 := h'.length
    omega

theorem Shrunk.contracted (hn : 0 < n) (hk : k < maxBlocks n) {q : Place} (hq : DataPlace n q k)
    {l : List Nat} (g : Shrunk ino (Within n (Function.update cnt ino (k + 1))) v free all
      (inoPaths ino (newPlaces q)) v' l) : Contracted n ino cnt all k (k + 1) v free v' l := by
  have hset := sdiff_newPlaces hn hq (Function.update_self ino (k + 1) cnt)
  rw [Function.update_idem] at hset
  refine ⟨hset ▸ g.owned, hset ▸ g.frame, ?_⟩
  have := g.length
  rw [placesOf_length_succ hn hk hq, this, inoPaths, List.length_map]
  omega

theorem Addrmap.IsBlock.mapOf {map : Addrmap} (h : map.IsBlock n k) : MapOf n map (k + 1) := h

/-- A size that lies below 0 by less than a block has a map of level 0, like 0. -/
theorem datablockAddr_wrap (g : Geometry v) {x : Nat} (hx : x < v.blksize) :
    (datablockAddr v (u32sub 0 x)).2.level = 0 := by
  rcases Nat.eq_zero_or_pos x with rfl | hpos
  · rfl
  have hbs : v.blksize ≤ 32768 := by
    have := g.blksize_eq
    have := g.nidx_bounds
    omega
  have hsub : u32sub 0 x = 4294967296 - x := by
    rw [u32sub, if_neg (by omega), Nat.zero_add]
  have hround : roundUp (u32sub 0 x) v.blksize = 0 := by
    have hlt : v.blksize - 1 - x < 4294967296 := by omega
    have hsum : u32 (u32sub 0 x + (v.blksize - 1)) = v.blksize - 1 - x := by
      rw [hsub, show 4294967296 - x + (v.blksize - 1) = v.blksize - 1 - x + 4294967296 by omega, u32,
        Nat.add_mod_right, Nat.mod_eq_of_lt hlt]
    rw [roundUp, hsum, g.blksize, and_two_pow_sub (by have := g.high; omega) (g.blksize ▸ hlt),
      Nat.div_eq_of_lt (by have := g.blksize; omega), Nat.zero_mul]
  have hsz : u32sub 0 x ≠ 0 := by omega
  simp only [datablockAddr, hsz, if_false, hround, Nat.zero_le, if_true]
  rfl

theorem datablockAddr_mapOf (g : Geometry v) {m sz : Nat} (hm : Addressable v m)
    (hlo : m * v.blksize < sz + v.blksize) (hhi : sz ≤ m * v.blksize) :
    MapOf v.nidx (datablockAddr v sz).2 m := by
  cases m with
  | zero =>
    obtain rfl : sz = 0 := by omega
    rfl
  | succ m =>
    rw [Nat.succ_mul] at hlo
    exact (datablockAddr_block g hm (by omega) hhi).2

/-- The map of the size that is left when `i + 1` blocks have gone. -/
theorem datablockAddr_back (g : Geometry v) {m : Nat} (hm : Addressable v m)
    (hlo : m * v.blksize + i * v.blksize < oldsz)
    (hhi : oldsz ≤ (m + 1) * v.blksize + i * v.blksize) (hsz : oldsz + v.blksize ≤ 4294967296) :
    MapOf v.nidx (datablockAddr v (u32sub oldsz (u32 ((i + 1) * v.blksize)))).2 m := by
  have hbs : v.blksize ≤ 32768 := by
    have := g.blksize_eq
    have := g.nidx_bounds
    omega
  have hmul : (i + 1) * v.blksize = i * v.blksize + v.blksize := Nat.succ_mul ..
  have hmul' : (m + 1) * v.blksize = m * v.blksize + v.blksize := Nat.succ_mul ..
  rw [u32_of_lt (by omega)]
  cases m with
  | zero =>
    have hwrap : u32sub oldsz ((i + 1) * v.blksize) = u32sub 0 ((i + 1) * v.blksize - oldsz) := by
      simp only [u32sub]
      split <;> split <;> omega
    rw [hwrap]
    exact datablockAddr_wrap g (by omega)
  | succ m =>
    have : (m + 1) * v.blksize = m * v.blksize + v.blksize := Nat.succ_mul ..
    rw [u32sub_of_le (by omega)]
    exact datablockAddr_mapOf g hm (by omega) (by omega)

/-- The last data block of an inode can end the chain of free blocks.  If it is the first one of
its level then an index block goes before it, whose first entry has been cleared. -/
def VDisk.EndsChain (v : VDisk) (ino : Nat) : Prop :=
  let m := ceil (v.inode ino).filesize.toNat v.blksize - 1
  (placeOf v.nidx m).2.length = (placeOf v.nidx (m - 1)).2.length →
    v.word (v.blockAt ino (placeOf v.nidx m)) 0 = 0

theorem Addrmap.level_place {map : Addrmap} (h : map.level ≤ 3) : map.place.2.length = map.level := by
  rcases map with ⟨_ | _ | _ | _ | level, index⟩
  · rfl
  · rfl
  · rfl
  · rfl
  · exact absurd h (Nat.not_le_of_lt (Nat.le_add_left 4 level))

theorem MapOf.place_eq {m : Nat} {map : Addrmap} (hn : 0 < n) (h : MapOf n map (m + 1))
    (hm : m < maxBlocks n) : map.place = placeOf n m :=
  (placeOf_data hn hm).unique (Addrmap.IsBlock.place h) |>.symm

/-- The loop of `ufs_datablock_contract` always does its work. -/
theorem contractLoop_spec (left oldsz i : Nat)
    (h : Owned v (Within n (Function.update cnt ino (k + left))) [] free all) (hn : v.nidx = n)
    (hcached : v.Cached ino) (hfirst : free ≠ [] ∨ ∀ m new, m + 1 = k + left → MapOf n new m →
      old.level = new.level → v.word (v.blockAt ino old.place) 0 = 0) (hold : MapOf n old (k + left))
    (hlo : (k + left) * v.blksize + i * v.blksize < oldsz + v.blksize)
    (hhi : oldsz ≤ (k + left) * v.blksize + i * v.blksize) (haddr : Addressable v (k + left))
    (hsz : oldsz + v.blksize ≤ 4294967296) :
    ∃ v' free', (contractLoop ino oldsz left i old .ok).run v = (.ok, v') ∧
      Contracted n ino cnt all k (k + left) v free v' free' := by
  induction left generalizing v i old free with
  | zero => exact ⟨v, free, rfl, h, .refl .., rfl⟩
  | succ left ih =>
    have g := h.geometry
    have hn2 : 2 ≤ n := by have := g.nidx_bounds; omega
    have hmul : (i + 1) * v.blksize = i * v.blksize + v.blksize := Nat.succ_mul ..
    have hmul' : (k + (left + 1)) * v.blksize = (k + left) * v.blksize + v.blksize := Nat.succ_mul ..
    have hbytes := haddr.bytes g
    have hprev : Addressable v (k + left) := haddr.mono (Nat.le_succ _)
    have hmap := datablockAddr_back g hprev (i := i) (by omega)
      (by change oldsz ≤ (k + (left + 1)) * v.blksize + i * v.blksize; exact hhi) hsz
    rw [hn] at hmap
    have hcnt : Function.update cnt ino (k + (left + 1)) ino = k + left + 1 := Function.update_self ..
    have hround := contractBlock_round hn2 h hcached
      (hfirst.imp_right fun hf => hf _ _ rfl hmap) hcnt hold hmap
    obtain ⟨l, hok, shrunk⟩ := hround
    simp only [contractLoop, Prog.run_bind]
    generalize hv₁ : (contractBlock ino old _ _).run v = res at hok shrunk
    obtain ⟨rc, v₁⟩ := res
    obtain rfl : rc = .ok := hok
    have hq : DataPlace n old.place (k + left) := hold.place
    have hstep : Contracted n ino cnt all (k + left) (k + left + 1) v free v₁ l :=
      Shrunk.contracted (by omega) (hn ▸ Addressable.lt_maxBlocks haddr) hq shrunk
    have hb := hstep.frame.blksize
    have hne : inoPaths ino (newPlaces old.place) ≠ [] :=
      List.ne_nil_of_mem (mem_inoPaths.mpr ⟨rfl, mem_newPlaces hq⟩)
    obtain ⟨v₂, l₂, hrun, hrest⟩ := ih (i + 1) hstep.owned (by rw [VDisk.nidx, hb]; exact hn)
      ((hstep.frame.cached ino).mpr hcached) (.inl (shrunk.ne_nil hne)) hmap (by rw [hb]; omega)
      (by rw [hb]; omega) (Addressable.congr hprev hb) (by rwa [hb])
    exact ⟨v₂, l₂, hrun, hstep.trans (Nat.le_add_right ..) hrest⟩

end Loops

section Whole

variable {v v₁ : VDisk} {ino i newsz : Nat} {cnt : Nat → Nat} {D : Set BlockPath} {hand : List Nat}
  {free free' : List Nat} {all : Set Nat} {g : Minode → Minode}

theorem addr_setMinode (hg : ∀ m, (g m).inodeNumber = m.inodeNumber ∧
    (g m).dinode.addr = m.dinode.addr) : ((v.setMinode ino g).inode i).addr = (v.inode i).addr := by
  have hnum : ∀ m : Minode, m.inodeNumber = ino → (g m).inodeNumber = ino :=
    fun m hm => (hg m).1.trans hm
  by_cases hi : i = ino
  · subst hi
    cases hm : v.minode? i with
    | none =>
      rw [VDisk.inode_none hm, VDisk.inode_none (by rw [VDisk.minode?_setMinode_same hnum, hm]; rfl)]
      rfl
    | some m =>
      rw [VDisk.inode_some hm, VDisk.inode_some (by rw [VDisk.minode?_setMinode_same hnum, hm]; rfl)]
      exact (hg m).2
  · simp only [VDisk.inode, VDisk.minode?_setMinode_other hnum hi]
    rfl

theorem forest_setMinode (hg : ∀ m, (g m).inodeNumber = m.inodeNumber ∧
    (g m).dinode.addr = m.dinode.addr) : (v.setMinode ino g).forest = v.forest := by
  have hroot : (v.setMinode ino g).forest.root = v.forest.root := by
    funext ⟨i, r⟩
    change Dinode.addrAt _ r = Dinode.addrAt _ r
    simp only [Dinode.addrAt, addr_setMinode hg]
  simp only [VDisk.forest] at hroot ⊢
  rw [hroot, VDisk.setMinode_word]

/-- Changes to a handle that leave the address list alone. -/
theorem Owned.setMinode (h : Owned v D hand free all) (hg : ∀ m, (g m).inodeNumber = m.inodeNumber ∧
    (g m).dinode.addr = m.dinode.addr) : Owned (v.setMinode ino g) D hand free all := by
  refine h.relist (h.geometry.congr rfl ⟨_, _, _, _, rfl⟩) ⟨h.live.faults, h.live.writable⟩
    (h.list.congr rfl rfl) (.refl _) ?_ fun _ => rfl
  rw [forest_setMinode hg]
  exact ⟨fun _ _ => rfl, fun _ _ _ _ => rfl⟩

section WrittenBack

variable (h : Owned v D hand free all) (hnum : ∀ p ∈ D, InodeNumber v p.1.1)
  (hino : InodeNumber v ino) (hcached : v.Cached ino)
include h hino

theorem Owned.blocks_writtenBack {b : Nat} (hb : b ∈ all) :
    (v.writtenBack ino).io.blocks b = v.io.blocks b :=
  Ufs370.blocks_writtenBack hino (h.data_of_mem hb)

include hnum hcached

theorem Owned.agree_writtenBack : Agree D v.forest (v.writtenBack ino).forest := by
  refine ⟨fun ⟨i, r⟩ hp => ?_, fun r is i hp => ?_⟩
  · change Dinode.addrAt _ r = Dinode.addrAt _ r
    rw [inode_writtenBack h.geometry hino hcached (.inr (hnum _ hp))]
  · exact congrArg (Bytes.word · i)
      (h.blocks_writtenBack hino (h.node_mem (h.partition.closed r is i hp)))

theorem Owned.writtenBack : Owned (v.writtenBack ino) D hand free all := by
  have hfree : v.slotBlock ino ∉ free := fun hmem => Nat.not_lt.mpr
    (h.data_of_mem (h.reserve (List.mem_append_right _ hmem))) (slotBlock_lt hino)
  exact h.relist (h.geometry.congr rfl ⟨_, _, _, _, rfl⟩) ⟨h.live.faults, h.live.writable⟩
    ((h.list.setBlock hfree _).congr rfl rfl) (.refl _) (h.agree_writtenBack hnum hino hcached)
    fun _ => rfl

end WrittenBack

/-- From `v` to `v'` inode `ino` got the size `newsz`. -/
structure Resized (cnt : Nat → Nat) (all : Set Nat) (ino newsz : Nat) (v : VDisk) (free : List Nat)
    (v' : VDisk) (free' : List Nat) : Prop where
  owned : Owned v' (Within v.nidx (Function.update cnt ino (ceil newsz v.blksize))) [] free' all
  blksize : v'.blksize = v.blksize
  super : v'.super = v.super
  sb : ∃ n f t m, v'.sb = { v.sb with
    nfreeblock := n, freeblock := f, totalFreeblock := t, modified := m }
  own : ∃ d a, v'.minode? ino = (v.minode? ino).map fun m => { m with
    dirty := d, dinode := { m.dinode with addr := a, filesize := UInt32.ofNat newsz } }
  other : ∀ i, i ≠ ino → v'.minode? i = v.minode? i
  numbers : v'.minodes.map Minode.inodeNumber = v.minodes.map Minode.inodeNumber
  slot : ∀ i, i ≠ ino → InodeNumber v i → v'.slot i = v.slot i
  synced : v' = v ∨ v'.slot ino = v'.inode ino
  node : ∀ p ∈ Within v.nidx (Function.update cnt ino (min (cnt ino) (ceil newsz v.blksize))),
    v'.forest.node p = v.forest.node p
  data : ∀ p ∈ Within v.nidx (Function.update cnt ino (min (cnt ino) (ceil newsz v.blksize))),
    (p.1.1 = ino → p.2.length = height naddrDirect p.1.2) →
      v'.io.blocks (v.forest.node p) = v.io.blocks (v.forest.node p)
  zero : ∀ m q, cnt ino ≤ m → m < ceil newsz v.blksize → DataPlace v.nidx q m →
    v'.io.blocks (v'.forest.node ((ino, q.1), q.2)) = zeroBlock
  length : free.length + (placesOf v.nidx (cnt ino)).length =
    free'.length + (placesOf v.nidx (ceil newsz v.blksize)).length

/-- From `v` to `v'` inode `ino` was refused more blocks; those that it had are still there. -/
structure Exhausted (cnt : Nat → Nat) (ino : Nat) (v v' : VDisk) : Prop where
  owned : ∃ all, Owned v' (Within v.nidx cnt) [] [] all
  blksize : v'.blksize = v.blksize
  sb : ∃ n f t m, v'.sb = { v.sb with
    nfreeblock := n, freeblock := f, totalFreeblock := t, modified := m }
  own : ∃ a, v'.minode? ino = (v.minode? ino).map fun m => { m with dinode := { m.dinode with addr := a } }
  other : ∀ i, i ≠ ino → v'.minode? i = v.minode? i
  low : ∀ b, b < v.sb.datablockStartSector → v'.io.blocks b = v.io.blocks b
  node : ∀ p ∈ Within v.nidx cnt, v'.forest.node p = v.forest.node p
  data : ∀ p ∈ Within v.nidx cnt, (p.1.1 = ino → p.2.length = height naddrDirect p.1.2) →
    v'.io.blocks (v.forest.node p) = v.io.blocks (v.forest.node p)

theorem Stuck.exhausted (h : Stuck ino (Within v.nidx cnt) v v₁) (hcached : v.Cached ino) :
    Exhausted cnt ino v v₁ where
  owned := h.owned
  blksize := h.frame.blksize
  sb := h.frame.sb
  own := by
    obtain ⟨f, hf, hm⟩ := h.frame.minode?_own
    obtain ⟨a, ha⟩ := hf (v.deref ino).dinode
    exact ⟨a, by rw [hm, hcached.deref, Option.map_some, Option.map_some, ha]⟩
  other _ hi := h.frame.minode?_other hi
  low := h.frame.low
  node := h.frame.node
  data := h.frame.data

/-- Giving the inode its old address list back changes none of its blocks. -/
theorem Stuck.restored (h : Stuck ino (Within v.nidx cnt) v v₁) (hcached : v.Cached ino) :
    Exhausted cnt ino v (v₁.setMinode ino fun _ => v.deref ino) := by
  have hnumber : ∀ m : Minode, m.inodeNumber = ino → (v.deref ino).inodeNumber = ino :=
    fun _ _ => VDisk.minode?_number hcached.deref
  have hcached₁ : v₁.Cached ino := (h.frame.cached ino).mpr hcached
  have hown : (v₁.setMinode ino fun _ => v.deref ino).minode? ino = v.minode? ino := by
    rw [VDisk.minode?_setMinode_same hnumber, hcached₁.deref, hcached.deref, Option.map_some]
  have hother : ∀ i, i ≠ ino → (v₁.setMinode ino fun _ => v.deref ino).minode? i = v₁.minode? i :=
    fun i hi => VDisk.minode?_setMinode_other hnumber hi
  have hagree : Agree (Within v.nidx cnt) v₁.forest (v₁.setMinode ino fun _ => v.deref ino).forest := by
    refine ⟨fun ⟨i, r⟩ hp => ?_, fun r is i _ => rfl⟩
    have hold : (v₁.inode i).addrAt r = (v.inode i).addrAt r := h.frame.node _ hp
    change ((v₁.setMinode ino fun _ => v.deref ino).inode i).addrAt r = (v₁.inode i).addrAt r
    by_cases hi : i = ino
    · subst hi
      rw [hold, VDisk.inode_some (hown.trans hcached.deref), VDisk.inode_some hcached.deref]
    · simp only [VDisk.inode, hother i hi]
      rfl
  obtain ⟨all, howned⟩ := h.owned
  refine ⟨⟨all, ?_⟩, h.frame.blksize, h.frame.sb, ⟨(v.deref ino).dinode.addr, ?_⟩, fun i hi => ?_,
    h.frame.low, fun p hp => ?_, h.frame.data⟩
  · exact howned.relist (howned.geometry.congr rfl ⟨_, _, _, _, rfl⟩)
      ⟨howned.live.faults, howned.live.writable⟩ (howned.list.congr rfl rfl) (.refl _) hagree fun _ => rfl
  · rw [hown, hcached.deref]
    rfl
  · rw [hother i hi, h.frame.minode?_other hi]
  · rw [hagree.node howned.partition.closed hp, h.frame.node p hp]

/-- A change to the size that is there already. -/
theorem Resized.refl (h : Owned v (Within v.nidx cnt) [] free all) (hcached : v.Cached ino)
    (hcnt : cnt ino = ceil newsz v.blksize) (hsz : (v.inode ino).filesize = UInt32.ofNat newsz) :
    Resized cnt all ino newsz v free v free where
  owned := by rwa [← hcnt, Function.update_eq_self]
  blksize := rfl
  super := rfl
  sb := ⟨_, _, _, _, rfl⟩
  own := by
    refine ⟨(v.deref ino).dirty, (v.inode ino).addr, ?_⟩
    rw [hcached.deref, ← hcached.din, Option.map_some, ← hsz, ← hcached.din]
  other _ _ := rfl
  numbers := rfl
  slot _ _ _ := rfl
  synced := .inl rfl
  node _ _ := rfl
  data _ _ _ := rfl
  zero m q h1 h2 := by omega
  length := by rw [hcnt]

/-- An inode's slot lies below the data blocks. -/
theorem slot_congr (g : Geometry v) (hi : InodeNumber v i) (hb : v₁.blksize = v.blksize)
    (hsb : ∃ n f t m, v₁.sb = { v.sb with
      nfreeblock := n, freeblock := f, totalFreeblock := t, modified := m })
    (hlow : ∀ b, b < v.sb.datablockStartSector → v₁.io.blocks b = v.io.blocks b) :
    v₁.slot i = v.slot i := by
  obtain ⟨_, _, _, _, hsb⟩ := hsb
  have hloc : inodeInquireDiskLocation v₁ i = inodeInquireDiskLocation v i := by
    simp only [inodeInquireDiskLocation, hsb, hb]
  simp only [VDisk.slot, hloc, inquire_location g.table hi, if_true, hlow _ (slotBlock_lt hi)]

theorem Frame.slot {hand : List Nat} (h : Frame ino D hand v v₁) (g : Geometry v)
    (hi : InodeNumber v i) : v₁.slot i = v.slot i := slot_congr g hi h.blksize h.sb h.low

theorem Exhausted.slot (h : Exhausted cnt ino v v₁) (g : Geometry v) (hi : InodeNumber v i) :
    v₁.slot i = v.slot i := slot_congr g hi h.blksize h.sb h.low

theorem InodeNumber.congr {v' : VDisk} (hi : InodeNumber v i) (hb : v'.blksize = v.blksize)
    (hsb : ∃ n f t m, v'.sb = { v.sb with
      nfreeblock := n, freeblock := f, totalFreeblock := t, modified := m }) : InodeNumber v' i := by
  obtain ⟨_, _, _, _, hsb⟩ := hsb
  refine ⟨hi.pos, ?_⟩
  rw [hsb, hb]
  exact hi.slot

theorem setMinode_numbers (hg : ∀ m, (g m).inodeNumber = m.inodeNumber) :
    (v.setMinode ino g).minodes.map Minode.inodeNumber = v.minodes.map Minode.inodeNumber := by
  simp only [VDisk.setMinode, List.map_map]
  congr 1
  funext m
  simp only [Function.comp_apply]
  split
  · exact hg m
  · rfl

/-- The new size is set and written to the disk when the blocks are there. -/
theorem Resized.finish (hframe : Frame ino (Within v.nidx
      (Function.update cnt ino (min (cnt ino) (ceil newsz v.blksize)))) [] v v₁)
    (howned : Owned v₁ (Within v.nidx (Function.update cnt ino (ceil newsz v.blksize))) [] free' all)
    (g : Geometry v) (hnum : ∀ p ∈ Within v.nidx (Function.update cnt ino (ceil newsz v.blksize)),
      InodeNumber v p.1.1) (hino : InodeNumber v ino) (hcached : v.Cached ino) {G : UInt32 → Nat}
    (hG : G (v.inode ino).filesize = newsz)
    (hzero : ∀ m q, cnt ino ≤ m → m < ceil newsz v.blksize → DataPlace v.nidx q m →
      v₁.io.blocks (v₁.forest.node ((ino, q.1), q.2)) = zeroBlock)
    (hlen : free.length + (placesOf v.nidx (cnt ino)).length =
      free'.length + (placesOf v.nidx (ceil newsz v.blksize)).length) :
    Resized cnt all ino newsz v free
      ((v₁.setDinode ino fun d => d.setFilesize (G d.filesize)).writtenBack ino) free' := by
  have hF : ∀ m : Minode, m.inodeNumber = m.inodeNumber ∧
      (m.dinode.setFilesize (G m.dinode.filesize)).addr = m.dinode.addr := fun _ => ⟨rfl, rfl⟩
  have hnum₁ : ∀ i, InodeNumber v i → InodeNumber v₁ i := fun i hi =>
    hi.congr hframe.blksize hframe.sb
  have hcached₁ : v₁.Cached ino := (hframe.cached ino).mpr hcached
  generalize hw : (v₁.setDinode ino fun d => d.setFilesize (G d.filesize)) = w
  have hwowned : Owned w (Within v.nidx (Function.update cnt ino (ceil newsz v.blksize))) [] free'
      all := hw ▸ howned.setMinode hF
  have hwnum : ∀ i, InodeNumber v i → InodeNumber w i := fun i hi =>
    hw ▸ (hnum₁ i hi).congr rfl ⟨_, _, _, _, rfl⟩
  have hwino := hwnum ino hino
  have hwcached : w.Cached ino := hw ▸ VDisk.cached_setDinode.mpr hcached₁
  have hwnumD := fun p hp => hwnum p.1.1 (hnum p hp)
  have hforest : w.forest = v₁.forest := hw ▸ forest_setMinode hF
  have hagree := hwowned.agree_writtenBack hwnumD hwino hwcached
  have hclosed := hwowned.partition.closed
  have hnode : ∀ p ∈ Within v.nidx (Function.update cnt ino (ceil newsz v.blksize)),
      (w.writtenBack ino).forest.node p = v₁.forest.node p := fun p hp => by
    rw [hagree.node hclosed hp, hforest]
  have hblock : ∀ p ∈ Within v.nidx (Function.update cnt ino (ceil newsz v.blksize)),
      (w.writtenBack ino).io.blocks (v₁.forest.node p) = v₁.io.blocks (v₁.forest.node p) :=
    fun p hp => by
      rw [hwowned.blocks_writtenBack hwino (howned.node_mem hp), ← hw]
      rfl
  have hmin : Within v.nidx (Function.update cnt ino (min (cnt ino) (ceil newsz v.blksize))) ⊆
      Within v.nidx (Function.update cnt ino (ceil newsz v.blksize)) :=
    within_mono (update_mono (Nat.min_le_right ..))
  refine ⟨hwowned.writtenBack hwnumD hwino hwcached, ?_, ?_, ?_, ?_, ?_, ?_, ?_, ?_, ?_, ?_, ?_, hlen⟩
  · rw [← hframe.blksize, ← hw]; rfl
  · rw [← hframe.super, ← hw]; rfl
  · obtain ⟨n, f, t, m, hsb⟩ := hframe.sb
    exact ⟨n, f, t, m, by rw [← hsb, ← hw]; rfl⟩
  · obtain ⟨f, hf, hm⟩ := hframe.minode?_own
    obtain ⟨a, ha⟩ := hf (v.deref ino).dinode
    refine ⟨false, a, ?_⟩
    rw [minode?_writtenBack_same, ← hw, VDisk.minode?_setDinode_same, hm, hcached.deref]
    rw [← hcached.din] at hG
    simp only [Option.map_some, ha, Dinode.setFilesize, hG]
  · intro i hi
    rw [minode?_writtenBack_other w hi, ← hw, VDisk.minode?_setDinode_other _ _ _ hi,
      hframe.minode?_other hi]
  · obtain ⟨f, _, hm⟩ := hframe.minodes
    have h1 : (w.writtenBack ino).minodes.map Minode.inodeNumber = w.minodes.map Minode.inodeNumber :=
      setMinode_numbers fun _ => rfl
    have h2 : w.minodes.map Minode.inodeNumber = v₁.minodes.map Minode.inodeNumber := by
      rw [← hw]
      exact setMinode_numbers fun _ => rfl
    rw [h1, h2, hm]
    exact setMinode_numbers fun _ => rfl
  · intro i hi hnumi
    rw [slot_writtenBack_other hwowned.geometry.table hwino (hwnum i hnumi) hi, ← hframe.slot g hnumi, ← hw]
    rfl
  · right
    rw [slot_writtenBack_same hwowned.geometry.table hwino,
      inode_writtenBack hwowned.geometry hwino hwcached (.inl hwcached), hwcached.din]
  · intro p hp
    rw [hnode p (hmin hp), hframe.node p hp]
  · intro p hp hfull
    have := hblock p (hmin hp)
    rw [hframe.node p hp] at this
    rw [this, hframe.data p hp hfull]
  · intro m q h1 h2 hq
    have hmem : ((ino, q.1), q.2) ∈ Within v.nidx (Function.update cnt ino (ceil newsz v.blksize)) :=
      hq.mem_within _ (by simpa using h2)
    rw [hnode _ hmem, hblock _ hmem, hzero m q h1 h2 hq]

/-- A size that a file can have. -/
structure FileSize (v : VDisk) (sz : Nat) : Prop where
  lt : sz < 4294967296
  addr : Addressable v (ceil sz v.blksize)

theorem ceil_mul (sz : Nat) {bs : Nat} (hbs : 0 < bs) :
    sz ≤ ceil sz bs * bs ∧ ceil sz bs * bs < sz + bs := by
  have h := Nat.div_add_mod' (sz + bs - 1) bs
  have hlt := Nat.mod_lt (sz + bs - 1) hbs
  rw [ceil]
  omega

theorem Geometry.blksize_bounds (g : Geometry v) : 512 ≤ v.blksize ∧ v.blksize ≤ 32768 := by
  have := g.blksize_eq
  have := g.nidx_bounds
  omega

theorem FileSize.room (g : Geometry v) {sz : Nat} (h : FileSize v sz) : sz + v.blksize ≤ 4294967296 := by
  have hroom := g.blockSize.room (h.addr.bytes g)
  have := ceil_mul sz g.blockSize.pos
  omega

theorem nblocks_eq (g : Geometry v) {sz : Nat} (hsz : FileSize v sz) :
    nblocks v sz = ceil sz v.blksize := by
  have hroom := hsz.room g
  have hbs := g.blksize_bounds
  have hpow := g.blksize
  have hhigh := g.high
  rw [nblocks, hpow, roundUp_two_pow (by omega) (by rw [← hpow]; omega), Nat.shiftRight_eq_div_pow,
    Nat.mul_div_cancel _ (Nat.pow_pos (by decide)), ceil, ← hpow]
  congr 1
  omega

theorem writeback_run {f : Dinode → Dinode} (h : Owned v D hand free all) (hino : InodeNumber v ino) :
    (inodeWriteback ino).run (v.setDinode ino f) = (.ok, (v.setDinode ino f).writtenBack ino) :=
  inodeWriteback_live (h.geometry.congr rfl ⟨_, _, _, _, rfl⟩) ⟨h.live.faults, h.live.writable⟩
    (hino.congr rfl ⟨_, _, _, _, rfl⟩)

section Spec

variable (h : Owned v (Within v.nidx cnt) [] free all)
  (hnum : ∀ i, cnt i ≠ 0 → InodeNumber v i) (hino : InodeNumber v ino) (hcached : v.Cached ino)
  (hcnt : cnt ino = ceil (v.inode ino).filesize.toNat v.blksize)
  (hold : FileSize v (v.inode ino).filesize.toNat) (hnew : FileSize v newsz)

include hnum hino in
theorem number_within (k : Nat) : ∀ p ∈ Within v.nidx (Function.update cnt ino k),
    InodeNumber v p.1.1 := by
  rintro ⟨⟨i, r⟩, is⟩ ⟨_, hlt⟩
  by_cases hi : i = ino
  · exact hi ▸ hino
  · simp only [Function.update_of_ne hi] at hlt
    exact hnum i (Nat.ne_of_gt (Nat.lt_of_le_of_lt (Nat.zero_le _) hlt))

include h hnum hino hcached hcnt hold hnew

theorem datablockExpand_spec {sz : Nat} (hsz : newsz = (v.inode ino).filesize.toNat + sz) :
    (∃ v', (datablockExpand ino sz).run v = (.enospc, v') ∧
      free.length + (placesOf v.nidx (cnt ino)).length < (placesOf v.nidx (ceil newsz v.blksize)).length ∧
      Exhausted cnt ino v v') ∨
    ∃ v' free', (datablockExpand ino sz).run v = (.ok, v') ∧
      Resized cnt all ino newsz v free v' free' := by
  have g := h.geometry
  have hlt := hnew.lt
  have hpos : 0 < v.blksize := by have := g.blksize_bounds; omega
  have hG : (fun fs : UInt32 => fs.toNat + sz) (v.inode ino).filesize = newsz := hsz.symm
  have hu : u32 ((v.inode ino).filesize.toNat + sz) = newsz := by
    rw [← hsz]
    exact u32_of_lt (by omega)
  have hself : Function.update cnt ino (ceil (v.inode ino).filesize.toNat v.blksize) = cnt := by
    rw [← hcnt, Function.update_eq_self]
  obtain ⟨hlo, hhi⟩ := ceil_mul (v.inode ino).filesize.toNat hpos
  obtain ⟨hlo', hhi'⟩ := ceil_mul newsz hpos
  simp only [datablockExpand, Prog.run_bind, hcached.din, hu, nblocks_eq g hold, nblocks_eq g hnew]
  by_cases heq : ceil (v.inode ino).filesize.toNat v.blksize = ceil newsz v.blksize
  · right
    simp only [heq, if_true, modifyDinode, Prog.run_bind, writeback_run h hino, Prog.run_pure]
    refine ⟨_, free, rfl, .finish (G := fun fs => fs.toNat + sz) (.refl ..) ?_ g
      (number_within hnum hino _) hino hcached hG ?_ ?_⟩
    · rwa [← heq, hself]
    · intro m q h1 h2 _
      omega
    · rw [hcnt, heq]
  · have hle : ceil (v.inode ino).filesize.toNat v.blksize ≤ ceil newsz v.blksize :=
      Nat.div_le_div_right (by omega)
    obtain ⟨left, hleft⟩ := Nat.exists_eq_add_of_le hle
    have hmul : ceil newsz v.blksize * v.blksize =
        ceil (v.inode ino).filesize.toNat v.blksize * v.blksize + left * v.blksize := by
      rw [hleft, Nat.add_mul]
    have hloop := expandLoop_spec left (v.inode ino).filesize.toNat 0 (v.deref ino) (hself.symm ▸ h)
      rfl hcached
      (datablockAddr_mapOf g hold.addr hhi hlo)
      (by simp only [Nat.succ_mul, Nat.zero_mul]; omega)
      (by simp only [Nat.succ_mul, Nat.zero_mul]; omega) (hleft ▸ hnew.addr)
    rw [if_neg heq]
    simp only [hleft, u32sub_of_le (Nat.le_add_right ..), Nat.add_sub_cancel_left, Prog.run_bind]
    rw [hself] at hloop
    rcases hloop with ⟨v₁, w, hrun, hshort, hstuck, hw⟩ | ⟨v₁, l, hrun, grown⟩
    · left
      simp only [hrun, ne_eq, reduceCtorEq, not_false_eq_true, if_true, Prog.run_pure]
      refine ⟨_, rfl, by rwa [hcnt], ?_⟩
      rcases hw with rfl | rfl
      · exact hstuck.exhausted hcached
      · exact hstuck.restored hcached
    · right
      have hino₁ := hino.congr grown.frame.blksize grown.frame.sb
      simp only [hrun, ne_eq, not_true_eq_false, if_false, modifyDinode, Prog.run_bind,
        writeback_run grown.owned hino₁, Prog.run_pure]
      rw [← hleft] at grown
      refine ⟨_, l, rfl, .finish (G := fun fs => fs.toNat + sz) ?_ grown.owned g
        (number_within hnum hino _) hino hcached hG ?_ ?_⟩
      · rw [hcnt, Nat.min_eq_left hle]
        exact grown.frame
      · rw [hcnt]
        exact grown.zero
      · rw [hcnt]
        exact grown.length

theorem datablockContract_spec {sz : Nat}
    (hfirst : ceil newsz v.blksize < ceil (v.inode ino).filesize.toNat v.blksize →
      free ≠ [] ∨ v.EndsChain ino) (hsz : (v.inode ino).filesize.toNat = newsz + sz) :
    ∃ v' free', (datablockContract ino sz).run v = (.ok, v') ∧
      Resized cnt all ino newsz v free v' free' := by
  have g := h.geometry
  have hpos : 0 < v.blksize := by have := g.blksize_bounds; omega
  have hG : (fun fs : UInt32 => u32sub fs.toNat sz) (v.inode ino).filesize = newsz := by
    simp only [hsz, u32sub_of_le (Nat.le_add_left sz newsz), Nat.add_sub_cancel]
  have hself : Function.update cnt ino (ceil (v.inode ino).filesize.toNat v.blksize) = cnt := by
    rw [← hcnt, Function.update_eq_self]
  obtain ⟨hlo, hhi⟩ := ceil_mul (v.inode ino).filesize.toNat hpos
  simp only [datablockContract, Prog.run_bind, hcached.din, nblocks_eq g hold]
  rw [show u32sub (v.inode ino).filesize.toNat sz = newsz from hG, nblocks_eq g hnew]
  by_cases heq : ceil (v.inode ino).filesize.toNat v.blksize = ceil newsz v.blksize
  · simp only [heq, if_true, modifyDinode, Prog.run_bind, writeback_run h hino, Prog.run_pure]
    refine ⟨_, free, rfl, .finish (G := fun fs => u32sub fs.toNat sz) (.refl ..) ?_ g
      (number_within hnum hino _) hino hcached hG ?_ ?_⟩
    · rwa [← heq, hself]
    · intro m q h1 h2 _
      omega
    · rw [hcnt, heq]
  · have hle : ceil newsz v.blksize ≤ ceil (v.inode ino).filesize.toNat v.blksize :=
      Nat.div_le_div_right (by omega)
    have hless : ceil newsz v.blksize < ceil (v.inode ino).filesize.toNat v.blksize := by omega
    have hfirst := hfirst hless
    rw [VDisk.EndsChain] at hfirst
    have hmap := datablockAddr_mapOf g hold.addr hhi hlo
    have hn : 0 < v.nidx := by have := g.nidx_bounds; omega
    obtain ⟨left, hleft⟩ := Nat.exists_eq_add_of_le hle
    have hroom := hold.room g
    obtain ⟨v₁, l, hrun, gone⟩ := contractLoop_spec left _ 0 (k := ceil newsz v.blksize)
      (by rw [← hleft, hself]; exact h) rfl hcached (hfirst.imp_right fun hchain m new hm hnew hlevel => by
        rw [← hleft] at hm
        have hmax := hold.addr.le_maxBlocks
        rw [← hm] at hmax hmap
        have hplace := hmap.place_eq hn (by omega)
        rw [← hm, Nat.add_sub_cancel, ← hplace] at hchain
        refine hchain ?_
        rw [Addrmap.level_place hmap.level_le, hlevel]
        cases m with
        | zero => rw [hnew, placeOf, if_pos (by decide)]; rfl
        | succ m =>
          rw [Nat.add_sub_cancel, ← MapOf.place_eq hn hnew (by omega), Addrmap.level_place hnew.level_le])
      (by rw [← hleft]; exact datablockAddr_mapOf g hold.addr hhi hlo) (by rw [← hleft, Nat.zero_mul]; omega)
      (by rw [← hleft, Nat.zero_mul]; omega) (hleft ▸ hold.addr) hroom
    have hino₁ := hino.congr gone.frame.blksize gone.frame.sb
    rw [if_neg heq]
    simp only [hleft, u32sub_of_le (Nat.le_add_right ..), Nat.add_sub_cancel_left, hrun, modifyDinode,
      Prog.run_bind, writeback_run gone.owned hino₁, Prog.run_pure]
    rw [← hleft] at gone
    refine ⟨_, l, rfl, .finish (G := fun fs => u32sub fs.toNat sz) ?_ gone.owned g
      (number_within hnum hino _) hino hcached hG ?_ ?_⟩
    · rw [hcnt, Nat.min_eq_right hle]
      exact gone.frame
    · intro m q h1 h2 _
      omega
    · rw [hcnt]
      exact gone.length

/-- A change of size works, or no block is left. -/
theorem datablockSizeChange_spec (hup : newsz < (v.inode ino).filesize.toNat + 2147483648)
    (hdown : (v.inode ino).filesize.toNat ≤ newsz + 2147483648)
    (hfirst : ceil newsz v.blksize < ceil (v.inode ino).filesize.toNat v.blksize →
      free ≠ [] ∨ v.EndsChain ino) :
    (∃ rc v', (datablockSizeChange newsz ino).run v = (rc, v') ∧ rc ≠ .ok ∧
      free.length + (placesOf v.nidx (cnt ino)).length < (placesOf v.nidx (ceil newsz v.blksize)).length ∧
      Exhausted cnt ino v v') ∨
    ∃ v' free', (datablockSizeChange newsz ino).run v = (.ok, v') ∧
      Resized cnt all ino newsz v free v' free' := by
  have hlt := hold.lt
  have hlt' := hnew.lt
  simp only [datablockSizeChange, Prog.run_bind, hcached.din]
  rcases Nat.lt_trichotomy newsz (v.inode ino).filesize.toNat with hless | rfl | hmore
  · right
    have hdiff : u32sub newsz (v.inode ino).filesize.toNat =
        4294967296 - ((v.inode ino).filesize.toNat - newsz) := by
      rw [u32sub, if_neg (Nat.not_le.mpr hless)]
      omega
    have h0 : ¬ 4294967296 - ((v.inode ino).filesize.toNat - newsz) = 0 := by omega
    have hneg : ¬ 4294967296 - ((v.inode ino).filesize.toNat - newsz) < 2147483648 := by omega
    rw [hdiff, if_neg h0, if_neg hneg, Nat.sub_sub_self (by omega)]
    exact datablockContract_spec h hnum hino hcached hcnt hold hnew hfirst (by omega)
  · right
    have hdiff : u32sub (v.inode ino).filesize.toNat (v.inode ino).filesize.toNat = 0 := by
      rw [u32sub_of_le (Nat.le_refl _), Nat.sub_self]
    rw [hdiff, if_pos rfl]
    exact ⟨v, free, rfl, .refl h hcached hcnt UInt32.ofNat_toNat.symm⟩
  · have hdiff : u32sub newsz (v.inode ino).filesize.toNat = newsz - (v.inode ino).filesize.toNat :=
      u32sub_of_le (Nat.le_of_lt hmore)
    have h0 : ¬ newsz - (v.inode ino).filesize.toNat = 0 := by omega
    have hsmall : newsz - (v.inode ino).filesize.toNat < 2147483648 := by omega
    rw [hdiff, if_neg h0, if_pos hsmall]
    exact (datablockExpand_spec h hnum hino hcached hcnt hold hnew (by omega)).imp_left
      fun ⟨v', hrun, hshort, hfull⟩ => ⟨_, v', hrun, by decide, hshort, hfull⟩

end Spec

end Whole

end Ufs370
