import Ufs370.Ownership

/-! One more or one less block of an inode: which places come or go with it. -/

namespace Ufs370

open Lib Lib.IndexForest Lib.IndexLayout

/-- The places in use when each inode has a given number of data blocks. -/
def Within (n : Nat) (cnt : Nat → Nat) : Set BlockPath :=
  fun p => (p.1.2, p.2) ∈ needed n naddrDirect (cnt p.1.1)

section Places

variable {n : Nat} {q : Place}

/-- The places that start to be used with the data block at `p`. -/
def newPlaces (p : Place) : List Place :=
  (p.2.inits.filter fun is => (p.2.drop is.length).all (· = 0)).map fun is => (p.1, is)

theorem fill_eq_iff {r : Nat} {is : List Nat} (hlen : is.length = height naddrDirect r) :
    q.2.length ≤ height naddrDirect q.1 ∧ fill naddrDirect q = (r, is) ↔ q ∈ newPlaces (r, is) := by
  obtain ⟨r', js⟩ := q
  simp only [newPlaces, fill, List.mem_map, List.mem_filter, List.mem_inits, Prod.mk.injEq,
    List.all_eq_true, decide_eq_true_eq]
  constructor
  · rintro ⟨_, rfl, rfl⟩
    refine ⟨js, ⟨List.prefix_append .., fun i hi => ?_⟩, rfl, rfl⟩
    rw [List.drop_left'  rfl] at hi
    exact List.eq_of_mem_replicate hi
  · rintro ⟨js', ⟨⟨t, rfl⟩, hz⟩, rfl, rfl⟩
    rw [List.drop_left' rfl] at hz
    rw [List.length_append] at hlen
    refine ⟨by omega, rfl, ?_⟩
    rw [List.append_cancel_left_eq, List.eq_replicate_iff.mpr ⟨rfl, hz⟩]
    congr 1
    omega

theorem mem_newPlaces {n m : Nat} {p : Place} (hp : DataPlace n p m) : p ∈ newPlaces p := by
  obtain ⟨r, is⟩ := p
  have hlen : is.length = height naddrDirect r := hp.full
  refine (fill_eq_iff hp.full).mp ⟨Nat.le_of_eq hlen, ?_⟩
  rw [fill, hlen, Nat.sub_self, List.replicate_zero, List.append_nil]

/-- Consecutive places of data blocks. -/
inductive Next (n : Nat) : Place → Place → Prop
  | direct {r} : r + 1 < 16 → Next n (r, []) (r + 1, [])
  | enter1 : Next n (15, []) (16, [0])
  | next1 {i} : i + 1 < n → Next n (16, [i]) (16, [i + 1])
  | enter2 : Next n (16, [n - 1]) (17, [0, 0])
  | next2 {i j} : i < n → j + 1 < n → Next n (17, [i, j]) (17, [i, j + 1])
  | carry2 {i} : i + 1 < n → Next n (17, [i, n - 1]) (17, [i + 1, 0])
  | enter3 : Next n (17, [n - 1, n - 1]) (18, [0, 0, 0])
  | next3 {i j k} : i < n → j < n → k + 1 < n → Next n (18, [i, j, k]) (18, [i, j, k + 1])
  | carry3 {i j} : i < n → j + 1 < n → Next n (18, [i, j, n - 1]) (18, [i, j + 1, 0])
  | carry33 {i} : i + 1 < n → Next n (18, [i, n - 1, n - 1]) (18, [i + 1, 0, 0])

theorem DataPlace.eq {m m' : Nat} {q' : Place} (h : DataPlace n q m) (h' : DataPlace n q' m')
    (hm : m' = m) : q = q' := h.unique (hm ▸ h')

/-- The maps of consecutive sizes point to consecutive places. -/
theorem Addrmap.IsBlock.next {m : Nat} {old new : Addrmap} (hn : 2 ≤ n) (hold : old.IsBlock n m)
    (hnew : new.IsBlock n (m + 1)) : Next n old.place new.place := by
  obtain ⟨hlevel, hnew⟩ := hnew
  obtain ⟨_, hold⟩ := hold
  generalize old.place = p at hold ⊢
  have hindex := hnew.valid.index
  rcases new with ⟨_ | _ | _ | _ | level, index⟩
  · -- a direct block
    simp only [Addrmap.place] at hnew ⊢
    have hfull : 0 = index 0 + 1 - 16 := hnew.full
    obtain heq : index 0 = m + 1 := by
      rw [← hnew.block]
      exact (base_direct n (by simp only [naddrDirect]; omega)).symm
    rw [heq, hold.eq (DataPlace.direct n (i := m) (by omega)) rfl]
    exact .direct (by omega)
  · -- the tree of height 1
    simp only [Addrmap.place] at hnew hindex ⊢
    have hi : index 0 < n := hindex _ (by simp)
    have hm := hnew.block.symm.trans (DataPlace.index1 hi).block
    cases h0 : index 0 with
    | zero =>
      rw [hold.eq (DataPlace.direct n (i := 15) (by omega)) (by omega)]
      exact .enter1
    | succ i =>
      rw [hold.eq (DataPlace.index1 (i := i) (by omega)) (by omega)]
      exact .next1 (by omega)
  · -- the tree of height 2
    simp only [Addrmap.place] at hnew hindex ⊢
    have hi : index 0 < n := hindex _ (by simp)
    have hj : index 1 < n := hindex _ (by simp)
    have hm := hnew.block.symm.trans (DataPlace.index2 hi hj).block
    rcases h1 : index 1 with _ | j
    · rcases h0 : index 0 with _ | i
      · rw [h0, h1] at hm
        rw [hold.eq (DataPlace.index1 (i := n - 1) (by omega)) (by omega)]
        exact .enter2
      · rw [h0, h1, Nat.succ_mul] at hm
        rw [hold.eq (DataPlace.index2 (i := i) (j := n - 1) (by omega) (by omega)) (by omega)]
        exact .carry2 (by omega)
    · rw [h1] at hm
      rw [hold.eq (DataPlace.index2 (i := index 0) (j := j) hi (by omega)) (by omega)]
      exact .next2 hi (by omega)
  · -- the tree of height 3
    simp only [Addrmap.place] at hnew hindex ⊢
    have hi : index 0 < n := hindex _ (by simp)
    have hj : index 1 < n := hindex _ (by simp)
    have hk : index 2 < n := hindex _ (by simp)
    have hm := hnew.block.symm.trans (DataPlace.index3 hi hj hk).block
    have hsq : n ^ 2 = (n - 1) * n + n := by
      rw [← Nat.succ_mul, Nat.succ_eq_add_one, Nat.sub_add_cancel (by omega), Nat.pow_two]
    rcases h2 : index 2 with _ | k
    · rcases h1 : index 1 with _ | j
      · rcases h0 : index 0 with _ | i
        · rw [h0, h1, h2] at hm
          rw [hold.eq (DataPlace.index2 (i := n - 1) (j := n - 1) (by omega) (by omega))
            (by omega)]
          exact .enter3
        · rw [h0, h1, h2, Nat.succ_mul] at hm
          rw [hold.eq (DataPlace.index3 (i := i) (j := n - 1) (k := n - 1) (by omega) (by omega)
            (by omega)) (by omega)]
          exact .carry33 (by omega)
      · rw [h1, h2, Nat.succ_mul] at hm
        rw [hold.eq (DataPlace.index3 (i := index 0) (j := j) (k := n - 1) hi (by omega)
          (by omega)) (by omega)]
        exact .carry3 hi (by omega)
    · rw [h2] at hm
      rw [hold.eq (DataPlace.index3 (i := index 0) (j := index 1) (k := k) hi hj (by omega))
        (by omega)]
      exact .next3 hi hj (by omega)
  · exact absurd hlevel (by simp)

theorem Valid.of_newPlaces {p : Place} (hp : Valid n naddrDirect p)
    (hlen : p.2.length = height naddrDirect p.1) (hq : q ∈ newPlaces p) : Valid n naddrDirect q := by
  refine ⟨((fill_eq_iff hlen).mpr hq).1, fun i hi => ?_⟩
  simp only [newPlaces, List.mem_map, List.mem_filter, List.mem_inits] at hq
  obtain ⟨is, ⟨hpre, _⟩, rfl⟩ := hq
  exact hp.index i (hpre.subset hi)

variable {cnt : Nat → Nat} {ino : Nat} {p : Place}

theorem mem_within {x : BlockPath} : x ∈ Within n cnt ↔
    Valid n naddrDirect (x.1.2, x.2) ∧ firstBlock n naddrDirect (x.1.2, x.2) < cnt x.1.1 := Iff.rfl

theorem within_closed (n : Nat) (cnt : Nat → Nat) : Closed (Within n cnt) := by
  rintro r is i ⟨hvalid, hlt⟩
  exact ⟨hvalid.of_snoc, Nat.lt_of_le_of_lt (firstBlock_snoc_le ..) hlt⟩

/-- One more block of an inode. -/
theorem mem_within_succ (hn : 0 < n) (hp : DataPlace n p (cnt ino)) {x : BlockPath} :
    x ∈ Within n (Function.update cnt ino (cnt ino + 1)) ↔
      x.1.1 = ino ∧ (x.1.2, x.2) ∈ newPlaces p ∨ x ∈ Within n cnt := by
  obtain ⟨⟨i, r⟩, is⟩ := x
  by_cases hi : i = ino
  · subst hi
    have hset := Set.ext_iff.mp (needed_succ hn hp.valid hp.full hp.block) (r, is)
    have hnew : Valid n naddrDirect (r, is) ∧ fill naddrDirect (r, is) = p ↔ (r, is) ∈ newPlaces p := by
      rw [← fill_eq_iff hp.full]
      refine ⟨fun h => ⟨h.1.length, h.2⟩, fun h => ⟨?_, h.2⟩⟩
      exact Valid.of_newPlaces hp.valid hp.full ((fill_eq_iff hp.full).mp h)
    rw [mem_within, mem_within, Function.update_self, ← hnew]
    simp only [true_and]
    exact hset
  · have hcnt : Function.update cnt ino (cnt ino + 1) i = cnt i := Function.update_of_ne hi ..
    rw [mem_within, mem_within, hcnt]
    simp only [hi, false_and, false_or]

theorem newPlaces_fresh (hp : DataPlace n p (cnt ino)) (hq : q ∈ newPlaces p) :
    ((ino, q.1), q.2) ∉ Within n cnt := by
  rintro ⟨_, hlt⟩
  have hfill := ((fill_eq_iff hp.full).mpr hq).2
  have hfirst : firstBlock n naddrDirect q = cnt ino := by
    rw [← firstBlock_fill, hfill]
    exact hp.block
  exact Nat.lt_irrefl _ (hfirst ▸ hlt)

/-- What is above a new place is new too, or in use already. -/
theorem newPlaces_parent (hn : 0 < n) (hp : DataPlace n p (cnt ino)) (r : Nat) (is : List Nat)
    (i : Nat) (hq : (r, is ++ [i]) ∈ newPlaces p) (hparent : (r, is) ∉ newPlaces p) :
    ((ino, r), is) ∈ Within n cnt := by
  have hmem : ((ino, r), is ++ [i]) ∈ Within n (Function.update cnt ino (cnt ino + 1)) :=
    (mem_within_succ hn hp).mpr (.inl ⟨rfl, hq⟩)
  exact ((mem_within_succ hn hp).mp (within_closed _ _ _ _ _ hmem)).resolve_left fun h => hparent h.2

/-- The level and the indices of a map, by its place. -/
theorem Addrmap.place_direct {map : Addrmap} {r : Nat} (h : map.place = (r, [])) :
    map.level = 0 ∧ map.index 0 = r := by
  rcases map with ⟨_ | _ | _ | level, index⟩ <;> simp_all [Addrmap.place]

theorem Addrmap.place_index1 {map : Addrmap} {r i : Nat} (h : map.place = (r, [i])) :
    map.level = 1 ∧ map.index 0 = i := by
  rcases map with ⟨_ | _ | _ | level, index⟩ <;> simp_all [Addrmap.place]

theorem Addrmap.place_index2 {map : Addrmap} {r i j : Nat} (h : map.place = (r, [i, j])) :
    map.level = 2 ∧ map.index 0 = i ∧ map.index 1 = j := by
  rcases map with ⟨_ | _ | _ | level, index⟩ <;> simp_all [Addrmap.place]

theorem Addrmap.place_index3 {map : Addrmap} {r i j k : Nat} (hlevel : map.level ≤ 3)
    (h : map.place = (r, [i, j, k])) :
    map.level = 3 ∧ map.index 0 = i ∧ map.index 1 = j ∧ map.index 2 = k := by
  rcases map with ⟨_ | _ | _ | _ | level, index⟩
  · simp_all [Addrmap.place]
  · simp_all [Addrmap.place]
  · simp_all [Addrmap.place]
  · simp_all [Addrmap.place]
  · exact absurd hlevel (Nat.not_le_of_lt (Nat.le_add_left 4 level))

end Places

section Grow

variable {v : VDisk} {n ino : Nat} {D : Set BlockPath} {free : List Nat} {all : Set Nat}

/-- From `v` to `v'` inode `ino` got the places `qs`, each with a block from the free list. -/
structure Grown (ino : Nat) (D : Set BlockPath) (v : VDisk) (free : List Nat) (all : Set Nat)
    (qs : List BlockPath) (v' : VDisk) (free' : List Nat) : Prop where
  owned : Owned v' {x | x ∈ qs ∨ x ∈ D} [] free' all
  closed : Closed D
  frame : Frame ino D [] v v'
  length : free.length = free'.length + qs.length

theorem Grown.start (h : Owned v D [] free all) : Grown ino D v free all [] v free where
  owned := by simpa using h
  closed := h.partition.closed
  frame := .refl ..
  length := rfl

variable {qs : List BlockPath} {v' : VDisk} {b r : Nat} {l : List Nat} {cnt : Nat → Nat}
  {old new : Addrmap}

theorem Grown.node (g : Grown ino D v free all qs v' l) {x : BlockPath} (hx : x ∈ D) :
    v'.forest.node x = v.forest.node x := g.frame.node x hx

theorem insert_snoc (q : BlockPath) : insert q {x | x ∈ qs ∨ x ∈ D} = {x | x ∈ qs ++ [q] ∨ x ∈ D} := by
  ext x
  simp only [Set.mem_insert_iff, Set.mem_ofPred_eq, List.mem_append, List.mem_singleton]
  tauto

/-- One more entry of an index block. -/
theorem Grown.leaf (g : Grown ino D v free all qs v' (b :: l)) {is : List Nat} {i : Nat}
    (hp : ((ino, r), is) ∈ qs ∨ ((ino, r), is) ∈ D) (hq : ((ino, r), is ++ [i]) ∉ qs)
    (hD : ((ino, r), is ++ [i]) ∉ D) (hidx : is.length < height naddrDirect r) :
    ∃ v'', (datablockAddLeaf (v'.forest.node ((ino, r), is)) i).run v' = (b, v'') ∧ b ≠ 0 ∧
      Grown ino D v free all (qs ++ [((ino, r), is ++ [i])]) v'' l ∧ v''.io.blocks b = zeroBlock ∧
      v''.forest.node ((ino, r), is ++ [i]) = b ∧
      ∀ x, x ∈ qs ∨ x ∈ D → v''.forest.node x = v'.forest.node x := by
  have hfresh : ((ino, r), is ++ [i]) ∉ {x | x ∈ qs ∨ x ∈ D} := fun h => h.elim hq hD
  obtain ⟨v'', hrun, howned, hframe, hzero, hnode⟩ := g.owned.addLeaf_cons hp hfresh hidx
  have hb : b ≠ 0 := Nat.ne_of_gt (g.owned.pos_of_mem (g.owned.reserve (List.mem_cons_self ..)))
  refine ⟨v'', hrun, hb, ⟨insert_snoc _ ▸ howned, g.closed, ?_, ?_⟩, hzero, hnode, hframe.node⟩
  · exact g.frame.trans hframe (Set.Subset.refl _) (fun x hx => .inr hx) (List.Subset.refl _)
      (List.Subset.refl _)
  · have := g.length
    simp only [List.length_cons, List.length_append, List.length_nil] at this ⊢
    omega

/-- The first block behind a slot. -/
theorem Grown.root (g : Grown ino D v free all qs v' (b :: l)) (hcached : v.Cached ino) (hr : r < 19)
    (hq : ((ino, r), []) ∉ qs) (hD : ((ino, r), []) ∉ D) :
    ∃ v₁ v'', datablockAllocate.run v' = ((.ok, b), v₁) ∧
      v'' = v₁.setDinode ino (fun d => d.setAddr r b) ∧ b ≠ 0 ∧
      Grown ino D v free all (qs ++ [((ino, r), [])]) v'' l ∧ v''.io.blocks b = zeroBlock ∧
      v''.forest.node ((ino, r), []) = b := by
  have hfresh : ((ino, r), []) ∉ {x | x ∈ qs ∨ x ∈ D} := fun h => h.elim hq hD
  obtain ⟨v₁, hrun, howned, hframe, hzero, _⟩ := g.owned.allocate_cons ino
  have hcached₁ : v₁.Cached ino := (hframe.cached ino).mpr ((g.frame.cached ino).mpr hcached)
  obtain ⟨howned', hframe'⟩ := howned.setRoot hcached₁ hr hfresh
  have hball := g.owned.reserve (List.mem_cons_self (a := b) (l := l))
  refine ⟨v₁, _, hrun, rfl, Nat.ne_of_gt (g.owned.pos_of_mem hball),
    ⟨insert_snoc _ ▸ howned', g.closed, ?_, ?_⟩, hzero,
    VDisk.addrAt_setAddr_same hcached₁ hr (g.owned.lt_of_mem hball)⟩
  · exact (g.frame.trans hframe (Set.Subset.refl _) (fun x hx => .inr hx) (List.Subset.refl _)
      (List.Subset.refl _)).trans hframe' (Set.Subset.refl _) (fun x hx => .inr hx)
      (List.Subset.refl _) (List.Subset.refl _)
  · have := g.length
    simp only [List.length_cons, List.length_append, List.length_nil] at this ⊢
    omega

/-- The places of an inode as paths. -/
def inoPaths (ino : Nat) (qs : List Place) : List BlockPath := qs.map fun q => ((ino, q.1), q.2)

/-- `ufs_datablock_link`s one after the other. -/
def followLinks : Nat → List Nat → Prog VDisk Nat
  | up, [] => return up
  | up, i :: is => do followLinks (← datablockLink up i) is

/-- A new entry `i` of the index block at `is` under `up`. -/
def addAt (up : Nat) (is : List Nat) (i : Nat) : Prog VDisk Nat := do
  datablockAddLeaf (← followLinks up is) i

theorem link_run (hv : v.Live) (up i : Nat) : ∃ x, (datablockLink up i).run v = (x, v) := by
  simp only [datablockLink, Prog.run_bind]
  by_cases h : datablockNumberSanity v up
  · simp only [h, Bool.not_true, Bool.false_eq_true, if_false, readBuf_live hv, Prog.run_bind,
      Prog.run_pure]
    exact ⟨_, rfl⟩
  · exact ⟨0, by simp [h]⟩

theorem followLinks_run (hv : v.Live) (up : Nat) (is : List Nat) :
    ∃ x, (followLinks up is).run v = (x, v) := by
  induction is generalizing up with
  | nil => exact ⟨up, rfl⟩
  | cons i is ih =>
    obtain ⟨x, hx⟩ := link_run hv up i
    obtain ⟨y, hy⟩ := ih x
    exact ⟨y, by simp only [followLinks, Prog.run_bind, hx, hy]⟩

theorem Owned.followLinks {hand : List Nat} {r : Nat × Nat} (h : Owned v D hand free all)
    (is js : List Nat) (hp : (r, is ++ js) ∈ D) :
    (followLinks (v.forest.node (r, is)) js).run v = (v.forest.node (r, is ++ js), v) := by
  induction js generalizing is with
  | nil => rw [List.append_nil]; rfl
  | cons j js ih =>
    rw [List.append_cons] at hp ⊢
    have hj : (r, is ++ [j]) ∈ D := by
      clear ih
      induction js using List.reverseRecOn with
      | nil => simpa using hp
      | append_singleton js k ih => exact ih (h.partition.closed _ _ k (by simpa using hp))
    simp only [Ufs370.followLinks, Prog.run_bind, h.link hj, ih _ hp]

/-- Nothing is left to allocate, and the places of `D` are as they were in `v`. -/
structure Stuck (ino : Nat) (D : Set BlockPath) (v v' : VDisk) : Prop where
  owned : ∃ all, Owned v' D [] [] all
  frame : Frame ino D [] v v'

theorem Grown.stuck (g : Grown ino D v free all qs v' []) : Stuck ino D v v' :=
  ⟨⟨_, g.owned.restrict (fun _ => .inr) g.closed⟩, g.frame⟩

theorem Stuck.addLeaf (h : Stuck ino D v v') (up i : Nat) :
    (datablockAddLeaf up i).run v' = (0, v') := by
  obtain ⟨all, h⟩ := h.owned
  exact h.addLeaf_nil up i

theorem Stuck.addAt (h : Stuck ino D v v') (up : Nat) (is : List Nat) (i : Nat) :
    (addAt up is i).run v' = (0, v') := by
  obtain ⟨all, hown⟩ := h.owned
  obtain ⟨x, hx⟩ := followLinks_run hown.live up is
  simp only [Ufs370.addAt, Prog.run_bind, hx, h.addLeaf]

/-- All blocks that were free have gone into new places. -/
theorem Grown.used (g : Grown ino D v free all qs v' []) : free.length = qs.length := by
  rw [g.length, List.length_nil, Nat.zero_add]

/-- The outcome of a program that is to add a block. -/
def Adds (ino : Nat) (D : Set BlockPath) (v : VDisk) (free : List Nat) (all : Set Nat)
    (qs : List BlockPath) (q : BlockPath) (res : Nat × VDisk) : Prop :=
  (res.1 = 0 ∧ Stuck ino D v res.2 ∧ free.length < qs.length) ∨
  ∃ l, res.1 ≠ 0 ∧ Grown ino D v free all qs res.2 l ∧
    res.2.io.blocks res.1 = zeroBlock ∧ res.2.forest.node q = res.1

theorem Grown.addAt {idx : Nat} {is : List Nat} {i : Nat} (g : Grown ino D v free all qs v' l)
    (hroot : ((ino, r), []) ∈ D) (hidx : idx = v.forest.node ((ino, r), []))
    (hp : ((ino, r), is) ∈ qs ∨ ((ino, r), is) ∈ D) (hq : ((ino, r), is ++ [i]) ∉ qs)
    (hD : ((ino, r), is ++ [i]) ∉ D) (hlen : is.length < height naddrDirect r) :
    Adds ino D v free all (qs ++ [((ino, r), is ++ [i])]) ((ino, r), is ++ [i])
      ((Ufs370.addAt idx is i).run v') := by
  have hfollow := g.owned.followLinks (r := (ino, r)) [] is hp
  rw [g.node hroot, ← hidx, List.nil_append] at hfollow
  rcases l with _ | ⟨b, l⟩
  · left
    rw [g.stuck.addAt, g.used, List.length_append]
    exact ⟨rfl, g.stuck, Nat.lt_succ_self _⟩
  · right
    obtain ⟨v'', hrun, hb, g', hzero, hnode, _⟩ := g.leaf hp hq hD hlen
    simp only [Ufs370.addAt, Prog.run_bind, hfollow, hrun]
    exact ⟨l, hb, g', hzero, hnode⟩

/-- New entries one after the other, of which the last one counts. -/
def addAts (up : Nat) : List (List Nat × Nat) → Prog VDisk Nat
  | [] => return 0
  | [(is, i)] => addAt up is i
  | (is, i) :: p :: ps => do
    let _ ← addAt up is i
    addAts up (p :: ps)

theorem Stuck.addAts (h : Stuck ino D v v') (up : Nat) (ps : List (List Nat × Nat)) :
    (addAts up ps).run v' = (0, v') := by
  induction ps with
  | nil => rfl
  | cons p ps ih =>
    cases ps with
    | nil => exact h.addAt up p.1 p.2
    | cons p' ps => simp only [Ufs370.addAts, Prog.run_bind, h.addAt, ih]

/-- Each entry is new and in a block that is there by then. -/
def Attachable (ino r : Nat) (D : Set BlockPath) : List BlockPath → List (List Nat × Nat) → Prop
  | _, [] => True
  | qs, (is, i) :: ps =>
    (((ino, r), is) ∈ qs ∨ ((ino, r), is) ∈ D) ∧ ((ino, r), is ++ [i]) ∉ qs ∧
      ((ino, r), is ++ [i]) ∉ D ∧ is.length < height naddrDirect r ∧
      Attachable ino r D (qs ++ [((ino, r), is ++ [i])]) ps

theorem Grown.addAts {idx : Nat} (g : Grown ino D v free all qs v' l) (hroot : ((ino, r), []) ∈ D)
    (hidx : idx = v.forest.node ((ino, r), [])) (p : List Nat × Nat) (ps : List (List Nat × Nat))
    (hps : Attachable ino r D qs (p :: ps)) :
    Adds ino D v free all (qs ++ (p :: ps).map fun p => ((ino, r), p.1 ++ [p.2]))
      ((ino, r), ((p :: ps).getLast (List.cons_ne_nil _ _)).1 ++
        [((p :: ps).getLast (List.cons_ne_nil _ _)).2]) ((Ufs370.addAts idx (p :: ps)).run v') := by
  induction ps generalizing qs v' l p with
  | nil =>
    obtain ⟨hp, hq, hD, hlen, _⟩ := hps
    exact g.addAt hroot hidx hp hq hD hlen
  | cons p' ps ih =>
    obtain ⟨hp, hq, hD, hlen, hrest⟩ := hps
    simp only [Ufs370.addAts, Prog.run_bind]
    rcases g.addAt hroot hidx hp hq hD hlen with ⟨_, hstuck, hshort⟩ | ⟨l', _, g', _, _⟩
    · left
      rw [hstuck.addAts]
      refine ⟨rfl, hstuck, Nat.lt_of_lt_of_le hshort ?_⟩
      simp only [List.length_append, List.length_map, List.length_cons, List.length_nil]
      omega
    · simpa only [List.append_assoc, List.singleton_append, List.map_cons, List.getLast_cons_cons]
        using ih g' p' hrest

/-- The outcome of one round of the loop of `ufs_datablock_expand`: the new data block is
at `p`, or there is no room for it. -/
def BlockAdded (ino : Nat) (D : Set BlockPath) (v : VDisk) (free : List Nat) (all : Set Nat)
    (p : Place) (res : (Rc × Nat) × VDisk) : Prop :=
  (res.1.1 = .enospc ∨ res.1.1 = .ok ∧ res.1.2 = 0) ∧ Stuck ino D v res.2 ∧
    free.length < (newPlaces p).length ∨
  ∃ l, res.1.1 = .ok ∧ res.1.2 ≠ 0 ∧ Grown ino D v free all (inoPaths ino (newPlaces p)) res.2 l ∧
    res.2.io.blocks res.1.2 = zeroBlock ∧ res.2.forest.node ((ino, p.1), p.2) = res.1.2

theorem Adds.blockAdded {p : Place} {res : Nat × VDisk} {q : BlockPath}
    (h : Adds ino D v free all qs q res) (hqs : qs = inoPaths ino (newPlaces p))
    (hq : q = ((ino, p.1), p.2)) : BlockAdded ino D v free all p ((.ok, res.1), res.2) := by
  subst hqs hq
  rcases h with ⟨h0, hstuck, hshort⟩ | ⟨l, h0, g, hzero, hnode⟩
  · rw [inoPaths, List.length_map] at hshort
    exact .inl ⟨.inr ⟨rfl, h0⟩, hstuck, hshort⟩
  · exact .inr ⟨l, rfl, h0, g, hzero, hnode⟩

/-- Index blocks with one entry each, one below the other, and the data block under them. -/
def addChain : Nat → Nat → Prog VDisk Nat
  | 0, up => return up
  | m + 1, up => do addChain m (← datablockAddLeaf up 0)

theorem Stuck.addChain (h : Stuck ino D v v') (m : Nat) : (addChain m 0).run v' = (0, v') := by
  induction m with
  | zero => rfl
  | succ m ih => simp only [Ufs370.addChain, Prog.run_bind, h.addLeaf, ih]

theorem Grown.addChain {is : List Nat} (g : Grown ino D v free all qs v' l) (m : Nat)
    (hp : ((ino, r), is) ∈ qs)
    (hq : ∀ k, ((ino, r), is ++ List.replicate (k + 1) 0) ∉ qs)
    (hD : ∀ k, k ≤ m → ((ino, r), is ++ List.replicate (k + 1) 0) ∉ D)
    (hlen : is.length + m < height naddrDirect r) :
    Adds ino D v free all
      (qs ++ (List.range (m + 1)).map fun k => ((ino, r), is ++ List.replicate (k + 1) 0))
      ((ino, r), is ++ List.replicate (m + 1) 0)
      ((Ufs370.addChain (m + 1) (v'.forest.node ((ino, r), is))).run v') := by
  induction m generalizing is qs v' l with
  | zero =>
    rcases l with _ | ⟨b, l⟩
    · refine .inl ?_
      simp only [Ufs370.addChain, Prog.run_bind, g.stuck.addLeaf]
      refine ⟨rfl, g.stuck, ?_⟩
      rw [g.used, List.length_append]
      exact Nat.lt_succ_self _
    · obtain ⟨v'', hrun, hb, g', hzero, hnode, _⟩ := g.leaf (.inl hp) (hq 0) (hD 0 (Nat.le_refl 0)) hlen
      simp only [Ufs370.addChain, Prog.run_bind, hrun]
      exact .inr ⟨l, hb, g', hzero, hnode⟩
  | succ m ih =>
    rcases l with _ | ⟨b, l⟩
    · rw [Ufs370.addChain, Prog.run_bind, g.stuck.addLeaf, g.stuck.addChain]
      refine .inl ⟨rfl, g.stuck, ?_⟩
      rw [g.used, List.length_append, List.length_map, List.length_range]
      omega
    have hshift : ∀ k, is ++ [0] ++ List.replicate (k + 1) 0 = is ++ List.replicate (k + 1 + 1) 0 := by
      intro k
      rw [List.append_assoc, List.singleton_append, ← List.replicate_succ]
    obtain ⟨v'', hrun, _, g', _, hnode, _⟩ :=
      g.leaf (.inl hp) (hq 0) (hD 0 (Nat.zero_le _)) (by omega)
    have hq' : ∀ k,
        ((ino, r), is ++ [0] ++ List.replicate (k + 1) 0) ∉ qs ++ [((ino, r), is ++ [0])] := by
      intro k hmem
      rw [hshift] at hmem
      rcases List.mem_append.mp hmem with hmem | hmem
      · exact hq (k + 1) hmem
      · have := congrArg (fun x : BlockPath => x.2.length) (List.mem_singleton.mp hmem)
        simp only [List.length_append, List.length_replicate, List.length_singleton] at this
        omega
    have hD' : ∀ k, k ≤ m → ((ino, r), is ++ [0] ++ List.replicate (k + 1) 0) ∉ D := fun k hk => by
      rw [hshift]
      exact hD (k + 1) (by omega)
    have := ih g' (List.mem_append_right _ (List.mem_singleton_self _)) hq' hD'
      (by rw [List.length_append, List.length_singleton]; omega)
    simp only [hshift] at this
    rw [hnode] at this
    rw [Ufs370.addChain, Prog.run_bind, hrun, List.range_succ_eq_map, List.map_cons, List.map_map]
    rw [List.append_assoc] at this
    exact this

/-- A round within a tree: the entries that it makes are the new places. -/
theorem expandBlock_within (h : Owned v (Within n cnt) [] free all) {p : Place}
    (e : List Nat × Nat) (ps : List (List Nat × Nat))
    (hnew : newPlaces p = (e :: ps).map fun e => (p.1, e.1 ++ [e.2]))
    (hlast : p.2 = ((e :: ps).getLast (List.cons_ne_nil _ _)).1 ++
      [((e :: ps).getLast (List.cons_ne_nil _ _)).2])
    (hroot : ((ino, p.1), []) ∈ Within n cnt) (hps : Attachable ino p.1 (Within n cnt) [] (e :: ps))
    (hrun : (expandBlock ino old new).run v =
      ((.ok, ((addAts (v.forest.node ((ino, p.1), [])) (e :: ps)).run v).1),
        ((addAts (v.forest.node ((ino, p.1), [])) (e :: ps)).run v).2)) :
    BlockAdded ino (Within n cnt) v free all p ((expandBlock ino old new).run v) := by
  rw [hrun]
  refine ((Grown.start h).addAts hroot rfl e ps hps).blockAdded ?_ ?_
  · rw [inoPaths, hnew, List.map_map, List.nil_append]
    rfl
  · rw [← hlast]

/-- A round that starts a tree of height `m + 1`. -/
theorem expandBlock_enter (h : Owned v (Within n cnt) [] free all) (hcached : v.Cached ino)
    {m : Nat} (hr : r < 19) (hheight : height naddrDirect r = m + 1)
    (hp : DataPlace n (r, List.replicate (m + 1) 0) (cnt ino))
    (hnew : newPlaces (r, List.replicate (m + 1) 0) =
      (List.range (m + 2)).map fun k => (r, List.replicate k 0))
    (hlevel : old.level ≠ new.level)
    (hrun : ∀ idxblk, expandLevel ino new.level idxblk = do
      setAddr ino r idxblk
      addChain (m + 1) idxblk) :
    BlockAdded ino (Within n cnt) v free all (r, List.replicate (m + 1) 0)
      ((expandBlock ino old new).run v) := by
  have hfresh : ∀ k, k ≤ m + 1 → ((ino, r), List.replicate k 0) ∉ Within n cnt := fun k hk =>
    newPlaces_fresh hp (q := (r, List.replicate k 0))
      (hnew ▸ List.mem_map.mpr ⟨k, List.mem_range.mpr (Nat.lt_succ_of_le hk), rfl⟩)
  simp only [expandBlock, hlevel, ne_eq, not_false_eq_true, if_true, Prog.run_bind, hrun]
  rcases free with _ | ⟨b, l⟩
  · rw [h.allocate_nil, BlockAdded, hnew, List.length_map, List.length_range]
    exact .inl ⟨.inl rfl, (Grown.start h).stuck, Nat.succ_pos _⟩
  obtain ⟨v₁, v₂, halloc, rfl, _, g, _, hnode⟩ :=
    (Grown.start h).root hcached hr List.not_mem_nil (hfresh 0 (Nat.zero_le _))
  simp only [halloc, not_true_eq_false, if_false, setAddr, modifyDinode, Prog.run_bind, Prog.run_pure]
  have hchain := g.addChain m (List.mem_singleton_self _) (by simp)
    (fun k hk => hfresh (k + 1) (by omega)) (by rw [hheight]; exact Nat.lt_succ_of_le (Nat.zero_add m).le)
  rw [hnode] at hchain
  refine hchain.blockAdded ?_ rfl
  rw [inoPaths, hnew]
  conv_rhs => rw [List.range_succ_eq_map]
  simp [Function.comp_def]

/-- A round that adds a direct block. -/
theorem expandBlock_direct (h : Owned v (Within n cnt) [] free all) (hcached : v.Cached ino)
    (hr : r < 16) (hp : DataPlace n (r, []) (cnt ino)) (ho : old.level = 0) (hw : new.level = 0)
    (hw0 : new.index 0 = r) :
    BlockAdded ino (Within n cnt) v free all (r, []) ((expandBlock ino old new).run v) := by
  have hnew : newPlaces (r, []) = [(r, [])] := rfl
  have hfresh : ((ino, r), []) ∉ Within n cnt :=
    newPlaces_fresh hp (q := (r, [])) (hnew ▸ List.mem_singleton_self _)
  simp only [expandBlock, ho, hw, ne_eq, not_true_eq_false, if_false, expandWithin, Prog.run_bind]
  rcases free with _ | ⟨b, l⟩
  · rw [h.allocate_nil]
    exact .inl ⟨.inl rfl, (Grown.start h).stuck, Nat.succ_pos 0⟩
  obtain ⟨v₁, v₂, halloc, rfl, hb, g, hzero, hnode⟩ :=
    (Grown.start h).root hcached (by omega) List.not_mem_nil hfresh
  simp only [halloc, not_true_eq_false, if_false, setAddr, modifyDinode, Prog.run_bind, hw0,
    Prog.run_pure]
  exact .inr ⟨l, rfl, hb, g, hzero, hnode⟩

/-- One round of the loop of `ufs_datablock_expand`, from one data block to the next. -/
theorem expandBlock_next (hn : 2 ≤ n) (h : Owned v (Within n cnt) [] free all)
    (hcached : v.Cached ino) (hold : old.level ≤ 3) (hnew : new.level ≤ 3)
    (hnext : Next n old.place new.place) (hp : DataPlace n new.place (cnt ino)) :
    BlockAdded ino (Within n cnt) v free all new.place ((expandBlock ino old new).run v) := by
  have hroot : ∀ r, (v.din ino).addrAt r = v.forest.node ((ino, r), []) := by
    intro r
    rw [hcached.din]
    rfl
  have hpos : 0 < n := by omega
  have hfresh : ∀ q ∈ newPlaces new.place, ((ino, q.1), q.2) ∉ Within n cnt :=
    fun q hq => newPlaces_fresh hp hq
  have hclosed := within_closed n cnt
  have hne1 : n - 1 ≠ 0 := by omega
  generalize ho : old.place = po at hnext
  generalize hw : new.place = pn at hnext hp hfresh ⊢
  cases hnext with
  | @direct r hr =>
    obtain ⟨ho, _⟩ := Addrmap.place_direct ho
    obtain ⟨hw, hw0⟩ := Addrmap.place_direct hw
    exact expandBlock_direct h hcached hr hp ho hw hw0
  | enter1 =>
    obtain ⟨ho, _⟩ := Addrmap.place_direct ho
    obtain ⟨hw, _⟩ := Addrmap.place_index1 hw
    exact expandBlock_enter h hcached (m := 0) (by decide) rfl hp rfl (by simp [ho, hw])
      fun _ => by rw [hw]; rfl
  | enter2 =>
    obtain ⟨ho, _⟩ := Addrmap.place_index1 ho
    obtain ⟨hw, _⟩ := Addrmap.place_index2 hw
    exact expandBlock_enter h hcached (m := 1) (by decide) rfl hp rfl (by simp [ho, hw])
      fun _ => by rw [hw]; rfl
  | enter3 =>
    obtain ⟨ho, _⟩ := Addrmap.place_index2 ho
    obtain ⟨hw, _⟩ := Addrmap.place_index3 hnew hw
    exact expandBlock_enter h hcached (m := 2) (by decide) rfl hp rfl (by simp [ho, hw])
      fun _ => by rw [hw]; rfl
  | @next1 i hi =>
    obtain ⟨ho, ho0⟩ := Addrmap.place_index1 ho
    obtain ⟨hw, hw0⟩ := Addrmap.place_index1 hw
    have hplaces : newPlaces (16, [i + 1]) = [(16, [i + 1])] := by simp [newPlaces]
    have h0 := newPlaces_parent hpos hp 16 [] (i + 1)
      (by simp [hplaces]) (by simp [hplaces])
    simp only [hplaces, List.forall_mem_singleton] at hfresh
    refine expandBlock_within h ([], i + 1) [] hplaces rfl h0 ?_ ?_
    · simp [Attachable, h0, hfresh, height, naddrDirect]
    · simp only [expandBlock, ho, hw, ne_eq, not_true_eq_false, if_false, expandWithin, Prog.run_bind,
        hroot, hw0, Prog.run_pure, addAts, addAt, followLinks, naddrIndex1]
  | @next2 i j hi hj =>
    obtain ⟨ho, ho0, ho1⟩ := Addrmap.place_index2 ho
    obtain ⟨hw, hw0, hw1⟩ := Addrmap.place_index2 hw
    have hplaces : newPlaces (17, [i, j + 1]) = [(17, [i, j + 1])] := by simp [newPlaces]
    have h1 := newPlaces_parent hpos hp 17 [i] (j + 1)
      (by simp [hplaces]) (by simp [hplaces])
    have h0 := hclosed (ino, 17) [] i h1
    simp only [hplaces, List.forall_mem_singleton] at hfresh
    refine expandBlock_within h ([i], j + 1) [] hplaces rfl h0 ?_ ?_
    · simp [Attachable, h1, hfresh, height, naddrDirect]
    · simp only [expandBlock, ho, hw, ne_eq, not_true_eq_false, if_false, expandWithin, Prog.run_bind,
        hroot, ho0, hw0, hw1, Prog.run_pure, addAts, addAt, followLinks, naddrIndex2]
  | @carry2 i hi =>
    obtain ⟨ho, ho0, ho1⟩ := Addrmap.place_index2 ho
    obtain ⟨hw, hw0, hw1⟩ := Addrmap.place_index2 hw
    have hne : i ≠ i + 1 := Nat.ne_of_lt (Nat.lt_succ_self i)
    have hplaces : newPlaces (17, [i + 1, 0]) = [(17, [i + 1]), (17, [i + 1, 0])] := by
      simp [newPlaces]
    have h0 := newPlaces_parent hpos hp 17 [] (i + 1)
      (by simp [hplaces]) (by simp [hplaces])
    simp only [hplaces, List.forall_mem_cons] at hfresh
    refine expandBlock_within h ([], i + 1) [([i + 1], 0)] hplaces rfl h0 ?_ ?_
    · simp [Attachable, h0, hfresh, height, naddrDirect]
    · simp only [expandBlock, ho, hw, ne_eq, not_true_eq_false, if_false, expandWithin, Prog.run_bind,
        hroot, ho0, hw0, hw1, hne, not_false_eq_true, if_true, Prog.run_pure, addAts, addAt,
        followLinks, naddrIndex2]
  | @next3 i j k hi hj hk =>
    obtain ⟨ho, ho0, ho1, _⟩ := Addrmap.place_index3 hold ho
    obtain ⟨hw, hw0, hw1, hw2⟩ := Addrmap.place_index3 hnew hw
    have hplaces : newPlaces (18, [i, j, k + 1]) = [(18, [i, j, k + 1])] := by simp [newPlaces]
    have h2 := newPlaces_parent hpos hp 18 [i, j] (k + 1)
      (by simp [hplaces]) (by simp [hplaces])
    have h0 := hclosed (ino, 18) [] i (hclosed (ino, 18) [i] j h2)
    simp only [hplaces, List.forall_mem_singleton] at hfresh
    refine expandBlock_within h ([i, j], k + 1) [] hplaces rfl h0 ?_ ?_
    · simp [Attachable, h2, hfresh, height, naddrDirect]
    · simp only [expandBlock, ho, hw, ne_eq, not_true_eq_false, if_false, expandWithin, Prog.run_bind,
        hroot, ho0, ho1, hw0, hw1, hw2, Prog.run_pure, addAts, addAt, followLinks, naddrIndex3]
  | @carry3 i j hi hj =>
    obtain ⟨ho, ho0, ho1, _⟩ := Addrmap.place_index3 hold ho
    obtain ⟨hw, hw0, hw1, hw2⟩ := Addrmap.place_index3 hnew hw
    have hne : j ≠ j + 1 := Nat.ne_of_lt (Nat.lt_succ_self j)
    have hplaces : newPlaces (18, [i, j + 1, 0]) = [(18, [i, j + 1]), (18, [i, j + 1, 0])] := by
      simp [newPlaces]
    have h1 := newPlaces_parent hpos hp 18 [i] (j + 1)
      (by simp [hplaces]) (by simp [hplaces])
    have h0 := hclosed (ino, 18) [] i h1
    simp only [hplaces, List.forall_mem_cons] at hfresh
    refine expandBlock_within h ([i], j + 1) [([i, j + 1], 0)] hplaces rfl h0 ?_ ?_
    · simp [Attachable, h1, hfresh, height, naddrDirect]
    · simp only [expandBlock, ho, hw, ne_eq, not_true_eq_false, if_false, expandWithin, Prog.run_bind,
        hroot, ho0, ho1, hw0, hw1, hw2, hne, not_false_eq_true, if_true, Prog.run_pure, addAts, addAt,
        followLinks, naddrIndex3]
  | @carry33 i hi =>
    obtain ⟨ho, ho0, ho1, _⟩ := Addrmap.place_index3 hold ho
    obtain ⟨hw, hw0, hw1, hw2⟩ := Addrmap.place_index3 hnew hw
    have hne : i ≠ i + 1 := Nat.ne_of_lt (Nat.lt_succ_self i)
    have hplaces : newPlaces (18, [i + 1, 0, 0]) =
        [(18, [i + 1]), (18, [i + 1, 0]), (18, [i + 1, 0, 0])] := by simp [newPlaces]
    have h0 := newPlaces_parent hpos hp 18 [] (i + 1)
      (by simp [hplaces]) (by simp [hplaces])
    simp only [hplaces, List.forall_mem_cons] at hfresh
    refine expandBlock_within h ([], i + 1) [([i + 1], 0), ([i + 1, 0], 0)] hplaces rfl h0 ?_ ?_
    · simp [Attachable, h0, hfresh, height, naddrDirect]
    · simp only [expandBlock, ho, hw, ne_eq, not_true_eq_false, if_false, expandWithin, Prog.run_bind,
        hroot, ho0, ho1, hw0, hw1, hw2, hne, hne1, not_false_eq_true, if_true, Prog.run_pure, addAts,
        addAt, followLinks, naddrIndex3]

end Grow

end Ufs370
