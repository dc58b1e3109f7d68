import Ufs370.Growth

/-! One block of an inode less: the places that came with it go in the opposite order. -/

namespace Ufs370

open Lib Lib.IndexForest Lib.IndexLayout

section Shrink

variable {v v' : VDisk} {n ino r b : Nat} {D : Set BlockPath} {free l : List Nat} {all : Set Nat}
  {qs : List BlockPath} {cnt : Nat → Nat} {old new : Addrmap}

/-- From `v` to `v'` inode `ino` lost the places `qs`, and their blocks went to the free list. -/
structure Shrunk (ino : Nat) (D : Set BlockPath) (v : VDisk) (free : List Nat) (all : Set Nat)
    (qs : List BlockPath) (v' : VDisk) (free' : List Nat) : Prop where
  owned : Owned v' {x | x ∈ D ∧ x ∉ qs} [] free' all
  frame : Frame ino {x | x ∈ D ∧ x ∉ qs} [] v v'
  length : free'.length = free.length + qs.length

theorem Shrunk.start (h : Owned v D [] free all) : Shrunk ino D v free all [] v free where
  owned := by simpa using h
  frame := .refl ..
  length := rfl

theorem diff_snoc (q : BlockPath) : {x | x ∈ D ∧ x ∉ qs} \ {q} = {x | x ∈ D ∧ x ∉ qs ++ [q]} := by
  ext x
  simp only [Set.mem_sdiff, Set.mem_ofPred_eq, Set.mem_singleton_iff, List.mem_append,
    List.mem_singleton]
  tauto

theorem Shrunk.ne_nil (g : Shrunk ino D v free all qs v' l) (hqs : qs ≠ []) : l ≠ [] := by
  have := g.length
  have hpos := List.length_pos_of_ne_nil hqs
  rintro rfl
  simp only [List.length_nil] at this
  omega

/-- Entry `i` of the index block at `is` under `up` is removed. -/
def removeAt (up : Nat) (is : List Nat) (i : Nat) : Prog VDisk Nat := do
  datablockRemoveLeaf (← followLinks up is) i

theorem Shrunk.removeAt {idx : Nat} {is : List Nat} {i : Nat} (g : Shrunk ino D v free all qs v' l)
    (hfirst : l ≠ [] ∨ v'.word (v'.forest.node ((ino, r), is ++ [i])) 0 = 0)
    (hidx : idx = v.forest.node ((ino, r), [])) (hq : ((ino, r), is ++ [i]) ∈ D) (hqs : ((ino, r), is ++ [i]) ∉ qs)
    (hleaf : ∀ j, ((ino, r), is ++ [i] ++ [j]) ∈ D → ((ino, r), is ++ [i] ++ [j]) ∈ qs)
    (hlen : is.length < height naddrDirect r) :
    ∃ x v'' l', (Ufs370.removeAt idx is i).run v' = (x, v'') ∧
      Shrunk ino D v free all (qs ++ [((ino, r), is ++ [i])]) v'' l' := by
  have hmem : ((ino, r), is ++ [i]) ∈ {x | x ∈ D ∧ x ∉ qs} := ⟨hq, hqs⟩
  have hp := g.owned.partition.closed _ _ _ hmem
  have hroot : ((ino, r), []) ∈ {x | x ∈ D ∧ x ∉ qs} := by
    have hclosed := g.owned.partition.closed
    clear hmem hlen hleaf hqs hq hfirst
    induction is using List.reverseRecOn with
    | nil => exact hp
    | append_singleton is j ih => exact ih (hclosed _ _ _ hp)
  have hfollow := g.owned.followLinks (r := (ino, r)) [] is hp
  rw [g.frame.node _ hroot, ← hidx, List.nil_append] at hfollow
  obtain ⟨v'', hrun, howned, hframe⟩ := g.owned.removeLeaf hfirst hmem
    (fun j hj => hj.2 (hleaf j hj.1)) hlen
  rw [diff_snoc] at howned hframe
  refine ⟨v'.forest.node ((ino, r), is ++ [i]), v'', v'.forest.node ((ino, r), is ++ [i]) :: l, ?_,
    howned, ?_, ?_⟩
  · simp only [Ufs370.removeAt, Prog.run_bind, hfollow, hrun]
  · refine g.frame.trans hframe (fun x hx => ⟨hx.1, fun hmem => hx.2 ?_⟩) (Set.Subset.refl _)
      (List.Subset.refl _) (List.Subset.refl _)
    exact List.mem_append_left _ hmem
  · have := g.length
    simp only [List.length_cons, List.length_append, List.length_nil] at this ⊢
    omega

/-- Entries removed one after the other. -/
def removeAts (up : Nat) : List (List Nat × Nat) → Prog VDisk Unit
  | [] => return ()
  | (is, i) :: ps => do
    let _ ← removeAt up is i
    removeAts up ps

/-- Each entry is there, and what was below it has gone before. -/
def Detachable (ino r : Nat) (D : Set BlockPath) : List BlockPath → List (List Nat × Nat) → Prop
  | _, [] => True
  | qs, (is, i) :: ps =>
    ((ino, r), is ++ [i]) ∈ D ∧ ((ino, r), is ++ [i]) ∉ qs ∧
      (∀ j, ((ino, r), is ++ [i] ++ [j]) ∈ D → ((ino, r), is ++ [i] ++ [j]) ∈ qs) ∧
      is.length < height naddrDirect r ∧ Detachable ino r D (qs ++ [((ino, r), is ++ [i])]) ps

/-- Only the first entry can meet an empty free list. -/
theorem Shrunk.removeAts {idx : Nat} (g : Shrunk ino D v free all qs v' l)
    (hidx : idx = v.forest.node ((ino, r), [])) (ps : List (List Nat × Nat))
    (hfirst : l ≠ [] ∨ ∀ p ∈ ps.head?, v'.word (v'.forest.node ((ino, r), p.1 ++ [p.2])) 0 = 0)
    (hps : Detachable ino r D qs ps) :
    ∃ v'' l', (Ufs370.removeAts idx ps).run v' = ((), v'') ∧
      Shrunk ino D v free all (qs ++ ps.map fun p => ((ino, r), p.1 ++ [p.2])) v'' l' := by
  induction ps generalizing qs v' l with
  | nil => exact ⟨v', l, rfl, by simpa using g⟩
  | cons p ps ih =>
    obtain ⟨hq, hqs, hleaf, hlen, hrest⟩ := hps
    obtain ⟨x, v₁, l₁, hrun, g₁⟩ :=
      g.removeAt (hfirst.imp_right fun h => h p rfl) hidx hq hqs hleaf hlen
    obtain ⟨v₂, l₂, hrun', g₂⟩ := ih g₁ (.inl (g₁.ne_nil (List.concat_ne_nil _ _))) hrest
    refine ⟨v₂, l₂, ?_, by simpa using g₂⟩
    simp only [Ufs370.removeAts, Prog.run_bind, hrun, hrun']

/-- A chain of index blocks in hand, freed from the top down, and the block at its end. -/
def removeChain : Nat → Nat → Prog VDisk Rc
  | 0, up => datablockDeallocate up
  | m + 1, up => do removeChain m (← datablockRemoveSelf up)

theorem Owned.removeChain (ino : Nat) (up : Nat) (ups : List Nat)
    (h : Owned v D (up :: ups) free all) (hfirst : free ≠ [] ∨ ups ≠ [])
    (hchain : (up :: ups).IsChain fun b c => v.word b 0 = c) :
    ∃ v' l, (Ufs370.removeChain ups.length up).run v = (.ok, v') ∧ Owned v' D [] l all ∧
      Frame ino D [] v v' ∧ l.length = free.length + (up :: ups).length := by
  induction ups generalizing v up free with
  | nil =>
    obtain ⟨v', hrun, h', hframe, _⟩ := h.deallocate (.inl (hfirst.resolve_right fun h => h rfl)) ino
    exact ⟨v', _, hrun, h', hframe, rfl⟩
  | cons c cs ih =>
    obtain ⟨hword, hchain⟩ := List.isChain_cons_cons.mp hchain
    obtain ⟨v₁, hrun₁, h₁, hframe₁, _⟩ := h.removeSelf ino
    have hchain₁ : (c :: cs).IsChain fun b c => v₁.word b 0 = c := by
      refine hchain.imp_of_mem_imp fun b c hb _ hbc => ?_
      rw [VDisk.word, hframe₁.hand b hb]
      exact hbc
    obtain ⟨v₂, l, hrun₂, h₂, hframe₂, hlen⟩ := ih c h₁ (.inl (List.cons_ne_nil _ _)) hchain₁
    refine ⟨v₂, l, ?_, h₂, hframe₁.trans hframe₂ (Set.Subset.refl _) (Set.Subset.refl _)
      (List.nil_subset _) (List.Subset.refl _), ?_⟩
    · simp only [Ufs370.removeChain, List.length_cons, Prog.run_bind, hrun₁, hword, hrun₂]
    · simp only [List.length_cons] at hlen ⊢
      omega

theorem Shrunk.perm {qs' : List BlockPath} (g : Shrunk ino D v free all qs v' l)
    (h : qs.Perm qs') : Shrunk ino D v free all qs' v' l := by
  have hset : {x | x ∈ D ∧ x ∉ qs} = {x | x ∈ D ∧ x ∉ qs'} := by
    ext x
    simp only [Set.mem_ofPred_eq, h.mem_iff]
  exact ⟨hset ▸ g.owned, hset ▸ g.frame, h.length_eq ▸ g.length⟩

/-- The outcome of one round of the loop of `ufs_datablock_contract`: the data block at `p`
is gone. -/
def BlockRemoved (ino : Nat) (D : Set BlockPath) (v : VDisk) (free : List Nat) (all : Set Nat)
    (p : Place) (res : Rc × VDisk) : Prop :=
  ∃ l, res.1 = .ok ∧ Shrunk ino D v free all (inoPaths ino (newPlaces p)) res.2 l

section Round

variable {n : Nat} {p : Place}

theorem within_update (hn : 0 < n) (hp : DataPlace n p b) (hcnt : cnt ino = b + 1) {x : BlockPath} :
    x ∈ Within n cnt ↔
      x.1.1 = ino ∧ (x.1.2, x.2) ∈ newPlaces p ∨ x ∈ Within n (Function.update cnt ino b) := by
  have hp' : DataPlace n p (Function.update cnt ino b ino) := by rwa [Function.update_self]
  rw [← mem_within_succ hn hp', Function.update_self, Function.update_idem, ← hcnt,
    Function.update_eq_self]

theorem newPlaces_mem (hn : 0 < n) (hp : DataPlace n p b) (hcnt : cnt ino = b + 1) {q : Place}
    (hq : q ∈ newPlaces p) : ((ino, q.1), q.2) ∈ Within n cnt :=
  (within_update hn hp hcnt).mpr (.inl ⟨rfl, hq⟩)

/-- What is below a place of the last block came with that block. -/
theorem newPlaces_child (hn : 0 < n) (hp : DataPlace n p b) (hcnt : cnt ino = b + 1) {r i : Nat}
    {is : List Nat} (hq : (r, is) ∈ newPlaces p) (hchild : ((ino, r), is ++ [i]) ∈ Within n cnt) :
    (r, is ++ [i]) ∈ newPlaces p := by
  have hp' : DataPlace n p (Function.update cnt ino b ino) := by rwa [Function.update_self]
  rcases (within_update hn hp hcnt).mp hchild with h | h
  · exact h.2
  · exact absurd (within_closed n _ (ino, r) is i h) (newPlaces_fresh hp' hq)

theorem mem_inoPaths {qs : List Place} {i r : Nat} {is : List Nat} :
    ((i, r), is) ∈ inoPaths ino qs ↔ i = ino ∧ (r, is) ∈ qs := by
  simp only [inoPaths, List.mem_map, Prod.mk.injEq, Prod.exists]
  constructor
  · rintro ⟨_, _, h, ⟨rfl, rfl⟩, rfl⟩
    exact ⟨rfl, h⟩
  · rintro ⟨rfl, h⟩
    exact ⟨r, is, h, ⟨rfl, rfl⟩, rfl⟩

theorem newPlaces_slot {q : Place} (hq : q ∈ newPlaces p) : q.1 = p.1 := by
  obtain ⟨is, _, rfl⟩ := List.mem_map.mp hq
  rfl

theorem sdiff_newPlaces (hn : 0 < n) (hp : DataPlace n p b) (hcnt : cnt ino = b + 1) :
    {x | x ∈ Within n cnt ∧ x ∉ inoPaths ino (newPlaces p)} =
      Within n (Function.update cnt ino b) := by
  have hp' : DataPlace n p (Function.update cnt ino b ino) := by rwa [Function.update_self]
  ext ⟨⟨i, r⟩, is⟩
  rw [Set.mem_ofPred_eq, within_update hn hp hcnt, mem_inoPaths]
  constructor
  · rintro ⟨h | h, hne⟩
    · exact absurd h hne
    · exact h
  · refine fun h => ⟨.inr h, ?_⟩
    rintro ⟨rfl, hq⟩
    exact newPlaces_fresh hp' hq h

/-- A round within a tree: the entries that it removes are the places of the last block. -/
theorem contractBlock_within (h : Owned v (Within n cnt) [] free all)
    (hfirst : free ≠ [] ∨ v.word (v.forest.node ((ino, p.1), p.2)) 0 = 0)
    (ps : List (List Nat × Nat)) (hhead : ∀ e ∈ ps.head?, e.1 ++ [e.2] = p.2)
    (hnew : (newPlaces p).Perm (ps.map fun e => (p.1, e.1 ++ [e.2])))
    (hps : Detachable ino p.1 (Within n cnt) [] ps)
    (hrun : (contractBlock ino old new .ok).run v =
      (.ok, ((removeAts (v.forest.node ((ino, p.1), [])) ps).run v).2)) :
    BlockRemoved ino (Within n cnt) v free all p ((contractBlock ino old new .ok).run v) := by
  obtain ⟨v', l, hrm, g⟩ := (Shrunk.start h).removeAts rfl ps
    (hfirst.imp_right fun hword e he => by rw [hhead e he]; exact hword) hps
  rw [hrun, hrm]
  refine ⟨l, rfl, g.perm ?_⟩
  have := (hnew.symm.map fun q : Place => ((ino, q.1), q.2))
  rwa [List.map_map] at this

theorem inits_nodup (is : List Nat) : is.inits.Nodup := by
  induction is with
  | nil => simp
  | cons i is ih => simpa using ih.map (List.cons_injective (a := i))

theorem newPlaces_nodup (p : Place) : (newPlaces p).Nodup :=
  ((inits_nodup p.2).filter _).map fun _ _ h => (Prod.mk.inj h).2

/-- All places of a tree, when the last block is its first. -/
theorem Owned.releaseLast (h : Owned v (Within n cnt) [] free all) (hn : 0 < n)
    (hp : DataPlace n p b) (hcnt : cnt ino = b + 1) (hbase : base n naddrDirect p.1 = b) :
    Owned v (Within n (Function.update cnt ino b))
      ((inoPaths ino (newPlaces p)).map v.forest.node) free all := by
  have hS : (inoPaths ino (newPlaces p)).Nodup := by
    refine (newPlaces_nodup p).map fun _ _ h => ?_
    obtain ⟨h1, h2⟩ := Prod.mk.inj h
    exact Prod.ext (Prod.mk.inj h1).2 h2
  have hmem : ∀ x, x ∈ inoPaths ino (newPlaces p) ↔ x ∈ Within n cnt ∧ x.1 = (ino, p.1) := by
    rintro ⟨⟨i, r⟩, is⟩
    rw [mem_inoPaths, within_update hn hp hcnt]
    constructor
    · rintro ⟨rfl, hq⟩
      exact ⟨.inl ⟨rfl, hq⟩, congrArg (Prod.mk _) (newPlaces_slot hq)⟩
    · rintro ⟨hq | hq, heq⟩
      · exact hq
      · -- the places of the earlier blocks are behind earlier slots
        obtain ⟨rfl, rfl⟩ := Prod.mk.inj heq
        have hlt := (mem_within.mp hq).2
        rw [Function.update_self] at hlt
        exact absurd hlt (Nat.not_lt.mpr (hbase ▸ Nat.le_add_right ..))
  have := h.release hS hmem
  rw [List.append_nil] at this
  exact sdiff_newPlaces hn hp hcnt ▸ this

/-- A round that removes a direct block; its slot keeps the number of the block. -/
theorem contractBlock_direct (h : Owned v (Within n cnt) [] free all) (hcached : v.Cached ino)
    (hfirst : free ≠ [] ∨ v.word (v.forest.node ((ino, r), [])) 0 = 0) (hn : 0 < n)
    (hp : DataPlace n (r, []) b) (hcnt : cnt ino = b + 1) (ho : old.level = 0) (ho0 : old.index 0 = r) (hw : new.level = 0) :
    BlockRemoved ino (Within n cnt) v free all (r, []) ((contractBlock ino old new .ok).run v) := by
  have hbase : base n naddrDirect r = b := hp.block
  have hset := sdiff_newPlaces hn hp hcnt
  obtain ⟨v', hrun, h', hframe, _⟩ := (h.releaseLast hn hp hcnt hbase).deallocate hfirst ino
  have haddr : (v.din ino).addrAt r = v.forest.node ((ino, r), []) := by
    rw [hcached.din]
    rfl
  simp only [contractBlock, ho, hw, ne_eq, not_true_eq_false, if_false, contractWithin,
    Prog.run_bind, ho0, haddr, hrun]
  exact ⟨_, rfl, ⟨hset ▸ h', hset ▸ hframe, rfl⟩⟩

/-- A round that gives up a tree of height `m + 1`. -/
theorem contractBlock_leave (h : Owned v (Within n cnt) [] free all) (hcached : v.Cached ino)
    (hn : 0 < n) {m : Nat} (hp : DataPlace n (r, List.replicate (m + 1) 0) b)
    (hcnt : cnt ino = b + 1)
    (hnew : newPlaces (r, List.replicate (m + 1) 0) =
      (List.range (m + 2)).map fun k => (r, List.replicate k 0))
    (hlevel : old.level ≠ new.level)
    (hrun : contractLevel ino new.level .ok = do
      let addr := ((← Prog.get).din ino).addrAt
      setAddr ino r 0
      removeChain (m + 1) (addr r)) :
    BlockRemoved ino (Within n cnt) v free all (r, List.replicate (m + 1) 0)
      ((contractBlock ino old new .ok).run v) := by
  have hbase : base n naddrDirect r = b := by
    rw [← hp.block, firstBlock, digits_zeros, Nat.add_zero]
  have hset := sdiff_newPlaces hn hp hcnt
  have haddr : (v.din ino).addrAt r = v.forest.node ((ino, r), []) := by
    rw [hcached.din]
    rfl
  obtain ⟨h₁, hframe₁⟩ := (h.releaseLast hn hp hcnt hbase).clearRoot ino r fun is hmem =>
    Nat.not_lt.mpr (hbase ▸ Nat.le_add_right ..)
      (show firstBlock n naddrDirect (r, is) < b by
        have := (mem_within.mp hmem).2
        rwa [Function.update_self] at this)
  have hnodes : (inoPaths ino (newPlaces (r, List.replicate (m + 1) 0))).map v.forest.node =
      (List.range (m + 2)).map fun k => v.forest.node ((ino, r), List.replicate k 0) := by
    simp [hnew, inoPaths, Function.comp_def]
  have hchain : ((List.range (m + 2)).map fun k =>
      v.forest.node ((ino, r), List.replicate k 0)).IsChain
        fun b c => (v.setDinode ino fun d => d.setAddr r 0).word b 0 = c := by
    rw [List.isChain_map, List.isChain_range_succ]
    intro k _
    rw [List.replicate_succ', Forest.node_snoc]
    rfl
  rw [hnodes] at h₁
  rw [List.range_succ_eq_map, List.map_cons] at h₁ hchain
  obtain ⟨v', l, hrm, h', hframe, hlen⟩ := h₁.removeChain ino _ _
    (.inr (by rw [List.range_succ_eq_map]; exact List.cons_ne_nil _ _)) hchain
  rw [List.length_map, List.length_map, List.length_range] at hrm
  change (Ufs370.removeChain (m + 1) (v.forest.node ((ino, r), []))).run _ = _ at hrm
  simp only [contractBlock, hlevel, ne_eq, not_false_eq_true, if_true, hrun, Prog.run_bind, haddr,
    setAddr, modifyDinode, hrm]
  refine ⟨l, rfl, hset ▸ h', hset ▸ ?_, ?_⟩
  · exact hframe₁.trans hframe (Set.Subset.refl _) (Set.Subset.refl _) (List.nil_subset _)
      (List.nil_subset _)
  · rw [hlen]
    simp [inoPaths, hnew]

/-- One round of the loop of `ufs_datablock_contract`, from a data block to the one before. -/
theorem contractBlock_next (hn : 2 ≤ n) (h : Owned v (Within n cnt) [] free all)
    (hcached : v.Cached ino)
    (hfirst : free ≠ [] ∨ (old.level = new.level → v.word (v.forest.node ((ino, old.place.1), old.place.2)) 0 = 0))
    (hold : old.level ≤ 3) (hnew : new.level ≤ 3)
    (hnext : Next n new.place old.place) (hp : DataPlace n old.place b) (hcnt : cnt ino = b + 1) :
    BlockRemoved ino (Within n cnt) v free all old.place
      ((contractBlock ino old new .ok).run v) := by
  have hroot : ∀ r, (v.din ino).addrAt r = v.forest.node ((ino, r), []) := by
    intro r
    rw [hcached.din]
    rfl
  have hpos : 0 < n := by omega
  have hmem : ∀ q ∈ newPlaces old.place, ((ino, q.1), q.2) ∈ Within n cnt :=
    fun q hq => newPlaces_mem hpos hp hcnt hq
  have hchild : ∀ r is, (r, is) ∈ newPlaces old.place → ∀ i, ((ino, r), is ++ [i]) ∈ Within n cnt →
      (r, is ++ [i]) ∈ newPlaces old.place :=
    fun r is hq i hi => newPlaces_child hpos hp hcnt hq hi
  have hne1 : 0 ≠ n - 1 := by omega
  generalize ho : old.place = po at hfirst hnext hp hmem hchild ⊢
  generalize hw : new.place = pn at hnext
  cases hnext with
  | @direct r hr =>
    obtain ⟨ho, ho0⟩ := Addrmap.place_direct ho
    obtain ⟨hw, _⟩ := Addrmap.place_direct hw
    exact contractBlock_direct h hcached (hfirst.imp_right fun hf => hf (ho.trans hw.symm)) hpos hp
      hcnt ho ho0 hw
  | enter1 =>
    obtain ⟨ho, _⟩ := Addrmap.place_index1 ho
    obtain ⟨hw, _⟩ := Addrmap.place_direct hw
    exact contractBlock_leave h hcached hpos (m := 0) hp hcnt rfl (by simp [ho, hw])
      (by rw [hw]; rfl)
  | enter2 =>
    obtain ⟨ho, _⟩ := Addrmap.place_index2 ho
    obtain ⟨hw, _⟩ := Addrmap.place_index1 hw
    exact contractBlock_leave h hcached hpos (m := 1) hp hcnt rfl (by simp [ho, hw])
      (by rw [hw]; rfl)
  | enter3 =>
    obtain ⟨ho, _⟩ := Addrmap.place_index3 hold ho
    obtain ⟨hw, _⟩ := Addrmap.place_index2 hw
    exact contractBlock_leave h hcached hpos (m := 2) hp hcnt rfl (by simp [ho, hw])
      (by rw [hw]; rfl)
  | @next1 i hi =>
    obtain ⟨ho, ho0⟩ := Addrmap.place_index1 ho
    obtain ⟨hw, hw0⟩ := Addrmap.place_index1 hw
    have hplaces : newPlaces (16, [i + 1]) = [(16, [i + 1])] := by simp [newPlaces]
    simp only [hplaces, List.forall_mem_singleton] at hmem
    simp only [hplaces, List.mem_singleton] at hchild
    have hword := hfirst.imp_right fun hf => hf (ho.trans hw.symm)
    refine contractBlock_within h hword [([], i + 1)]
      (fun e he => by obtain rfl := Option.mem_some_iff.mp he; rfl) (by rw [hplaces]; rfl) ?_ ?_
    · simpa [Detachable, hmem, height, naddrDirect] using hchild _ _ rfl
    · simp only [contractBlock, ho, hw, ne_eq, not_true_eq_false, if_false, contractWithin,
        Prog.run_bind, hroot, ho0, Prog.run_pure, removeAts, removeAt, followLinks, naddrIndex1]
  | @next2 i j hi hj =>
    obtain ⟨ho, ho0, ho1⟩ := Addrmap.place_index2 ho
    obtain ⟨hw, hw0, _⟩ := Addrmap.place_index2 hw
    have hplaces : newPlaces (17, [i, j + 1]) = [(17, [i, j + 1])] := by simp [newPlaces]
    simp only [hplaces, List.forall_mem_singleton] at hmem
    simp only [hplaces] at hchild
    have hword := hfirst.imp_right fun hf => hf (ho.trans hw.symm)
    refine contractBlock_within h hword [([i], j + 1)]
      (fun e he => by obtain rfl := Option.mem_some_iff.mp he; rfl)
      (hplaces ▸ (List.reverse_perm _).symm) ?_ ?_
    · simpa [Detachable, hmem, height, naddrDirect] using hchild 17 [i, j + 1] (by simp)
    · simp only [contractBlock, ho, hw, ne_eq, not_true_eq_false, if_false, contractWithin,
        Prog.run_bind, hroot, ho0, ho1, hw0, Prog.run_pure,
        removeAts, removeAt, followLinks, naddrIndex2]
  | @carry2 i hi =>
    obtain ⟨ho, ho0, ho1⟩ := Addrmap.place_index2 ho
    obtain ⟨hw, hw0, _⟩ := Addrmap.place_index2 hw
    have hne : i + 1 ≠ i := Nat.succ_ne_self i
    have hplaces : newPlaces (17, [i + 1, 0]) = [(17, [i + 1]), (17, [i + 1, 0])] := by
      simp [newPlaces]
    simp only [hplaces, List.forall_mem_cons] at hmem
    simp only [hplaces] at hchild
    have hword := hfirst.imp_right fun hf => hf (ho.trans hw.symm)
    refine contractBlock_within h hword [([i + 1], 0), ([], i + 1)]
      (fun e he => by obtain rfl := Option.mem_some_iff.mp he; rfl)
      (hplaces ▸ (List.reverse_perm _).symm) ?_ ?_
    · simpa [Detachable, hmem, height, naddrDirect] using
        And.intro (hchild 17 [i + 1, 0] (by simp)) (hchild 17 [i + 1] (by simp))
    · simp only [contractBlock, ho, hw, ne_eq, not_true_eq_false, if_false, contractWithin,
        Prog.run_bind, hroot, ho0, ho1, hw0, hne, not_false_eq_true, if_true,
        Prog.run_pure, removeAts, removeAt, followLinks, naddrIndex2]
  | @next3 i j k hi hj hk =>
    obtain ⟨ho, ho0, ho1, ho2⟩ := Addrmap.place_index3 hold ho
    obtain ⟨hw, hw0, hw1, _⟩ := Addrmap.place_index3 hnew hw
    have hplaces : newPlaces (18, [i, j, k + 1]) = [(18, [i, j, k + 1])] := by
      simp [newPlaces]
    simp only [hplaces, List.forall_mem_singleton] at hmem
    simp only [hplaces] at hchild
    have hword := hfirst.imp_right fun hf => hf (ho.trans hw.symm)
    refine contractBlock_within h hword [([i, j], k + 1)]
      (fun e he => by obtain rfl := Option.mem_some_iff.mp he; rfl)
      (hplaces ▸ (List.reverse_perm _).symm) ?_ ?_
    · simpa [Detachable, hmem, height, naddrDirect] using hchild 18 [i, j, k + 1] (by simp)
    · simp only [contractBlock, ho, hw, ne_eq, not_true_eq_false, if_false, contractWithin,
        Prog.run_bind, hroot, ho0, ho1, ho2, hw0, hw1, Prog.run_pure,
        removeAts, removeAt, followLinks, naddrIndex3]
  | @carry3 i j hi hj =>
    obtain ⟨ho, ho0, ho1, ho2⟩ := Addrmap.place_index3 hold ho
    obtain ⟨hw, hw0, hw1, _⟩ := Addrmap.place_index3 hnew hw
    have hne : j + 1 ≠ j := Nat.succ_ne_self j
    have hplaces : newPlaces (18, [i, j + 1, 0]) = [(18, [i, j + 1]), (18, [i, j + 1, 0])] := by
      simp [newPlaces]
    simp only [hplaces, List.forall_mem_cons] at hmem
    simp only [hplaces] at hchild
    have hword := hfirst.imp_right fun hf => hf (ho.trans hw.symm)
    refine contractBlock_within h hword [([i, j + 1], 0), ([i], j + 1)]
      (fun e he => by obtain rfl := Option.mem_some_iff.mp he; rfl)
      (hplaces ▸ (List.reverse_perm _).symm) ?_ ?_
    · simpa [Detachable, hmem, height, naddrDirect] using
        And.intro (hchild 18 [i, j + 1, 0] (by simp)) (hchild 18 [i, j + 1] (by simp))
    · simp only [contractBlock, ho, hw, ne_eq, not_true_eq_false, if_false, contractWithin,
        Prog.run_bind, hroot, ho0, ho1, ho2, hw0, hw1, hne, not_false_eq_true, if_true,
        Prog.run_pure, removeAts, removeAt, followLinks, naddrIndex3]
  | @carry33 i hi =>
    obtain ⟨ho, ho0, ho1, ho2⟩ := Addrmap.place_index3 hold ho
    obtain ⟨hw, hw0, hw1, _⟩ := Addrmap.place_index3 hnew hw
    have hne : i + 1 ≠ i := Nat.succ_ne_self i
    have hplaces : newPlaces (18, [i + 1, 0, 0]) =
        [(18, [i + 1]), (18, [i + 1, 0]), (18, [i + 1, 0, 0])] := by simp [newPlaces]
    simp only [hplaces, List.forall_mem_cons] at hmem
    simp only [hplaces] at hchild
    have hword := hfirst.imp_right fun hf => hf (ho.trans hw.symm)
    refine contractBlock_within h hword [([i + 1, 0], 0), ([i + 1], 0), ([], i + 1)]
      (fun e he => by obtain rfl := Option.mem_some_iff.mp he; rfl)
      (hplaces ▸ (List.reverse_perm _).symm) ?_ ?_
    · simpa [Detachable, hmem, height, naddrDirect] using
        And.intro (hchild 18 [i + 1, 0, 0] (by simp)) 
        (And.intro (hchild 18 [i + 1, 0] (by simp)) (hchild 18 [i + 1] (by simp)))
    · simp only [contractBlock, ho, hw, ne_eq, not_true_eq_false, if_false, contractWithin,
        Prog.run_bind, hroot, ho0, ho1, ho2, hw0, hw1, hne, hne1, not_false_eq_true, if_true,
        Prog.run_pure, removeAts, removeAt, followLinks, naddrIndex3]

end Round

end Shrink

end Ufs370
