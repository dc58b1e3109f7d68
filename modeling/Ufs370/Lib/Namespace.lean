import Mathlib.Data.Set.Insert
import Mathlib.Logic.Relation

/-! Trees of directories, each of which has a name for itself and one for its parent. -/

namespace Lib.Namespace

variable {α ν : Type}

/-- `E d n c`: directory `d` has `c` under the name `n`. -/
abbrev Entries (α ν : Type) := α → ν → α → Prop

/-- The entries without that of `d` under `n`. -/
def drop (E : Entries α ν) (d : α) (n : ν) : Entries α ν := fun d' n' c => E d' n' c ∧ ¬ (d' = d ∧ n' = n)

/-- The entries with `c` under `n` in `d`, in place of what is there. -/
def put (E : Entries α ν) (d : α) (n : ν) (c : α) : Entries α ν :=
  fun d' n' c' => drop E d n d' n' c' ∨ d' = d ∧ n' = n ∧ c' = c

/-- `x` is a proper ancestor of `d`. -/
def Above (up : ν) (E : Entries α ν) (x d : α) : Prop := Relation.TransGen (fun c p => E c up p) d x

/-- A name that is no node's name for itself or for its parent. -/
def Ordinary (here up n : ν) : Prop := n ≠ here ∧ n ≠ up

/-- The nodes `dirs` form a tree, in which each but the root has one name, in the node that it takes for its parent. -/
structure Tree (here up : ν) (dir : α → Prop) (root : α) (dirs : Set α) (E : Entries α ν) : Prop where
  root_mem : root ∈ dirs
  isdir : ∀ d ∈ dirs, dir d
  one : ∀ d ∈ dirs, ∀ n c c', E d n c → E d n c' → c' = c
  self : ∀ d ∈ dirs, E d here d
  parent : ∀ d ∈ dirs, ∃ p ∈ dirs, E d up p
  top : E root up root
  child : ∀ d ∈ dirs, ∀ n c, Ordinary here up n → E d n c → dir c → c ∈ dirs ∧ c ≠ root ∧ E c up d
  once : ∀ d ∈ dirs, ∀ n n' c, Ordinary here up n → Ordinary here up n' → E d n c → E d n' c → dir c → n' = n
  named : ∀ c ∈ dirs, c ≠ root → ∀ p, E c up p → ∃ n, Ordinary here up n ∧ E p n c
  rooted : ∀ d ∈ dirs, Relation.ReflTransGen (fun c p => E c up p) d root

section Edits

variable {E E' : Entries α ν} {a b c d x y : α} {f n t up : ν}

theorem drop_of_ne (h : d ≠ a ∨ n ≠ f) : drop E a f d n c ↔ E d n c :=
  and_iff_left fun heq => h.elim (· heq.1) (· heq.2)

theorem put_of_ne (h : d ≠ a ∨ n ≠ f) : put E a f x d n c ↔ E d n c := by
  rw [put, drop_of_ne h, or_iff_left fun heq => h.elim (· heq.1) (· heq.2.1)]

theorem put_same : put E a f x a f c ↔ c = x := by
  simp [put, drop]

theorem drop_congr (h : E' d n c ↔ E d n c) : drop E' a f d n c ↔ drop E a f d n c := and_congr_left' h

theorem put_congr (h : E' d n c ↔ E d n c) : put E' a f x d n c ↔ put E a f x d n c := or_congr_left (drop_congr h)

/-- Where an entry is put, there may be none before. -/
theorem put_drop : put (drop E a f) a f x d n c ↔ put E a f x d n c :=
  or_congr_left ⟨fun h => h.1, fun h => ⟨h, h.2⟩⟩

/-- A name for what it is the name of. -/
theorem put_self (hone : ∀ c, E a f c → c = x) (h : E a f x) : put E a f x d n c ↔ E d n c := by
  by_cases heq : d = a ∧ n = f
  · obtain ⟨rfl, rfl⟩ := heq
    rw [put_same]
    exact ⟨fun hc => hc ▸ h, hone c⟩
  · exact put_of_ne (not_and_or.mp heq)

theorem above_iff : Above up E x d ↔ ∃ p, E d up p ∧ (p = x ∨ Above up E x p) := by
  rw [Above, Relation.TransGen.head'_iff]
  refine exists_congr fun p => and_congr_right fun _ => ?_
  rw [Relation.reflTransGen_iff_eq_or_transGen]
  exact or_congr_left eq_comm

end Edits

namespace Tree

variable {E E' : Entries α ν} {here up f n t : ν} {dir : α → Prop} {root a b c d p x y : α} {dirs : Set α}
  (h : Tree here up dir root dirs E)
include h

theorem up_mem (hd : d ∈ dirs) (hup : E d up p) : p ∈ dirs := by
  obtain ⟨q, hq, hup'⟩ := h.parent d hd
  rwa [h.one d hd up q p hup' hup]

theorem mem_of_not_ordinary (hd : d ∈ dirs) (hn : ¬ Ordinary here up n) (hname : E d n c) : c ∈ dirs := by
  rcases not_and_or.mp hn with heq | heq
  · rw [not_not.mp heq] at hname
    rw [h.one d hd here d c (h.self d hd) hname]
    exact hd
  · rw [not_not.mp heq] at hname
    exact h.up_mem hd hname

/-- A node that has a name in the tree is in it. -/
theorem mem_of_dir (hd : d ∈ dirs) (hname : E d n c) (hdir : dir c) : c ∈ dirs := by
  by_cases hn : Ordinary here up n
  · exact (h.child d hd n c hn hname hdir).1
  · exact h.mem_of_not_ordinary hd hn hname

/-- Only the root is its own parent. -/
theorem eq_root (hd : d ∈ dirs) (hup : E d up d) : d = root := by
  have key : ∀ e, Relation.ReflTransGen (fun c p => E c up p) d e → e = d := fun e he => by
    induction he with
    | refl => rfl
    | tail _ hstep ih => exact h.one d hd up d _ hup (ih ▸ hstep)
  exact (key root (h.rooted d hd)).symm

/-- Nothing is above the root but the root. -/
theorem above_root (habove : Above up E x root) : x = root := by
  induction habove with
  | single hup => exact h.one root h.root_mem up root _ h.top hup
  | tail _ hup ih => exact h.one root h.root_mem up root _ h.top (ih ▸ hup)

theorem root_above (hd : d ∈ dirs) : Above up E root d := by
  rcases Relation.reflTransGen_iff_eq_or_transGen.mp (h.rooted d hd) with heq | habove
  · exact heq ▸ .single h.top
  · exact habove

theorem above_mem (hd : d ∈ dirs) (habove : Above up E x d) : x ∈ dirs := by
  induction habove with
  | single hup => exact h.up_mem hd hup
  | tail _ hup ih => exact h.up_mem ih hup

/-- Nothing but the root is above itself. -/
theorem not_above_self (hd : d ∈ dirs) (hroot : d ≠ root) : ¬ Above up E d d := fun hself => by
  suffices key : ∀ c, Relation.ReflTransGen (fun c p => E c up p) c root → c ∈ dirs → Above up E d c → d = root from
    hroot (key d (h.rooted d hd) hd hself)
  intro c hpath
  induction hpath using Relation.ReflTransGen.head_induction_on with
  | refl => exact fun _ habove => h.above_root habove
  | @head c p hup _ ih =>
    intro hc habove
    obtain ⟨q, hq, hcase⟩ := above_iff.mp habove
    obtain rfl := h.one c hc up p q hup hq
    refine ih (h.up_mem hc hup) ?_
    rcases hcase with rfl | hcase
    exacts [hself, hcase]

/-- The way up from a node of the tree does not leave it. -/
theorem above_congr (hsame : ∀ c ∈ dirs, ∀ p, E' c up p ↔ E c up p) (hd : d ∈ dirs) :
    Above up E' x d ↔ Above up E x d := by
  constructor
  · intro habove
    have key : Above up E x d ∧ x ∈ dirs := by
      induction habove with
      | single hup =>
        have hup := (hsame d hd _).mp hup
        exact ⟨.single hup, h.up_mem hd hup⟩
      | tail _ hup ih =>
        have hup := (hsame _ ih.2 _).mp hup
        exact ⟨ih.1.tail hup, h.up_mem ih.2 hup⟩
    exact key.1
  · intro habove
    have key : Above up E' x d ∧ x ∈ dirs := by
      induction habove with
      | single hup => exact ⟨.single ((hsame d hd _).mpr hup), h.up_mem hd hup⟩
      | tail _ hup ih => exact ⟨ih.1.tail ((hsame _ ih.2 _).mpr hup), h.up_mem ih.2 hup⟩
    exact key.1

/-- Other entries that lead to the same nodes of the tree from the nodes of the tree. -/
theorem congr {dir' : α → Prop} (hdirs : ∀ d ∈ dirs, dir' d) (hdir : ∀ d ∈ dirs, ∀ n c, E' d n c → dir' c → dir c)
    (hone : ∀ d ∈ dirs, ∀ n c c', E' d n c → E' d n c' → c' = c)
    (hsame : ∀ d ∈ dirs, ∀ n c, dir c → (E' d n c ↔ E d n c)) : Tree here up dir' root dirs E' where
  root_mem := h.root_mem
  isdir := hdirs
  one := hone
  self d hd := (hsame d hd here d (h.isdir d hd)).mpr (h.self d hd)
  parent d hd := by
    obtain ⟨p, hp, hup⟩ := h.parent d hd
    exact ⟨p, hp, (hsame d hd up p (h.isdir p hp)).mpr hup⟩
  top := (hsame root h.root_mem up root (h.isdir root h.root_mem)).mpr h.top
  child d hd n c hn hc hc' := by
    have hcdir := hdir d hd n c hc hc'
    obtain ⟨hmem, hne, hup⟩ := h.child d hd n c hn ((hsame d hd n c hcdir).mp hc) hcdir
    exact ⟨hmem, hne, (hsame c hmem up d (h.isdir d hd)).mpr hup⟩
  once d hd n n' c hn hn' hc hc' hcdir' := by
    have hcdir := hdir d hd n c hc hcdir'
    exact h.once d hd n n' c hn hn' ((hsame d hd n c hcdir).mp hc) ((hsame d hd n' c hcdir).mp hc') hcdir
  named c hc hne p hup := by
    have hp : p ∈ dirs := by
      obtain ⟨q, hq, hup'⟩ := h.parent c hc
      rwa [hone c hc up q p ((hsame c hc up q (h.isdir q hq)).mpr hup') hup]
    obtain ⟨n, hn, hname⟩ := h.named c hc hne p ((hsame c hc up p (h.isdir p hp)).mp hup)
    exact ⟨n, hn, (hsame p hp n c (h.isdir c hc)).mpr hname⟩
  rooted d hd := by
    have key : ∀ e, Relation.ReflTransGen (fun c p => E c up p) d e →
        e ∈ dirs ∧ Relation.ReflTransGen (fun c p => E' c up p) d e := fun e he => by
      induction he with
      | refl => exact ⟨hd, .refl⟩
      | @tail e p _ hup ih =>
        have hp := h.up_mem ih.1 hup
        exact ⟨hp, ih.2.tail ((hsame e ih.1 up p (h.isdir p hp)).mpr hup)⟩
    exact (key root (h.rooted d hd)).2

/-- A node that has no children goes with its name. -/
theorem drop_leaf (hb : b ∈ dirs) (ht : Ordinary here up t) (hy : E b t y) (hdir : dir y)
    (hleaf : ∀ n c, Ordinary here up n → ¬ E y n c) : Tree here up dir root (dirs \ {y}) (drop E b t) := by
  obtain ⟨hmem, hroot, hup⟩ := h.child b hb t y ht hy hdir
  have hups {c p : α} : drop E b t c up p ↔ E c up p := drop_of_ne (.inr ht.2.symm)
  -- nobody takes the node for its parent
  have hparent {c : α} (hc : c ∈ dirs) (hcy : E c up y) : c = root := by
    by_contra hne
    obtain ⟨n, hn, hname⟩ := h.named c hc hne y hcy
    exact hleaf n c hn hname
  have hnot {c : α} (hc : c ∈ dirs) : ¬ E c up y := fun hcy => by
    have hcy' := hcy
    rw [hparent hc hcy] at hcy'
    exact hroot (h.one root h.root_mem up root y h.top hcy')
  refine ⟨⟨h.root_mem, fun heq => hroot (Set.mem_singleton_iff.mp heq).symm⟩, fun d hd => h.isdir d hd.1,
    fun d hd n c c' hc hc' => h.one d hd.1 n c c' hc.1 hc'.1, fun d hd => (drop_of_ne (.inr ht.1.symm)).mpr (h.self d hd.1),
    fun d hd => ?_, hups.mpr h.top, fun d hd n c hn hc hcdir => ?_,
    fun d hd n n' c hn hn' hc hc' hcdir => h.once d hd.1 n n' c hn hn' hc.1 hc'.1 hcdir, fun c hc hne p hcup => ?_, fun d hd => ?_⟩
  · obtain ⟨p, hp, hdup⟩ := h.parent d hd.1
    exact ⟨p, ⟨hp, fun heq => hnot hd.1 (Set.mem_singleton_iff.mp heq ▸ hdup)⟩, hups.mpr hdup⟩
  · obtain ⟨hcmem, hcroot, hcup⟩ := h.child d hd.1 n c hn hc.1 hcdir
    refine ⟨⟨hcmem, fun heq => hc.2 ?_⟩, hcroot, hups.mpr hcup⟩
    obtain rfl := Set.mem_singleton_iff.mp heq
    obtain rfl := h.one c hmem up b d hup hcup
    exact ⟨rfl, h.once d hd.1 t n c ht hn hy hc.1 hdir⟩
  · obtain ⟨n, hn, hname⟩ := h.named c hc.1 hne p (hups.mp hcup)
    refine ⟨n, hn, hname, fun heq => hc.2 ?_⟩
    obtain ⟨rfl, rfl⟩ := heq
    exact h.one p hb n y c hy hname
  · have heq : (fun c p => drop E b t c up p) = fun c p => E c up p := by
      funext c p
      exact propext hups
    rw [heq]
    exact h.rooted d hd.1

/-- A node gets another name, in a node that it is not above. -/
theorem move (ha : a ∈ dirs) (hb : b ∈ dirs) (hf : Ordinary here up f) (ht : Ordinary here up t) (hx : E a f x) (hdir : dir x)
    (hfree : ∀ c, ¬ E b t c) (hself : b ≠ x) (habove : ¬ Above up E x b) :
    Tree here up dir root dirs (put (drop (put E b t x) a f) x up b) := by
  obtain ⟨hmem, hroot, hup⟩ := h.child a ha f x hf hx hdir
  have hmoved {d : α} {n : ν} {c : α} : put (drop (put E b t x) a f) x up b d n c →
      (E d n c ∧ ¬ (d = a ∧ n = f) ∧ ¬ (d = x ∧ n = up)) ∨ (d = b ∧ n = t ∧ c = x) ∨ (d = x ∧ n = up ∧ c = b) := by
    rintro (⟨⟨⟨hc, -⟩ | hc, hnot⟩, hother⟩ | hc)
    · exact .inl ⟨hc, hnot, hother⟩
    · exact .inr (.inl hc)
    · exact .inr (.inr hc)
  have hkept {d : α} {n : ν} {c : α} (hc : E d n c) (hname : ¬ (d = a ∧ n = f)) (hnot : ¬ (d = x ∧ n = up)) :
      put (drop (put E b t x) a f) x up b d n c :=
    .inl ⟨⟨.inl ⟨hc, fun heq => hfree c (heq.1 ▸ heq.2 ▸ hc)⟩, hname⟩, hnot⟩
  have hnew : put (drop (put E b t x) a f) x up b b t x := by
    refine .inl ⟨⟨.inr ⟨rfl, rfl, rfl⟩, ?_⟩, fun heq => hself heq.1⟩
    rintro ⟨rfl, rfl⟩
    exact hfree x hx
  have hparent : put (drop (put E b t x) a f) x up b x up b := .inr ⟨rfl, rfl, rfl⟩
  -- what takes another node for its parent does so still
  have hups {d p : α} (hne : d ≠ x) (hd : E d up p) : put (drop (put E b t x) a f) x up b d up p :=
    hkept hd (fun heq => hf.2 heq.2.symm) fun heq => hne heq.1
  refine ⟨h.root_mem, h.isdir, fun d hd n c c' hc hc' => ?_, fun d hd => ?_, fun d hd => ?_, hups hroot.symm h.top,
    fun d hd n c hn hc hcdir => ?_, fun d hd n n' c hn hn' hc hc' hcdir => ?_, fun c hc hne p hcup => ?_, fun d hd => ?_⟩
  · rcases hmoved hc with ⟨hold, -, hnot⟩ | ⟨rfl, rfl, rfl⟩ | ⟨rfl, rfl, rfl⟩
    · rcases hmoved hc' with ⟨hold', -, -⟩ | ⟨rfl, rfl, rfl⟩ | heq
      · exact h.one d hd n c c' hold hold'
      · exact absurd hold (hfree c)
      · exact absurd ⟨heq.1, heq.2.1⟩ hnot
    · rcases hmoved hc' with ⟨hold', -, -⟩ | heq | heq
      · exact absurd hold' (hfree c')
      · exact heq.2.2
      · exact absurd heq.1 hself
    · rcases hmoved hc' with ⟨-, -, hnot⟩ | heq | heq
      · exact absurd ⟨rfl, rfl⟩ hnot
      · exact absurd heq.1.symm hself
      · exact heq.2.2
  · exact hkept (h.self d hd) (fun heq => hf.1 heq.2.symm) fun heq => by
      obtain ⟨rfl, heq⟩ := heq
      exact hroot (h.eq_root hmem (heq ▸ h.self d hmem))
  · by_cases hdx : d = x
    · exact ⟨b, hb, hdx ▸ hparent⟩
    · obtain ⟨p, hp, hdup⟩ := h.parent d hd
      exact ⟨p, hp, hups hdx hdup⟩
  · rcases hmoved hc with ⟨hold, hnot, -⟩ | ⟨rfl, rfl, rfl⟩ | ⟨rfl, rfl, rfl⟩
    · obtain ⟨hcmem, hcroot, hcup⟩ := h.child d hd n c hn hold hcdir
      refine ⟨hcmem, hcroot, hups (fun heq => hnot ?_) hcup⟩
      subst heq
      obtain rfl := h.one c hmem up a d hup hcup
      exact ⟨rfl, h.once d ha f n c hf hn hx hold hdir⟩
    · exact ⟨hmem, hroot, hparent⟩
    · exact absurd rfl hn.2
  · have hold {n : ν} (hn : Ordinary here up n) (hb' : E b n x) : b = a ∧ n = f := by
      have hbup := (h.child b hb n x hn hb' hdir).2.2
      obtain rfl := h.one x hmem up a b hup hbup
      exact ⟨rfl, h.once b ha f n x hf hn hx hb' hdir⟩
    rcases hmoved hc with ⟨hwas, hnot, -⟩ | ⟨rfl, rfl, rfl⟩ | ⟨-, rfl, -⟩
    · rcases hmoved hc' with ⟨hwas', -, -⟩ | ⟨rfl, rfl, rfl⟩ | ⟨-, rfl, -⟩
      · exact h.once d hd n n' c hn hn' hwas hwas' hcdir
      · exact absurd (hold hn hwas) hnot
      · exact absurd rfl hn'.2
    · rcases hmoved hc' with ⟨hwas', hnot, -⟩ | heq | ⟨-, rfl, -⟩
      · exact absurd (hold hn' hwas') hnot
      · exact heq.2.1
      · exact absurd rfl hn'.2
    · exact absurd rfl hn.2
  · by_cases hcx : c = x
    · subst hcx
      rcases hmoved hcup with ⟨-, -, hnot⟩ | heq | ⟨-, -, rfl⟩
      · exact absurd ⟨rfl, rfl⟩ hnot
      · exact absurd heq.2.1.symm ht.2
      · exact ⟨t, ht, hnew⟩
    · rcases hmoved hcup with ⟨hold, -, -⟩ | heq | heq
      · obtain ⟨n, hn, hname⟩ := h.named c hc hne p hold
        refine ⟨n, hn, hkept hname (fun heq => hcx ?_) fun heq => hn.2 heq.2⟩
        obtain ⟨rfl, rfl⟩ := heq
        exact h.one p ha n x c hx hname
      · exact absurd heq.2.1.symm ht.2
      · exact absurd heq.1 hcx
  · -- the way from `b` to the root does not come by `x`
    have hway : Relation.ReflTransGen (fun c p => put (drop (put E b t x) a f) x up b c up p) b root := by
      have key : ∀ e, Relation.ReflTransGen (fun c p => E c up p) b e → e ≠ x ∧
          Relation.ReflTransGen (fun c p => put (drop (put E b t x) a f) x up b c up p) b e := fun e he => by
        induction he with
        | refl => exact ⟨hself, .refl⟩
        | tail hpath hstep ih =>
          refine ⟨fun heq => habove ?_, ih.2.tail (hups ih.1 hstep)⟩
          exact .tail' hpath (heq ▸ hstep)
      exact (key root (h.rooted b hb)).2
    refine Relation.ReflTransGen.head_induction_on (h.rooted d hd) .refl fun {c p} hstep _ ih => ?_
    by_cases hcx : c = x
    · exact .head (hcx ▸ hparent) hway
    · exact .head (hups hcx hstep) ih

/-- A new node without children. -/
theorem add (hne : here ≠ up) (hb : b ∈ dirs) (ht : Ordinary here up t) (hfree : ∀ c, ¬ E b t c) (hdir : dir x) (hx : x ∉ dirs)
    (hfresh : ∀ d ∈ dirs, ∀ n, ¬ E d n x) (hold : ∀ d ∈ dirs, ∀ n c, E' d n c ↔ put E b t x d n c)
    (hnew : ∀ n c, E' x n c ↔ (n = here ∧ c = x) ∨ (n = up ∧ c = b)) : Tree here up dir root (insert x dirs) E' := by
  have hups {d p : α} (hd : d ∈ dirs) : E' d up p ↔ E d up p := by
    rw [hold d hd, put_of_ne (.inr ht.2.symm)]
  have hxup : E' x up b := (hnew up b).mpr (.inr ⟨rfl, rfl⟩)
  have hentry : E' b t x := (hold b hb t x).mpr (put_same.mpr rfl)
  have hcases {d : α} {n : ν} {c : α} (hd : d ∈ dirs) (hc : E' d n c) : E d n c ∨ (d = b ∧ n = t ∧ c = x) :=
    ((hold d hd n c).mp hc).imp_left And.left
  have hkeeps {d : α} {n : ν} {c : α} (hd : d ∈ dirs) (hc : E d n c) : E' d n c :=
    (hold d hd n c).mpr (.inl ⟨hc, fun heq => hfree c (heq.1 ▸ heq.2 ▸ hc)⟩)
  refine ⟨.inr h.root_mem, ?_, ?_, ?_, ?_, (hups h.root_mem).mpr h.top, ?_, ?_, ?_, ?_⟩
  · rintro d (rfl | hd)
    · exact hdir
    · exact h.isdir d hd
  · rintro d (rfl | hd) n c c' hc hc'
    · rcases (hnew n c).mp hc with ⟨rfl, rfl⟩ | ⟨rfl, rfl⟩
      · exact (((hnew _ c').mp hc').resolve_right fun heq => hne heq.1).2
      · exact (((hnew _ c').mp hc').resolve_left fun heq => hne heq.1.symm).2
    · rcases hcases hd hc with hc | ⟨rfl, rfl, rfl⟩
      · rcases hcases hd hc' with hc' | ⟨rfl, rfl, -⟩
        · exact h.one d hd n c c' hc hc'
        · exact absurd hc (hfree c)
      · exact (hcases hd hc').elim (fun hc' => absurd hc' (hfree c')) fun heq => heq.2.2
  · rintro d (rfl | hd)
    · exact (hnew here d).mpr (.inl ⟨rfl, rfl⟩)
    · exact hkeeps hd (h.self d hd)
  · rintro d (rfl | hd)
    · exact ⟨b, .inr hb, hxup⟩
    · obtain ⟨p, hp, hup⟩ := h.parent d hd
      exact ⟨p, .inr hp, (hups hd).mpr hup⟩
  · rintro d (rfl | hd) n c hn hc hcdir
    · rcases (hnew n c).mp hc with ⟨rfl, -⟩ | ⟨rfl, -⟩
      · exact absurd rfl hn.1
      · exact absurd rfl hn.2
    · rcases hcases hd hc with hc | ⟨rfl, rfl, rfl⟩
      · obtain ⟨hmem, hroot, hup⟩ := h.child d hd n c hn hc hcdir
        exact ⟨.inr hmem, hroot, (hups hmem).mpr hup⟩
      · exact ⟨.inl rfl, fun heq => hx (heq ▸ h.root_mem), hxup⟩
  · rintro d (rfl | hd) n n' c hn hn' hc hc' hcdir
    · rcases (hnew n c).mp hc with ⟨rfl, -⟩ | ⟨rfl, -⟩
      · exact absurd rfl hn.1
      · exact absurd rfl hn.2
    · rcases hcases hd hc with hc | ⟨rfl, rfl, rfl⟩
      · rcases hcases hd hc' with hc' | ⟨-, -, rfl⟩
        · exact h.once d hd n n' c hn hn' hc hc' hcdir
        · exact absurd hc (hfresh d hd n)
      · exact (hcases hd hc').elim (fun hc' => absurd hc' (hfresh d hd n')) fun heq => heq.2.1
  · rintro c (rfl | hc) hroot p hcup
    · obtain ⟨-, rfl⟩ := ((hnew up p).mp hcup).resolve_left fun heq => hne heq.1.symm
      exact ⟨t, ht, hentry⟩
    · obtain ⟨n, hn, hname⟩ := h.named c hc hroot p ((hups hc).mp hcup)
      exact ⟨n, hn, hkeeps (h.up_mem hc ((hups hc).mp hcup)) hname⟩
  · have hway {d : α} (hd : d ∈ dirs) : Relation.ReflTransGen (fun c p => E' c up p) d root := by
      have key : ∀ e, Relation.ReflTransGen (fun c p => E c up p) d e →
          e ∈ dirs ∧ Relation.ReflTransGen (fun c p => E' c up p) d e := fun e he => by
        induction he with
        | refl => exact ⟨hd, .refl⟩
        | tail _ hup ih => exact ⟨h.up_mem ih.1 hup, ih.2.tail ((hups ih.1).mpr hup)⟩
      exact (key root (h.rooted d hd)).2
    rintro d (rfl | hd)
    · exact .head hxup (hway hb)
    · exact hway hd

/-- What can be reached from the root. -/
theorem reached : Relation.ReflTransGen (fun p c => dir c ∧ ∃ n, E p n c) root d ↔ d ∈ dirs := by
  constructor
  · intro hpath
    induction hpath with
    | refl => exact h.root_mem
    | @tail p c _ hstep ih =>
      obtain ⟨hdir, n, hname⟩ := hstep
      exact h.mem_of_dir ih hname hdir
  · intro hd
    have key : ∀ e, Relation.ReflTransGen (fun c p => E c up p) e root → e ∈ dirs →
        Relation.ReflTransGen (fun p c => dir c ∧ ∃ n, E p n c) root e := fun e he => by
      induction he using Relation.ReflTransGen.head_induction_on with
      | refl => exact fun _ => .refl
      | @head c p hup _ ih =>
        intro hc
        by_cases hroot : c = root
        · rw [hroot]
        · obtain ⟨n, -, hname⟩ := h.named c hc hroot p hup
          exact (ih (h.up_mem hc hup)).tail ⟨h.isdir c hc, n, hname⟩
    exact key d (h.rooted d hd) hd

end Tree

/-! The numbers of names. -/

/-- The names in directory `d` for directories but for itself and its parent. -/
def subdirs (here up : ν) (dir : α → Prop) (E : Entries α ν) (d : α) : Set ν := {n | Ordinary here up n ∧ ∃ c, E d n c ∧ dir c}

/-- The names for `c`. -/
def holders (dirs : Set α) (E : Entries α ν) (c : α) : Set (α × ν) := {p | p.1 ∈ dirs ∧ E p.1 p.2 c}

section Links

variable {E E' : Entries α ν} {here up f n t : ν} {dir dir' : α → Prop} {a b c d x y : α} {dirs : Set α}

theorem subdirs_congr (h : ∀ n c, Ordinary here up n → (E' d n c ∧ dir' c ↔ E d n c ∧ dir c)) :
    subdirs here up dir' E' d = subdirs here up dir E d :=
  Set.ext fun n => and_congr_right fun hn => exists_congr fun c => h n c hn

theorem holders_congr (h : ∀ d ∈ dirs, ∀ n, E' d n c ↔ E d n c) : holders dirs E' c = holders dirs E c :=
  Set.ext fun p => and_congr_right fun hp => h p.1 hp p.2

theorem subdirs_put_dir (ht : Ordinary here up t) (hfree : ∀ c, ¬ E b t c) (hx : dir x) :
    subdirs here up dir (put E b t x) b = insert t (subdirs here up dir E b) ∧ t ∉ subdirs here up dir E b := by
  refine ⟨Set.ext fun n => ?_, fun hmem => ?_⟩
  · by_cases hn : n = t
    · subst hn
      exact iff_of_true ⟨ht, x, put_same.mpr rfl, hx⟩ (.inl rfl)
    · rw [Set.mem_insert_iff, or_iff_right hn]
      exact and_congr_right fun _ => exists_congr fun c => and_congr_left fun _ => put_of_ne (.inr hn)
  · obtain ⟨-, c, hc, -⟩ := hmem
    exact hfree c hc

theorem subdirs_put_other (hd : d ≠ b ∨ ¬ dir x) (hfree : ∀ c, ¬ E b t c) :
    subdirs here up dir (put E b t x) d = subdirs here up dir E d := by
  refine subdirs_congr fun n c _ => and_congr_left fun hc => ?_
  by_cases heq : d = b ∧ n = t
  · obtain ⟨rfl, rfl⟩ := heq
    rw [put_same]
    refine iff_of_false (fun heq => ?_) (hfree c)
    subst heq
    exact hd.elim (· rfl) (· hc)
  · exact put_of_ne (not_and_or.mp heq)

theorem subdirs_drop_dir (ht : Ordinary here up t) (hy : E b t y) (hdir : dir y) :
    subdirs here up dir E b = insert t (subdirs here up dir (drop E b t) b) ∧ t ∉ subdirs here up dir (drop E b t) b := by
  refine ⟨Set.ext fun n => ?_, fun hmem => ?_⟩
  · by_cases hn : n = t
    · subst hn
      exact iff_of_true ⟨ht, y, hy, hdir⟩ (.inl rfl)
    · rw [Set.mem_insert_iff, or_iff_right hn]
      exact and_congr_right fun _ => exists_congr fun c => and_congr_left fun _ => (drop_of_ne (.inr hn)).symm
  · obtain ⟨-, c, hc, -⟩ := hmem
    exact hc.2 ⟨rfl, rfl⟩

theorem subdirs_drop_other (hd : d ≠ b ∨ ∀ c, E b t c → ¬ dir c) :
    subdirs here up dir (drop E b t) d = subdirs here up dir E d := by
  refine subdirs_congr fun n c _ => and_congr_left fun hc => ?_
  refine and_iff_left_of_imp fun hentry heq => ?_
  obtain ⟨rfl, rfl⟩ := heq
  exact hd.elim (· rfl) fun hnone => hnone c hentry hc

theorem holders_put_self (hb : b ∈ dirs) (hfree : ∀ c, ¬ E b t c) :
    holders dirs (put E b t x) x = insert (b, t) (holders dirs E x) ∧ (b, t) ∉ holders dirs E x := by
  refine ⟨Set.ext fun ⟨d, n⟩ => ?_, fun hmem => hfree x hmem.2⟩
  by_cases heq : d = b ∧ n = t
  · obtain ⟨rfl, rfl⟩ := heq
    exact iff_of_true ⟨hb, put_same.mpr rfl⟩ (.inl rfl)
  · rw [Set.mem_insert_iff, or_iff_right (by simpa only [Prod.mk.injEq] using heq)]
    exact and_congr_right fun _ => put_of_ne (not_and_or.mp heq)

theorem holders_put_other (hc : c ≠ x) (hfree : ∀ c, ¬ E b t c) : holders dirs (put E b t x) c = holders dirs E c := by
  refine holders_congr fun d _ n => ?_
  by_cases heq : d = b ∧ n = t
  · obtain ⟨rfl, rfl⟩ := heq
    rw [put_same]
    exact iff_of_false hc (hfree c)
  · exact put_of_ne (not_and_or.mp heq)

theorem holders_drop_self (hb : b ∈ dirs) (hy : E b t y) :
    holders dirs E y = insert (b, t) (holders dirs (drop E b t) y) ∧ (b, t) ∉ holders dirs (drop E b t) y := by
  refine ⟨Set.ext fun ⟨d, n⟩ => ?_, fun hmem => hmem.2.2 ⟨rfl, rfl⟩⟩
  by_cases heq : d = b ∧ n = t
  · obtain ⟨rfl, rfl⟩ := heq
    exact iff_of_true ⟨hb, hy⟩ (.inl rfl)
  · rw [Set.mem_insert_iff, or_iff_right (by simpa only [Prod.mk.injEq] using heq)]
    exact and_congr_right fun _ => (drop_of_ne (not_and_or.mp heq)).symm

theorem holders_drop_other (hc : ¬ E b t c) : holders dirs (drop E b t) c = holders dirs E c := by
  refine holders_congr fun d _ n => and_iff_left_of_imp fun hentry heq => hc ?_
  rwa [← heq.1, ← heq.2]

end Links

end Lib.Namespace
