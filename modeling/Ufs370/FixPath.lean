import Ufs370.Lookup
import Mathlib.Data.List.Induction

/-! What is left of a path when `fix_path` is done with it. -/

namespace Ufs370

open Lib Lib.Components

/-- What a component of a path does to the components kept before it. -/
def keepName (kept : List (List UInt8)) (name : List UInt8) : List (List UInt8) :=
  if name = [] ∨ name = [dot] then kept
  else if name = [dot, dot] then kept.dropLast
  else kept ++ [name]

/-- The components kept of a text, after those of `kept`. -/
def keptFrom (kept : List (List UInt8)) (t : List UInt8) : List (List UInt8) :=
  (t.splitOn slash).foldl keepName kept

def canonicalPath (t : List UInt8) : List UInt8 :=
  let kept := keptFrom [] t
  if kept = [] then [slash] else path slash kept

/-- The `do` loop of `fix_path`: a pass that changed the text and asks for another one is followed by it. -/
inductive FixPathRun : List UInt8 → List UInt8 → Prop
  | last {t t'} : fixPathScan t (t.length + 1) 0 none none = (t', false) → FixPathRun t t'
  | again {t t' t''} : fixPathScan t (t.length + 1) 0 none none = (t', true) → FixPathRun t' t'' → FixPathRun t t''

/-- A name that a pass leaves alone. -/
structure Plain (name : List UInt8) : Prop where
  isComp : IsComp slash name
  ne_dot : name ≠ [dot]
  ne_dotdot : name ≠ [dot, dot]

theorem keepName_plain {name : List UInt8} (h : Plain name) (kept : List (List UInt8)) :
    keepName kept name = kept ++ [name] := by
  rw [keepName, if_neg (not_or_intro h.isComp.ne_nil h.ne_dot), if_neg h.ne_dotdot]

variable {kept : List (List UInt8)} {name t u : List UInt8}

theorem keptFrom_cons_slash : keptFrom kept (slash :: t) = keptFrom kept t := by
  have h : (slash :: t).splitOn slash = [].splitOn slash ++ t.splitOn slash := List.splitOn_append_cons_self [] t
  rw [keptFrom, h]
  rfl

theorem keptFrom_name (h : slash ∉ name) : keptFrom kept name = keepName kept name := by
  rw [keptFrom, List.splitOn_eq_singleton h]
  rfl

theorem keptFrom_name_slash (h : slash ∉ name) :
    keptFrom kept (name ++ slash :: t) = keptFrom (keepName kept name) t := by
  rw [keptFrom, List.splitOn_append_cons_self, List.foldl_append, List.splitOn_eq_singleton h]
  rfl

theorem keptFrom_append (h : slash ∉ name) (hu : u = [] ∨ u.head? = some slash) :
    keptFrom kept (name ++ u) = keptFrom (keepName kept name) u := by
  rcases hu with rfl | hu
  · rw [List.append_nil, keptFrom_name h]
    rfl
  · obtain ⟨t, rfl⟩ := List.head?_eq_some_iff.mp hu
    rw [keptFrom_name_slash h, keptFrom_cons_slash]

/-- Plain names are kept as they are. -/
theorem keptFrom_path (h : ∀ name ∈ kept, Plain name) (hu : u = [] ∨ u.head? = some slash) :
    keptFrom [] (path slash kept ++ u) = keptFrom kept u := by
  induction kept using List.reverseRecOn generalizing u with
  | nil => rfl
  | append_singleton kept name ih =>
    have hname : Plain name := h name (by simp)
    have hpath : path slash (kept ++ [name]) ++ u = path slash kept ++ slash :: (name ++ u) := by
      simp [path]
    rw [hpath, ih (fun name hmem => h name (by simp [hmem])) (.inr rfl), keptFrom_cons_slash,
      keptFrom_append hname.isComp.not_mem hu, keepName_plain hname]

/-- The text after a slash is a name and what follows it. -/
theorem exists_name (t : List UInt8) :
    ∃ name u, t = name ++ u ∧ slash ∉ name ∧ (u = [] ∨ u.head? = some slash) := by
  induction t with
  | nil => exact ⟨[], [], rfl, List.not_mem_nil, .inl rfl⟩
  | cons c t ih =>
    by_cases hc : c = slash
    · exact ⟨[], c :: t, rfl, List.not_mem_nil, .inr (hc ▸ rfl)⟩
    · obtain ⟨name, u, rfl, hname, hu⟩ := ih
      refine ⟨c :: name, u, rfl, ?_, hu⟩
      rw [List.mem_cons, not_or]
      exact ⟨Ne.symm hc, hname⟩

/-- A pass goes over the bytes of a name. -/
theorem fixPathScan_skip {p : Nat} {p1 p2 : Option Nat} {left : Nat} (hname : slash ∉ name)
    (hdrop : t.drop p = name ++ u) :
    fixPathScan t (left + name.length) p p1 p2 = fixPathScan t left (p + name.length) p1 p2 := by
  induction name generalizing p with
  | nil => rfl
  | cons c name ih =>
    rw [List.mem_cons, not_or] at hname
    have hrest : t.drop (p + 1) = name ++ u := by
      rw [← List.drop_drop, hdrop]
      rfl
    rw [List.length_cons, ← Nat.add_assoc, fixPathScan, hdrop]
    simp only [List.cons_append, ne_eq, Ne.symm hname.1, not_false_eq_true, if_true]
    rw [ih hname.2 hrest, Nat.add_assoc, Nat.add_comm 1]

/-- Where the slash before the last of some components is. -/
def lastSlash (cs : List (List UInt8)) : Option Nat :=
  if cs = [] then none else some (path slash cs.dropLast).length

theorem path_concat (cs : List (List UInt8)) (name : List UInt8) :
    path slash (cs ++ [name]) = path slash cs ++ slash :: name := by
  simp [path]

theorem exists_back (cs : List (List UInt8)) (w : List UInt8) :
    (lastSlash cs).getD (path slash cs).length = (path slash cs.dropLast).length ∧
      ∃ w', path slash cs ++ slash :: w = path slash cs.dropLast ++ slash :: w' := by
  rw [lastSlash]
  split
  · rename_i h
    exact ⟨by rw [h]; rfl, w, by rw [h]; rfl⟩
  · rename_i h
    refine ⟨rfl, cs.getLast h ++ slash :: w, ?_⟩
    calc path slash cs ++ slash :: w = path slash (cs.dropLast ++ [cs.getLast h]) ++ slash :: w := by
          rw [List.dropLast_append_getLast]
      _ = path slash cs.dropLast ++ slash :: (cs.getLast h ++ slash :: w) := by
          rw [path_concat, List.append_assoc, List.cons_append]

/-- What a pass may leave behind: all that is to be kept, and if it wants another pass a shorter text. -/
def Scanned (t : List UInt8) (r : List UInt8 × Bool) : Prop :=
  if r.2 = true then r.1.head? = some slash ∧ r.1.length < t.length ∧ keptFrom [] r.1 = keptFrom [] t
  else r.1 = canonicalPath t

section Slash

variable {left : Nat} {p2 : Option Nat} {v : List UInt8}

theorem drop_path (kept : List (List UInt8)) (u : List UInt8) :
    (path slash kept ++ u).drop (path slash kept).length = u := List.drop_left

theorem head_path (kept : List (List UInt8)) (v : List UInt8) :
    (path slash kept ++ slash :: v).head? = some slash := by
  cases kept <;> rfl

variable (hkept : ∀ name ∈ kept, Plain name)
include hkept

theorem canonicalPath_path (hu : u = [] ∨ u.head? = some slash) (hnone : keptFrom kept u = kept) (hne : kept ≠ []) :
    canonicalPath (path slash kept ++ u) = path slash kept := by
  simp only [canonicalPath, keptFrom_path hkept hu, hnone, hne, if_false]

/-- A pass cuts a piece out at a slash. -/
theorem scanned_again {kept' : List (List UInt8)} (hkept' : ∀ name ∈ kept', Plain name)
    (hlen : (path slash kept' ++ slash :: v).length < (path slash kept ++ slash :: u).length)
    (hfrom : keptFrom kept' (slash :: v) = keptFrom kept (slash :: u)) :
    Scanned (path slash kept ++ slash :: u) (path slash kept' ++ slash :: v, true) := by
  refine (if_pos rfl).mpr ⟨head_path kept' v, hlen, ?_⟩
  rw [keptFrom_path hkept' (.inr rfl), hfrom, keptFrom_path hkept (.inr rfl)]

/-- A text that ends in a name is left as it is. -/
theorem scanned_end (hne : kept ≠ []) :
    Scanned (path slash kept ++ []) (fixPathScan (path slash kept ++ []) (left + 1) (path slash kept).length
      (lastSlash kept) p2) := by
  rw [fixPathScan, drop_path]
  simp only
  exact (List.append_nil _).trans (canonicalPath_path hkept (.inl rfl) rfl hne).symm

theorem scanned_slash_nil (hu : u = [] ∨ u.head? = some slash) :
    Scanned (path slash kept ++ slash :: u)
      (fixPathScan (path slash kept ++ slash :: u) (left + 1) (path slash kept).length (lastSlash kept) p2) := by
  rw [fixPathScan, drop_path]
  simp only [ne_eq, not_true_eq_false, if_false]
  rcases hu with rfl | hu
  · simp only
    by_cases hnil : kept = []
    · subst hnil
      cases left <;> rfl
    · have hpos : 0 < (path slash kept).length := by
        obtain ⟨name, rest, rfl⟩ := List.exists_cons_of_ne_nil hnil
        exact Nat.succ_pos _
      rw [if_pos hpos, List.take_left]
      exact (canonicalPath_path hkept (.inr rfl) (by rw [keptFrom_cons_slash]; rfl) hnil).symm
  · obtain ⟨v, rfl⟩ := List.head?_eq_some_iff.mp hu
    simp only [if_true, List.take_left]
    exact scanned_again hkept hkept (by simp) (keptFrom_cons_slash (t := slash :: v)).symm

theorem scanned_slash_dot (hu : u = [] ∨ u.head? = some slash) :
    Scanned (path slash kept ++ slash :: dot :: u)
      (fixPathScan (path slash kept ++ slash :: dot :: u) (left + 1) (path slash kept).length (lastSlash kept) p2) := by
  have hdot : dot ≠ slash := by decide
  have hfrom : keptFrom kept (dot :: u) = keptFrom kept u := keptFrom_append (show slash ∉ [dot] by decide) hu
  rw [fixPathScan, drop_path]
  simp only [ne_eq, hdot, not_true_eq_false, if_false]
  rcases hu with rfl | hu
  · simp only
    by_cases hnil : kept = []
    · subst hnil
      have hagain : Scanned (path slash [] ++ slash :: [dot]) (path slash [] ++ [slash], true) :=
        scanned_again hkept hkept (Nat.lt_succ_self _) rfl
      exact hagain
    · have hlast : (lastSlash kept).isSome = true := by rw [lastSlash, if_neg hnil]; rfl
      rw [hlast, if_pos rfl, List.take_left]
      obtain ⟨name, rest, rfl⟩ := List.exists_cons_of_ne_nil hnil
      refine (if_pos rfl).mpr ⟨rfl, by simp, ?_⟩
      rw [keptFrom_path hkept (.inr rfl), keptFrom_cons_slash, hfrom]
      have h := keptFrom_path (u := []) hkept (.inl rfl)
      rwa [List.append_nil] at h
  · obtain ⟨v, rfl⟩ := List.head?_eq_some_iff.mp hu
    simp only [if_true, List.take_left]
    refine scanned_again hkept hkept (by simp) ?_
    rw [keptFrom_cons_slash, keptFrom_cons_slash, hfrom, keptFrom_cons_slash]

theorem scanned_slash_dotdot (hu : u = [] ∨ u.head? = some slash) :
    Scanned (path slash kept ++ slash :: dot :: dot :: u)
      (fixPathScan (path slash kept ++ slash :: dot :: dot :: u) (left + 1) (path slash kept).length (lastSlash kept)
        p2) := by
  have hdot : dot ≠ slash := by decide
  have hfrom : keptFrom kept (dot :: dot :: u) = keptFrom kept.dropLast u :=
    keptFrom_append (show slash ∉ [dot, dot] by decide) hu
  have hplain : ∀ name ∈ kept.dropLast, Plain name := fun name hmem => hkept name ((List.dropLast_sublist kept).subset hmem)
  have hshort : (path slash kept.dropLast).length ≤ (path slash kept).length := by
    obtain ⟨-, w, hw⟩ := exists_back kept []
    have hlen := congrArg List.length hw
    simp only [List.length_append, List.length_cons, List.length_nil] at hlen
    omega
  obtain ⟨hback, w, hw⟩ := exists_back kept (dot :: dot :: u)
  rw [fixPathScan, drop_path]
  simp only [ne_eq, hdot, not_true_eq_false, if_false, hback]
  rcases hu with rfl | hu
  · have htake : (path slash kept ++ slash :: dot :: dot :: []).take ((path slash kept.dropLast).length + 1) =
        path slash kept.dropLast ++ [slash] := by
      rw [hw, List.take_length_add_append]
      rfl
    simp only [htake]
    refine scanned_again hkept hplain ?_ ?_
    · simp only [List.length_append, List.length_cons, List.length_nil]
      omega
    · rw [keptFrom_cons_slash, keptFrom_cons_slash, hfrom]
  · obtain ⟨v, rfl⟩ := List.head?_eq_some_iff.mp hu
    simp only [if_true, hw, List.take_left]
    rw [← hw]
    refine scanned_again hkept hplain ?_ ?_
    · simp only [List.length_append, List.length_cons]
      omega
    · rw [keptFrom_cons_slash, keptFrom_cons_slash, hfrom, keptFrom_cons_slash]

omit hkept in
theorem fixPathScan_plain (hname : Plain name) :
    fixPathScan (path slash kept ++ slash :: (name ++ u)) (left + name.length + 1) (path slash kept).length
        (lastSlash kept) p2 =
      fixPathScan (path slash (kept ++ [name]) ++ u) left (path slash (kept ++ [name])).length
        (lastSlash (kept ++ [name])) (lastSlash kept) := by
  have htext : path slash kept ++ slash :: (name ++ u) = path slash (kept ++ [name]) ++ u := by
    rw [path_concat, List.append_assoc, List.cons_append]
  have hlast : lastSlash (kept ++ [name]) = some (path slash kept).length := by
    rw [lastSlash, if_neg (by simp), List.dropLast_concat]
  have hdrop : (path slash kept ++ slash :: (name ++ u)).drop ((path slash kept).length + 1) = name ++ u := by
    rw [← List.drop_drop, drop_path]
    rfl
  have hlen : (path slash (kept ++ [name])).length = (path slash kept).length + 1 + name.length := by
    rw [path_concat, List.length_append, List.length_cons]
    omega
  have hnext : fixPathScan (path slash kept ++ slash :: (name ++ u)) (left + name.length + 1)
      (path slash kept).length (lastSlash kept) p2 =
      fixPathScan (path slash kept ++ slash :: (name ++ u)) (left + name.length) ((path slash kept).length + 1)
        (some (path slash kept).length) (lastSlash kept) := by
    rw [fixPathScan, drop_path]
    simp only [ne_eq, not_true_eq_false, if_false]
    -- a name that is not `.` or `..` has a byte that sends the scan on
    have hmem (c : UInt8) (hc : c ∈ name) : c ≠ slash := fun h => hname.isComp.not_mem (h ▸ hc)
    obtain _ | ⟨c, name⟩ := name
    · exact absurd rfl hname.isComp.ne_nil
    simp only [List.cons_append, hmem c (by simp), if_false]
    by_cases hc : c = dot
    · subst hc
      simp only [not_true_eq_false, if_false]
      obtain _ | ⟨c, name⟩ := name
      · exact absurd rfl hname.ne_dot
      simp only [List.cons_append, hmem c (by simp), if_false]
      by_cases hc : c = dot
      · subst hc
        simp only [not_true_eq_false, if_false]
        obtain _ | ⟨c, name⟩ := name
        · exact absurd rfl hname.ne_dotdot
        simp only [List.cons_append, hmem c (by simp), if_false]
      · simp only [hc, not_false_eq_true, if_true]
    · simp only [hc, not_false_eq_true, if_true]
  rw [hnext, fixPathScan_skip hname.isComp.not_mem hdrop, hlast, hlen, htext]

end Slash

/-- A pass from a slash on, after plain names. -/
theorem fixPathScan_scanned (n : Nat) {left : Nat} {p2 : Option Nat} (hkept : ∀ name ∈ kept, Plain name)
    (hlen : u.length ≤ n) (hleft : u.length < left) (hu : u = [] ∧ kept ≠ [] ∨ u.head? = some slash) :
    Scanned (path slash kept ++ u) (fixPathScan (path slash kept ++ u) left (path slash kept).length
      (lastSlash kept) p2) := by
  obtain ⟨left, rfl⟩ := Nat.exists_eq_succ_of_ne_zero (Nat.ne_of_gt (Nat.zero_lt_of_lt hleft))
  induction n generalizing kept u left p2 with
  | zero =>
    obtain rfl := List.length_eq_zero_iff.mp (Nat.le_zero.mp hlen)
    rcases hu with ⟨-, hne⟩ | hu
    · exact scanned_end hkept hne
    · exact absurd hu (by simp)
  | succ n ih =>
    rcases hu with ⟨rfl, hne⟩ | hu
    · exact scanned_end hkept hne
    obtain ⟨t, rfl⟩ := List.head?_eq_some_iff.mp hu
    obtain ⟨name, u, rfl, hname, hrest⟩ := exists_name t
    by_cases hnil : name = []
    · subst hnil
      exact scanned_slash_nil hkept hrest
    by_cases hdot : name = [dot]
    · subst hdot
      exact scanned_slash_dot hkept hrest
    by_cases hdotdot : name = [dot, dot]
    · subst hdotdot
      exact scanned_slash_dotdot hkept hrest
    have hplain : Plain name := ⟨⟨hnil, hname⟩, hdot, hdotdot⟩
    rw [List.length_cons, List.length_append] at hlen hleft
    obtain ⟨more, rfl⟩ : ∃ more, left = more + 1 + name.length := ⟨left - 1 - name.length, by omega⟩
    have htext : path slash kept ++ slash :: (name ++ u) = path slash (kept ++ [name]) ++ u := by
      rw [path_concat, List.append_assoc, List.cons_append]
    rw [fixPathScan_plain hplain, htext]
    refine ih ?_ (by omega) ?_ more (by omega)
    · intro d hd
      rcases List.mem_append.mp hd with hd | hd
      · exact hkept d hd
      · exact List.mem_singleton.mp hd ▸ hplain
    · exact hrest.imp_left fun h => ⟨h, by simp⟩

variable {t' : List UInt8}

theorem fixPathPass (h : t.head? = some slash) : Scanned t (fixPathScan t (t.length + 1) 0 none none) :=
  have hkept : ∀ name ∈ ([] : List (List UInt8)), Plain name := fun _ hmem => absurd hmem List.not_mem_nil
  fixPathScan_scanned t.length hkept le_rfl (Nat.lt_succ_self _) (.inr h)

theorem canonicalPath_congr (h : keptFrom [] t' = keptFrom [] t) : canonicalPath t' = canonicalPath t := by
  rw [canonicalPath, canonicalPath, h]

/-- Passes follow until one leaves the canonical path, as the text gets shorter. -/
theorem fixPathRun_canonical (n : Nat) (hlen : t.length < n) (h : t.head? = some slash) :
    FixPathRun t (canonicalPath t) ∧ fixPathLoop n t = canonicalPath t := by
  induction n generalizing t with
  | zero => exact absurd hlen (Nat.not_lt_zero _)
  | succ n ih =>
    have hpass := fixPathPass h
    rw [fixPathLoop]
    generalize hr : fixPathScan t (t.length + 1) 0 none none = r at hpass ⊢
    obtain ⟨t', more⟩ := r
    cases more with
    | false =>
      obtain rfl : t' = canonicalPath t := hpass
      exact ⟨.last hr, rfl⟩
    | true =>
      obtain ⟨hhead, hshort, hkept⟩ : t'.head? = some slash ∧ t'.length < t.length ∧ keptFrom [] t' = keptFrom [] t :=
        hpass
      obtain ⟨hrun, hloop⟩ := ih (by omega) hhead
      rw [canonicalPath_congr hkept] at hrun hloop
      exact ⟨.again hr hrun, hloop⟩

theorem keepName_all (hkept : ∀ name ∈ kept, Plain name) (hname : slash ∉ name) :
    ∀ d ∈ keepName kept name, Plain d := by
  rw [keepName]
  split
  · exact hkept
  · rename_i hskip
    split
    · exact fun name hmem => hkept name ((List.dropLast_sublist kept).subset hmem)
    · rename_i hdotdot
      intro d hd
      rcases List.mem_append.mp hd with hd | hd
      · exact hkept d hd
      · obtain rfl := List.mem_singleton.mp hd
        exact ⟨⟨fun h => hskip (.inl h), hname⟩, fun h => hskip (.inr h), hdotdot⟩

theorem keptFrom_all (t : List UInt8) : ∀ name ∈ keptFrom [] t, Plain name := by
  have hfold (names : List (List UInt8)) (kept : List (List UInt8)) (hnames : ∀ name ∈ names, slash ∉ name)
      (hkept : ∀ name ∈ kept, Plain name) : ∀ name ∈ names.foldl keepName kept, Plain name := by
    induction names generalizing kept with
    | nil => exact hkept
    | cons name names ih =>
      obtain ⟨hname, hnames⟩ := List.forall_mem_cons.mp hnames
      exact ih _ hnames (keepName_all hkept hname)
  exact hfold _ _ (fun _ hmem => not_mem_splitOn hmem) fun _ hmem => absurd hmem List.not_mem_nil

theorem canonicalPath_head (t : List UInt8) : (canonicalPath t).head? = some slash := by
  rw [canonicalPath]
  generalize keptFrom [] t = kept
  cases kept <;> rfl

theorem canonicalPath_idem (t : List UInt8) : canonicalPath (canonicalPath t) = canonicalPath t := by
  refine canonicalPath_congr ?_
  by_cases hnil : keptFrom [] t = []
  · rw [canonicalPath, hnil]
    rfl
  · rw [canonicalPath]
    simp only [hnil, if_false]
    have h := keptFrom_path (u := []) (keptFrom_all t) (.inl rfl)
    rwa [List.append_nil] at h

/-- `fix_path` ends, leaves the canonical path and leaves that alone. -/
theorem fixPath_canonical (h : t.head? = some slash) :
    FixPathRun t (canonicalPath t) ∧ fixPath t = canonicalPath t ∧ fixPath (fixPath t) = fixPath t := by
  obtain ⟨hrun, hloop⟩ := fixPathRun_canonical (t.length + 1) (Nat.lt_succ_self _) h
  have hfix : fixPath t = canonicalPath t := hloop
  refine ⟨hrun, hfix, ?_⟩
  rw [hfix]
  exact ((fixPathRun_canonical _ (Nat.lt_succ_self _) (canonicalPath_head t)).2).trans (canonicalPath_idem t)

/-- The path `/.a//b/../.` -/
theorem fixPath_canonical_dots :
    let t := [slash, dot, 0x81, slash, slash, 0x82, slash, dot, dot, slash, dot]
    fixPath t = [slash, dot, 0x81] ∧ fixPath (fixPath t) = fixPath t :=
  ⟨by decide, (fixPath_canonical rfl).2.2⟩

end Ufs370
