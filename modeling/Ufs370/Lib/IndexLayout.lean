import Mathlib.Data.List.Basic
import Mathlib.Algebra.Order.Group.Nat
import Mathlib.Tactic.Linarith
import Mathlib.Tactic.Ring

/-! The numbering of a file's blocks over `d` direct slots and, behind them, trees of
index blocks of `n` links that are one level higher from slot to slot. -/

namespace Lib.IndexLayout

/-- A slot and the indices to follow from it. -/
abbrev Place := Nat × List Nat

variable (n d : Nat)

/-- The number of index blocks between slot `r` and its data blocks. -/
def height (r : Nat) : Nat := r + 1 - d

/-- The first block behind slot `r`. -/
def base : Nat → Nat
  | 0 => 0
  | r + 1 => base r + n ^ height d r

def digits : Nat → List Nat → Nat
  | _, [] => 0
  | h, i :: is => i * n ^ (h - 1) + digits (h - 1) is

/-- The first data block at or under a place. -/
def firstBlock (q : Place) : Nat := base n d q.1 + digits n (height d q.1) q.2

structure Valid (q : Place) : Prop where
  length : q.2.length ≤ height d q.1
  index : ∀ i ∈ q.2, i < n

/-- The place of the first data block under `q`. -/
def fill (q : Place) : Place := (q.1, q.2 ++ List.replicate (height d q.1 - q.2.length) 0)

/-- The places in use when the first `k` data blocks are. -/
def needed (k : Nat) : Set Place := fun q => Valid n d q ∧ firstBlock n d q < k

variable {n d} {h r : Nat} {is js : List Nat} {q q' : Place}

theorem digits_zeros (n h m : Nat) : digits n h (List.replicate m 0) = 0 := by
  induction m generalizing h with
  | zero => rfl
  | succ m ih => simp [List.replicate_succ, digits, ih]

theorem digits_append_zeros (n h m : Nat) (is : List Nat) :
    digits n h (is ++ List.replicate m 0) = digits n h is := by
  induction is generalizing h with
  | nil => simp [digits, digits_zeros]
  | cons i is ih => simp [digits, ih]

theorem digits_lt (hlen : is.length = h) (his : ∀ i ∈ is, i < n) : digits n h is < n ^ h := by
  induction is generalizing h with
  | nil =>
    subst hlen
    simp [digits]
  | cons i is ih =>
    subst hlen
    have hi : i < n := his i (List.mem_cons_self ..)
    have hrest := ih rfl fun j hj => his j (List.mem_cons_of_mem _ hj)
    simp only [digits, List.length_cons, Nat.add_sub_cancel]
    calc i * n ^ is.length + digits n is.length is
      _ < i * n ^ is.length + n ^ is.length := Nat.add_lt_add_left hrest _
      _ = (i + 1) * n ^ is.length := (Nat.succ_mul ..).symm
      _ ≤ n * n ^ is.length := Nat.mul_le_mul_right _ hi
      _ = n ^ (is.length + 1) := by rw [Nat.pow_succ, Nat.mul_comm]

theorem digits_inj (hlen : is.length = h) (hlen' : js.length = h) (his : ∀ i ∈ is, i < n)
    (hjs : ∀ j ∈ js, j < n) (heq : digits n h is = digits n h js) : is = js := by
  induction is generalizing h js with
  | nil =>
    subst hlen
    exact (List.length_eq_zero_iff.mp hlen').symm
  | cons i is ih =>
    cases js with
    | nil =>
      subst hlen'
      exact absurd hlen (by simp)
    | cons j js =>
      subst hlen
      have hjslen : js.length = is.length := by simpa using hlen'
      have hrest : ∀ k ∈ is, k < n := fun k hk => his k (List.mem_cons_of_mem _ hk)
      have hrest' : ∀ k ∈ js, k < n := fun k hk => hjs k (List.mem_cons_of_mem _ hk)
      simp only [digits, List.length_cons, Nat.add_sub_cancel] at heq
      have hlt := digits_lt rfl hrest
      have hlt' := digits_lt hjslen hrest'
      have hij : i = j := by
        have hdiv := congrArg (· / n ^ is.length) heq
        have hpos : 0 < n ^ is.length := Nat.lt_of_le_of_lt (Nat.zero_le _) hlt
        simpa only [Nat.mul_comm _ (n ^ is.length), Nat.mul_add_div hpos,
          Nat.div_eq_of_lt hlt, Nat.div_eq_of_lt hlt', Nat.add_zero] using hdiv
      subst hij
      rw [ih rfl hjslen hrest hrest' (Nat.add_left_cancel heq)]

theorem base_mono (n d : Nat) {r s : Nat} (h : r ≤ s) : base n d r ≤ base n d s := by
  induction h with
  | refl => exact Nat.le_refl _
  | step _ ih => exact Nat.le_trans ih (Nat.le_add_right ..)

theorem base_direct (n : Nat) (hr : r ≤ d) : base n d r = r := by
  induction r with
  | zero => rfl
  | succ r ih =>
    have h0 : height d r = 0 := by simp only [height]; omega
    rw [base, ih (by omega), h0, Nat.pow_zero]

theorem fill_length (hq : Valid n d q) : (fill d q).2.length = height d q.1 := by
  have := hq.length
  simp only [fill, List.length_append, List.length_replicate]
  omega

theorem firstBlock_fill (n d : Nat) (q : Place) : firstBlock n d (fill d q) = firstBlock n d q := by
  simp only [firstBlock, fill, digits_append_zeros]

theorem Valid.fill (hn : 0 < n) (hq : Valid n d q) : Valid n d (fill d q) := by
  refine ⟨Nat.le_of_eq (fill_length hq), fun i hi => ?_⟩
  rcases List.mem_append.mp hi with hi | hi
  · exact hq.index i hi
  · rw [List.eq_of_mem_replicate hi]
    exact hn

theorem Valid.of_snoc {i : Nat} (h : Valid n d (r, is ++ [i])) : Valid n d (r, is) := by
  refine ⟨Nat.le_of_lt ?_, fun j hj => h.index j (List.mem_append_left _ hj)⟩
  have := h.length
  simp only [List.length_append, List.length_singleton] at this
  exact this

theorem firstBlock_snoc_le (n d r : Nat) (is : List Nat) (i : Nat) :
    firstBlock n d (r, is) ≤ firstBlock n d (r, is ++ [i]) := by
  have hdigits : ∀ h, digits n h is ≤ digits n h (is ++ [i]) := by
    induction is with
    | nil => intro h; exact Nat.zero_le _
    | cons j is ih => intro h; exact Nat.add_le_add_left (ih _) _
  exact Nat.add_le_add_left (hdigits _) _

/-- Places of data blocks have different numbers. -/
theorem firstBlock_inj (hq : Valid n d q) (hq' : Valid n d q') (hlen : q.2.length = height d q.1)
    (hlen' : q'.2.length = height d q'.1) (heq : firstBlock n d q = firstBlock n d q') : q = q' := by
  have hbelow : ∀ {p : Place}, Valid n d p → p.2.length = height d p.1 →
      base n d p.1 ≤ firstBlock n d p ∧ firstBlock n d p < base n d (p.1 + 1) := fun hp hplen =>
    ⟨Nat.le_add_right .., Nat.add_lt_add_left (digits_lt hplen hp.index) _⟩
  have h := hbelow hq hlen
  have h' := hbelow hq' hlen'
  have hslot : q.1 = q'.1 := by
    rcases Nat.lt_trichotomy q.1 q'.1 with hlt | heq' | hgt
    · have := base_mono n d (Nat.succ_le_of_lt hlt)
      simp only [Nat.succ_eq_add_one] at this
      omega
    · exact heq'
    · have := base_mono n d (Nat.succ_le_of_lt hgt)
      simp only [Nat.succ_eq_add_one] at this
      omega
  obtain ⟨r, is⟩ := q
  obtain ⟨r', is'⟩ := q'
  obtain rfl : r = r' := hslot
  exact congrArg (Prod.mk r) (digits_inj hlen hlen' hq.index hq'.index (Nat.add_left_cancel heq))

theorem needed_mono {k m : Nat} (hkm : k ≤ m) : needed n d k ⊆ needed n d m :=
  fun _ hq => ⟨hq.1, Nat.lt_of_lt_of_le hq.2 hkm⟩

/-- Block `k` needs the places on the way to it that no earlier block needed. -/
theorem needed_succ (hn : 0 < n) {p : Place} (hp : Valid n d p) (hlen : p.2.length = height d p.1)
    {k : Nat} (hk : firstBlock n d p = k) :
    needed n d (k + 1) = {q | Valid n d q ∧ fill d q = p} ∪ needed n d k := by
  ext q
  constructor
  · rintro ⟨hq, hlt⟩
    rcases Nat.lt_succ_iff_lt_or_eq.mp hlt with hlt | heq
    · exact .inr ⟨hq, hlt⟩
    · refine .inl ⟨hq, firstBlock_inj (hq.fill hn) hp (fill_length hq) hlen ?_⟩
      rw [firstBlock_fill, heq, hk]
  · rintro (⟨hq, hfill⟩ | ⟨hq, hlt⟩)
    · refine ⟨hq, ?_⟩
      rw [← firstBlock_fill, hfill, hk]
      exact Nat.lt_succ_self k
    · exact ⟨hq, Nat.lt_succ_of_lt hlt⟩

end Lib.IndexLayout
