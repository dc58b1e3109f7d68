import Ufs370.Dirlist
import Ufs370.InodeLaws
import Ufs370.LookupRefs

/-! Time stamps: one pair of words in one of two forms, told apart by the second word. -/

namespace Ufs370

/-- The three times of an inode. -/
inductive Stamp
  | ctime | mtime | atime
  deriving DecidableEq, Repr

def Attr.stamp (attr : Attr) : Stamp → Timev
  | .ctime => attr.ctime
  | .mtime => attr.mtime
  | .atime => attr.atime

def Dinode.stamp (d : Dinode) : Stamp → Timev
  | .ctime => d.ctime
  | .mtime => d.mtime
  | .atime => d.atime

def Dlist.stamp (l : Dlist) : Stamp → Timev
  | .ctime => l.ctime
  | .mtime => l.mtime
  | .atime => l.atime

/-- `l` lists inode `d`, out of the cache or off a block of the disk. -/
def Lists (l : Dlist) (d : Dinode) : Prop :=
  ∃ ino name mounted, l = .of ino name d mounted ∨
    ∃ b ofs, l = .of ino name (.ofBlock (d.toBlock b ofs) ofs) mounted

namespace Timev

/-- The pair as a `v2` value, which counts milliseconds. -/
def millis (t : Timev) : Nat := t.hi.toNat * 4294967296 + t.lo.toNat

/-- The milliseconds of the pair as a `v1` value, of seconds and microseconds. -/
def legacy (t : Timev) : Nat := t.hi.toNat * 1000 + t.lo.toNat / 1000

structure IsV1 (t : Timev) : Prop where
  seconds : 0 < t.hi
  useconds : t.lo < 1000000

variable {t t' : Timev}

theorem millis_inj : t.millis = t'.millis ↔ t = t' := by
  refine ⟨fun h => ?_, fun h => h ▸ rfl⟩
  have hlo := t.lo.toNat_lt
  have hlo' := t'.lo.toNat_lt
  simp only [millis] at h hlo hlo'
  have hhi : t.hi.toNat = t'.hi.toNat := by omega
  have hlow : t.lo.toNat = t'.lo.toNat := by omega
  rw [show t = ⟨t.hi, t.lo⟩ from rfl, UInt32.toNat_inj.mp hhi, UInt32.toNat_inj.mp hlow]

theorem lo_lt_iff : t.lo < 1000000 ↔ t.lo.toNat < 1000000 := UInt32.lt_iff_toNat_lt

theorem le_lo_iff : 1000000 ≤ t.lo ↔ 1000000 ≤ t.lo.toNat := UInt32.le_iff_toNat_le

theorem legacy_lt (h : 0 < t.millis) : t.legacy < t.millis := by
  simp only [legacy, millis] at *
  omega

theorem IsV1.pos (h : t.IsV1) : 0 < t.millis := by
  have hi : 0 < t.hi.toNat := UInt32.lt_iff_toNat_lt.mp h.seconds
  simp only [millis]
  omega

theorem IsV1.legacy_pos (h : t.IsV1) : 0 < t.legacy := by
  have hi : 0 < t.hi.toNat := UInt32.lt_iff_toNat_lt.mp h.seconds
  simp only [legacy]
  omega

end Timev

section Convert

variable {t : Timev}

theorem v1ToV2_millis : (v1ToV2 t).millis = t.legacy := by
  have hhi := t.hi.toNat_lt
  have hlo := t.lo.toNat_lt
  have hlt : t.legacy / 4294967296 < 4294967296 := by
    simp only [Timev.legacy]
    omega
  change (UInt32.ofNat (t.legacy / 4294967296)).toNat * 4294967296 + (UInt32.ofNat t.legacy).toNat = _
  rw [UInt32.toNat_ofNat', UInt32.toNat_ofNat', Nat.mod_eq_of_lt hlt]
  exact Nat.div_add_mod' _ _

theorem v1ToV2_lo : (v1ToV2 t).lo.toNat = t.legacy % 4294967296 := UInt32.toNat_ofNat'

/-- A listing converts what looks like the legacy form, and that only makes it smaller. -/
theorem Dlist.time_millis (t : Timev) :
    (Dlist.time t).millis = if t.lo < 1000000 then t.legacy else t.millis := by
  rw [Dlist.time]
  split
  · exact v1ToV2_millis
  · rfl

theorem Dlist.time_millis_iff (h : 0 < t.millis) : (Dlist.time t).millis = t.millis ↔ 1000000 ≤ t.lo := by
  rw [Dlist.time_millis, ← UInt32.not_lt]
  split
  · exact ⟨fun heq => absurd heq (Nat.ne_of_lt (t.legacy_lt h)), fun hlo => absurd ‹t.lo < 1000000› hlo⟩
  · exact ⟨fun _ => ‹_›, fun _ => rfl⟩

theorem attrTime_v1 (h : t.IsV1) (default : Timev) : attrTime t default = v1ToV2 t :=
  if_pos ⟨h.seconds, h.useconds⟩

/-- A stamp in the latest form is kept unless it looks like the legacy form. -/
theorem attrTime_self (h : 0 < t.millis) : attrTime t t = t ↔ ¬ t.IsV1 := by
  rw [attrTime]
  split
  · rename_i hv1
    refine ⟨fun heq => ?_, fun hn => absurd (Timev.IsV1.mk hv1.1 hv1.2) hn⟩
    rw [← Timev.millis_inj, v1ToV2_millis] at heq
    exact absurd heq (Nat.ne_of_lt (t.legacy_lt h))
  · rename_i hnot
    exact ⟨fun _ hv1 => hnot ⟨hv1.seconds, hv1.useconds⟩, fun _ => rfl⟩

end Convert

section Stamps

variable {l : Dlist} {d : Dinode} {t : Timev}

theorem Lists.stamp (h : Lists l d) (k : Stamp) : l.stamp k = Dlist.time (d.stamp k) := by
  obtain ⟨ino, name, mounted, rfl | ⟨b, ofs, rfl⟩⟩ := h
  · cases k <;> rfl
  · rw [Dinode.ofBlock_toBlock]
    cases k <;> rfl

theorem setAttr_v1 {attr : Attr} {k : Stamp} (h : (attr.stamp k).IsV1) (d : Dinode) (now : Timev) :
    (d.setAttr attr now).stamp k = v1ToV2 (attr.stamp k) := by
  cases k <;> exact attrTime_v1 h _

/-- A new object has one time, which the kept creation time is the default of. -/
theorem setAttr_new (s : Ufs) (type : UInt16) (group : List UInt8) (d : Dinode) (k : Stamp) :
    (d.setAttr (newAttr s type group t) t).stamp k = attrTime t t := by
  have hagain : attrTime t (attrTime t t) = attrTime t t := by
    simp only [attrTime]
    split <;> rfl
  cases k
  · rfl
  · exact hagain
  · exact hagain

end Stamps

/-- Inode `d` has all its times at `t`, and so has what lists it. -/
def StampsKept (d : Dinode) (t : Timev) : Prop :=
  ∀ k, d.stamp k = t ∧ ∀ l, Lists l d → l.stamp k = t

/-- Time `k` of what lists inode `d` is legacy time `t` in milliseconds. -/
def LegacyKept (d : Dinode) (k : Stamp) (t : Timev) : Prop :=
  ∀ l, Lists l d → (l.stamp k).millis = t.legacy

theorem lists_self (d : Dinode) : Lists (.of 0 [] d none) d := ⟨0, [], none, .inl rfl⟩

theorem stampsKept_iff (s : Ufs) (type : UInt16) (group : List UInt8) (d : Dinode) {t : Timev}
    (hpos : 0 < t.millis) : StampsKept (d.setAttr (newAttr s type group t) t) t ↔
      1000000 ≤ t.millis % 4294967296 := by
  have hlow : t.millis % 4294967296 = t.lo.toNat := by
    have := t.lo.toNat_lt
    simp only [Timev.millis]
    omega
  rw [hlow, ← Timev.le_lo_iff]
  constructor
  · intro h
    obtain ⟨hstored, hlisted⟩ := h .ctime
    have hshown := hlisted _ (lists_self _)
    rw [(lists_self _).stamp, hstored, ← Timev.millis_inj] at hshown
    exact (Dlist.time_millis_iff hpos).mp hshown
  · intro h k
    have hnot : ¬ t.IsV1 := fun hv1 => UInt32.not_lt.mpr h hv1.useconds
    have hstored : (d.setAttr (newAttr s type group t) t).stamp k = t :=
      (setAttr_new s type group d k).trans ((attrTime_self hpos).mpr hnot)
    refine ⟨hstored, fun l hl => ?_⟩
    rw [hl.stamp, hstored, ← Timev.millis_inj]
    exact (Dlist.time_millis_iff hpos).mpr h

theorem legacyKept_iff {attr : Attr} {k : Stamp} (hv1 : (attr.stamp k).IsV1) (d : Dinode) (now : Timev) :
    LegacyKept (d.setAttr attr now) k (attr.stamp k) ↔
      1000000 ≤ (attr.stamp k).legacy % 4294967296 := by
  have hpos : 0 < (v1ToV2 (attr.stamp k)).millis := by
    rw [v1ToV2_millis]
    exact hv1.legacy_pos
  rw [← v1ToV2_lo, ← Timev.le_lo_iff, ← Dlist.time_millis_iff hpos, v1ToV2_millis]
  constructor
  · intro h
    have hshown := h _ (lists_self _)
    rwa [(lists_self _).stamp, setAttr_v1 hv1] at hshown
  · intro h l hl
    rw [hl.stamp, setAttr_v1 hv1]
    exact h

/-- A file made in the first 1000 seconds of one of the spans of 2 ^ 32 milliseconds. -/
def spanInode : Dinode := Dinode.zero.setAttr (newAttr bareRoot 0x8000 [] ⟨415, 0⟩) ⟨415, 0⟩

end Ufs370
