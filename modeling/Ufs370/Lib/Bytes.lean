import Mathlib.Logic.Function.Basic
import Mathlib.Tactic.IntervalCases

/-! Big-endian halfwords and words in byte buffers. -/

namespace Lib.Bytes

/-- Byte `k` of `n` bytes that hold `w`, the most significant first. -/
def byteOf (n w k : Nat) : UInt8 := UInt8.ofNat (w / 256 ^ (n - 1 - k))

def half (b : Nat → UInt8) (o : Nat) : UInt16 :=
  UInt16.ofNat ((b o).toNat * 256 + (b (o + 1)).toNat)

def long (b : Nat → UInt8) (o : Nat) : UInt32 :=
  UInt32.ofNat ((b o).toNat * 16777216 + (b (o + 1)).toNat * 65536 + (b (o + 2)).toNat * 256 +
    (b (o + 3)).toNat)

/-- Word `i` of a buffer seen as an array of words. -/
def word (b : Nat → UInt8) (i : Nat) : Nat := (long b (4 * i)).toNat

def setWord (b : Nat → UInt8) (i w : Nat) : Nat → UInt8 :=
  fun o => if o / 4 = i then byteOf 4 w (o % 4) else b o

theorem half_bytes {b : Nat → UInt8} {o : Nat} {w : UInt16}
    (h : ∀ k, k < 2 → b (o + k) = byteOf 2 w.toNat k) : half b o = w := by
  have h0 := h 0 (by omega)
  have h1 := h 1 (by omega)
  simp only [Nat.add_zero] at h0
  apply UInt16.toNat_inj.mp
  have hw := w.toNat_lt
  simp only [half, h0, h1, byteOf, UInt16.toNat_ofNat', UInt8.toNat_ofNat']
  omega

theorem long_bytes {b : Nat → UInt8} {o : Nat} {w : UInt32}
    (h : ∀ k, k < 4 → b (o + k) = byteOf 4 w.toNat k) : long b o = w := by
  have h0 := h 0 (by omega)
  have h1 := h 1 (by omega)
  have h2 := h 2 (by omega)
  have h3 := h 3 (by omega)
  simp only [Nat.add_zero] at h0
  apply UInt32.toNat_inj.mp
  have hw := w.toNat_lt
  simp only [long, h0, h1, h2, h3, byteOf, UInt32.toNat_ofNat', UInt8.toNat_ofNat']
  omega

theorem word_lt (b : Nat → UInt8) (i : Nat) : word b i < 4294967296 := UInt32.toNat_lt _

theorem word_congr {b c : Nat → UInt8} {i j : Nat}
    (h : ∀ k, k < 4 → b (4 * i + k) = c (4 * j + k)) : word b i = word c j := by
  have h0 := h 0 (by omega)
  have h1 := h 1 (by omega)
  have h2 := h 2 (by omega)
  have h3 := h 3 (by omega)
  simp only [Nat.add_zero] at h0
  simp only [word, long, h0, h1, h2, h3]

@[simp] theorem word_setWord_same (b : Nat → UInt8) (i w : Nat) :
    word (setWord b i w) i = w % 4294967296 := by
  have : long (setWord b i w) (4 * i) = UInt32.ofNat w := by
    apply long_bytes
    intro k hk
    have hdiv : (4 * i + k) / 4 = i := by omega
    have hmod : (4 * i + k) % 4 = k := by omega
    apply UInt8.toNat_inj.mp
    simp only [setWord, hdiv, hmod, if_true, byteOf, UInt32.toNat_ofNat', UInt8.toNat_ofNat']
    interval_cases k <;> simp <;> omega
  rw [word, this, UInt32.toNat_ofNat']

theorem word_setWord_ne (b : Nat → UInt8) {i j : Nat} (w : Nat) (h : j ≠ i) :
    word (setWord b i w) j = word b j := by
  apply word_congr
  intro k hk
  have hdiv : (4 * j + k) / 4 = j := by omega
  simp [setWord, hdiv, h]

@[simp] theorem word_zero (i : Nat) : word (fun _ => 0) i = 0 := by
  simp [word, long]

end Lib.Bytes
