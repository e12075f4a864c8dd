import Mathlib.Tactic.ByContra
import Mathlib.Data.Nat.Notation

/-! Scanning a 64-bit word: range masks, and the lowest and highest set bits. -/
namespace PerpexEngine.BitScan

abbrev Word := BitVec 64

/-- `~0 << k`. -/
def bitsFrom (k : ℕ) : Word := BitVec.allOnes 64 <<< k

/-- The bits up to and including `k`. -/
def bitsThrough (k : ℕ) : Word :=
  if k = 63 then BitVec.allOnes 64 else (1#64 <<< (k + 1)) - 1#64

def lowestBit (w : Word) : ℕ := w.ctz.toNat

def highestBit (w : Word) : ℕ := 63 - w.clz.toNat

def setBit (w : Word) (k : ℕ) : Word := w ||| (1#64 <<< k)

def clearBit (w : Word) (k : ℕ) : Word := w &&& ~~~(1#64 <<< k)

theorem getLsbD_one_shift (j k : ℕ) (hj : j < 64) : (1#64 <<< k).getLsbD j = decide (j = k) := by
  rw [BitVec.getLsbD_shiftLeft, BitVec.getLsbD_one]
  by_cases hjk : j = k
  · simp [hjk, show k < 64 by omega]
  · by_cases hlt : j < k
    · simp [hjk, hlt]
    · simp [hjk, show j - k ≠ 0 by omega]

theorem getLsbD_setBit (w : Word) (j k : ℕ) (hj : j < 64) :
    (setBit w k).getLsbD j = (decide (j = k) || w.getLsbD j) := by
  rw [setBit, BitVec.getLsbD_or, getLsbD_one_shift j k hj, Bool.or_comm]

theorem getLsbD_clearBit (w : Word) (j k : ℕ) (hj : j < 64) :
    (clearBit w k).getLsbD j = (!decide (j = k) && w.getLsbD j) := by
  rw [clearBit, BitVec.getLsbD_and, BitVec.getLsbD_not, getLsbD_one_shift j k hj]
  simp [hj, Bool.and_comm]

theorem getLsbD_bitsFrom (j k : ℕ) (hj : j < 64) :
    (bitsFrom k).getLsbD j = decide (k ≤ j) := by
  rw [bitsFrom, BitVec.getLsbD_shiftLeft, BitVec.getLsbD_allOnes]
  by_cases hkj : j < k
  · simp [hkj]
  · simp [hkj, hj, show k ≤ j by omega, show j - k < 64 by omega]

theorem getLsbD_bitsThrough (j k : ℕ) (hj : j < 64) (hk : k < 64) :
    (bitsThrough k).getLsbD j = decide (j ≤ k) := by
  unfold bitsThrough
  split
  case isTrue h => rw [BitVec.getLsbD_allOnes]; simp [hj, show j ≤ k by omega]
  case isFalse h =>
    have hlt : 2 ^ (k + 1) < 2 ^ 64 := Nat.pow_lt_pow_right (by decide) (by omega)
    have hpos : 0 < 2 ^ (k + 1) := Nat.two_pow_pos _
    have hval : ((1#64 <<< (k + 1)) - 1#64).toNat = 2 ^ (k + 1) - 1 := by
      rw [BitVec.toNat_sub, BitVec.toNat_shiftLeft, BitVec.toNat_one (by decide)]
      rw [Nat.one_shiftLeft, Nat.mod_eq_of_lt hlt]
      omega
    rw [BitVec.getLsbD, hval, Nat.testBit_two_pow_sub_one]
    simp [show j < k + 1 ↔ j ≤ k by omega]

theorem setBit_eq_self {w : Word} {k : ℕ} (h : w.getLsbD k = true) : setBit w k = w := by
  apply BitVec.eq_of_getLsbD_eq
  intro j hj
  rw [getLsbD_setBit w j k hj]
  by_cases hjk : j = k
  · simp [hjk, h]
  · simp [hjk]

theorem lowestBit_lt {w : Word} (h : w ≠ 0#64) : lowestBit w < 64 := by
  have hlt := BitVec.ctz_lt_iff_ne_zero.2 h
  simpa [lowestBit, BitVec.lt_def] using hlt

theorem getLsbD_lowestBit {w : Word} (h : w ≠ 0#64) : w.getLsbD (lowestBit w) = true :=
  BitVec.getLsbD_true_ctz_of_ne_zero h

theorem lowestBit_le {w : Word} {j : ℕ} (h : w.getLsbD j = true) : lowestBit w ≤ j := by
  by_contra hlt
  rw [BitVec.getLsbD_false_of_lt_ctz (by simpa [lowestBit] using hlt)] at h
  cases h

theorem getLsbD_highestBit {w : Word} (h : w ≠ 0#64) : w.getLsbD (highestBit w) = true := by
  simpa [highestBit] using BitVec.getLsbD_true_clz_of_ne_zero (by decide) h

theorem le_highestBit {w : Word} {j : ℕ} (h : w.getLsbD j = true) : j ≤ highestBit w := by
  have hlt : w.toNat < 2 ^ (64 - w.clz.toNat) := BitVec.toNat_lt_two_pow_sub_clz
  by_contra hgt
  have hle : 64 - w.clz.toNat ≤ j := by
    unfold highestBit at hgt
    omega
  have hpow : 2 ^ (64 - w.clz.toNat) ≤ 2 ^ j := Nat.pow_le_pow_right (by decide) hle
  rw [BitVec.getLsbD, Nat.testBit_lt_two_pow (by omega)] at h
  cases h

theorem highestBit_lt (w : Word) : highestBit w < 64 := by
  unfold highestBit
  omega

theorem exists_getLsbD {w : Word} (h : w ≠ 0#64) : ∃ j < 64, w.getLsbD j = true :=
  ⟨lowestBit w, lowestBit_lt h, getLsbD_lowestBit h⟩

theorem eq_zero_iff {w : Word} : w = 0#64 ↔ ∀ j < 64, w.getLsbD j = false := by
  constructor
  · rintro rfl j -
    exact BitVec.getLsbD_zero
  · intro h
    by_contra hw
    obtain ⟨j, hj, hb⟩ := exists_getLsbD hw
    rw [h j hj] at hb
    cases hb

end PerpexEngine.BitScan
