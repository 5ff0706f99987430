import Mathlib
import PhasedGrid.Decimal.Binary64

/-!
Numbers and their words. Lean's own model of a number keeps a word in which not-a-number is always
the same; the sign, significand and exponent of the word tell the number.
-/

namespace PhasedGrid.Decimal

set_option autoImplicit false

open Float.Model (Format)
open Float.Model.UnpackedFloat

section Fields

variable (word : BitVec Format.binary64.numBits)

theorem unpackMantissa_toNat : (unpackMantissa word).toNat = word.toNat % 2 ^ 52 := by
  rw [unpackMantissa_def, BitVec.extractLsb'_toNat]
  rfl

theorem unpackExponent_toNat : (unpackExponent word).toNat = word.toNat / 2 ^ 52 % 2 ^ 11 := by
  rw [unpackExponent_def, BitVec.extractLsb'_toNat, Nat.shiftRight_eq_div_pow]

end Fields

namespace Binary64

/-- A finite number in the form that a word gives it: 53 bits at most, and all 53 of them above the
least exponent. -/
structure Legal (m : Nat) (q : Int) : Prop where
  small : m < 2 ^ 53
  least : -1074 ≤ q
  greatest : q ≤ 971
  full : m < 2 ^ 52 → q = -1074

theorem legal_of_ofBits {bits : UInt64} {negative : Bool} {m : Nat} {q : Int}
    (h : ofBits bits = .finite negative m q) : Legal m q := by
  unfold ofBits at h
  simp only [Nat.pow_eq] at h
  split at h
  · split at h <;> cases h
  split at h
  · obtain ⟨-, rfl, rfl⟩ := Binary64.finite.inj h
    constructor <;> omega
  · obtain ⟨-, rfl, rfl⟩ := Binary64.finite.inj h
    constructor <;> omega

theorem toBits_ofBits {bits : UInt64} (h : ofBits bits ≠ .nan) : (ofBits bits).toBits = bits := by
  have hbits : bits.toNat < 2 ^ 64 := bits.toNat_lt
  have hsign : signBits (decide (bits.toNat / 2 ^ 63 % 2 = 1)) = bits.toNat / 2 ^ 63 * 2 ^ 63 := by
    unfold signBits
    simp only [decide_eq_true_eq, Nat.pow_eq]
    split <;> omega
  -- each case comes down to the number that the parts make up
  have hword : ∀ n, n = bits.toNat → UInt64.ofNat n = bits := by
    rintro n rfl
    exact UInt64.ofNat_toNat
  unfold ofBits at h ⊢
  simp only [Nat.pow_eq] at h ⊢
  by_cases hones : bits.toNat / 2 ^ 52 % 2 ^ 11 = 2047
  · by_cases hzero : bits.toNat % 2 ^ 52 = 0
    · rw [if_pos hones, if_pos hzero]
      apply hword
      rw [hsign, Nat.pow_eq]
      omega
    · rw [if_pos hones, if_neg hzero] at h
      exact absurd rfl h
  rw [if_neg hones]
  by_cases hfield : bits.toNat / 2 ^ 52 % 2 ^ 11 = 0
  · rw [if_pos hfield, toBits, Nat.pow_eq, if_pos (by omega)]
    apply hword
    omega
  · rw [if_neg hfield, toBits, Nat.pow_eq, if_neg (by omega)]
    apply hword
    omega

/-- The words of numbers name not-a-number in one way. -/
theorem toBits_of_nan {x : Float} (h : ofFloat x = .nan) : (Binary64.nan).toBits = x.toBits := by
  obtain ⟨bits, valid⟩ := x
  have hparts : bits.toNat / 2 ^ 52 % 2 ^ 11 = 2047 ∧ bits.toNat % 2 ^ 52 ≠ 0 := by
    unfold ofFloat ofBits at h
    simp only [Nat.pow_eq] at h
    split at h
    · split at h
      · cases h
      · exact ⟨‹_›, ‹_›⟩
    · split at h <;> cases h
  have hcanonical : bits.toBitVec = packedNaN .binary64 := by
    apply valid.eq_packedNaN
    · apply BitVec.eq_of_toNat_eq
      exact (unpackExponent_toNat bits.toBitVec).trans hparts.1
    · intro hzero
      apply hparts.2
      rw [← UInt64.toNat_toBitVec, ← unpackMantissa_toNat bits.toBitVec, hzero]
      rfl
  apply UInt64.toBitVec_inj.mp
  exact hcanonical.symm

/-- A number is told by what its word stands for. -/
theorem toFloat_ofFloat (x : Float) : (ofFloat x).toFloat = x := by
  have hbits : (ofFloat x).toBits = x.toBits := by
    by_cases h : ofFloat x = .nan
    · rw [h]
      exact toBits_of_nan h
    · exact toBits_ofBits h
  rw [toFloat, hbits, Float.ofBits_toBits]

end Binary64

end PhasedGrid.Decimal
