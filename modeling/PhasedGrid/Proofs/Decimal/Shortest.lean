import PhasedGrid.Decimal.Shortest
import PhasedGrid.Proofs.Decimal.Rounding

/-!
The decimals chosen for a number are among those that round to it.
-/

namespace PhasedGrid.Decimal

set_option autoImplicit false

open Binary64 (below Rounds two_zpow_pos)

variable {m : Nat} {q : Int}

/-- The decimal as a rational number. -/
def Scaled.value (d : Scaled) : ℚ := d.digits * 10 ^ d.exponent

namespace Rounded

/-- The rationals between the ends of the interval. -/
structure Spans (r : Rounded) (x : ℚ) : Prop where
  low : (r.low : ℚ) / r.denominator ≤ x
  high : x ≤ (r.high : ℚ) / r.denominator
  opened : r.closed = false → (r.low : ℚ) / r.denominator < x ∧ x < (r.high : ℚ) / r.denominator

variable {r : Rounded} {k : Int} {n fuel d : Nat} {s : Scaled}

theorem spans_of_holds (hden : 0 < r.denominator) (h : r.holds d) : r.Spans d := by
  have hden' : (0 : ℚ) < r.denominator := Nat.cast_pos.mpr hden
  unfold holds at h
  split at h
  · rename_i hclosed
    rw [Bool.and_eq_true, decide_eq_true_eq, decide_eq_true_eq] at h
    refine ⟨?_, ?_, fun hopen => absurd (hclosed.symm.trans hopen) (by decide)⟩
    · rw [div_le_iff₀ hden']
      exact_mod_cast h.1
    · rw [le_div_iff₀ hden']
      exact_mod_cast h.2
  · rw [Bool.and_eq_true, decide_eq_true_eq, decide_eq_true_eq] at h
    have hlow : (r.low : ℚ) / r.denominator < d := by
      rw [div_lt_iff₀ hden']
      exact_mod_cast h.1
    have hhigh : (d : ℚ) < r.high / r.denominator := by
      rw [lt_div_iff₀ hden']
      exact_mod_cast h.2
    exact ⟨hlow.le, hhigh.le, fun _ => ⟨hlow, hhigh⟩⟩

theorem inUnits_denominator_pos (hden : 0 < r.denominator) (k : Int) :
    0 < (r.inUnits k).denominator := by
  unfold inUnits
  split
  · exact Nat.mul_pos hden (Nat.pow_pos (by omega))
  · exact hden

theorem inUnits_ends (r : Rounded) (k : Int) :
    ((r.inUnits k).low : ℚ) / (r.inUnits k).denominator = r.low / r.denominator / 10 ^ k ∧
      ((r.inUnits k).high : ℚ) / (r.inUnits k).denominator = r.high / r.denominator / 10 ^ k := by
  unfold inUnits
  split
  · rename_i hk
    obtain ⟨n, rfl⟩ := Int.eq_ofNat_of_zero_le hk
    simp only [Int.toNat_natCast, Nat.pow_eq, Nat.cast_mul, Nat.cast_pow, Nat.cast_ofNat,
      zpow_natCast, div_div, and_self]
  · rename_i hk
    obtain ⟨n, hn⟩ := Int.eq_ofNat_of_zero_le (show 0 ≤ -k by omega)
    obtain rfl : k = -n := by omega
    simp only [neg_neg, Int.toNat_natCast, Nat.pow_eq, Nat.cast_mul, Nat.cast_pow, Nat.cast_ofNat,
      zpow_neg, zpow_natCast, div_inv_eq_mul, div_mul_eq_mul_div, and_self]

theorem inUnits_closed (r : Rounded) (k : Int) : (r.inUnits k).closed = r.closed := by
  unfold inUnits
  split <;> rfl

theorem spans_of_inUnits {x : ℚ} (h : (r.inUnits k).Spans x) : r.Spans (x * 10 ^ k) := by
  have hk : (0 : ℚ) < 10 ^ k := zpow_pos (by norm_num) k
  obtain ⟨hlow, hhigh⟩ := inUnits_ends r k
  constructor
  · rw [← div_le_iff₀ hk, ← hlow]
    exact h.low
  · rw [← le_div_iff₀ hk, ← hhigh]
    exact h.high
  · intro hopen
    rw [← div_lt_iff₀ hk, ← lt_div_iff₀ hk, ← hlow, ← hhigh]
    exact h.opened ((inUnits_closed r k).trans hopen)

theorem onGrid?_holds (h : r.onGrid? k = some s) : s.exponent = k ∧ (r.inUnits k).holds s.digits := by
  unfold onGrid? at h
  dsimp only at h
  split at h
  · rename_i hd hd'
    cases h
    refine ⟨rfl, ?_⟩
    dsimp only
    split
    · exact hd
    · exact hd'
  · cases h
    exact ⟨rfl, ‹_›⟩
  · cases h
    exact ⟨rfl, ‹_›⟩
  · cases h

/-- Whatever the search comes up with lies in the interval. -/
theorem search_spans (hden : 0 < r.denominator) (h : r.search n fuel = some s) :
    r.Spans s.value := by
  induction fuel generalizing n with
  | zero => cases h
  | succ fuel ih =>
    rw [search] at h
    split at h
    · rename_i hgrid
      cases h
      obtain ⟨hexp, hholds⟩ := onGrid?_holds hgrid
      rw [Scaled.value, hexp]
      exact spans_of_inUnits (spans_of_holds (inUnits_denominator_pos hden _) hholds)
    · exact ih h

theorem of_denominator_pos (m : Nat) (q : Int) : 0 < (of m q).denominator := by
  dsimp only [of]
  split
  · exact Nat.one_pos
  · exact Nat.pow_pos (by omega)

theorem of_quarters (n : Nat) (q : Int) :
    ((n * (if 2 ≤ q then Nat.pow 2 (q - 2).toNat else 1) : Nat) : ℚ) /
      (if 2 ≤ q then 1 else Nat.pow 2 (2 - q).toNat : Nat) = n * 2 ^ (q - 2) := by
  split
  · obtain ⟨i, hi⟩ := Int.eq_ofNat_of_zero_le (show 0 ≤ q - 2 by omega)
    simp only [hi, Int.toNat_natCast, Nat.pow_eq, Nat.cast_mul, Nat.cast_pow, Nat.cast_ofNat,
      Nat.cast_one, zpow_natCast, div_one]
  · obtain ⟨i, hi⟩ := Int.eq_ofNat_of_zero_le (show 0 ≤ 2 - q by omega)
    rw [show q - 2 = -(i : Int) by omega, show 2 - q = (i : Int) by omega]
    simp only [Int.toNat_natCast, Nat.pow_eq, Nat.cast_pow, Nat.cast_ofNat, mul_one, zpow_neg,
      zpow_natCast, div_eq_mul_inv]

/-- The ends of the interval are half-way to the neighbours. -/
theorem of_ends (hm : 0 < m) (q : Int) :
    ((of m q).low : ℚ) / (of m q).denominator = (m - below m q) * 2 ^ q ∧
      ((of m q).high : ℚ) / (of m q).denominator = (m + 1 / 2) * 2 ^ q := by
  have hquarter : (2 : ℚ) ^ q = 4 * 2 ^ (q - 2) := by
    rw [zpow_sub₀ (by norm_num)]
    norm_num
    ring
  dsimp only [of]
  rw [of_quarters, of_quarters, hquarter]
  constructor
  · unfold below
    simp only [Nat.pow_eq]
    split <;>
      · rw [Nat.cast_sub (by omega)]
        push_cast
        ring
  · push_cast
    ring

theorem rounds_of_spans (hm : 0 < m) {x : ℚ} (h : (of m q).Spans x) : Rounds m q x := by
  obtain ⟨hlow, hhigh⟩ := of_ends hm q
  constructor
  · rw [← hlow]
    exact h.low
  · rw [← hhigh]
    exact h.high
  · intro hodd
    rw [← hlow, ← hhigh]
    apply h.opened
    rw [of, decide_eq_false_iff_not, hodd]
    exact Nat.one_ne_zero

end Rounded

theorem exact_value (m : Nat) (q : Int) : (exact m q).value = m * 2 ^ q := by
  unfold exact Scaled.value
  split
  · obtain ⟨i, rfl⟩ := Int.eq_ofNat_of_zero_le ‹_›
    simp
  · obtain ⟨i, hi⟩ := Int.eq_ofNat_of_zero_le (show 0 ≤ -q by omega)
    obtain rfl : q = -i := by omega
    simp only [neg_neg, Int.toNat_natCast, Nat.pow_eq, Nat.cast_mul, Nat.cast_pow, Nat.cast_ofNat,
      zpow_neg, zpow_natCast]
    rw [show (10 : ℚ) = 2 * 5 by norm_num, mul_pow]
    field_simp

theorem exact_rounds (m : Nat) (q : Int) : Rounds m q (exact m q).value := by
  have hq := two_zpow_pos q
  have hbelow : 0 < below m q := by
    unfold below
    split <;> norm_num
  have hlow : (m - below m q) * 2 ^ q < (exact m q).value := by
    rw [exact_value]
    gcongr
    linarith
  have hhigh : (exact m q).value < (m + 1 / 2) * 2 ^ q := by
    rw [exact_value]
    gcongr
    linarith
  exact ⟨hlow.le, hhigh.le, fun _ => ⟨hlow, hhigh⟩⟩

/-- The decimal chosen for a number rounds to it. -/
theorem shortest_rounds (hm : 0 < m) (q : Int) : Rounds m q (shortest m q).value := by
  unfold shortest
  cases hs : (Rounded.of m q).search 1 17 with
  | none => exact exact_rounds m q
  | some s =>
    exact Rounded.rounds_of_spans hm (Rounded.search_spans (Rounded.of_denominator_pos m q) hs)

end PhasedGrid.Decimal
