import PhasedGrid.Proofs.Decimal.Readback
import PhasedGrid.Proofs.Decimal.Shortest

/-!
The text of a number is read back as that number.
-/

namespace PhasedGrid.Decimal

set_option autoImplicit false

open Binary64 (Legal Rounds two_zpow_pos)

variable {d : Scaled} {front back : List Char} {m : Nat} {q : Int} {x : ℚ}

/-- The digits of a decimal make up its value. -/
theorem Written.value_div (h : Written d front back) :
    (Nat.ofDigitChars 10 (front ++ back) 0 : ℚ) / 10 ^ back.length = d.value := by
  have hvalue := congrArg (Nat.cast (R := ℚ)) h.value
  have hshort := h.short
  generalize Nat.ofDigitChars 10 (front ++ back) 0 = n at *
  simp only [Nat.pow_eq] at hvalue
  push_cast at hvalue
  have hten : (10 : ℚ) ^ d.exponent = 10 ^ d.exponent.toNat / 10 ^ (-d.exponent).toNat := by
    rw [← zpow_natCast, ← zpow_natCast, ← zpow_sub₀ (by norm_num)]
    congr 1
    omega
  rw [Scaled.value, hten, ← mul_div_assoc, ← hvalue, div_eq_div_iff (by positivity) (by positivity),
    mul_assoc, ← pow_add, Nat.sub_add_cancel hshort]

theorem two_pow_le : (2 : ℚ) ^ 1200 ≤ 10 ^ 400 := by
  rw [show 1200 = 3 * 400 from rfl, pow_mul]
  gcongr
  norm_num

section Magnitude

variable (hm : Legal m q) (h : Rounds m q x)
include hm h

/-- The numbers lie far within the bounds beyond which digits do not matter. -/
theorem lt_ten_pow : x < 10 ^ 400 := by
  have hsmall : (m : ℚ) + 1 / 2 < 2 ^ 53 := by
    have : (m : ℚ) + 1 ≤ 2 ^ 53 := by exact_mod_cast hm.small
    linarith
  have hgreatest := hm.greatest
  have hq := two_zpow_pos q
  calc x ≤ (m + 1 / 2) * 2 ^ q := h.high
    _ < 2 ^ 53 * 2 ^ q := by gcongr
    _ = 2 ^ (53 + q) := by
      rw [zpow_add₀ (by norm_num)]
      rfl
    _ ≤ 2 ^ ((1200 : Nat) : Int) := zpow_le_zpow_right₀ (by norm_num) (by omega)
    _ ≤ 10 ^ 400 := by
      rw [zpow_natCast]
      exact two_pow_le

theorem ten_pow_lt (hpos : 0 < m) : 1 < x * 10 ^ 400 := by
  have hone : (1 : ℚ) ≤ m := by exact_mod_cast hpos
  have hbelow := Binary64.below_le m q
  have hleast := hm.least
  have hq := two_zpow_pos q
  have hx := h.pos hpos
  have hhalf : (2 : ℚ) ^ (q - 1) ≤ x := by
    rw [zpow_sub_one₀ (by norm_num)]
    calc (2 : ℚ) ^ q * 2⁻¹ = 1 / 2 * 2 ^ q := by ring
      _ ≤ (m - Binary64.below m q) * 2 ^ q := by
        gcongr
        linarith
      _ ≤ x := h.low
  calc (1 : ℚ) = 2 ^ (0 : Int) := (zpow_zero 2).symm
    _ < 2 ^ (q - 1 + (1200 : Nat)) := zpow_lt_zpow_right₀ (by norm_num) (by omega)
    _ = 2 ^ (q - 1) * 2 ^ 1200 := by rw [zpow_add₀ (by norm_num), zpow_natCast]
    _ ≤ x * 10 ^ 400 := by
      gcongr
      exact two_pow_le

end Magnitude

/-- Neither bound of the size of a decimal is reached. -/
theorem size_bounds {n places : Nat} (hhigh : (n : ℚ) / 10 ^ places < 10 ^ 400)
    (hlow : 1 < (n : ℚ) / 10 ^ places * 10 ^ 400) :
    (Nat.toDigits 10 n).length ≤ 400 + places ∧ places ≤ (Nat.toDigits 10 n).length + 400 := by
  have hplaces : (0 : ℚ) < 10 ^ places := by positivity
  constructor
  · rw [Nat.length_toDigits_le_iff (by omega) (by omega), pow_add]
    rw [div_lt_iff₀ hplaces] at hhigh
    exact_mod_cast hhigh
  · have hlength : n < 10 ^ (Nat.toDigits 10 n).length :=
      (Nat.length_toDigits_le_iff (by omega) Nat.length_toDigits_pos).mp (Nat.le_refl _)
    rw [div_mul_eq_mul_div, lt_div_iff₀ hplaces, one_mul] at hlow
    have hpow : 10 ^ places < 10 ^ ((Nat.toDigits 10 n).length + 400) := by
      rw [pow_add]
      calc 10 ^ places < n * 10 ^ 400 := by exact_mod_cast hlow
        _ ≤ 10 ^ (Nat.toDigits 10 n).length * 10 ^ 400 := Nat.mul_le_mul_right _ hlength.le
    exact ((Nat.pow_lt_pow_iff_right (by omega)).mp hpow).le

/-- Digits that make up a decimal which rounds to a number are read as that number. -/
theorem Fraction.nearest_written (negative : Bool) (hw : Written d front back) (hm : Legal m q)
    (hpos : 0 < m) (h : Rounds m q d.value) :
    Fraction.nearest negative ⟨front, back, 0⟩ = .finite negative m q := by
  have hread := readDigits?_eq_ofDigitChars hw.isDigit 0
  have hdiv := hw.value_div
  have hx := h.pos hpos
  have hhigh := lt_ten_pow hm h
  have hlow := ten_pow_lt hm h hpos
  unfold Fraction.nearest
  simp only [hread, Option.getD_some, Nat.pow_eq]
  generalize Nat.ofDigitChars 10 (front ++ back) 0 = n at *
  generalize back.length = places at *
  rw [← hdiv] at hx hhigh hlow h
  obtain ⟨hmost, hleast⟩ := size_bounds hhigh hlow
  have hn : n ≠ 0 := by
    rintro rfl
    rw [Nat.cast_zero, zero_div] at hx
    exact lt_irrefl 0 hx
  rw [if_neg hn, if_neg (by omega), if_neg (by omega)]
  by_cases hplaces : places = 0
  · subst hplaces
    rw [if_pos (by omega)]
    apply Binary64.nearest_eq negative Nat.one_pos hm hpos
    simpa using h
  · rw [if_neg (by omega), show (-(0 - (places : Int))).toNat = places by omega]
    apply Binary64.nearest_eq negative (Nat.pow_pos (by omega)) hm hpos
    exact_mod_cast h

theorem Fraction.nearest_zero (negative : Bool) {e : Int} (hw : Written ⟨0, e⟩ front back) :
    Fraction.nearest negative ⟨front, back, 0⟩ = .finite negative 0 (-1074) := by
  have hread := readDigits?_eq_ofDigitChars hw.isDigit 0
  have hvalue := hw.value
  rw [Nat.zero_mul] at hvalue
  have hzero := (Nat.mul_eq_zero.mp hvalue).resolve_right (Nat.pow_pos (by omega)).ne'
  unfold Fraction.nearest
  simp only [hread, hzero, Option.getD_some, if_true]

namespace Binary64

/-- The decimal that is written for a finite number. -/
def chosen (m : Nat) (q : Int) : Scaled := if m = 0 then ⟨0, 0⟩ else shortest m q

theorem nearest_chosen (negative : Bool) (hm : Legal m q) :
    (fraction? ((chosen m q).positional "").toList).map (Fraction.nearest negative) =
      some (.finite negative m q) := by
  obtain ⟨front, back, hw⟩ := exists_written (chosen m q)
  rw [fraction?_written hw, Option.map_some]
  by_cases hzero : m = 0
  · obtain rfl := hm.full (by omega)
    rw [chosen, if_pos hzero] at hw
    rw [Fraction.nearest_zero negative hw, hzero]
  · have hpos : 0 < m := Nat.pos_of_ne_zero hzero
    rw [chosen, if_neg hzero] at hw
    rw [Fraction.nearest_written negative hw hm hpos (shortest_rounds hpos q)]

theorem render_finite (negative : Bool) (m : Nat) (q : Int) :
    (Binary64.finite negative m q).render plain =
      (if negative then "-" else "") ++ (chosen m q).positional "" := by
  have hsize : (if m = 0 then Scaled.positional plain.whole ⟨0, 0⟩
      else (shortest m q).positional plain.whole) = (chosen m q).positional "" := by
    unfold chosen
    split <;> rfl
  rw [render, hsize]
  cases negative with
  | false => simp
  | true => rfl

theorem binary64?_render_finite (negative : Bool) (hm : Legal m q) :
    binary64? ((Binary64.finite negative m q).render plain).toList = some (.finite negative m q) := by
  have hp := positional_positional (chosen m q)
  have hnearest := nearest_chosen negative hm
  rw [render_finite, String.toList_append]
  cases negative with
  | false =>
    rw [← hnearest]
    exact binary64?_positional hp
  | true =>
    rw [← hnearest]
    exact unsignedReading?_positional true hp

/-- A number is read back from its text. -/
theorem binary64?_render (b : Binary64) (h : ∀ negative m q, b = .finite negative m q → Legal m q) :
    binary64? (b.render plain).toList = some b := by
  cases b with
  | nan => decide
  | infinite negative => cases negative <;> decide
  | finite negative m q => exact binary64?_render_finite negative (h negative m q rfl)

end Binary64

theorem reading?_render_self (x : Float) : reading? (render plain x) = some x := by
  have hlegal : ∀ negative m q, Binary64.ofFloat x = .finite negative m q → Legal m q :=
    fun _ _ _ h => Binary64.legal_of_ofBits h
  rw [reading?, render, Binary64.binary64?_render _ hlegal, Option.map_some,
    Binary64.toFloat_ofFloat]

/-- Telling a reading again does not change it. -/
theorem retold_eq (x : Float) : retold x = x := by
  rw [retold, reading?_render_self, Option.getD_some]

end PhasedGrid.Decimal
