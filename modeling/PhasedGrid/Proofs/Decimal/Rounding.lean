import PhasedGrid.Proofs.Decimal.Words

/-!
Rounding to the nearest number of 53 bits, told by what it means: a quotient is rounded to the
number whose neighbours are both farther from it, or as far if the significand is even.
-/

namespace PhasedGrid.Decimal

set_option autoImplicit false

namespace Binary64

variable {num den : Nat} {a b m : Nat} {q e : Int} {x y : ℚ}

theorem two_zpow_pos (q : Int) : (0 : ℚ) < 2 ^ q := zpow_pos (by norm_num) q

/-- Within half a unit of `m` everything is rounded to it, half a unit itself if `m` is even. -/
theorem roundEven_eq_of_mul (hb : 0 < b) (low : 2 * (m * b) ≤ 2 * a + b)
    (high : 2 * a ≤ 2 * (m * b) + b)
    (odd : m % 2 = 1 → 2 * (m * b) < 2 * a + b ∧ 2 * a < 2 * (m * b) + b) :
    roundEven a b = m := by
  have hsplit := Nat.div_add_mod' a b
  have hrest := Nat.mod_lt a hb
  unfold roundEven
  generalize a / b = w at *
  generalize a % b = r at *
  subst hsplit
  have hw : w ≤ m := by
    by_contra hlt
    have hstep : (m + 1) * b ≤ w * b := Nat.mul_le_mul_right b (by omega)
    rw [Nat.add_mul] at hstep
    omega
  have hm : m ≤ w + 1 := by
    by_contra hlt
    have hstep : (w + 2) * b ≤ m * b := Nat.mul_le_mul_right b (by omega)
    rw [Nat.add_mul] at hstep
    omega
  dsimp only
  rcases Nat.lt_or_ge w m with hlt | hge
  · obtain rfl : m = w + 1 := by omega
    rw [Nat.add_mul] at low high odd
    split
    · omega
    split <;> omega
  · obtain rfl : m = w := by omega
    split
    · omega
    split <;> omega

theorem roundEven_eq (hb : 0 < b) (low : (m : ℚ) - 1 / 2 ≤ a / b) (high : (a : ℚ) / b ≤ m + 1 / 2)
    (odd : m % 2 = 1 → (m : ℚ) - 1 / 2 < a / b ∧ (a : ℚ) / b < m + 1 / 2) :
    roundEven a b = m := by
  have hb' : (0 : ℚ) < b := Nat.cast_pos.mpr hb
  apply roundEven_eq_of_mul hb
  · rw [le_div_iff₀ hb'] at low
    have h : (2 * (m * b) : ℚ) ≤ 2 * a + b := by linarith
    exact_mod_cast h
  · rw [div_le_iff₀ hb'] at high
    have h : (2 * a : ℚ) ≤ 2 * (m * b) + b := by linarith
    exact_mod_cast h
  · intro hm
    obtain ⟨hl, hh⟩ := odd hm
    rw [lt_div_iff₀ hb'] at hl
    rw [div_lt_iff₀ hb'] at hh
    have h : (2 * (m * b) : ℚ) < 2 * a + b := by linarith
    have h' : (2 * a : ℚ) < 2 * (m * b) + b := by linarith
    exact ⟨by exact_mod_cast h, by exact_mod_cast h'⟩

theorem scaled_pos (num : Nat) (hden : 0 < den) (q : Int) : 0 < (scaled num den q).2 := by
  unfold scaled
  split
  · exact Nat.mul_pos hden (Nat.pow_pos (by omega))
  · exact hden

theorem scaled_div (num : Nat) (hden : 0 < den) (q : Int) :
    ((scaled num den q).1 : ℚ) / (scaled num den q).2 = num / den / 2 ^ q := by
  have hden' : (den : ℚ) ≠ 0 := Nat.cast_ne_zero.mpr (by omega)
  unfold scaled
  split
  · rename_i hq
    obtain ⟨n, rfl⟩ := Int.eq_ofNat_of_zero_le hq
    simp only [Int.toNat_natCast, Nat.pow_eq, Nat.cast_mul, Nat.cast_pow, Nat.cast_ofNat, zpow_natCast]
    rw [div_div]
  · rename_i hq
    obtain ⟨n, hn⟩ := Int.eq_ofNat_of_zero_le (show 0 ≤ -q by omega)
    obtain rfl : q = -n := by omega
    simp only [neg_neg, Int.toNat_natCast, Nat.pow_eq, Nat.cast_mul, Nat.cast_pow, Nat.cast_ofNat,
      zpow_neg, zpow_natCast]
    field_simp

/-- The logarithms of numerator and denominator tell the quotient up to a factor of four. -/
theorem log2_bounds (hnum : 0 < num) (hden : 0 < den) :
    (2 : ℚ) ^ ((num.log2 : Int) - den.log2 - 1) < num / den ∧
      (num : ℚ) / den < 2 ^ ((num.log2 : Int) - den.log2 + 1) := by
  have hden' : (0 : ℚ) < den := Nat.cast_pos.mpr hden
  have hn : (2 : ℚ) ^ num.log2 ≤ num := by exact_mod_cast Nat.log2_self_le (by omega)
  have hn' : (num : ℚ) < 2 ^ (num.log2 + 1) := by exact_mod_cast Nat.lt_log2_self
  have hd : (2 : ℚ) ^ den.log2 ≤ den := by exact_mod_cast Nat.log2_self_le (by omega)
  have hd' : (den : ℚ) < 2 ^ (den.log2 + 1) := by exact_mod_cast Nat.lt_log2_self
  have hsplit : ∀ i j : Nat, (2 : ℚ) ^ ((i : Int) - j) = 2 ^ i / 2 ^ j := by
    intro i j
    rw [zpow_sub₀ (by norm_num), zpow_natCast, zpow_natCast]
  constructor
  · have heq : (num.log2 : Int) - den.log2 - 1 = (num.log2 : Int) - (den.log2 + 1 : Nat) := by omega
    rw [heq, hsplit, lt_div_iff₀ hden', div_mul_eq_mul_div, div_lt_iff₀ (by positivity)]
    calc (2 : ℚ) ^ num.log2 * den < 2 ^ num.log2 * 2 ^ (den.log2 + 1) := by gcongr
      _ ≤ num * 2 ^ (den.log2 + 1) := by gcongr
  · have heq : (num.log2 : Int) - den.log2 + 1 = (num.log2 + 1 : Nat) - den.log2 := by omega
    rw [heq, hsplit, div_lt_iff₀ hden', div_mul_eq_mul_div, lt_div_iff₀ (by positivity)]
    calc (num : ℚ) * 2 ^ den.log2 < 2 ^ (num.log2 + 1) * 2 ^ den.log2 := by gcongr
      _ ≤ 2 ^ (num.log2 + 1) * den := by gcongr

/-- The exponent of a quotient leaves 53 bits before the point, unless it is the least one. -/
theorem exponentOf_eq (hnum : 0 < num) (hden : 0 < den) :
    ∃ e : Int, exponentOf num den = max e (-1074) ∧
      (2 : ℚ) ^ 52 * 2 ^ e ≤ num / den ∧ (num : ℚ) / den < 2 ^ 53 * 2 ^ e := by
  obtain ⟨hlow, hhigh⟩ := log2_bounds hnum hden
  have hdiv := scaled_div num hden ((num.log2 : Int) - den.log2 - 53)
  have hpos := scaled_pos num hden ((num.log2 : Int) - den.log2 - 53)
  unfold exponentOf
  generalize hl : (num.log2 : Int) - den.log2 - 53 = low at *
  have hfirst : (2 : ℚ) ^ ((num.log2 : Int) - den.log2 - 1) = 2 ^ 52 * 2 ^ low := by
    rw [show (num.log2 : Int) - den.log2 - 1 = 52 + low by omega, zpow_add₀ (by norm_num)]
    rfl
  have hsecond : (2 : ℚ) ^ ((num.log2 : Int) - den.log2 + 1) = 2 ^ 54 * 2 ^ low := by
    rw [show (num.log2 : Int) - den.log2 + 1 = 54 + low by omega, zpow_add₀ (by norm_num)]
    rfl
  rw [hfirst] at hlow
  rw [hsecond] at hhigh
  simp only [Nat.pow_eq]
  generalize (scaled num den low).1 = a at *
  generalize (scaled num den low).2 = b at *
  have hb : (0 : ℚ) < b := Nat.cast_pos.mpr hpos
  have hfloor : a / b < 2 ^ 53 ↔ (num : ℚ) / den < 2 ^ 53 * 2 ^ low := by
    rw [← div_lt_iff₀ (two_zpow_pos low), ← hdiv, div_lt_iff₀ hb, Nat.div_lt_iff_lt_mul hpos]
    exact_mod_cast Iff.rfl
  by_cases hlt : a / b < 2 ^ 53
  · exact ⟨low, by rw [if_pos hlt], hlow.le, hfloor.mp hlt⟩
  · refine ⟨low + 1, by rw [if_neg hlt], ?_, ?_⟩ <;> rw [zpow_add_one₀ (by norm_num)]
    · have hge := not_lt.mp (mt hfloor.mpr hlt)
      linarith
    · linarith

/-- How far below `m * 2 ^ q` the half-way point to the number before it is, in units of `2 ^ q`:
numbers lie twice as close below a power of two. -/
def below (m : Nat) (q : Int) : ℚ := if m = 2 ^ 52 ∧ -1074 < q then 1 / 4 else 1 / 2

theorem below_le (m : Nat) (q : Int) : below m q ≤ 1 / 2 := by
  unfold below
  split <;> norm_num

/-- `x` is nearest to `m * 2 ^ q`; half-way to a neighbour counts if `m` is even. -/
structure Rounds (m : Nat) (q : Int) (x : ℚ) : Prop where
  low : (m - below m q) * 2 ^ q ≤ x
  high : x ≤ (m + 1 / 2) * 2 ^ q
  odd : m % 2 = 1 → (m - below m q) * 2 ^ q < x ∧ x < (m + 1 / 2) * 2 ^ q

namespace Rounds

variable (h : Rounds m q x)
include h

/-- In units of `2 ^ q`. -/
theorem roundEven_eq (hb : 0 < b) (hx : (a : ℚ) / b = x / 2 ^ q) : roundEven a b = m := by
  have hq := two_zpow_pos q
  have hbelow := below_le m q
  apply Binary64.roundEven_eq hb <;> rw [hx]
  · rw [le_div_iff₀ hq]
    exact le_trans (by gcongr) h.low
  · rw [div_le_iff₀ hq]
    exact h.high
  · intro hm
    obtain ⟨hl, hh⟩ := h.odd hm
    rw [lt_div_iff₀ hq, div_lt_iff₀ hq]
    exact ⟨lt_of_le_of_lt (by gcongr) hl, hh⟩

theorem exponent_le (hm : Legal m q) (he : 2 ^ 52 * 2 ^ e ≤ x) : e ≤ q := by
  have hsmall : (m : ℚ) + 1 / 2 < 2 ^ 53 := by
    have : (m : ℚ) + 1 ≤ 2 ^ 53 := by exact_mod_cast hm.small
    linarith
  have hlt : (2 : ℚ) ^ 52 * 2 ^ e < 2 ^ 53 * 2 ^ q :=
    lt_of_le_of_lt (he.trans h.high) (by gcongr)
  have hpow : (2 : ℚ) ^ e < 2 ^ (q + 1) := by
    rw [zpow_add_one₀ (by norm_num)]
    linarith
  have := (zpow_lt_zpow_iff_right₀ (by norm_num)).mp hpow
  omega

/-- The quotient may seem to belong below the power of two that is nearest to it. -/
theorem exponent_ge (hm : Legal m q) (he : x < 2 ^ 53 * 2 ^ e) :
    q ≤ max e (-1074) ∨ m = 2 ^ 52 ∧ e = q - 1 ∧ -1074 ≤ e ∧ (2 ^ 53 - 1 / 2) * 2 ^ e ≤ x := by
  have hq := two_zpow_pos q
  have hlow := h.low
  by_cases hleast : q = -1074
  · exact .inl (hleast ▸ le_max_right e (-1074))
  have hgreater : -1074 < q := lt_of_le_of_ne hm.least (Ne.symm hleast)
  have hfull : 2 ^ 52 ≤ m := not_lt.mp (mt hm.full hleast)
  rcases hfull.eq_or_lt with rfl | hlt
  · rw [below, if_pos ⟨rfl, hgreater⟩] at hlow
    push_cast at hlow
    have hpow : (2 : ℚ) ^ q < 2 ^ (e + 2) := by
      rw [zpow_add₀ (by norm_num)]
      norm_num at hlow ⊢
      linarith
    have hnear := (zpow_lt_zpow_iff_right₀ (by norm_num)).mp hpow
    by_cases hle : q ≤ e
    · exact .inl (le_max_of_le_left hle)
    · refine .inr ⟨rfl, by omega, by omega, ?_⟩
      obtain rfl : q = e + 1 := by omega
      rw [zpow_add_one₀ (by norm_num)] at hlow
      linarith
  · rw [below, if_neg fun heq => absurd heq.1 hlt.ne'] at hlow
    have hbig : (2 : ℚ) ^ 52 + 1 ≤ m := by exact_mod_cast hlt
    have hpow : (2 : ℚ) ^ q < 2 ^ (e + 1) := by
      rw [zpow_add_one₀ (by norm_num)]
      have hmul : (2 : ℚ) ^ 52 * 2 ^ q ≤ (m - 1 / 2) * 2 ^ q := by
        gcongr
        linarith
      linarith
    have hnear := (zpow_lt_zpow_iff_right₀ (by norm_num)).mp hpow
    exact .inl (le_max_of_le_left (by omega))

theorem pos (hpos : 0 < m) : 0 < x := by
  have hone : (1 : ℚ) ≤ m := by exact_mod_cast hpos
  have hbelow := below_le m q
  refine lt_of_lt_of_le (mul_pos ?_ (two_zpow_pos q)) h.low
  linarith

end Rounds

/-- A quotient that is nearest to a number of 53 bits is rounded to it. -/
theorem nearest_eq (negative : Bool) (hden : 0 < den) (hm : Legal m q) (hpos : 0 < m)
    (h : Rounds m q ((num : ℚ) / den)) : nearest negative num den = .finite negative m q := by
  have hnum : 0 < num := by
    rcases Nat.eq_zero_or_pos num with rfl | hnum
    · have := h.pos hpos
      rw [Nat.cast_zero, zero_div] at this
      exact absurd this (lt_irrefl 0)
    · exact hnum
  obtain ⟨e, hexp, hlow, hhigh⟩ := exponentOf_eq hnum hden
  have hle := h.exponent_le hm hlow
  have hdiv := scaled_div num hden (exponentOf num den)
  have hb := scaled_pos num hden (exponentOf num den)
  have hgreatest := hm.greatest
  have hleast := hm.least
  rw [nearest, if_neg hnum.ne']
  simp only [Nat.pow_eq]
  rcases h.exponent_ge hm hhigh with hge | ⟨rfl, rfl, hne, hfoot⟩
  · have hq : exponentOf num den = q := by omega
    rw [hq] at hb hdiv ⊢
    rw [h.roundEven_eq hb hdiv, if_neg hm.small.ne]
    exact if_neg (by omega)
  · -- rounding carries into a bit more, as half a unit below the power of two counts for it
    have hq : exponentOf num den = q - 1 := by omega
    rw [hq] at hb hdiv ⊢
    have hpow := two_zpow_pos (q - 1)
    have hround : roundEven (scaled num den (q - 1)).1 (scaled num den (q - 1)).2 = 2 ^ 53 := by
      apply roundEven_eq hb <;> rw [hdiv]
      · rw [le_div_iff₀ hpow]
        exact_mod_cast hfoot
      · rw [div_le_iff₀ hpow]
        push_cast
        linarith
      · intro hodd
        exact absurd hodd (by norm_num)
    rw [hround, if_pos rfl]
    rw [if_neg (by omega), sub_add_cancel]

end Binary64

end PhasedGrid.Decimal
